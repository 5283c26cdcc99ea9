import ScalarFusion.Proofs.Doubles
import ScalarFusion.Real.Decimal

/-!
The decimal that is chosen for a double determines it: it lies in the interval of reals that round
to the double, and the intervals of two doubles have no real in common.
-/
namespace ScalarFusion.Real

def Decimal.value (d : Decimal) : ℚ :=
  d.digits * 10 ^ d.scale

def Span.Contains (s : Span) (v : ℚ) : Prop :=
  if s.closed then s.low * 2 ^ s.exponent ≤ v ∧ v ≤ s.high * 2 ^ s.exponent
  else s.low * 2 ^ s.exponent < v ∧ v < s.high * 2 ^ s.exponent

theorem zpow_toNat {b : ℚ} (nonzero : b ≠ 0) (a : Int) :
    b ^ a.toNat = b ^ a * b ^ (-a).toNat := by
  rw [← zpow_natCast, ← zpow_natCast, ← zpow_add₀ nonzero]
  congr 1
  omega

theorem scaled_spec (n : Nat) (a b : Int) : 0 < (scaled n a (-b)).2 ∧
    ((scaled n a (-b)).1 : ℚ) = n * 2 ^ a / 10 ^ b * (scaled n a (-b)).2 := by
  constructor
  · exact Nat.mul_pos (Nat.two_pow_pos _) (Nat.pow_pos (by decide))
  · have two := zpow_toNat (two_ne_zero (α := ℚ)) a
    have ten := zpow_toNat (show (10 : ℚ) ≠ 0 by norm_num) (-b)
    simp only [scaled, pow2_eq, Nat.pow_eq, Nat.cast_mul, Nat.cast_pow, Nat.cast_ofNat, two, ten,
      zpow_neg]
    ring

theorem scaled_le_iff (n k : Nat) (a b : Int) :
    (scaled n a (-b)).1 ≤ k * (scaled n a (-b)).2 ↔ (n : ℚ) * 2 ^ a ≤ k * 10 ^ b := by
  obtain ⟨positive, ratio⟩ := scaled_spec n a b
  have den : (0 : ℚ) < (scaled n a (-b)).2 := by exact_mod_cast positive
  rw [← Nat.cast_le (α := ℚ), ratio, Nat.cast_mul, mul_le_mul_iff_left₀ den,
    div_le_iff₀ (by positivity)]

theorem le_scaled_iff (n k : Nat) (a b : Int) :
    k * (scaled n a (-b)).2 ≤ (scaled n a (-b)).1 ↔ (k : ℚ) * 10 ^ b ≤ n * 2 ^ a := by
  obtain ⟨positive, ratio⟩ := scaled_spec n a b
  have den : (0 : ℚ) < (scaled n a (-b)).2 := by exact_mod_cast positive
  rw [← Nat.cast_le (α := ℚ), ratio, Nat.cast_mul, mul_le_mul_iff_left₀ den,
    le_div_iff₀ (by positivity)]

theorem Span.holds_iff (s : Span) (d : Decimal) : s.holds d = true ↔ s.Contains d.value := by
  have low := scaled_le_iff s.low d.digits s.exponent d.scale
  have high := le_scaled_iff s.high d.digits s.exponent d.scale
  have low' := le_scaled_iff s.low d.digits s.exponent d.scale
  have high' := scaled_le_iff s.high d.digits s.exponent d.scale
  unfold holds Contains Decimal.value
  cases s.closed with
  | true =>
    simp only [if_true, Bool.and_eq_true, decide_eq_true_eq]
    exact and_congr low high
  | false =>
    simp only [Bool.false_eq_true, if_false, Bool.and_eq_true, decide_eq_true_eq, ← not_le]
    exact and_congr (not_congr low') (not_congr high')

namespace Span

theorem Contains.bounds {s : Span} {v : ℚ} (inside : s.Contains v) :
    s.low * 2 ^ s.exponent ≤ v ∧ v ≤ s.high * 2 ^ s.exponent := by
  unfold Contains at inside
  split at inside
  · exact inside
  · exact ⟨inside.1.le, inside.2.le⟩

theorem Contains.strict {s : Span} {v : ℚ} (inside : s.Contains v) (opened : s.closed = false) :
    s.low * 2 ^ s.exponent < v ∧ v < s.high * 2 ^ s.exponent := by
  unfold Contains at inside
  simpa [opened] using inside

theorem contains_of_lt {s : Span} {v : ℚ} (above : s.low * 2 ^ s.exponent < v)
    (below : v < s.high * 2 ^ s.exponent) : s.Contains v := by
  unfold Contains
  split
  · exact ⟨above.le, below.le⟩
  · exact ⟨above, below⟩

/-- Two doubles with one exponent. Neighbours share an end, which belongs to the even one. -/
theorem apart_of_lt {m m' : Nat} (less : m < m') {q : Int} {v : ℚ}
    (inside : (Span.of m q).Contains v) (inside' : (Span.of m' q).Contains v) : False := by
  have unit : (0 : ℚ) < 2 ^ (q - 2) := by positivity
  have low : 4 * m' - 2 ≤ (Span.of m' q).low := by
    simp only [Span.of]
    split <;> omega
  have ends : ((4 * m + 2 : Nat) : ℚ) * 2 ^ (q - 2) ≤ (Span.of m' q).low * 2 ^ (q - 2) := by
    gcongr
    omega
  by_cases opened : (Span.of m q).closed = false
  · exact absurd ends (not_le.mpr (inside'.bounds.1.trans_lt (inside.strict opened).2))
  by_cases opened' : (Span.of m' q).closed = false
  · exact absurd ends (not_le.mpr ((inside'.strict opened').1.trans_le inside.bounds.2))
  · have even : m % 2 = 0 ∧ m' % 2 = 0 := by simpa [Span.of] using And.intro opened opened'
    have ends' : ((4 * m + 2 : Nat) : ℚ) * 2 ^ (q - 2) < (Span.of m' q).low * 2 ^ (q - 2) := by
      gcongr
      omega
    exact absurd ends' (not_lt.mpr (inside'.bounds.1.trans inside.bounds.2))

theorem apart_of_exponent_lt {m m' : Nat} {q q' : Int} (canonical : Canonical m q)
    (canonical' : Canonical m' q') (less : q < q') {v : ℚ} (inside : (Span.of m q).Contains v)
    (inside' : (Span.of m' q').Contains v) : False := by
  obtain ⟨small, least, -⟩ := canonical
  obtain ⟨-, -, full⟩ := canonical'
  have unit : (0 : ℚ) < 2 ^ (q - 2) := by positivity
  have twice : (2 : ℚ) * 2 ^ (q - 2) ≤ 2 ^ (q' - 2) := by
    rw [← zpow_one_add₀ two_ne_zero]
    exact zpow_le_zpow_right₀ (by norm_num) (by omega)
  have low : 2 ^ 54 - 1 ≤ (Span.of m' q').low := by
    simp only [Span.of]
    split
    · next power =>
      rw [power.1, pow2_eq]
      omega
    · next ordinary =>
      rw [pow2_eq] at ordinary
      omega
  have ends : ((2 ^ 55 - 2 : Nat) : ℚ) * 2 ^ (q - 2) ≤ (Span.of m' q').low * 2 ^ (q' - 2) := by
    calc ((2 ^ 55 - 2 : Nat) : ℚ) * 2 ^ (q - 2)
        = ((2 ^ 54 - 1 : Nat) : ℚ) * (2 * 2 ^ (q - 2)) := by
          push_cast
          ring
      _ ≤ (Span.of m' q').low * 2 ^ (q' - 2) := by gcongr
  have below := ends.trans (inside'.bounds.1.trans inside.bounds.2)
  by_cases opened : (Span.of m q).closed = false
  · have high : ((4 * m + 2 : Nat) : ℚ) * 2 ^ (q - 2) ≤ ((2 ^ 55 - 2 : Nat) : ℚ) * 2 ^ (q - 2) := by
      gcongr
      omega
    exact absurd (high.trans (ends.trans inside'.bounds.1)) (not_le.mpr (inside.strict opened).2)
  · have even : m % 2 = 0 := by simpa [Span.of] using opened
    have high : ((4 * m + 2 : Nat) : ℚ) * 2 ^ (q - 2) < ((2 ^ 55 - 2 : Nat) : ℚ) * 2 ^ (q - 2) := by
      gcongr
      omega
    exact absurd high (not_lt.mpr below)

theorem unique {m m' : Nat} {q q' : Int} (canonical : Canonical m q)
    (canonical' : Canonical m' q') {v : ℚ} (inside : (Span.of m q).Contains v)
    (inside' : (Span.of m' q').Contains v) : m = m' ∧ q = q' := by
  rcases lt_trichotomy q q' with less | rfl | greater
  · exact (apart_of_exponent_lt canonical canonical' less inside inside').elim
  · rcases lt_trichotomy m m' with less | rfl | greater
    · exact (apart_of_lt less inside inside').elim
    · exact ⟨rfl, rfl⟩
    · exact (apart_of_lt greater inside' inside).elim
  · exact (apart_of_exponent_lt canonical' canonical greater inside' inside).elim

end Span

namespace Span

theorem holds_of_onGrid? {s : Span} {scale : Int} {d : Decimal} (hit : s.onGrid? scale = some d) :
    s.holds d = true := by
  simp only [onGrid?] at hit
  split at hit
  · next below above =>
    obtain rfl := Option.some.inj hit
    split <;> assumption
  · next below _ =>
    obtain rfl := Option.some.inj hit
    exact below
  · next _ above =>
    obtain rfl := Option.some.inj hit
    exact above
  · cases hit

theorem exists_neighbours (s : Span) (scale : Int) : ∃ k : Nat,
    (k : ℚ) * 10 ^ scale ≤ s.value * 2 ^ s.exponent ∧
    s.value * 2 ^ s.exponent < ((k + 1 : Nat) : ℚ) * 10 ^ scale ∧
    (s.Contains (k * 10 ^ scale) ∨ s.Contains ((k + 1 : Nat) * 10 ^ scale) →
      ∃ d, s.onGrid? scale = some d) := by
  have positive := (scaled_spec s.value s.exponent scale).1
  refine ⟨(scaled s.value s.exponent (-scale)).1 / (scaled s.value s.exponent (-scale)).2,
    ?_, ?_, ?_⟩
  · exact (le_scaled_iff _ _ _ _).mp (Nat.div_mul_le_self _ _)
  · rw [← not_le, ← le_scaled_iff, not_le, Nat.mul_comm]
    exact Nat.lt_mul_div_succ _ positive
  · intro inside
    have hit := inside.imp (s.holds_iff ⟨_, scale⟩).mpr (s.holds_iff ⟨_, scale⟩).mpr
    simp only [onGrid?]
    split
    · exact ⟨_, rfl⟩
    · exact ⟨_, rfl⟩
    · exact ⟨_, rfl⟩
    · next missed missed' => simp [missed, missed'] at hit

theorem search_holds {s : Span} {n : Nat} {scale : Int}
    (hit : ∃ k < n, ∃ d, s.onGrid? (scale - k) = some d) : s.holds (s.search scale n) = true := by
  induction n generalizing scale with
  | zero =>
    obtain ⟨k, less, -⟩ := hit
    exact absurd less (Nat.not_lt_zero k)
  | succ n ih =>
    rw [search]
    split
    · next d here => exact holds_of_onGrid? here
    · next missed =>
      obtain ⟨k, less, d, here⟩ := hit
      cases k with
      | zero => simp [missed] at here
      | succ k =>
        refine ih ⟨k, by omega, d, ?_⟩
        rw [← here]
        congr 1
        push_cast
        ring

theorem contains_of_near {m : Nat} (positive : 0 < m) {q : Int} {gap : Nat}
    (gap_eq : gap = if m = pow2 52 ∧ -1074 < q then 1 else 2) {v : ℚ}
    (above : 4 * m * 2 ^ (q - 2) - gap * 2 ^ (q - 2) < v)
    (below : v < 4 * m * 2 ^ (q - 2) + 2 * 2 ^ (q - 2)) : (Span.of m q).Contains v := by
  have low : (Span.of m q).low = 4 * m - gap := by
    simp only [Span.of, gap_eq]
    split <;> rfl
  have fits : gap ≤ 4 * m := by
    rw [gap_eq]
    split <;> omega
  apply contains_of_lt
  · rw [low, Nat.cast_sub fits, sub_mul]
    push_cast
    exact above
  · show v < ((4 * m + 2 : Nat) : ℚ) * 2 ^ (q - 2)
    push_cast
    linarith

/-- A grid that has 17 digits for the value is finer than the interval is wide. -/
theorem exists_onGrid?_of_fine {m : Nat} {q : Int} (canonical : Canonical m q) (positive : 0 < m)
    {scale : Int} (fine : (10 : ℚ) ^ scale * 10 ^ 16 ≤ m * 2 ^ q) :
    ∃ d, (Span.of m q).onGrid? scale = some d := by
  obtain ⟨k, below, above, hit⟩ := (Span.of m q).exists_neighbours scale
  apply hit
  have unit : (0 : ℚ) < 2 ^ (q - 2) := by positivity
  have grid : (0 : ℚ) < 10 ^ scale := by positivity
  have value : (m : ℚ) * 2 ^ q = 4 * m * 2 ^ (q - 2) := by
    rw [zpow_sub₀ two_ne_zero]
    ring
  have next : ((k + 1 : Nat) : ℚ) * 10 ^ scale = k * 10 ^ scale + 10 ^ scale := by
    push_cast
    ring
  simp only [Span.of, Nat.cast_mul, Nat.cast_ofNat] at below above
  rw [value] at fine
  rw [next] at above ⊢
  by_cases power : m = pow2 52 ∧ -1074 < q
  · have spacing : (10 : ℚ) ^ scale < 2 * 2 ^ (q - 2) := by
      have full : (m : ℚ) = 2 ^ 52 := by exact_mod_cast power.1
      rw [full] at fine
      linarith
    exact .inr (contains_of_near positive (if_pos power).symm (by push_cast; linarith) (by linarith))
  · have spacing : (10 : ℚ) ^ scale < 4 * 2 ^ (q - 2) := by
      have small : (m : ℚ) * 2 ^ (q - 2) ≤ 2 ^ 53 * 2 ^ (q - 2) := by
        gcongr
        exact_mod_cast canonical.1.le
      linarith
    by_cases near : 4 * m * 2 ^ (q - 2) - 2 * 2 ^ (q - 2) < (k : ℚ) * 10 ^ scale
    · exact .inl (contains_of_near positive (if_neg power).symm near (by linarith))
    · exact .inr (contains_of_near positive (if_neg power).symm (by push_cast; linarith) (by linarith))

end Span

theorem ten_zpow_sub_le {a b : Nat} (less : 10 ^ a ≤ 2 ^ b) (more : 2 ^ b ≤ 10 ^ (a + 1)) {k : Int}
    (range : -b ≤ k) : (10 : ℚ) ^ (k * a - b) ≤ 2 ^ (k * b) := by
  have less' : (10 : ℚ) ^ a ≤ 2 ^ b := by exact_mod_cast less
  have more' : (2 : ℚ) ^ b ≤ 10 ^ (a + 1) := by exact_mod_cast more
  rcases Int.le_total 0 k with above | below
  · obtain ⟨j, rfl⟩ := Int.eq_ofNat_of_zero_le above
    calc (10 : ℚ) ^ ((j : Int) * a - b) ≤ 10 ^ ((a * j : Nat) : Int) :=
          zpow_le_zpow_right₀ (by norm_num) (by push_cast; linarith)
      _ = (10 ^ a) ^ j := by rw [zpow_natCast, pow_mul]
      _ ≤ (2 ^ b) ^ j := pow_le_pow_left₀ (by positivity) less' j
      _ = 2 ^ ((j : Int) * b) := by
        rw [← pow_mul, ← zpow_natCast, Nat.mul_comm, Nat.cast_mul]
  · -- of a negative exponent at most `b` is lost, one for each power
    obtain ⟨j, rfl⟩ := Int.exists_eq_neg_ofNat below
    have inverse : (2 : ℚ) ^ (b * j) ≤ 10 ^ (a * j + b) := by
      calc (2 : ℚ) ^ (b * j) = (2 ^ b) ^ j := by rw [pow_mul]
        _ ≤ (10 ^ (a + 1)) ^ j := pow_le_pow_left₀ (by positivity) more' j
        _ = 10 ^ (a * j + j) := by rw [← pow_mul, Nat.succ_mul]
        _ ≤ 10 ^ (a * j + b) := pow_le_pow_right₀ (by norm_num) (by omega)
    have left : -(j : Int) * a - b = -((a * j + b : Nat) : Int) := by
      push_cast
      ring
    have right : -(j : Int) * b = -((b * j : Nat) : Int) := by
      push_cast
      ring
    rw [left, right, zpow_neg, zpow_neg, zpow_natCast, zpow_natCast]
    exact inv_anti₀ (by positivity) inverse

theorem ten_zpow_le {a b : Nat} (less : 10 ^ a ≤ 2 ^ b) (more : 2 ^ b ≤ 10 ^ (a + 1))
    (positive : 0 < b) {k : Int} (range : -b ≤ k) : (10 : ℚ) ^ (k * a / b - 1) ≤ 2 ^ k := by
  -- raised to the power `b`, the floor of the quotient is within `b` of its numerator
  rw [← pow_le_pow_iff_left₀ (by positivity) (by positivity) positive.ne']
  calc ((10 : ℚ) ^ (k * a / b - 1)) ^ b = 10 ^ ((k * a / b - 1) * b) := by
        rw [← zpow_natCast, ← zpow_mul]
    _ ≤ 10 ^ (k * a - b) := by
        refine zpow_le_zpow_right₀ (by norm_num) ?_
        rw [Int.sub_mul, Int.one_mul]
        exact Int.sub_le_sub_right (Int.ediv_mul_le _ (by omega)) _
    _ ≤ 2 ^ (k * b) := ten_zpow_sub_le less more range
    _ = ((2 : ℚ) ^ k) ^ b := by rw [← zpow_natCast, ← zpow_mul]

theorem decade_le {m : Nat} {q : Int} (canonical : Canonical m q) (positive : 0 < m) :
    (10 : ℚ) ^ decade m q ≤ m * 2 ^ q := by
  have verified : ∀ e : Int, decide ((scaled m q (-e)).2 ≤ (scaled m q (-e)).1) = true →
      (10 : ℚ) ^ e ≤ m * 2 ^ q := by
    intro e atMost
    rw [decide_eq_true_eq, ← Nat.one_mul (scaled m q (-e)).2, le_scaled_iff] at atMost
    simpa using atMost
  unfold decade
  dsimp only
  split
  · next atMost => exact verified _ atMost
  split
  · next atMost => exact verified _ atMost
  · have length : 1 ≤ bitLength m := by
      simp [bitLength, Nat.pos_iff_ne_zero.mp positive]
    have range : -((4096 : Nat) : Int) ≤ q + bitLength m - 1 := by
      have least := canonical.2.1
      push_cast
      omega
    calc (10 : ℚ) ^ ((q + bitLength m - 1) * 1233 / 4096 - 1) ≤ 2 ^ (q + bitLength m - 1) :=
          ten_zpow_le (by decide +kernel) (by decide +kernel) (by decide) range
      _ = 2 ^ (bitLength m - 1) * 2 ^ q := by
          rw [← zpow_natCast, ← zpow_add₀ two_ne_zero]
          congr 1
          omega
      _ ≤ m * 2 ^ q := by
          gcongr
          exact_mod_cast (bitLength_spec positive).1

/-- What is written for a double lies in its interval: seventeen digits always do. -/
theorem shortest_contained {m : Nat} {q : Int} (canonical : Canonical m q) (positive : 0 < m) :
    (Span.of m q).Contains (shortest m q).value := by
  rw [← Span.holds_iff]
  refine Span.search_holds ⟨16, by decide, Span.exists_onGrid?_of_fine canonical positive ?_⟩
  rw [← zpow_natCast, ← zpow_add₀ (by norm_num)]
  simpa using decade_le canonical positive

theorem Span.Contains.pos {m : Nat} (positive : 0 < m) {q : Int} {v : ℚ}
    (inside : (Span.of m q).Contains v) : 0 < v := by
  have low : 0 < (Span.of m q).low := by
    simp only [Span.of]
    split <;> omega
  refine lt_of_lt_of_le ?_ inside.bounds.1
  have cast : (0 : ℚ) < (Span.of m q).low := by exact_mod_cast low
  positivity

/-- The number is one that reads as `m · 2^q`. -/
def ReadsAs (m : Nat) (q : Int) (v : ℚ) : Prop :=
  if m = 0 then v = 0 else (Span.of m q).Contains v

theorem ReadsAs.unique {m m' : Nat} {q q' : Int} {v : ℚ} (canonical : Canonical m q)
    (canonical' : Canonical m' q') (reads : ReadsAs m q v) (reads' : ReadsAs m' q' v) :
    m = m' ∧ q = q' := by
  unfold ReadsAs at reads reads'
  split at reads <;> split at reads'
  · next zero zero' =>
    obtain ⟨-, -, least⟩ := canonical
    obtain ⟨-, -, least'⟩ := canonical'
    omega
  · next zero positive =>
    rw [reads] at reads'
    exact absurd (reads'.pos (Nat.pos_of_ne_zero positive)) (lt_irrefl 0)
  · next positive zero =>
    rw [reads'] at reads
    exact absurd (reads.pos (Nat.pos_of_ne_zero positive)) (lt_irrefl 0)
  · exact Span.unique canonical canonical' reads reads'

end ScalarFusion.Real
