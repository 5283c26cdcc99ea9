import ScalarFusion.Proofs.Decimals

/-!
The texts of numbers. A text is read in one way only, whatever follows it that is no part of a
number, so the text of a double determines it.
-/
namespace ScalarFusion.Real

theorem append_inj_of_run {p : Char → Bool} {a b r s : List Char} (inside : ∀ c ∈ a, p c = true)
    (inside' : ∀ c ∈ b, p c = true) (stop : ∀ c ∈ r.head?, p c = false)
    (stop' : ∀ c ∈ s.head?, p c = false) (same : a ++ r = b ++ s) : a = b ∧ r = s := by
  induction a generalizing b with
  | nil =>
    cases b with
    | nil => exact ⟨rfl, same⟩
    | cons c b =>
      have here : r = c :: (b ++ s) := same
      simp [here, inside' c (by simp)] at stop
  | cons c a ih =>
    cases b with
    | nil =>
      have here : c :: (a ++ r) = s := same
      simp [← here, inside c (by simp)] at stop'
    | cons d b =>
      obtain ⟨rfl, rest⟩ := List.cons.inj same
      obtain ⟨rfl, tails⟩ := ih (fun e member => inside e (by simp [member]))
        (fun e member => inside' e (by simp [member])) rest
      exact ⟨rfl, tails⟩

theorem isDigit_of_mem_toDigits {n : Nat} : ∀ c ∈ Nat.toDigits 10 n, c.isDigit = true :=
  fun _ member => Nat.isDigit_of_mem_toDigits (by decide) (by decide) member

theorem toDigits_append_inj {m n : Nat} {r s : List Char} (stop : ∀ c ∈ r.head?, c.isDigit = false)
    (stop' : ∀ c ∈ s.head?, c.isDigit = false)
    (same : Nat.toDigits 10 m ++ r = Nat.toDigits 10 n ++ s) : m = n ∧ r = s := by
  obtain ⟨digits, rest⟩ := append_inj_of_run isDigit_of_mem_toDigits isDigit_of_mem_toDigits stop
    stop' same
  refine ⟨?_, rest⟩
  rw [← @Nat.ofDigitChars_ten_toDigits m, digits, Nat.ofDigitChars_ten_toDigits]

theorem toList_toString_int (n : Int) : (toString n).toList =
    if 0 ≤ n then Nat.toDigits 10 n.toNat else '-' :: Nat.toDigits 10 (-n).toNat := by
  rw [Int.toString_eq_repr, Int.repr_eq_if]
  split <;> simp

theorem toDigits_append_ne (n : Nat) (r s : List Char) : Nat.toDigits 10 n ++ r ≠ '-' :: s := by
  intro same
  cases digits : Nat.toDigits 10 n with
  | nil => exact Nat.toDigits_ne_nil digits
  | cons c rest =>
    have digit := @isDigit_of_mem_toDigits n c (by simp [digits])
    rw [digits] at same
    obtain rfl : c = '-' := (List.cons.inj same).1
    exact absurd digit (by decide)

theorem int_append_inj {m n : Int} {r s : List Char} (stop : ∀ c ∈ r.head?, c.isDigit = false)
    (stop' : ∀ c ∈ s.head?, c.isDigit = false)
    (same : (toString m).toList ++ r = (toString n).toList ++ s) : m = n ∧ r = s := by
  rw [toList_toString_int, toList_toString_int] at same
  split at same <;> split at same
  · obtain ⟨naturals, rest⟩ := toDigits_append_inj stop stop' same
    exact ⟨by omega, rest⟩
  · exact (toDigits_append_ne _ _ _ same).elim
  · exact (toDigits_append_ne _ _ _ same.symm).elim
  · obtain ⟨naturals, rest⟩ := toDigits_append_inj stop stop' (List.cons.inj same).2
    exact ⟨by omega, rest⟩

theorem int_eq_neg_of_text {m n : Int} (same : (toString m).toList = '-' :: (toString n).toList) :
    m = -n := by
  rw [toList_toString_int, toList_toString_int, ← List.append_nil (ite _ _ _)] at same
  split at same
  · exact (toDigits_append_ne _ _ _ same).elim
  · have digits := (List.cons.inj same).2
    split at digits
    · obtain ⟨naturals, -⟩ := toDigits_append_inj (s := []) (by simp) (by simp)
        (digits.trans (List.append_nil _).symm)
      omega
    · exact (toDigits_append_ne _ _ _ digits).elim

/-- A number as it is written: digits before and after a point, and an exponent. -/
structure Numeral where
  whole : List Char
  fraction : List Char
  exponent : Option Int
  digits : ∀ c ∈ whole ++ fraction, c.isDigit = true
  marked : fraction ≠ [] ∨ exponent ≠ none

namespace Numeral

def point (n : Numeral) : List Char :=
  if n.fraction.isEmpty then [] else '.' :: n.fraction

def scale (n : Numeral) : List Char :=
  match n.exponent with
  | none => []
  | some e => 'e' :: (toString e).toList

def text (n : Numeral) : List Char :=
  n.whole ++ (n.point ++ n.scale)

def value (n : Numeral) : ℚ :=
  Nat.ofDigitChars 10 (n.whole ++ n.fraction) 0 * 10 ^ (n.exponent.getD 0 - n.fraction.length)

end Numeral

/-- What may follow a number without being read as part of it. -/
def Breaks (r : List Char) : Prop :=
  ∀ c ∈ r.head?, c.isDigit = false ∧ c ≠ '.' ∧ c ≠ 'e'

namespace Numeral

variable {n k : Numeral} {r s : List Char}

theorem scale_append_inj (stop : Breaks r) (stop' : Breaks s)
    (same : n.scale ++ r = k.scale ++ s) : n.exponent = k.exponent ∧ r = s := by
  unfold scale at same
  split at same <;> split at same
  · exact ⟨by simp_all, same⟩
  · have here : r = _ := same
    simp [Breaks, here] at stop
  · have here : _ = s := same
    simp [Breaks, ← here] at stop'
  · next e first _ e' second =>
    obtain ⟨rfl, rest⟩ := int_append_inj (fun c member => (stop c member).1)
      (fun c member => (stop' c member).1) (List.cons.inj same).2
    exact ⟨first.trans second.symm, rest⟩

theorem head_scale_append (stop : Breaks r) :
    ∀ c ∈ (n.scale ++ r).head?, c.isDigit = false ∧ c ≠ '.' := by
  unfold scale
  split
  · exact fun c member => ⟨(stop c member).1, (stop c member).2.1⟩
  · intro c member
    obtain rfl : 'e' = c := by simpa using member
    decide

theorem point_append_inj (stop : Breaks r) (stop' : Breaks s)
    (same : n.point ++ (n.scale ++ r) = k.point ++ (k.scale ++ s)) :
    n.fraction = k.fraction ∧ n.scale ++ r = k.scale ++ s := by
  unfold point at same
  split at same <;> split at same
  · simp_all
  · have here : n.scale ++ r = _ := same
    have head := head_scale_append (n := n) stop
    simp [here] at head
  · have here : _ = k.scale ++ s := same
    have head := head_scale_append (n := k) stop'
    simp [← here] at head
  · exact append_inj_of_run (fun c member => n.digits c (by simp [member]))
      (fun c member => k.digits c (by simp [member]))
      (fun c member => (head_scale_append stop c member).1)
      (fun c member => (head_scale_append stop' c member).1) (List.cons.inj same).2

theorem text_append_inj (stop : Breaks r) (stop' : Breaks s)
    (same : n.text ++ r = k.text ++ s) : n.value = k.value ∧ r = s := by
  have head : ∀ {j : Numeral} {t : List Char}, Breaks t →
      ∀ c ∈ (j.point ++ (j.scale ++ t)).head?, c.isDigit = false := by
    intro j t stop
    unfold point
    split
    · exact fun c member => (head_scale_append stop c member).1
    · intro c member
      obtain rfl : '.' = c := by simpa using member
      decide
  simp only [text, List.append_assoc] at same
  obtain ⟨whole, rest⟩ := append_inj_of_run (fun c member => n.digits c (by simp [member]))
    (fun c member => k.digits c (by simp [member])) (head stop) (head stop') same
  obtain ⟨fraction, rest⟩ := point_append_inj stop stop' rest
  obtain ⟨exponent, rest⟩ := scale_append_inj stop stop' rest
  exact ⟨by rw [value, value, whole, fraction, exponent], rest⟩

end Numeral

theorem exists_significant (n : Nat) :
    ∃ zeros, Nat.toDigits 10 n = significant n ++ List.replicate zeros '0' := by
  have split := List.takeWhile_append_dropWhile
    (p := (· == '0')) (l := (Nat.toDigits 10 n).reverse)
  obtain ⟨zeros, same⟩ : ∃ zeros,
      (Nat.toDigits 10 n).reverse.takeWhile (· == '0') = List.replicate zeros '0' := by
    refine ⟨_, List.eq_replicate_of_mem fun c member => ?_⟩
    simpa using List.mem_takeWhile_imp member
  refine ⟨zeros, ?_⟩
  rw [significant, ← List.reverse_replicate, ← List.reverse_append, ← same, split,
    List.reverse_reverse]

theorem ofDigitChars_append_zeros (ds : List Char) (k : Nat) :
    (Nat.ofDigitChars 10 (ds ++ List.replicate k '0') 0 : ℚ) =
      Nat.ofDigitChars 10 ds 0 * 10 ^ (k : Int) := by
  rw [Nat.ofDigitChars_append, Nat.ofDigitChars_replicate_zero, zpow_natCast]
  push_cast
  ring

theorem isDigit_append_zeros {ds : List Char} (digits : ∀ c ∈ ds, c.isDigit = true) (k : Nat) :
    ∀ c ∈ ds ++ List.replicate k '0', c.isDigit = true := by
  intro c member
  rcases List.mem_append.mp member with old | zero
  · exact digits c old
  · rw [List.eq_of_mem_replicate zero]
    decide

def placed (ds : List Char) (e : Int) : ℚ :=
  Nat.ofDigitChars 10 ds 0 * 10 ^ (e + 1 - ds.length)

namespace Layout

variable {l : Layout} {ds : List Char} {e : Int}

theorem exists_positional (digits : ∀ c ∈ ds, c.isDigit = true)
    (positional : l.least ≤ e ∧ e < l.bound) (above : 0 ≤ e) :
    ∃ n : Numeral, n.text = l.write ds e ∧ n.value = placed ds e := by
  rw [write, if_pos positional, if_pos above]
  obtain ⟨k, rfl⟩ := Int.eq_ofNat_of_zero_le above
  by_cases long : k + 1 < ds.length
  · have rest : ds.drop (k + 1) ≠ [] := by simpa using long
    refine ⟨⟨ds.take (k + 1), ds.drop (k + 1), none, ?_, .inl rest⟩, ?_, ?_⟩
    · rw [List.take_append_drop]
      exact digits
    · simp [Numeral.text, Numeral.point, Numeral.scale, rest, long.le]
    · simp only [Numeral.value, placed, List.take_append_drop, List.length_drop, Option.getD_none]
      congr 2
      omega
  · have short : ds.length ≤ k + 1 := Nat.not_lt.mp long
    have zeros : ds ++ List.replicate (k + 1 - ds.length) '0' ++ ['0'] =
        ds ++ List.replicate (k + 1 - ds.length + 1) '0' := by
      rw [List.append_assoc, ← List.replicate_succ']
    refine ⟨⟨ds ++ List.replicate (k + 1 - ds.length) '0', ['0'], none, ?_, .inl (by simp)⟩,
      ?_, ?_⟩
    · rw [zeros]
      exact isDigit_append_zeros digits _
    · simp [Numeral.text, Numeral.point, Numeral.scale, short]
    · simp only [Numeral.value, placed, zeros, ofDigitChars_append_zeros, mul_assoc,
        ← zpow_add₀ (show (10 : ℚ) ≠ 0 by norm_num), Option.getD_none, List.length_singleton]
      congr 2
      omega

theorem exists_small (digits : ∀ c ∈ ds, c.isDigit = true) (nonempty : ds ≠ [])
    (positional : l.least ≤ e ∧ e < l.bound) (below : ¬ 0 ≤ e) :
    ∃ n : Numeral, n.text = l.write ds e ∧ n.value = placed ds e := by
  rw [write, if_pos positional, if_neg below]
  refine ⟨⟨['0'], List.replicate ((-e).toNat - 1) '0' ++ ds, none, ?_, .inl (by simp [nonempty])⟩,
    ?_, ?_⟩
  · intro c member
    simp only [List.mem_append, List.mem_singleton, List.mem_replicate] at member
    rcases member with rfl | ⟨-, rfl⟩ | old
    · decide
    · decide
    · exact digits c old
  · simp [Numeral.text, Numeral.point, Numeral.scale, nonempty]
  · have leading : Nat.ofDigitChars 10 (['0'] ++ (List.replicate ((-e).toNat - 1) '0' ++ ds)) 0 =
        Nat.ofDigitChars 10 ds 0 := by
      rw [Nat.ofDigitChars_append, Nat.ofDigitChars_append, Nat.ofDigitChars_replicate_zero]
      rfl
    simp only [Numeral.value, placed, leading, List.length_append, List.length_replicate,
      Option.getD_none]
    congr 2
    omega

theorem exists_exponential (digits : ∀ c ∈ ds, c.isDigit = true) (nonempty : ds ≠ [])
    (exponential : ¬ (l.least ≤ e ∧ e < l.bound)) :
    ∃ n : Numeral, n.text = l.write ds e ∧ n.value = placed ds e := by
  rw [write, if_neg exponential]
  refine ⟨⟨ds.take 1, ds.drop 1, some e, ?_, .inr (by simp)⟩, ?_, ?_⟩
  · rw [List.take_append_drop]
    exact digits
  · simp [Numeral.text, Numeral.point, Numeral.scale]
  · have positive := List.length_pos_iff.mpr nonempty
    simp only [Numeral.value, placed, List.take_append_drop, List.length_drop, Option.getD_some]
    congr 2
    omega

theorem exists_numeral (l : Layout) (digits : ∀ c ∈ ds, c.isDigit = true) (nonempty : ds ≠ [])
    (e : Int) : ∃ n : Numeral, n.text = l.write ds e ∧ n.value = placed ds e := by
  by_cases positional : l.least ≤ e ∧ e < l.bound
  · by_cases above : 0 ≤ e
    · exact exists_positional digits positional above
    · exact exists_small digits nonempty positional above
  · exact exists_exponential digits nonempty positional

end Layout

theorem placed_significant (d : Decimal) :
    placed (significant d.digits) (d.scale + (Nat.toDigits 10 d.digits).length - 1) = d.value := by
  obtain ⟨zeros, all⟩ := exists_significant d.digits
  have number : (d.digits : ℚ) = Nat.ofDigitChars 10 (significant d.digits) 0 * 10 ^ (zeros : Int) := by
    rw [← ofDigitChars_append_zeros, ← all, Nat.ofDigitChars_ten_toDigits]
  rw [placed, Decimal.value, number, mul_assoc, ← zpow_add₀ (by norm_num), all, List.length_append,
    List.length_replicate]
  congr 2
  push_cast
  ring

namespace Layout

variable {l : Layout} {m m' : Nat} {q q' : Int} {r s : List Char}

theorem exists_magnitude (l : Layout) (canonical : Canonical m q) :
    ∃ n : Numeral, n.text = l.magnitude m q ∧ ReadsAs m q n.value := by
  unfold magnitude ReadsAs
  split
  · have digits : ∀ c ∈ ['0'] ++ ['0'], c.isDigit = true :=
      @isDigit_append_zeros [] (by simp) 2
    exact ⟨⟨['0'], ['0'], none, digits, .inl (by simp)⟩, rfl, by
      simp [Numeral.value, Nat.ofDigitChars]⟩
  · next nonzero =>
    have positive := Nat.pos_of_ne_zero nonzero
    have inside := shortest_contained canonical positive
    obtain ⟨zeros, all⟩ := exists_significant (shortest m q).digits
    have digits : ∀ c ∈ significant (shortest m q).digits, c.isDigit = true := fun c member =>
      isDigit_of_mem_toDigits (n := (shortest m q).digits) c (by rw [all]; simp [member])
    have nonempty : significant (shortest m q).digits ≠ [] := by
      intro empty
      have zero := placed_significant (shortest m q)
      simp only [placed, empty, Nat.ofDigitChars_nil, Nat.cast_zero, zero_mul] at zero
      exact absurd (inside.pos positive) (by simp [← zero])
    obtain ⟨n, text, value⟩ := l.exists_numeral digits nonempty
      ((shortest m q).scale + (Nat.toDigits 10 (shortest m q).digits).length - 1)
    refine ⟨n, text, ?_⟩
    rw [value, placed_significant]
    exact inside

theorem magnitude_append_inj (canonical : Canonical m q) (canonical' : Canonical m' q')
    (stop : Breaks r) (stop' : Breaks s) (same : l.magnitude m q ++ r = l.magnitude m' q' ++ s) :
    (m = m' ∧ q = q') ∧ r = s := by
  obtain ⟨n, text, reads⟩ := l.exists_magnitude canonical
  obtain ⟨n', text', reads'⟩ := l.exists_magnitude canonical'
  rw [← text, ← text'] at same
  obtain ⟨value, rest⟩ := Numeral.text_append_inj stop stop' same
  exact ⟨ReadsAs.unique canonical canonical' reads (value ▸ reads'), rest⟩

theorem head_magnitude (l : Layout) (canonical : Canonical m q) :
    ∃ c t, l.magnitude m q = c :: t ∧ (c.isDigit = true ∨ c = '.' ∨ c = 'e') := by
  obtain ⟨n, text, -⟩ := l.exists_magnitude canonical
  rw [← text, Numeral.text]
  cases whole : n.whole with
  | cons c t => exact ⟨c, _, rfl, .inl (n.digits c (by simp [whole]))⟩
  | nil =>
    cases fraction : n.fraction with
    | cons c t =>
      exact ⟨'.', c :: t ++ n.scale, by simp [Numeral.point, fraction], .inr (.inl rfl)⟩
    | nil =>
      cases exponent : n.exponent with
      | none => exact absurd n.marked (by simp [fraction, exponent])
      | some e =>
        exact ⟨'e', (toString e).toList, by
          simp [Numeral.point, Numeral.scale, fraction, exponent], .inr (.inr rfl)⟩

end Layout

namespace Reading

def signText : Reading → List Char
  | infinite true => ['-']
  | finite true _ _ => ['-']
  | _ => []

def bodyText : Reading → List Char
  | nan => ['N', 'a', 'N']
  | infinite _ => ['i', 'n', 'f']
  | finite _ m q => Layout.literal.magnitude m q

def IsCanonical : Reading → Prop
  | finite _ m q => Canonical m q
  | _ => True

variable {a b : Reading} {r s : List Char}

theorem bodyText_ne_nil (canonical : a.IsCanonical) : ∃ c t, a.bodyText = c :: t ∧ c ≠ '-' := by
  cases a with
  | nan => exact ⟨'N', _, rfl, by decide⟩
  | infinite negative => exact ⟨'i', _, rfl, by decide⟩
  | finite negative m q =>
    obtain ⟨c, t, text, number⟩ := Layout.literal.head_magnitude canonical
    refine ⟨c, t, text, ?_⟩
    rintro rfl
    exact absurd number (by decide)

theorem bodyText_append_inj (canonical : a.IsCanonical) (canonical' : b.IsCanonical)
    (stop : Breaks r) (stop' : Breaks s) (same : a.bodyText ++ r = b.bodyText ++ s) :
    a.mapSign (fun _ => false) = b.mapSign (fun _ => false) ∧ r = s := by
  have number : ∀ {m : Nat} {q : Int} {c : Char} {t t' : List Char}, Canonical m q →
      Layout.literal.magnitude m q ++ t = c :: t' → c.isDigit = true ∨ c = '.' ∨ c = 'e' := by
    intro m q c t t' canonical same
    obtain ⟨c', t', text, number⟩ := Layout.literal.head_magnitude canonical
    rw [text] at same
    obtain rfl := (List.cons.inj same).1
    exact number
  cases a <;> cases b <;> simp only [bodyText, List.cons_append, List.nil_append] at same
  · exact ⟨rfl, by simpa using same⟩
  · simp at same
  · exact absurd (number canonical' same.symm) (by decide)
  · simp at same
  · exact ⟨rfl, by simpa using same⟩
  · exact absurd (number canonical' same.symm) (by decide)
  · exact absurd (number canonical same) (by decide)
  · exact absurd (number canonical same) (by decide)
  · obtain ⟨⟨rfl, rfl⟩, rest⟩ := Layout.magnitude_append_inj canonical canonical' stop stop' same
    exact ⟨rfl, rest⟩

theorem signText_cases (a : Reading) :
    a.signText = [] ∧ a.mapSign (fun _ => false) = a ∧ a.mapSign (fun _ => true) = a.mapSign not ∨
    a.signText = ['-'] ∧ (a.mapSign fun _ => false).mapSign (fun _ => true) = a := by
  rcases a with _ | (_ | _) | ⟨_ | _, _, _⟩
  · exact .inl ⟨rfl, rfl, rfl⟩
  · exact .inl ⟨rfl, rfl, rfl⟩
  · exact .inr ⟨rfl, rfl⟩
  · exact .inl ⟨rfl, rfl, rfl⟩
  · exact .inr ⟨rfl, rfl⟩

theorem bodyText_append_ne (canonical : a.IsCanonical) : a.bodyText ++ r ≠ '-' :: s := by
  obtain ⟨c, t, text, other⟩ := bodyText_ne_nil canonical
  rw [text]
  intro same
  exact other (List.cons.inj same).1

theorem text_append_inj (canonical : a.IsCanonical) (canonical' : b.IsCanonical) (stop : Breaks r)
    (stop' : Breaks s) (same : a.signText ++ a.bodyText ++ r = b.signText ++ b.bodyText ++ s) :
    a = b ∧ r = s := by
  rcases a.signText_cases with ⟨sign, positive, -⟩ | ⟨sign, negative⟩ <;>
    rcases b.signText_cases with ⟨sign', positive', -⟩ | ⟨sign', negative'⟩ <;>
    simp only [sign, sign', List.nil_append, List.cons_append] at same
  · obtain ⟨magnitudes, rest⟩ := bodyText_append_inj canonical canonical' stop stop' same
    exact ⟨by rw [← positive, magnitudes, positive'], rest⟩
  · exact (bodyText_append_ne canonical same).elim
  · exact (bodyText_append_ne canonical' same.symm).elim
  · obtain ⟨magnitudes, rest⟩ := bodyText_append_inj canonical canonical' stop stop'
      (List.cons.inj same).2
    exact ⟨by rw [← negative, magnitudes, negative'], rest⟩

theorem eq_mapSign_not_of_text (canonical : a.IsCanonical) (canonical' : b.IsCanonical)
    (stop : Breaks r) (stop' : Breaks s)
    (same : a.signText ++ a.bodyText ++ r = '-' :: (b.signText ++ b.bodyText ++ s)) :
    a = b.mapSign not ∧ r = s := by
  rcases a.signText_cases with ⟨sign, -, -⟩ | ⟨sign, negative⟩
  · rw [sign] at same
    exact (bodyText_append_ne canonical same).elim
  · rw [sign] at same
    have bodies := (List.cons.inj same).2
    rcases b.signText_cases with ⟨sign', positive', opposite⟩ | ⟨sign', -⟩
    · rw [sign'] at bodies
      obtain ⟨magnitudes, rest⟩ := bodyText_append_inj canonical canonical' stop stop' bodies
      exact ⟨by rw [← negative, magnitudes, positive', opposite], rest⟩
    · rw [sign'] at bodies
      exact (bodyText_append_ne canonical bodies).elim

end Reading

theorem isCanonical_read (x : Float) : (read x).IsCanonical := by
  rcases read_cases x with nan | infinite | ⟨m, q, finite, canonical⟩
  · rw [nan]
    trivial
  · rw [infinite]
    trivial
  · rw [finite]
    exact canonical

theorem toList_text (x : Float) : (text x).toList = (read x).signText ++ (read x).bodyText := by
  unfold text
  cases read x with
  | nan => rfl
  | infinite negative => cases negative <;> rfl
  | finite negative m q => cases negative <;> simp [Reading.signText, Reading.bodyText]

theorem text_append_inj {x y : Float} {r s : List Char} (stop : Breaks r) (stop' : Breaks s)
    (same : (text x).toList ++ r = (text y).toList ++ s) : x = y ∧ r = s := by
  rw [toList_text, toList_text] at same
  obtain ⟨readings, rest⟩ := Reading.text_append_inj (isCanonical_read x) (isCanonical_read y) stop
    stop' same
  exact ⟨read_inj readings, rest⟩

theorem eq_neg_of_text {x y : Float} {r s : List Char} (stop : Breaks r) (stop' : Breaks s)
    (same : (text x).toList ++ r = '-' :: ((text y).toList ++ s)) : x = -y ∧ r = s := by
  rw [toList_text, toList_text] at same
  obtain ⟨readings, rest⟩ := Reading.eq_mapSign_not_of_text (isCanonical_read x)
    (isCanonical_read y) stop stop' same
  exact ⟨read_inj (by rw [readings, read_neg]), rest⟩

end ScalarFusion.Real
