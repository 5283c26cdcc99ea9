import ScalarFusion.Proofs.Numerals
import ScalarFusion.Proofs.Terms

/-!
Terms that agree: if their places have the same types then they compute the same. Terms with
agreeing parts agree, constants with one text agree, and so do a negated constant and the sum of
the one constant that is written with a minus.
-/
namespace ScalarFusion

theorem Real.breaks_nil : Real.Breaks [] := by
  simp [Breaks]

theorem Real.breaks_cons {c : Char} (other : c.isDigit = false ∧ c ≠ '.' ∧ c ≠ 'e')
    (r : List Char) : Real.Breaks (c :: r) := by
  intro d member
  obtain rfl : c = d := by simpa using member
  exact other

namespace Literal

theorem toList_text_complex (z : ComplexFloat) : (complex z).text.toList =
    '(' :: ((Real.text z.re).toList ++ (if Real.isNegative z.im then '-' else '+') ::
      ((Real.text z.im.abs).toList ++ ['j', ')'])) := by
  rw [text]
  cases Real.isNegative z.im <;> simp

theorem complex_eq_of_text {z w : ComplexFloat} (same : (complex z).text = (complex w).text) :
    z = w := by
  have chars := congrArg String.toList same
  rw [toList_text_complex, toList_text_complex] at chars
  have sign : ∀ (x : Float) (r : List Char),
      Real.Breaks ((if Real.isNegative x then '-' else '+') :: r) := by
    intro x r
    cases Real.isNegative x <;> exact Real.breaks_cons (by decide) r
  obtain ⟨re, rest⟩ := Real.text_append_inj (sign _ _) (sign _ _) (List.cons.inj chars).2
  obtain ⟨signs, rest⟩ := List.cons.inj rest
  have suffix : Real.Breaks ['j', ')'] := Real.breaks_cons (by decide) _
  have magnitudes := (Real.text_append_inj suffix suffix rest).1
  have im : z.im = w.im := by
    apply Real.eq_of_abs_eq magnitudes
    cases first : Real.isNegative z.im <;> cases second : Real.isNegative w.im <;>
      simp [first, second] at signs ⊢
  obtain ⟨a, b⟩ := z
  obtain ⟨c, d⟩ := w
  rw [ComplexFloat.mk.injEq]
  exact ⟨re, im⟩

theorem eq_of_text {a b : Literal} {t : ScalarType} (converted : a.cast t = a)
    (converted' : b.cast t = b) (same : a.text = b.text) : a = b := by
  have chars : a.text.toList ++ [] = b.text.toList ++ [] := by rw [same]
  cases t with
  | bool =>
    obtain ⟨x, rfl⟩ : ∃ x, a = .bool x := ⟨_, converted.symm⟩
    obtain ⟨y, rfl⟩ : ∃ y, b = .bool y := ⟨_, converted'.symm⟩
    cases x <;> cases y <;> simp [text] at same ⊢
  | signed w =>
    obtain ⟨x, rfl⟩ : ∃ x, a = .signed x := ⟨_, converted.symm⟩
    obtain ⟨y, rfl⟩ : ∃ y, b = .signed y := ⟨_, converted'.symm⟩
    have integers := (Real.int_append_inj (by simp) (by simp) chars).1
    rw [Int64.toInt_inj.mp integers]
  | unsigned w =>
    obtain ⟨x, rfl⟩ : ∃ x, a = .unsigned x := ⟨_, converted.symm⟩
    obtain ⟨y, rfl⟩ : ∃ y, b = .unsigned y := ⟨_, converted'.symm⟩
    simp only [text, Nat.toString_eq_repr, Nat.toList_repr] at chars
    have naturals := (Real.toDigits_append_inj (by simp) (by simp) chars).1
    rw [UInt64.toNat_inj.mp naturals]
  | float p =>
    obtain ⟨x, rfl⟩ : ∃ x, a = .float x := ⟨_, converted.symm⟩
    obtain ⟨y, rfl⟩ : ∃ y, b = .float y := ⟨_, converted'.symm⟩
    rw [(Real.text_append_inj Real.breaks_nil Real.breaks_nil chars).1]
  | complex p =>
    obtain ⟨x, rfl⟩ : ∃ x, a = .complex x := ⟨_, converted.symm⟩
    obtain ⟨y, rfl⟩ : ∃ y, b = .complex y := ⟨_, converted'.symm⟩
    rw [complex_eq_of_text same]

end Literal

namespace Primitive

theorem evaluate_mul_single [Numerics] (v : Literal) (inputs : List ScalarType) (t : ScalarType) :
    mul.evaluate [v] inputs [t] = add.evaluate [v] inputs [t] := by
  cases t <;> rfl

theorem evaluate_neg_constant [Numerics] {a b : Literal} {t : ScalarType} (converted : a.cast t = a)
    (converted' : b.cast t = b) (minus : b.text.toList = '-' :: a.text.toList)
    (inputs : List ScalarType) : neg.evaluate [a] inputs [t] = add.evaluate [b] inputs [t] := by
  have chars : b.text.toList ++ [] = '-' :: (a.text.toList ++ []) := by simpa using minus
  cases t with
  | bool =>
    obtain ⟨y, rfl⟩ : ∃ y, b = .bool y := ⟨_, converted'.symm⟩
    cases y <;> simp [Literal.text] at minus
  | signed w =>
    obtain ⟨x, rfl⟩ : ∃ x, a = .signed x := ⟨_, converted.symm⟩
    obtain ⟨y, rfl⟩ : ∃ y, b = .signed y := ⟨_, converted'.symm⟩
    have opposite : Literal.intIn (.signed w) (.signed y) = -Literal.intIn (.signed w) (.signed x) := by
      rw [Literal.intIn, Literal.intIn, converted, converted']
      exact Real.int_eq_neg_of_text minus
    show (Except.ok [(Literal.ofInt (-Literal.intIn (.signed w) (.signed x))).cast (.signed w)]) =
      Except.ok [(Literal.ofInt (Literal.intIn (.signed w) (.signed y))).cast (.signed w)]
    rw [opposite]
  | unsigned w =>
    obtain ⟨y, rfl⟩ : ∃ y, b = .unsigned y := ⟨_, converted'.symm⟩
    simp only [Literal.text, Nat.toString_eq_repr, Nat.toList_repr] at chars
    exact (Real.toDigits_append_ne _ _ _ chars).elim
  | float p =>
    obtain ⟨x, rfl⟩ : ∃ x, a = .float x := ⟨_, converted.symm⟩
    obtain ⟨y, rfl⟩ : ∃ y, b = .float y := ⟨_, converted'.symm⟩
    obtain ⟨rfl, -⟩ := Real.eq_neg_of_text Real.breaks_nil Real.breaks_nil chars
    rfl
  | complex p =>
    obtain ⟨y, rfl⟩ : ∃ y, b = .complex y := ⟨_, converted'.symm⟩
    rw [Literal.toList_text_complex] at minus
    simp at minus

end Primitive

namespace Term

/-- The two terms have equally many places, and if these have the same types then the terms
    compute the same. -/
def Agree [Numerics] (s t : Term) : Prop :=
  s.types.length = t.types.length ∧ (s.types = t.types → ∀ env, s.eval env = t.eval env)

theorem types_eq_cons (t : Term) : ∃ rest, t.types = t.type :: rest := by
  cases t <;> exact ⟨_, by rw [types, type]⟩

theorem type_eq_of_types {s t : Term} (same : s.types = t.types) : s.type = t.type := by
  obtain ⟨rest, first⟩ := s.types_eq_cons
  obtain ⟨rest', second⟩ := t.types_eq_cons
  rw [first, second] at same
  exact (List.cons.inj same).1

theorem Agree.symm [Numerics] {s t : Term} (agree : Agree s t) : Agree t s :=
  ⟨agree.1.symm, fun same env => (agree.2 same.symm env).symm⟩

section

variable [Numerics] {ss ts : List Term} (agree : List.Forall₂ Agree ss ts)

include agree

theorem length_typesAll : (typesAll ss).length = (typesAll ts).length := by
  induction agree with
  | nil => rfl
  | cons first _ ih => rw [typesAll, typesAll, List.length_append, List.length_append, first.1, ih]

theorem agree_all (same : typesAll ss = typesAll ts) :
    ss.map type = ts.map type ∧ ∀ env, evalAll ss env = evalAll ts env := by
  induction agree with
  | nil => exact ⟨rfl, fun _ => rfl⟩
  | cons first _ ih =>
    rw [typesAll, typesAll] at same
    obtain ⟨here, rest⟩ := List.append_inj same first.1
    obtain ⟨types, values⟩ := ih rest
    refine ⟨?_, fun env => ?_⟩
    · rw [List.map_cons, List.map_cons, type_eq_of_types here, types]
    · rw [evalAll, evalAll, first.2 here env, values env]

theorem agree_apply (p : Primitive) (a b : ScalarType) : Agree (.apply p ss a) (.apply p ts b) := by
  refine ⟨?_, fun same env => ?_⟩
  · rw [types, types, List.length_cons, List.length_cons, length_typesAll agree]
  · rw [types, types] at same
    obtain ⟨rfl, places⟩ := List.cons.inj same
    obtain ⟨types, values⟩ := agree_all agree places
    rw [eval, eval, values env, types]

theorem agree_call {us vs : List Term} (agree' : List.Forall₂ Agree us vs) (k : Nat)
    (a b : ScalarType) : Agree (.call us ss k a) (.call vs ts k b) := by
  refine ⟨?_, fun same env => ?_⟩
  · rw [types, types, List.length_cons, List.length_cons, List.length_append, List.length_append,
      length_typesAll agree, length_typesAll agree']
  · rw [types, types] at same
    obtain ⟨rfl, places⟩ := List.cons.inj same
    obtain ⟨bodies, places⟩ := List.append_inj places (length_typesAll agree')
    obtain ⟨types, values⟩ := agree_all agree places
    rw [eval, eval, values env, types]
    simp only [(agree_all agree' bodies).2]

end

theorem agree_constant [Numerics] {a b : Literal} {t u : ScalarType} (good : (constant a t).Good)
    (good' : (constant b u).Good) (same : a.text = b.text) :
    Agree (.constant a t) (.constant b u) := by
  refine ⟨rfl, fun types env => ?_⟩
  obtain rfl := (List.cons.inj types).1
  rw [eval, eval, Literal.eq_of_text good good' same]

theorem agree_input [Numerics] (k : Nat) (a b : ScalarType) : Agree (.input k a) (.input k b) :=
  ⟨rfl, fun _ _ => rfl⟩

theorem eval_single [Numerics] (p : Primitive) (t : Term) (a : ScalarType) (env : List Literal) :
    (apply p [t] a).eval env = (do
      let value ← t.eval env
      let results ← p.evaluate [value] [t.type] [a]
      .ok ((results.headD (.bool false)).cast a)) := by
  rw [eval, evalAll, evalAll]
  cases t.eval env <;> rfl

theorem eval_mul_single [Numerics] (t : Term) (a : ScalarType) (env : List Literal) :
    (apply .mul [t] a).eval env = (apply .add [t] a).eval env := by
  rw [eval_single, eval_single]
  simp only [Primitive.evaluate_mul_single]

theorem Agree.mul [Numerics] {s t : Term} {a : ScalarType} (agree : Agree s (.apply .add [t] a)) :
    Agree s (.apply .mul [t] a) := by
  refine ⟨agree.1, fun same env => ?_⟩
  rw [eval_mul_single]
  exact agree.2 same env

theorem agree_single [Numerics] {p q : Primitive} (first : p = .add ∨ p = .mul)
    (second : q = .add ∨ q = .mul) {s t : Term} (agree : Agree s t) (a b : ScalarType) :
    Agree (.apply p [s] a) (.apply q [t] b) := by
  have sums := agree_apply (.cons agree .nil) .add a b
  rcases first with rfl | rfl <;> rcases second with rfl | rfl
  · exact sums
  · exact sums.mul
  · exact sums.symm.mul.symm
  · exact agree_apply (.cons agree .nil) .mul a b

theorem type_of_neg {t u : ScalarType} {config : Config}
    (typed : Primitive.neg.outputType [t] config = .ok u) : u = t := by
  obtain ⟨_, -, typed⟩ := bind_eq_ok typed
  obtain ⟨joined, upcast, typed⟩ := bind_eq_ok typed
  obtain rfl : t = joined := Except.ok.inj upcast
  split at typed
  · cases typed
  · exact (Except.ok.inj typed).symm

theorem agree_neg [Numerics] {p : Primitive} (single : p = .add ∨ p = .mul) {a b : Literal}
    {t u v w : ScalarType} (good : (apply .neg [.constant a t] u).Good)
    (good' : (constant b v).Good) (minus : b.text.toList = '-' :: a.text.toList) :
    Agree (.apply .neg [.constant a t] u) (.apply p [.constant b v] w) := by
  have sum : Agree (.apply .neg [.constant a t] u) (.apply .add [.constant b v] w) := by
    refine ⟨rfl, fun same env => ?_⟩
    obtain ⟨⟨config, typed⟩, converted, -⟩ := good
    obtain rfl := type_of_neg typed
    obtain ⟨rfl, rfl⟩ : u = w ∧ u = v := by simpa [types, typesAll] using same
    rw [eval_single, eval_single, eval, eval, ok_bind, ok_bind,
      Primitive.evaluate_neg_constant converted good' minus]
    rfl
  rcases single with rfl | rfl
  · exact sum
  · exact sum.mul

end Term

end ScalarFusion
