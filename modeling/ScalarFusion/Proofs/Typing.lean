import ScalarFusion.Proofs.Growth

/-!
The typing of operations. A relation between types that keeps their kind and goes along with their
joins goes along with every operation: what is defined for some types is defined for related ones,
and the output types are related. Operations that join the types of their operands give a continuous
type as soon as one operand has one.
-/
namespace ScalarFusion

namespace Arity

variable {α : Type} {xs : List α}

theorem exists_one (admitted : (exactly 1).admits xs.length = true) : ∃ a, xs = [a] := by
  simpa [admits, List.length_eq_one_iff] using admitted

theorem exists_two (admitted : (exactly 2).admits xs.length = true) : ∃ a b, xs = [a, b] := by
  simpa [admits, List.length_eq_two] using admitted

theorem exists_three (admitted : (exactly 3).admits xs.length = true) : ∃ a b c, xs = [a, b, c] := by
  simpa [admits, List.length_eq_three] using admitted

end Arity

namespace ScalarType

structure Similarity (R : ScalarType → ScalarType → Prop) : Prop where
  bool : R .bool .bool
  byte : R (.signed .w8) (.signed .w8)
  isBool : ∀ s t, R s t → t.isBool = s.isBool
  isDiscrete : ∀ s t, R s t → t.isDiscrete = s.isDiscrete
  isFloat : ∀ s t, R s t → t.isFloat = s.isFloat
  isComplex : ∀ s t, R s t → t.isComplex = s.isComplex
  promote : ∀ {s s' t t'}, R s s' → R t t' → R (s.promote t) (s'.promote t')
  upgrade : ∀ {s t}, R s t → R s.upgrade t.upgrade

variable {R : ScalarType → ScalarType → Prop} {types types' : List ScalarType}

theorem Similarity.foldl_promote (similar : Similarity R) (related : List.Forall₂ R types types')
    {t t' : ScalarType} (first : R t t') :
    R (types.foldl ScalarType.promote t) (types'.foldl ScalarType.promote t') := by
  induction related generalizing t t' with
  | nil => exact first
  | cons here _ ih => exact ih (similar.promote first here)

theorem Similarity.upcast (similar : Similarity R) (related : List.Forall₂ R types types') :
    Option.Rel R (ScalarType.upcast types) (ScalarType.upcast types') := by
  cases related with
  | nil => exact .none
  | cons first rest => exact .some (similar.foldl_promote rest first)

theorem Similarity.flip (similar : Similarity R) : Similarity fun s t => R t s where
  bool := similar.bool
  byte := similar.byte
  isBool s t related := (similar.isBool t s related).symm
  isDiscrete s t related := (similar.isDiscrete t s related).symm
  isFloat s t related := (similar.isFloat t s related).symm
  isComplex s t related := (similar.isComplex t s related).symm
  promote := similar.promote
  upgrade := similar.upgrade

theorem Similarity.all (similar : Similarity R) (related : List.Forall₂ R types types') :
    types'.all ScalarType.isDiscrete = types.all ScalarType.isDiscrete := by
  induction related with
  | nil => rfl
  | cons here _ ih => rw [List.all_cons, List.all_cons, similar.isDiscrete _ _ here, ih]

end ScalarType

namespace Primitive

open ScalarType

variable {R : ScalarType → ScalarType → Prop} {p p' : Primitive} {inputs inputs' : List ScalarType}
  {config config' : Config} {t : ScalarType}

inductive Recast (R : ScalarType → ScalarType → Prop) : Primitive → Primitive → Prop where
  | same {p : Primitive} (other : ∀ t, p ≠ .cast t) : Recast R p p
  | cast {s t : ScalarType} (types : R s t) : Recast R (.cast s) (.cast t)

theorem Recast.refl (reflexive : ∀ t, R t t) (p : Primitive) : Recast R p p := by
  cases p with
  | cast t => exact .cast (reflexive t)
  | _ => exact .same (by simp)

theorem Recast.flip (recast : Recast R p p') : Recast (fun s t => R t s) p' p := by
  cases recast with
  | same other => exact .same other
  | cast types => exact .cast types

theorem joined_similar (similar : Similarity R) (related : List.Forall₂ R inputs inputs')
    (typed : p.joined inputs = .ok t) : ∃ t', p.joined inputs' = .ok t' ∧ R t t' := by
  have types := similar.upcast related
  unfold joined at typed ⊢
  cases found : ScalarType.upcast inputs with
  | none =>
    rw [found] at typed
    cases typed
  | some s =>
    rw [found] at typed types
    obtain rfl := Except.ok.inj typed
    cases found' : ScalarType.upcast inputs' with
    | none =>
      rw [found'] at types
      cases types
    | some s' =>
      rw [found'] at types
      cases types with
      | some joined => exact ⟨s', rfl, joined⟩

theorem refuse_similar {excluded : ScalarType → Bool}
    (same : ∀ s t, R s t → excluded t = excluded s) (related : List.Forall₂ R inputs inputs')
    (admitted : p.refuse excluded inputs = .ok ()) : p.refuse excluded inputs' = .ok () := by
  have found : inputs.find? excluded = none → inputs'.find? excluded = none := by
    clear admitted
    induction related with
    | nil => exact fun none => none
    | cons here _ ih =>
      simp only [List.find?_cons, same _ _ here]
      split
      · simp
      · exact ih
  unfold refuse at admitted ⊢
  split at admitted
  · cases admitted
  · next none => rw [found none]

theorem joined_bind_similar (similar : Similarity R) (related : List.Forall₂ R inputs inputs')
    {f : ScalarType → Except Error ScalarType}
    (respects : ∀ s s' u, R s s' → f s = .ok u → ∃ u', f s' = .ok u' ∧ R u u')
    (typed : (p.joined inputs >>= f) = .ok t) :
    ∃ t', (p.joined inputs' >>= f) = .ok t' ∧ R t t' := by
  obtain ⟨s, joined, result⟩ := bind_eq_ok typed
  obtain ⟨s', joined', here⟩ := joined_similar similar related joined
  rw [joined', ok_bind]
  exact respects s s' t here result

theorem refuse_bind_similar {excluded : ScalarType → Bool}
    (same : ∀ s t, R s t → excluded t = excluded s) (related : List.Forall₂ R inputs inputs')
    {x y : Except Error ScalarType} (respects : x = .ok t → ∃ t', y = .ok t' ∧ R t t')
    (typed : (p.refuse excluded inputs >>= fun _ => x) = .ok t) :
    ∃ t', (p.refuse excluded inputs' >>= fun _ => y) = .ok t' ∧ R t t' := by
  obtain ⟨_, admitted, result⟩ := bind_eq_ok typed
  rw [refuse_similar same related admitted, ok_bind]
  exact respects result

theorem outputType_similar (similar : Similarity R) (recast : Recast R p p')
    (floats : R config.floatType config'.floatType) (related : List.Forall₂ R inputs inputs')
    (typed : p.outputType inputs config = .ok t) :
    ∃ t', p'.outputType inputs' config' = .ok t' ∧ R t t' := by
  have upgraded : ∀ s s' u, R s s' → (.ok s.upgrade : Except Error ScalarType) = .ok u →
      ∃ u', (.ok s'.upgrade : Except Error ScalarType) = .ok u' ∧ R u u' := by
    intro s s' u here result
    obtain rfl := Except.ok.inj result
    exact ⟨_, rfl, similar.upgrade here⟩
  have truth : (.ok .bool : Except Error ScalarType) = .ok t →
      ∃ t', (.ok .bool : Except Error ScalarType) = .ok t' ∧ R t t' := by
    intro result
    obtain rfl := Except.ok.inj result
    exact ⟨_, rfl, similar.bool⟩
  have admitted := admits_of_outputType typed
  have admitted' : p'.arity.admits inputs'.length = true := by
    rw [← related.length_eq, ← admitted]
    cases recast <;> rfl
  unfold outputType checkArity at typed ⊢
  rw [if_pos admitted, ok_bind] at typed
  rw [if_pos admitted', ok_bind]
  cases recast with
  | cast types =>
    obtain rfl := Except.ok.inj typed
    exact ⟨_, rfl, types⟩
  | same other =>
    cases p with
    | cast t => exact absurd rfl (other t)
    | add => exact joined_similar similar related typed
    | mul => exact joined_similar similar related typed
    | identity => exact joined_similar similar related typed
    | sub | neg =>
      refine joined_bind_similar similar related (fun s s' u here result => ?_) typed
      simp only [similar.isBool _ _ here]
      split at result
      · cases result
      · next number =>
        obtain rfl := Except.ok.inj result
        exact ⟨s', by rw [if_neg number], here⟩
    | intDiv | mod | pow =>
      refine joined_bind_similar similar related (fun s s' u here result => ?_) typed
      obtain rfl := Except.ok.inj result
      refine ⟨_, rfl, ?_⟩
      rw [similar.isBool _ _ here]
      split
      · exact similar.byte
      · exact here
    | trueDiv =>
      simp only [similar.all related] at typed ⊢
      split at typed
      · next discrete =>
        obtain rfl := Except.ok.inj typed
        exact ⟨_, by rw [if_pos discrete], floats⟩
      · next mixed =>
        rw [if_neg mixed]
        exact joined_similar similar related typed
    | reciprocal | elementary _ => exact joined_bind_similar similar related upgraded typed
    | arctan2 =>
      exact refuse_bind_similar similar.isComplex related
        (joined_bind_similar similar related upgraded) typed
    | compare c =>
      simp only at typed ⊢
      split at typed
      · next ordered =>
        rw [if_pos ordered]
        exact refuse_bind_similar similar.isComplex related truth typed
      · next unordered =>
        rw [if_neg unordered]
        exact truth typed
    | inRange _ _ => exact refuse_bind_similar similar.isComplex related truth typed
    | bitwise _ =>
      exact refuse_bind_similar similar.isFloat related (joined_similar similar related) typed
    | switch => exact joined_similar similar (List.forall₂_drop 1 related) typed
    | mean =>
      have types := similar.upcast related
      simp only at typed ⊢
      cases found : ScalarType.upcast inputs with
      | none =>
        rw [found] at typed types
        obtain rfl := Except.ok.inj typed
        cases found' : ScalarType.upcast inputs' with
        | none => exact ⟨_, rfl, floats⟩
        | some s' => rw [found'] at types; cases types
      | some s =>
        rw [found] at typed types
        obtain rfl := Except.ok.inj typed
        cases found' : ScalarType.upcast inputs' with
        | none => rw [found'] at types; cases types
        | some s' =>
          rw [found'] at types
          cases types with
          | some here => exact ⟨_, rfl, similar.upgrade here⟩

end Primitive

namespace ScalarType

theorem mem_all (t : ScalarType) : t ∈ all := by
  rcases t with _ | (_ | _ | _ | _) | (_ | _ | _ | _) | (_ | _ | _) | (_ | _) <;> decide

/-- The types are few, so that a property of all of them can be tried on each. -/
instance decidableForall {P : ScalarType → Prop} [DecidablePred P] : Decidable (∀ t, P t) :=
  decidable_of_iff (∀ t ∈ all, P t)
    ⟨fun tried t => tried t (mem_all t), fun holds t _ => holds t⟩

end ScalarType

section Continuity

namespace ScalarType

theorem isDiscrete_upgrade (t : ScalarType) : t.upgrade.isDiscrete = false := by
  rcases t with _ | (_ | _ | _ | _) | (_ | _ | _ | _) | (_ | _ | _) | (_ | _) <;> rfl

theorem isDiscrete_promote {s t : ScalarType}
    (continuous : s.isDiscrete = false ∨ t.isDiscrete = false) :
    (promote s t).isDiscrete = false := by
  rcases s with _ | s | s | s | s <;> rcases t with _ | t | t | t | t <;>
    first | rfl | simp [isDiscrete, isBool, isInteger, isSigned, isUnsigned] at continuous

theorem foldl_promote_of_absorbed {P : ScalarType → Prop}
    (absorbed : ∀ s t, P s ∨ P t → P (promote s t)) {types : List ScalarType} {t : ScalarType}
    (some : P t ∨ ∃ s ∈ types, P s) : P (types.foldl promote t) := by
  induction types generalizing t with
  | nil => exact some.resolve_right (by simp)
  | cons s ts ih =>
    refine ih ?_
    rcases some with first | ⟨u, member, later⟩
    · exact .inl (absorbed t s (.inl first))
    · rcases List.mem_cons.mp member with rfl | member
      · exact .inl (absorbed t u (.inr later))
      · exact .inr ⟨u, member, later⟩

theorem upcast_of_absorbed {P : ScalarType → Prop} (absorbed : ∀ s t, P s ∨ P t → P (promote s t))
    {types : List ScalarType} (member : ∃ t ∈ types, P t) :
    ∃ t, upcast types = some t ∧ P t := by
  obtain ⟨t, member, holds⟩ := member
  cases types with
  | nil => cases member
  | cons s ts =>
    refine ⟨_, rfl, foldl_promote_of_absorbed absorbed ?_⟩
    rcases List.mem_cons.mp member with rfl | member
    · exact .inl holds
    · exact .inr ⟨t, member, holds⟩

theorem exists_upcast {types : List ScalarType} (continuous : ∃ t ∈ types, t.isDiscrete = false) :
    ∃ t, upcast types = some t ∧ t.isDiscrete = false :=
  upcast_of_absorbed (fun _ _ => isDiscrete_promote) continuous

end ScalarType

namespace Primitive

variable {p : Primitive} {types : List ScalarType}

def joinsTypes : Primitive → Bool
  | add | mul | sub | neg | trueDiv | pow => true
  | _ => false

theorem outputType_of_continuous (joins : p.joinsTypes = true)
    (admitted : p.arity.admits types.length = true) (continuous : ∃ t ∈ types, t.isDiscrete = false)
    (config : Config) : ∃ t, p.outputType types config = .ok t ∧ t.isDiscrete = false := by
  obtain ⟨t, found, type⟩ := ScalarType.exists_upcast continuous
  have joined : p.joined types = .ok t := by rw [Primitive.joined, found]
  have number : t.isBool = false := by
    rw [ScalarType.isDiscrete, Bool.or_eq_false_iff] at type
    exact type.1
  have mixed : types.all ScalarType.isDiscrete = false := by
    obtain ⟨s, member, type⟩ := continuous
    exact List.all_eq_false.mpr ⟨s, member, by simp [type]⟩
  refine ⟨t, ?_, type⟩
  unfold outputType checkArity
  rw [if_pos admitted, ok_bind]
  cases p with
  | add | mul => exact joined
  | sub | neg | pow =>
    simp only [joined, ok_bind, number]
    rfl
  | trueDiv =>
    simp only [mixed]
    exact joined
  | _ => cases joins

theorem exists_outputType (total : p = add ∨ p = mul ∨ p = intDiv) (some_type : types ≠ [])
    (admitted : p.arity.admits types.length = true) (config : Config) :
    ∃ t, p.outputType types config = .ok t := by
  obtain ⟨t, ts, rfl⟩ := List.exists_cons_of_ne_nil some_type
  unfold outputType checkArity
  rw [if_pos admitted, ok_bind]
  rcases total with rfl | rfl | rfl
  all_goals exact ⟨_, rfl⟩

theorem isDiscrete_of_elementary {f : Elementary} {config : Config} {t : ScalarType}
    (typed : (elementary f).outputType types config = .ok t) : t.isDiscrete = false := by
  obtain ⟨_, -, typed⟩ := bind_eq_ok typed
  obtain ⟨s, -, same⟩ := bind_eq_ok typed
  obtain rfl := Except.ok.inj same
  exact s.isDiscrete_upgrade

end Primitive

end Continuity

end ScalarFusion
