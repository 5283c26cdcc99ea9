import Mathlib.Algebra.Algebra.Rat
import Mathlib.Algebra.BigOperators.Group.List.Basic
import Mathlib.Algebra.DualNumber
import ScalarFusion.Proofs.Persistence

/-!
Exact arithmetic on arenas. Each arithmetic operation is its operation of a field and a call is its
body, over the rationals or over any algebra of theirs that has inverses, such as the dual numbers,
where `ε` carries a derivative along. Division by zero gives zero.
-/
namespace ScalarFusion

def Real.rational (x : Float) : ℚ :=
  match read x with
  | .finite negative m q => (if negative then -1 else 1) * (m * 2 ^ q)
  | _ => 0

def Literal.rational (v : Literal) : ℚ :=
  Real.rational v.real

theorem Real.rational_zero : rational 0.0 = 0 := by
  have here : read 0.0 = .finite false 0 (-1074) := rfl
  simp [rational, here]

theorem Real.rational_one : rational 1.0 = 1 := by
  have here : read 1.0 = .finite false (2 ^ 52) (-52) := rfl
  norm_num [rational, here]

theorem Real.Same.rational_eq {m m' : Nat} {q q' : Int} (same : Same m q m' q') :
    (m : ℚ) * 2 ^ q = m' * 2 ^ q' := by
  obtain ⟨j, k, mantissas, exponents⟩ := same
  have mantissas' : (m : ℚ) * 2 ^ (j : Int) = m' * 2 ^ (k : Int) := by
    simpa using congrArg (Nat.cast (R := ℚ)) mantissas
  calc (m : ℚ) * 2 ^ q = m * 2 ^ (j : Int) * 2 ^ (q - j) := by
        rw [mul_assoc, ← zpow_add₀ two_ne_zero, add_sub_cancel]
    _ = m' * 2 ^ (k : Int) * 2 ^ (q' - k) := by rw [mantissas', exponents]
    _ = m' * 2 ^ q' := by rw [mul_assoc, ← zpow_add₀ two_ne_zero, add_sub_cancel]

def count (n : Nat) : ℚ :=
  Real.rational (Real.ofInt n)

theorem count_eq {n : Nat} (small : n ≤ 2 ^ 53) : count n = n := by
  have holds : Real.Format.double.Holds n 0 := by
    rcases Nat.lt_or_eq_of_le small with less | rfl
    · exact ⟨n, 0, less, by decide, by decide, .refl n 0⟩
    · exact ⟨2 ^ 52, 1, by decide, by decide, by decide, 0, 1, by decide, by decide⟩
  obtain ⟨r, t, rounded, kept⟩ := Real.Format.round_of_holds holds
  obtain ⟨m, q, reading, same⟩ := @Real.read_of_round false n r 0 t rounded
  have reading' : Real.read (Real.ofInt n) = .finite false m q := reading
  have exactly := (same.trans kept).rational_eq
  simpa [count, Real.rational, reading'] using exactly

namespace Primitive

def isArithmetic : Primitive → Bool
  | add => true
  | mul => true
  | sub => true
  | neg => true
  | identity => true
  | trueDiv => true
  | reciprocal => true
  | mean => true
  | _ => false

variable {A B : Type} [CommRing A] [Inv A] [Algebra ℚ A] [CommRing B] [Inv B] [Algebra ℚ B]

def interpret : Primitive → List A → A
  | add, xs => xs.sum
  | mul, xs => xs.prod
  | sub, [x, y] => x - y
  | neg, [x] => -x
  | identity, [x] => x
  | trueDiv, [x, y] => x * y⁻¹
  | reciprocal, [x] => x⁻¹
  | mean, xs => xs.sum * algebraMap ℚ A (count xs.length)⁻¹
  | _, _ => 0

theorem map_interpret (f : A →ₐ[ℚ] B) (inverse : ∀ x, f x⁻¹ = (f x)⁻¹) (p : Primitive) (xs : List A) :
    f (p.interpret xs) = p.interpret (xs.map f) := by
  cases p with
  | add => exact map_list_sum f xs
  | mul => exact map_list_prod f xs
  | mean => simp [interpret, map_list_sum]
  | sub | trueDiv =>
    rcases xs with _ | ⟨x, _ | ⟨y, _ | ⟨z, xs⟩⟩⟩ <;> simp [interpret, inverse]
  | neg | identity | reciprocal =>
    rcases xs with _ | ⟨x, _ | ⟨y, xs⟩⟩ <;> simp [interpret, inverse]
  | _ => simp [interpret]

end Primitive

section Meaning

variable {A : Type} [CommRing A] [Inv A] [Algebra ℚ A]

/-- The value of an id, where `ρ` says what the variables are. A callee is given by what it
    computes. Operands have smaller ids, so `v + 1` is enough fuel. -/
def Graph.interpret (g : Graph (List A → List A)) (ρ : ValueId → A) : Nat → ValueId → A
  | 0, _ => 0
  | fuel + 1, v =>
    match g.values[v]? with
    | none => 0
    | some value =>
      match value.source with
      | .free _ => ρ v
      | .constant literal _ => algebraMap ℚ A literal.rational
      | .output n k =>
        match g.nodes[n]? with
        | none => 0
        | some node =>
          match node.op with
          | .prim p => p.interpret (node.inputs.map (g.interpret ρ fuel))
          | .call f => ((f (node.inputs.map (g.interpret ρ fuel)))[k]?).getD 0

def Expression.interpret (e : Expression (List A → List A)) (args : List A) : List A :=
  e.outputs.map fun v =>
    e.graph.interpret (fun u => (args[e.inputs.idxOf u]?).getD 0) (v + 1) v

def Composite.interpret : Composite → List A → List A :=
  fold fun e => (e.map Prod.snd).interpret

def Graph.meaning (g : Arena) (ρ : ValueId → A) (v : ValueId) : A :=
  (g.map Composite.interpret).interpret ρ (v + 1) v

def Op.interpret (op : Op Composite) (args : List A) (k : Nat) : A :=
  match op with
  | .prim p => p.interpret args
  | .call c => ((c.interpret args)[k]?).getD 0

/-- Values for all ids of an arena that fit its constants and nodes. -/
structure Graph.Models (g : Arena) (V : ValueId → A) : Prop where
  constants : ∀ {v : ValueId} {type : ScalarType} {literal : Literal} {name : Option String},
    g.values[v]? = some ⟨type, .constant literal name⟩ → V v = algebraMap ℚ A literal.rational
  nodes : ∀ {n : NodeId} {node : Node Composite} {k : Nat} {o : ValueId},
    g.nodes[n]? = some node → node.outputs[k]? = some o → V o = node.op.interpret (node.inputs.map V) k

theorem Graph.Models.of_extends {g h : Arena} {V : ValueId → A} (models : h.Models V)
    (grown : g.Extends h) : g.Models V where
  constants found := models.constants (grown.value found)
  nodes here := models.nodes (grown.node here)

theorem Composite.interpret_eq (c : Composite) :
    (c.interpret : List A → List A) = (c.body.map Composite.interpret).interpret := by
  rw [interpret, fold_eq, Expression.map_map]

namespace Graph

theorem interpret_fuel {g : Graph (List A → List A)} (ordered : g.Ordered) (ρ : ValueId → A) {v : Nat}
    {fuel more : Nat} (enough : v < fuel) (enough' : v < more) :
    g.interpret ρ fuel v = g.interpret ρ more v := by
  induction fuel generalizing v more with
  | zero => omega
  | succ fuel ih =>
    obtain ⟨more, rfl⟩ : ∃ m, more = m + 1 := ⟨more - 1, by omega⟩
    rw [interpret, interpret]
    cases found : g.values[v]? with
    | none => rfl
    | some value =>
      obtain ⟨type, source⟩ := value
      cases source with
      | free name => rfl
      | constant literal name => rfl
      | output n k =>
        obtain ⟨node, here, output⟩ := ordered.produced.mp ⟨type, found⟩
        have operands : node.inputs.map (g.interpret ρ fuel) = node.inputs.map (g.interpret ρ more) := by
          apply List.map_congr_left
          intro u member
          have below := ordered.before here u v member (List.mem_of_getElem? output)
          exact ih (by omega) (by omega)
        simp only [here, operands]

variable {g h : Arena}

theorem meaning_free (ρ : ValueId → A) {v : ValueId} {type : ScalarType} {name : Option String}
    (found : g.values[v]? = some ⟨type, .free name⟩) : g.meaning ρ v = ρ v := by
  have found' : (g.map (Composite.interpret (A := A))).values[v]? = some ⟨type, .free name⟩ := found
  simp [meaning, interpret, found']

theorem models_meaning (ordered : g.Ordered) (ρ : ValueId → A) : g.Models (g.meaning ρ) := by
  constructor
  · intro v type literal name found
    have found' : (g.map (Composite.interpret (A := A))).values[v]? =
      some ⟨type, .constant literal name⟩ := found
    simp [meaning, interpret, found']
  · intro n node k o here output
    obtain ⟨type, found⟩ := ordered.produced.mpr ⟨node, here, output⟩
    have found' : (g.map (Composite.interpret (A := A))).values[o]? = some ⟨type, .output n k⟩ := found
    have here' : (g.map (Composite.interpret (A := A))).nodes[n]? = some (node.map Composite.interpret) := by
      rw [map_node_at, here]
      rfl
    have operands : node.inputs.map ((g.map Composite.interpret).interpret ρ o) =
        node.inputs.map (g.meaning ρ) := by
      apply List.map_congr_left
      intro u member
      have below := ordered.before here u o member (List.mem_of_getElem? output)
      exact interpret_fuel (ordered.map _) ρ below (Nat.lt_succ_self u)
    rw [meaning, interpret, found']
    simp only [here', Node.map, operands]
    cases node.op <;> rfl

theorem meaning_extends (grown : g.Extends h) (ordered : g.Ordered) (ordered' : h.Ordered)
    (ρ : ValueId → A) {v : Nat} (known : v < g.values.size) : h.meaning ρ v = g.meaning ρ v := by
  induction v using Nat.strongRecOn with
  | ind v ih =>
    have found : g.values[v]? = some g.values[v] := Array.getElem?_eq_getElem known
    generalize g.values[v] = x at found
    obtain ⟨type, source⟩ := x
    cases source with
    | free name => rw [meaning_free ρ found, meaning_free ρ (grown.value found)]
    | constant literal name =>
      rw [(models_meaning ordered ρ).constants found,
        (models_meaning ordered' ρ).constants (grown.value found)]
    | output n k =>
      obtain ⟨node, here, output⟩ := ordered.produced.mp ⟨type, found⟩
      rw [(models_meaning ordered ρ).nodes here output,
        (models_meaning ordered' ρ).nodes (grown.node here) output]
      congr 1
      apply List.map_congr_left
      intro u member
      exact ih u (ordered.before here u v member (List.mem_of_getElem? output))
        (ordered.known here u member)

end Graph

end Meaning

section Homomorphism

variable {A B : Type} [CommRing A] [Inv A] [Algebra ℚ A] [CommRing B] [Inv B] [Algebra ℚ B]
  (f : A →ₐ[ℚ] B) (inverse : ∀ x, f x⁻¹ = (f x)⁻¹)

include inverse

theorem Graph.map_interpret {g : Arena}
    (callees : g.Calls fun c => ∀ args : List A, (c.interpret args).map f = c.interpret (args.map f))
    (ρ : ValueId → A) (fuel : Nat) (v : ValueId) :
    f ((g.map Composite.interpret).interpret ρ fuel v) =
      (g.map Composite.interpret).interpret (fun u => f (ρ u)) fuel v := by
  induction fuel generalizing v with
  | zero => simp [interpret]
  | succ fuel ih =>
    have values : (g.map (Composite.interpret (A := A))).values[v]? =
      (g.map (Composite.interpret (A := B))).values[v]? := rfl
    rw [interpret, interpret, values]
    cases found : (g.map (Composite.interpret (A := B))).values[v]? with
    | none => simp
    | some value =>
      obtain ⟨type, source⟩ := value
      cases source with
      | free name => rfl
      | constant literal name => simp
      | output n k =>
        simp only [map_node_at]
        cases here : g.nodes[n]? with
        | none => simp
        | some node =>
          have operands : (node.inputs.map ((g.map Composite.interpret).interpret ρ fuel)).map f =
              node.inputs.map ((g.map Composite.interpret).interpret (fun u => f (ρ u)) fuel) := by
            rw [List.map_map]
            exact List.map_congr_left fun u _ => ih u
          cases called : node.op with
          | prim p => simp [Node.map, called, Op.map, p.map_interpret f inverse, operands]
          | call c =>
            have commutes := callees here called
              (node.inputs.map ((g.map Composite.interpret).interpret ρ fuel))
            rw [operands] at commutes
            simp only [Option.map_some, Node.map, called, Op.map, ← commutes, List.getElem?_map]
            cases (c.interpret (node.inputs.map ((g.map Composite.interpret).interpret ρ fuel)))[k]? with
            | none => simp
            | some x => rfl

theorem Composite.map_interpret (c : Composite) (args : List A) :
    (c.interpret args).map f = c.interpret (args.map f) := by
  induction level : c.depth using Nat.strongRecOn generalizing c args with
  | ind depth ih =>
    have callees : c.graph.Calls fun d =>
        ∀ args : List A, (d.interpret args).map f = d.interpret (args.map f) :=
      fun n node d here called args => ih d.depth (level ▸ depth_callee_lt here called) d args rfl
    have bound : (fun u => f ((args[c.inputs.idxOf u]?).getD 0)) =
        fun u => (((args.map f)[c.inputs.idxOf u]?).getD 0) := by
      funext u
      rw [List.getElem?_map]
      cases args[c.inputs.idxOf u]? <;> simp
    rw [interpret_eq, interpret_eq, Expression.interpret, Expression.interpret, List.map_map]
    apply List.map_congr_left
    intro v _
    have commutes := Graph.map_interpret f inverse callees
      (fun u => (args[c.inputs.idxOf u]?).getD 0) (v + 1) v
    rw [bound] at commutes
    exact commutes

theorem Graph.map_meaning (g : Arena) (ρ : ValueId → A) (v : ValueId) :
    f (g.meaning ρ v) = g.meaning (fun u => f (ρ u)) v :=
  Graph.map_interpret f inverse (fun _ _ c _ _ => c.map_interpret f inverse) ρ (v + 1) v

end Homomorphism

section Dual

open DualNumber

def along (ρ : ValueId → ℚ) (t : ValueId) : ValueId → ℚ[ε] :=
  fun v => TrivSqZeroExt.inl (ρ v) + if v = t then ε else 0

theorem Graph.fst_meaning (g : Arena) (ρ : ValueId → ℚ[ε]) (v : ValueId) :
    (g.meaning ρ v).fst = g.meaning (fun u => (ρ u).fst) v :=
  g.map_meaning (TrivSqZeroExt.fstHom ℚ ℚ ℚ) (fun x => TrivSqZeroExt.fst_inv x) ρ v

end Dual

end ScalarFusion
