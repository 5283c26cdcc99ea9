import ScalarFusion.Proofs.Consuming
import ScalarFusion.Proofs.Denoting
import ScalarFusion.Proofs.Persistence
import ScalarFusion.Proofs.Readability
import ScalarFusion.Proofs.Requirements

/-!
The display of an expression writes the call of each node once. Its text is that of a forest in
which a use of a node is either its call, with the operands inside, or a mention of its tag. Who
gets a tag is decided beforehand, by counting references. A call that is written uses its operands
once more, so the uses of a node are counted from the calls of later nodes: if those are written
once each, then the uses of the node are the references that were counted. Calls of nodes without a
tag are kept as they are written, but none is asked for again.
-/
namespace ScalarFusion

structure Frame where
  opening : String
  separator : String
  closing : String

def Frame.around (f : Frame) (texts : List String) : String :=
  f.opening ++ String.intercalate f.separator texts ++ f.closing

def Form.frame : Form → Frame
  | between symbol => ⟨"(", " " ++ symbol ++ " ", ")"⟩
  | marked symbol => ⟨"(" ++ symbol, ", ", ")"⟩
  | named word => ⟨word ++ "(", ", ", ")"⟩
  | braced word inner => ⟨word ++ "\x7b" ++ inner ++ "\x7d" ++ "(", ", ", ")"⟩

def Op.frame : Op String → Frame
  | prim p => p.form.frame
  | call text => ⟨text ++ "(", ", ", ")"⟩

theorem Op.write_eq_around (op : Op String) (args : List String) :
    op.write args = op.frame.around args := by
  cases op with
  | call text => simp [write, frame, Frame.around, Primitive.listed, String.append_assoc]
  | prim p =>
    rw [write, Primitive.write_eq, frame]
    cases p.form <;>
      simp only [Form.write, Form.frame, Frame.around, Primitive.between, Primitive.listed,
        String.append_assoc]

/-- A displayed value: a leaf, the call of a node, untagged or under its tag, or a mention of the
    tag of a node. A mark says which output of the node is meant. -/
inductive Printout where
  | leaf (text : String)
  | call (n : NodeId) (tag? : Option Nat) (mark : String) (op : Op String) (args : List Printout)
  | mention (n : NodeId) (tag : Nat) (mark : String)

inductive Use where
  | call (n : NodeId) (tag? : Option Nat)
  | mention (n : NodeId) (tag : Nat)
  deriving DecidableEq

namespace Use

def node : Use → NodeId
  | call n _ => n
  | mention n _ => n

def called? : Use → Option NodeId
  | call n _ => some n
  | mention _ _ => none

@[simp]
theorem node_call (n : NodeId) (tag? : Option Nat) : (call n tag?).node = n := rfl

@[simp]
theorem node_mention (n : NodeId) (tag : Nat) : (mention n tag).node = n := rfl

def calls (us : List Use) : List NodeId :=
  us.filterMap called?

@[simp]
theorem calls_nil : calls [] = [] := rfl

@[simp]
theorem calls_call (n : NodeId) (tag? : Option Nat) (us : List Use) :
    calls (call n tag? :: us) = n :: calls us := rfl

@[simp]
theorem calls_mention (n : NodeId) (tag : Nat) (us : List Use) :
    calls (mention n tag :: us) = calls us := rfl

@[simp]
theorem calls_append (us vs : List Use) : calls (us ++ vs) = calls us ++ calls vs :=
  List.filterMap_append

@[simp]
theorem calls_replicate_call (k : Nat) (n : NodeId) (tag? : Option Nat) :
    calls (.replicate k (call n tag?)) = .replicate k n :=
  List.filterMap_replicate_of_some rfl

@[simp]
theorem calls_replicate_mention (k : Nat) (n : NodeId) (tag : Nat) :
    calls (.replicate k (mention n tag)) = [] :=
  List.filterMap_replicate_of_none rfl

theorem count_calls (us : List Use) (n : NodeId) :
    (calls us).count n = (calls (us.filter (·.node = n))).length := by
  induction us with
  | nil => rfl
  | cons u us ih =>
    cases u with
    | call m tag? => by_cases same : m = n <;> simp [same, ih]
    | mention m tag => by_cases same : m = n <;> simp [same, ih]

theorem count_node (us : List Use) (n : NodeId) :
    (us.map node).count n = (us.filter (·.node = n)).length := by
  rw [List.count, List.countP_map, List.countP_eq_length_filter]
  rfl

end Use

namespace Printout

mutual

def text : Printout → String
  | leaf text => text
  | call _ none mark op args => op.frame.around (texts args) ++ mark
  | call _ (some tag) mark op args =>
    "*" ++ toString tag ++ mark ++ " -> " ++ op.frame.around (texts args)
  | mention _ tag mark => "*" ++ toString tag ++ mark

def texts : List Printout → List String
  | [] => []
  | part :: parts => part.text :: texts parts

end

mutual

def uses : Printout → List Use
  | leaf _ => []
  | call n tag? _ _ args => .call n tag? :: usesAll args
  | mention n tag _ => [.mention n tag]

def usesAll : List Printout → List Use
  | [] => []
  | part :: parts => part.uses ++ usesAll parts

end

end Printout

/-- The uses in order, after the nodes of `tagged` got the tags 1, 2 and so on: a repeated node gets
    the next tag at the call where it is first used and is mentioned by it from then on. -/
inductive Tagging (repeated : NodeId → Prop) : List NodeId → List Use → List NodeId → Prop where
  | nil {tagged : List NodeId} : Tagging repeated tagged [] tagged
  | plain {n : NodeId} {tagged tagged' : List NodeId} {us : List Use} (single : ¬ repeated n)
      (rest : Tagging repeated tagged us tagged') :
      Tagging repeated tagged (.call n none :: us) tagged'
  | first {n : NodeId} {tagged tagged' : List NodeId} {us : List Use} (several : repeated n)
      (fresh : n ∉ tagged) (rest : Tagging repeated (tagged ++ [n]) us tagged') :
      Tagging repeated tagged (.call n (some (tagged.length + 1)) :: us) tagged'
  | again {n : NodeId} {i : Nat} {tagged tagged' : List NodeId} {us : List Use}
      (several : repeated n) (found : tagged[i]? = some n)
      (rest : Tagging repeated tagged us tagged') :
      Tagging repeated tagged (.mention n (i + 1) :: us) tagged'

namespace Tagging

variable {repeated : NodeId → Prop} {tagged tagged' tagged'' : List NodeId} {us vs : List Use}
  {n : NodeId}

theorem append (first : Tagging repeated tagged us tagged')
    (second : Tagging repeated tagged' vs tagged'') :
    Tagging repeated tagged (us ++ vs) tagged'' := by
  induction first with
  | nil => exact second
  | plain single _ ih => exact .plain single (ih second)
  | first several fresh _ ih => exact .first several fresh (ih second)
  | again several found _ ih => exact .again several found (ih second)

theorem keeps (tagging : Tagging repeated tagged us tagged') {i : Nat}
    (found : tagged[i]? = some n) : tagged'[i]? = some n := by
  induction tagging with
  | nil => exact found
  | plain _ _ ih => exact ih found
  | first _ _ _ ih =>
    apply ih
    rw [List.getElem?_append_left (List.getElem?_eq_some_iff.mp found).1, found]
  | again _ _ _ ih => exact ih found

theorem uses_single (tagging : Tagging repeated tagged us tagged') (single : ¬ repeated n) :
    ∃ k, us.filter (·.node = n) = .replicate k (.call n none) := by
  induction tagging with
  | nil => exact ⟨0, rfl⟩
  | @plain m _ _ _ _ _ ih =>
    obtain ⟨k, rest⟩ := ih
    by_cases same : m = n
    · exact ⟨k + 1, by simp [same, rest, List.replicate_succ]⟩
    · exact ⟨k, by simp [same, rest]⟩
  | @first m _ _ _ several _ _ ih =>
    obtain ⟨k, rest⟩ := ih
    have other : m ≠ n := fun same => single (same ▸ several)
    exact ⟨k, by simp [other, rest]⟩
  | @again m _ _ _ _ several _ _ ih =>
    obtain ⟨k, rest⟩ := ih
    have other : m ≠ n := fun same => single (same ▸ several)
    exact ⟨k, by simp [other, rest]⟩

theorem uses_tagged (tagging : Tagging repeated tagged us tagged') (distinct : tagged.Nodup)
    (several : repeated n) {i : Nat} (found : tagged[i]? = some n) :
    ∃ k, us.filter (·.node = n) = .replicate k (.mention n (i + 1)) := by
  induction tagging with
  | nil => exact ⟨0, rfl⟩
  | @plain m _ _ _ single _ ih =>
    obtain ⟨k, rest⟩ := ih distinct found
    have other : m ≠ n := fun same => single (same ▸ several)
    exact ⟨k, by simp [other, rest]⟩
  | @first m tagged _ _ _ fresh _ ih =>
    have inside := (List.getElem?_eq_some_iff.mp found).1
    obtain ⟨k, rest⟩ := ih (by simpa using distinct.concat fresh)
      (by rw [List.getElem?_append_left inside, found])
    have other : m ≠ n := fun same => fresh (same ▸ List.mem_of_getElem? found)
    exact ⟨k, by simp [other, rest]⟩
  | @again m j tagged _ _ _ found' _ ih =>
    obtain ⟨k, rest⟩ := ih distinct found
    by_cases same : m = n
    · have inside := (List.getElem?_eq_some_iff.mp found).1
      obtain rfl : i = j :=
        (List.getElem?_inj inside distinct).mp (by rw [found, found', same])
      exact ⟨k + 1, by simp [same, rest, List.replicate_succ]⟩
    · exact ⟨k, by simp [same, rest]⟩

theorem uses_fresh (tagging : Tagging repeated tagged us tagged') (distinct : tagged.Nodup)
    (several : repeated n) (fresh : n ∉ tagged) : us.filter (·.node = n) = [] ∨
      ∃ i k, tagged'[i]? = some n ∧
        us.filter (·.node = n) = .call n (some (i + 1)) :: .replicate k (.mention n (i + 1)) := by
  induction tagging with
  | nil => exact .inl rfl
  | @plain m _ _ _ single _ ih =>
    have other : m ≠ n := fun same => single (same ▸ several)
    simpa [other] using ih distinct fresh
  | @first m tagged _ _ _ fresh' rest ih =>
    have distinct' : (tagged ++ [m]).Nodup := by simpa using distinct.concat fresh'
    by_cases same : m = n
    · subst same
      have found : (tagged ++ [m])[tagged.length]? = some m := by simp
      obtain ⟨k, later⟩ := rest.uses_tagged distinct' several found
      exact .inr ⟨tagged.length, k, rest.keeps found, by simp [later]⟩
    · simpa [same] using ih distinct' (by simp [fresh, Ne.symm same])
  | @again m j tagged _ _ _ found' _ ih =>
    have other : m ≠ n := fun same => fresh (same ▸ List.mem_of_getElem? found')
    simpa [other] using ih distinct fresh

theorem count_calls_single (tagging : Tagging repeated tagged us tagged') (single : ¬ repeated n) :
    (Use.calls us).count n = (us.map Use.node).count n := by
  obtain ⟨k, uses⟩ := tagging.uses_single single
  simp [Use.count_calls, Use.count_node, uses]

theorem count_calls_several (tagging : Tagging repeated [] us tagged') (several : repeated n) :
    (Use.calls us).count n = min 1 ((us.map Use.node).count n) := by
  rw [Use.count_calls, Use.count_node]
  rcases tagging.uses_fresh List.nodup_nil several List.not_mem_nil with
    unused | ⟨i, k, -, uses⟩
  · simp [unused]
  · simp [uses]

end Tagging

namespace Expression

variable {κ : Type}

def referenced (e : Expression κ) : List ValueId :=
  e.nodes.flatMap (fun entry => entry.2.inputs) ++ e.outputs

def Repeated (e : Expression κ) (n : NodeId) : Prop :=
  ∃ node, (n, node) ∈ e.nodes ∧
    (1 < node.outputs.length ∨ 1 < e.referenced.countP (· ∈ node.outputs))

theorem get_count (vs : List ValueId) (t : Table Nat) (v : ValueId) :
    ((vs.foldl (fun t u => t.insert u ((t.get? u).getD 0 + 1)) t).get? v).getD 0 =
      (t.get? v).getD 0 + vs.count v := by
  induction vs generalizing t with
  | nil => simp
  | cons u vs ih =>
    rw [List.foldl_cons, ih, Table.get?_insert, List.count_cons]
    by_cases same : u = v
    · subst same
      simp only [if_true, Option.getD_some, beq_self_eq_true]
      omega
    · simp [same]

theorem get_count_operands (entries : List (NodeId × Node κ)) (t : Table Nat) (v : ValueId) :
    ((entries.foldl (fun t entry =>
      entry.2.inputs.foldl (fun t u => t.insert u ((t.get? u).getD 0 + 1)) t) t).get? v).getD 0 =
      (t.get? v).getD 0 + (entries.flatMap fun entry => entry.2.inputs).count v := by
  induction entries generalizing t with
  | nil => simp
  | cons entry entries ih =>
    rw [List.foldl_cons, ih, get_count, List.flatMap_cons, List.count_append, Nat.add_assoc]

theorem get_references (e : Expression κ) (v : ValueId) :
    (e.references.get? v).getD 0 = e.referenced.count v := by
  have operands := get_count_operands e.nodes .empty v
  rw [Table.get?_empty, Option.getD_none, Nat.zero_add] at operands
  rw [referenced, List.count_append, ← operands]
  exact get_count e.outputs _ v

theorem repeated_iff_outputs (e : Expression κ) (node : Node κ) :
    (1 < node.outputs.length ∨ 1 < e.referenced.countP (· ∈ node.outputs)) ↔
      1 < node.outputs.length ∨ ∃ o ∈ node.outputs, 1 < e.referenced.count o := by
  refine or_congr_right' fun few => ?_
  rcases outputs : node.outputs with _ | ⟨o, _ | ⟨o', rest⟩⟩
  · simp
  · simp [List.count, beq_eq_decide]
  · simp [outputs] at few

theorem contains_marked (P : Node κ → Prop) [DecidablePred P] (entries : List (NodeId × Node κ))
    (t : Table Unit) (n : NodeId) :
    (entries.foldl (fun t entry => if P entry.2 then t.insert entry.1 () else t) t).contains n =
      true ↔ t.contains n = true ∨ ∃ node, (n, node) ∈ entries ∧ P node := by
  induction entries generalizing t with
  | nil => simp
  | cons entry entries ih =>
    obtain ⟨m, node⟩ := entry
    rw [List.foldl_cons, ih]
    by_cases holds : P node
    · simp only [if_pos holds, Table.contains_insert, List.mem_cons, Prod.mk.injEq]
      grind
    · simp only [if_neg holds, List.mem_cons, Prod.mk.injEq]
      grind

theorem contains_sharedNodes (e : Expression κ) (n : NodeId) :
    e.sharedNodes.contains n = true ↔ e.Repeated n := by
  refine (contains_marked (fun node => 1 < node.outputs.length ∨
    (node.outputs.any fun o => 1 < (e.references.get? o).getD 0) = true) e.nodes .empty n).trans ?_
  simp only [Table.contains_empty, Bool.false_eq_true, false_or, Repeated, repeated_iff_outputs,
    get_references, List.any_eq_true, decide_eq_true_eq]

/-- The text of a value that stands for no node: inputs and variables are named, or else show their
    type, and a constant that has no name shows its literal. -/
inductive Labels (e : Expression κ) (v : ValueId) : String → Prop where
  | input {value : Value} (member : v ∈ e.inputs) (found : e.graph.values[v]? = some value) :
      Labels e v (leafName value.name? value.type)
  | free {type : ScalarType} {name : Option String} (beyond : v ∉ e.inputs)
      (found : e.graph.values[v]? = some ⟨type, .free name⟩) : Labels e v (leafName name type)
  | constant {type : ScalarType} {literal : Literal} {name : Option String} (beyond : v ∉ e.inputs)
      (found : e.graph.values[v]? = some ⟨type, .constant literal name⟩) :
      Labels e v (name.getD literal.text)

/-- The forest displays the values: the operands of a node stand in its call. -/
inductive Spells (e : Expression String) : List ValueId → List Printout → Prop where
  | nil : Spells e [] []
  | leaf {v : ValueId} {vs : List ValueId} {text : String} {parts : List Printout}
      (label : e.Labels v text) (rest : Spells e vs parts) : Spells e (v :: vs) (.leaf text :: parts)
  | call {v : ValueId} {vs : List ValueId} {type : ScalarType} {n : NodeId} {k : Nat}
      {node : Node String} {args parts : List Printout} (tag? : Option Nat) (beyond : v ∉ e.inputs)
      (found : e.graph.values[v]? = some ⟨type, .output n k⟩) (here : e.graph.nodes[n]? = some node)
      (operands : Spells e node.inputs args) (rest : Spells e vs parts) :
      Spells e (v :: vs)
        (.call n tag? (outputMark node.outputs.length k) node.op args :: parts)
  | mention {v : ValueId} {vs : List ValueId} {type : ScalarType} {n : NodeId} {k : Nat}
      {node : Node String} {parts : List Printout} (tag : Nat) (beyond : v ∉ e.inputs)
      (found : e.graph.values[v]? = some ⟨type, .output n k⟩) (here : e.graph.nodes[n]? = some node)
      (rest : Spells e vs parts) :
      Spells e (v :: vs) (.mention n tag (outputMark node.outputs.length k) :: parts)

section Printing

variable {e : Expression String}

theorem Spells.cons {v : ValueId} {vs : List ValueId} {part : Printout} {parts : List Printout}
    (first : e.Spells [v] [part]) (rest : e.Spells vs parts) : e.Spells (v :: vs) (part :: parts) := by
  cases first with
  | leaf label _ => exact .leaf label rest
  | call tag? beyond found here operands _ => exact .call tag? beyond found here operands rest
  | mention tag beyond found here _ => exact .mention tag beyond found here rest

/-- The tags are those of the listed nodes, numbered from 1. -/
structure Tags.Follows (tags : Tags) (tagged : List NodeId) : Prop where
  count : tags.count = tagged.length
  numbers : ∀ n number, tags.numbers.get? n = some number ↔
    ∃ i, tagged[i]? = some n ∧ number = i + 1

theorem Tags.Follows.fresh {tags : Tags} {tagged : List NodeId} (follows : tags.Follows tagged)
    {n : NodeId} (unset : tags.numbers.get? n = none) : n ∉ tagged := by
  intro member
  obtain ⟨i, found⟩ := List.getElem?_of_mem member
  have := (follows.numbers n (i + 1)).mpr ⟨i, found, rfl⟩
  simp [unset] at this

theorem Tags.Follows.snoc {tags : Tags} {tagged : List NodeId} (follows : tags.Follows tagged)
    {n : NodeId} (unset : tags.numbers.get? n = none) :
    Tags.Follows ⟨tags.numbers.insert n (tags.count + 1), tags.count + 1⟩ (tagged ++ [n]) := by
  have fresh := follows.fresh unset
  refine ⟨by simp [follows.count], fun m number => ?_⟩
  rw [Table.get?_insert, follows.count]
  by_cases same : n = m
  · subst same
    simp only [if_true, Option.some.injEq]
    constructor
    · rintro rfl
      exact ⟨tagged.length, by simp, rfl⟩
    · rintro ⟨i, found, rfl⟩
      rw [List.getElem?_append] at found
      split at found
      · exact absurd (List.mem_of_getElem? found) fresh
      · have := (List.getElem?_eq_some_iff.mp found).1
        simp only [List.length_singleton] at this
        omega
  · rw [if_neg same, follows.numbers]
    refine exists_congr fun i => and_congr_left fun _ => ?_
    rw [List.getElem?_append]
    split
    · rfl
    · next beyond =>
      rw [List.getElem?_eq_none (by omega), List.getElem?_singleton]
      split <;> simp [same]

/-- The action writes a text with these uses, if all calls in them are of different nodes and none
    was kept before. It keeps no calls of other nodes. -/
def Writes {α : Type} (action : StateM Notes α) (tags tags' : Tags) (us : List Use) (text : α) :
    Prop :=
  ∀ calls : Table String, (Use.calls us).Nodup → (∀ n ∈ Use.calls us, calls.get? n = none) →
    ∃ calls', action.run ⟨tags, calls⟩ = (text, ⟨tags', calls'⟩) ∧
      ∀ n, calls'.get? n ≠ none → calls.get? n ≠ none ∨ n ∈ Use.calls us

namespace Writes

variable {α β : Type} {tags middle tags' : Tags} {us vs : List Use}

theorem pure (text : α) (tags : Tags) (us : List Use) : Writes (pure text) tags tags us text :=
  fun calls _ _ => ⟨calls, rfl, fun _ => .inl⟩

theorem bind {first : StateM Notes α} {next : α → StateM Notes β} {text : α} {text' : β}
    (written : Writes first tags middle us text) (written' : Writes (next text) middle tags' vs text') :
    Writes (first >>= next) tags tags' (us ++ vs) text' := by
  intro calls distinct fresh
  rw [Use.calls_append] at distinct fresh
  obtain ⟨distinct_us, distinct_vs, apart⟩ := List.nodup_append.mp distinct
  obtain ⟨calls', run, kept⟩ :=
    written calls distinct_us fun n member => fresh n (List.mem_append_left _ member)
  -- what the first action keeps is called there, so it is not called again
  have fresh' : ∀ n ∈ Use.calls vs, calls'.get? n = none := by
    intro n member
    by_contra held
    rcases kept n held with old | called
    · exact old (fresh n (List.mem_append_right _ member))
    · exact apart n called n member rfl
  obtain ⟨calls'', run', kept'⟩ := written' calls' distinct_vs fresh'
  refine ⟨calls'', ?_, ?_⟩
  · rw [StateT.run_bind, run]
    exact run'
  · intro n held
    rw [Use.calls_append, List.mem_append]
    rcases kept' n held with old | called
    · exact (kept n old).imp_right .inl
    · exact .inr (.inr called)

theorem call {action : StateM Notes α} {text : α} (written : Writes action tags tags' us text)
    (n : NodeId) (tag? : Option Nat) : Writes action tags tags' (.call n tag? :: us) text := by
  intro calls distinct fresh
  rw [Use.calls_call] at distinct fresh ⊢
  obtain ⟨calls', run, kept⟩ := written calls (List.nodup_cons.mp distinct).2
    fun m member => fresh m (List.mem_cons_of_mem n member)
  exact ⟨calls', run, fun m held => (kept m held).imp_right (List.mem_cons_of_mem n)⟩

end Writes

def Prints (e : Expression String) (v : ValueId) (action : StateM Notes String) : Prop :=
  ∀ tags tagged, tags.Follows tagged → ∃ part tags' tagged', e.Spells [v] [part] ∧
    Tagging e.Repeated tagged part.uses tagged' ∧ tags'.Follows tagged' ∧
    Writes action tags tags' part.uses part.text

theorem prints_mapM {vs : List ValueId} {write : ValueId → StateM Notes String}
    (one : ∀ v ∈ vs, e.Prints v (write v)) {tags : Tags} {tagged : List NodeId}
    (follows : tags.Follows tagged) : ∃ parts tags' tagged', e.Spells vs parts ∧
      Tagging e.Repeated tagged (Printout.usesAll parts) tagged' ∧ tags'.Follows tagged' ∧
      Writes (vs.mapM write) tags tags' (Printout.usesAll parts) (Printout.texts parts) := by
  induction vs generalizing tags tagged with
  | nil => exact ⟨[], tags, tagged, .nil, .nil, follows, .pure [] tags []⟩
  | cons v vs ih =>
    obtain ⟨part, middle, between, spells, tagging, follows', written⟩ :=
      one v (by simp) tags tagged follows
    obtain ⟨parts, last, all, spells', tagging', follows'', written'⟩ :=
      ih (fun u member => one u (by simp [member])) follows'
    refine ⟨part :: parts, last, all, spells.cons spells', tagging.append tagging', follows'', ?_⟩
    have rest : Writes (vs.mapM write >>= fun texts => pure (part.text :: texts)) middle last
        (Printout.usesAll parts ++ []) (part.text :: Printout.texts parts) :=
      written'.bind (.pure _ last [])
    rw [List.append_nil] at rest
    rw [List.mapM_cons]
    exact written.bind rest

theorem prints_leaf {fuel : Nat} {v : ValueId} {text : String} (label : e.Labels v text) :
    e.Prints v (e.displayText e.sharedNodes (fuel + 1) v) := by
  have written : e.displayText e.sharedNodes (fuel + 1) v = pure text := by
    rw [displayText]
    cases label with
    | input member found => simp [found, member]
    | free beyond found => simp [found, beyond]
    | constant beyond found => simp [found, beyond]
  intro tags tagged follows
  rw [written]
  exact ⟨.leaf text, tags, tagged, .leaf label .nil, .nil, follows, .pure text tags []⟩

theorem prints_node {fuel : Nat} {v : ValueId} {type : ScalarType} {n : NodeId} {k : Nat}
    {node : Node String} (beyond : v ∉ e.inputs)
    (found : e.graph.values[v]? = some ⟨type, .output n k⟩) (here : e.graph.nodes[n]? = some node)
    (operands : ∀ u ∈ node.inputs, e.Prints u (e.displayText e.sharedNodes fuel u)) :
    e.Prints v (e.displayText e.sharedNodes (fuel + 1) v) := by
  intro tags tagged follows
  rw [displayText, found]
  simp only [List.contains_iff_mem, beyond, if_false, here]
  by_cases several : e.Repeated n
  · simp only [(contains_sharedNodes e n).mpr several, if_true]
    cases numbered : tags.numbers.get? n with
    | some number =>
      obtain ⟨i, tag, rfl⟩ := (follows.numbers n number).mp numbered
      refine ⟨.mention n (i + 1) _, tags, tagged, .mention _ beyond found here .nil,
        .again several tag .nil, follows, fun calls _ _ => ⟨calls, ?_, fun _ => .inl⟩⟩
      rw [StateT.run_bind, StateT.run_get, pure_bind]
      simp only [numbered]
      rfl
    | none =>
      -- the tag is given before the operands are written, so theirs are greater
      obtain ⟨args, tags', tagged', spells, tagging, follows', written⟩ :=
        prints_mapM operands (follows.snoc numbered)
      refine ⟨.call n (some (tagged.length + 1)) _ node.op args, tags', tagged',
        .call _ beyond found here spells .nil, .first several (follows.fresh numbered) tagging,
        follows', ?_⟩
      intro calls distinct fresh
      obtain ⟨calls', run, kept⟩ :=
        written.call n (some (tagged.length + 1)) calls distinct fresh
      refine ⟨calls', ?_, kept⟩
      rw [StateT.run_bind, StateT.run_get, pure_bind]
      simp only [numbered, StateT.run_bind, StateT.run_set, pure_bind, run]
      simp only [Op.write_eq_around, follows.count, Printout.text]
      rfl
  · have unshared : ¬ e.sharedNodes.contains n = true :=
      fun shared => several ((contains_sharedNodes e n).mp shared)
    obtain ⟨args, tags', tagged', spells, tagging, follows', written⟩ :=
      prints_mapM operands follows
    refine ⟨.call n none _ node.op args, tags', tagged',
      .call _ beyond found here spells .nil, .plain several tagging, follows', ?_⟩
    intro calls distinct fresh
    obtain ⟨calls', run, kept⟩ := written.call n none calls distinct fresh
    have called : n ∈ Use.calls (.call n none :: Printout.usesAll args) := by simp
    have unkept : calls.get? n = none := fresh n called
    refine ⟨calls'.insert n (node.op.write (Printout.texts args)), ?_, ?_⟩
    · rw [StateT.run_bind, StateT.run_get, pure_bind, if_neg unshared]
      simp only [unkept, StateT.run_bind, run]
      rw [Printout.text, ← Op.write_eq_around]
      rfl
    · intro m held
      rw [Table.get?_insert] at held
      by_cases same : n = m
      · exact .inr (same ▸ called)
      · rw [if_neg same] at held
        exact kept m held

theorem prints_displayText (ordered : e.graph.Ordered) (fuel : Nat) {v : Nat} (inside : v < fuel)
    (known : v < e.graph.values.size) :
    e.Prints v (e.displayText e.sharedNodes fuel v) := by
  induction fuel generalizing v with
  | zero => exact absurd inside (Nat.not_lt_zero v)
  | succ fuel ih =>
    have found : e.graph.values[v]? = some e.graph.values[v] := Array.getElem?_eq_getElem known
    generalize e.graph.values[v] = value at found
    by_cases member : v ∈ e.inputs
    · exact prints_leaf (.input member found)
    obtain ⟨type, source⟩ := value
    cases source with
    | free name => exact prints_leaf (.free member found)
    | constant literal name => exact prints_leaf (.constant member found)
    | output n k =>
      obtain ⟨node, here, output⟩ := ordered.produced.mp ⟨type, found⟩
      refine prints_node member found here ?_
      intro (u : Nat) operand
      have older := ordered.before here u v operand (List.mem_of_getElem? output)
      exact ih (by omega) (ordered.known here u operand)

/-- There is a forest for the outputs with tags from 1, and the display is its text if no node is
    called in it twice: then no call that is kept is ever asked for. -/
theorem exists_display (ordered : e.graph.Ordered) (known : e.graph.Knows e.outputs) :
    ∃ parts tagged, e.Spells e.outputs parts ∧
      Tagging e.Repeated [] (Printout.usesAll parts) tagged ∧
      ((Use.calls (Printout.usesAll parts)).Nodup → e.display =
        "ExpressionGraph(" ++ String.intercalate ", " (Printout.texts parts) ++ ")") := by
  have start : Tags.Follows {} [] := ⟨rfl, fun n number => by simp [Table.get?]⟩
  obtain ⟨parts, tags, tagged, spells, tagging, -, written⟩ := prints_mapM
    (fun v member => prints_displayText ordered (v + 1) (Nat.lt_succ_self v) (known v member)) start
  refine ⟨parts, tagged, spells, tagging, fun distinct => ?_⟩
  obtain ⟨calls, run, -⟩ := written .empty distinct fun n _ => Table.get?_empty n
  unfold display
  have run' : (e.outputs.mapM fun v => e.displayText e.sharedNodes (v + 1) v).run {} =
    (Printout.texts parts, ⟨tags, calls⟩) := run
  simp only [run']

end Printing

def source (e : Expression κ) (v : ValueId) : Option NodeId :=
  if v ∈ e.inputs then none else e.graph.producer? v

theorem source_eq_some {e : Expression κ} {v : ValueId} {n : NodeId} : e.source v = some n ↔
    v ∉ e.inputs ∧ ∃ type k, e.graph.values[v]? = some ⟨type, .output n k⟩ := by
  unfold source Graph.producer?
  by_cases member : v ∈ e.inputs
  · simp [member]
  · rw [if_neg member, Option.bind_eq_some_iff]
    simp only [member, not_false_eq_true, true_and]
    constructor
    · rintro ⟨⟨type, source⟩, found, produced⟩
      cases source with
      | free name => simp [Value.producer?] at produced
      | constant literal name => simp [Value.producer?] at produced
      | output m k =>
        obtain rfl : m = n := by simpa [Value.producer?] using produced
        exact ⟨type, k, found⟩
    · rintro ⟨type, k, found⟩
      exact ⟨_, found, rfl⟩

theorem Labels.source_eq_none {e : Expression κ} {v : ValueId} {text : String}
    (label : e.Labels v text) : e.source v = none := by
  cases label with
  | input member _ => simp [source, member]
  | free beyond found => simp [source, beyond, Graph.producer?, found, Value.producer?]
  | constant beyond found => simp [source, beyond, Graph.producer?, found, Value.producer?]

theorem referenced_eq (e : Expression κ) :
    e.referenced = e.order.flatMap e.graph.operandsOf ++ e.outputs := by
  unfold referenced nodes Graph.operandsOf
  congr 1
  induction e.order with
  | nil => rfl
  | cons n order ih =>
    rw [List.filterMap_cons, List.flatMap_cons, ← ih]
    cases e.graph.nodes[n]? <;> rfl

/-- The nodes that are asked for to write `vs` and the operands of the calls of `ns`. -/
def demanded (e : Expression κ) (vs : List ValueId) (ns : List NodeId) : List NodeId :=
  (vs ++ ns.flatMap e.graph.operandsOf).filterMap e.source

theorem Spells.uses_perm {e : Expression String} {vs : List ValueId} {parts : List Printout}
    (spells : e.Spells vs parts) : ((Printout.usesAll parts).map Use.node).Perm
      (e.demanded vs (Use.calls (Printout.usesAll parts))) := by
  rw [List.perm_iff_count]
  intro m
  induction spells with
  | nil => rfl
  | leaf label _ ih =>
    simpa [Printout.usesAll, Printout.uses, demanded, label.source_eq_none] using ih
  | call tag? beyond found here _ _ ihOperands ihRest =>
    have asked := source_eq_some.mpr ⟨beyond, _, _, found⟩
    simp only [Printout.usesAll, Printout.uses, List.cons_append, List.map_cons, List.map_append,
      List.count_cons, List.count_append, Use.node_call, Use.calls_call, Use.calls_append, demanded,
      List.flatMap_cons, List.flatMap_append, Graph.operandsOf_of_node here, List.filterMap_cons, asked,
      List.filterMap_append] at ihOperands ihRest ⊢
    omega
  | mention tag beyond found here _ ih =>
    have asked := source_eq_some.mpr ⟨beyond, _, _, found⟩
    simp only [Printout.usesAll, Printout.uses, List.cons_append, List.nil_append, List.map_cons,
      List.count_cons, List.count_append, Use.node_mention, Use.calls_mention, demanded,
      List.filterMap_cons, asked, List.filterMap_append] at ih ⊢
    omega

section Counting

variable {e : Expression κ}

/-- The nodes of the expression are those that its outputs and its nodes ask for. -/
theorem mem_order_iff_demanded (walk : e.graph.Walks e.inputs e.outputs [] e.order) {n : NodeId} :
    n ∈ e.order ↔ n ∈ e.demanded e.outputs e.order := by
  simp only [demanded, List.mem_filterMap, List.mem_append, List.mem_flatMap]
  constructor
  · intro member
    obtain ⟨v, type, k, required, beyond, found⟩ := walk.mem_iff.mp member
    refine ⟨v, ?_, source_eq_some.mpr ⟨beyond, type, k, found⟩⟩
    cases required with
    | output output => exact .inl output
    | @operand u _ _ m _ node user beyond' found' here operand =>
      have later := walk.mem_iff.mpr ⟨u, _, _, user, beyond', found'⟩
      exact .inr ⟨m, later, Graph.operandsOf_of_node here ▸ operand⟩
  · rintro ⟨v, asked, source⟩
    obtain ⟨beyond, type, k, found⟩ := source_eq_some.mp source
    have scheduled := walk.scheduled .nil
    rcases asked with output | ⟨m, member, operand⟩
    · exact (walk.supplied v output).mem beyond found
    · obtain ⟨node, here⟩ := scheduled.exists_node member
      rw [Graph.operandsOf_of_node here] at operand
      exact (scheduled.operands member here v operand).mem beyond found

theorem output_of_source (ordered : e.graph.Ordered) {v : ValueId} {n : NodeId}
    (asked : e.source v = some n) : ∃ node, e.graph.nodes[n]? = some node ∧ v ∈ node.outputs := by
  obtain ⟨-, type, k, found⟩ := source_eq_some.mp asked
  obtain ⟨node, here, output⟩ := ordered.produced.mp ⟨type, found⟩
  exact ⟨node, here, List.mem_of_getElem? output⟩

theorem lt_of_operand (ordered : e.graph.Ordered) {v : ValueId} {m n : NodeId}
    (operand : v ∈ e.graph.operandsOf n) (asked : e.source v = some m) :
    m < n ∧ n < e.graph.nodes.size := by
  obtain ⟨node, here, output⟩ := output_of_source ordered asked
  cases there : e.graph.nodes[n]? with
  | none => simp [Graph.operandsOf, there] at operand
  | some user =>
    rw [Graph.operandsOf_of_node there] at operand
    exact ⟨ordered.layered here there v output operand, (Array.getElem?_eq_some_iff.mp there).1⟩

theorem count_demanded_later (ordered : e.graph.Ordered) (vs : List ValueId) (ns : List NodeId)
    (m : NodeId) : (e.demanded vs ns).count m =
      (e.demanded vs (ns.filter fun n => m < n ∧ n < e.graph.nodes.size)).count m := by
  simp only [demanded, List.filterMap_append, List.count_append, Nat.add_left_cancel_iff]
  induction ns with
  | nil => rfl
  | cons n ns ih =>
    rw [List.flatMap_cons, List.filterMap_append, List.count_append, ih, List.filter_cons]
    by_cases later : m < n ∧ n < e.graph.nodes.size
    · simp [later]
    · have none : ((e.graph.operandsOf n).filterMap e.source).count m = 0 := by
        rw [List.count_eq_zero, List.mem_filterMap]
        rintro ⟨v, operand, asked⟩
        exact later (lt_of_operand ordered operand asked)
      simp [later, none]

theorem count_demanded_congr (ordered : e.graph.Ordered) (vs : List ValueId) {ns ns' : List NodeId}
    {m : NodeId} (same : ∀ n, m < n → n < e.graph.nodes.size → ns.count n = ns'.count n) :
    (e.demanded vs ns).count m = (e.demanded vs ns').count m := by
  have later : (ns.filter fun n => m < n ∧ n < e.graph.nodes.size).Perm
      (ns'.filter fun n => m < n ∧ n < e.graph.nodes.size) := by
    rw [List.perm_iff_count]
    intro n
    by_cases between : m < n ∧ n < e.graph.nodes.size
    · rw [List.count_filter (by simpa using between), List.count_filter (by simpa using between),
        same n between.1 between.2]
    · rw [List.count_eq_zero.mpr (by simp [between]), List.count_eq_zero.mpr (by simp [between])]
  rw [count_demanded_later ordered, count_demanded_later ordered vs ns']
  exact (((later.flatMap_right _).append_left vs).filterMap _).count_eq m

theorem count_demanded_single (ordered : e.graph.Ordered) {n : NodeId} (member : n ∈ e.order)
    {node : Node κ} (here : e.graph.nodes[n]? = some node) (single : ¬ e.Repeated n) :
    (e.demanded e.outputs e.order).count n ≤ 1 := by
  have few : e.referenced.countP (· ∈ node.outputs) ≤ 1 := by
    by_contra many
    exact single ⟨node, mem_nodes.mpr ⟨member, here⟩, .inr (by omega)⟩
  rw [referenced_eq, List.countP_append] at few
  rw [demanded, List.count_filterMap, List.countP_append, Nat.add_comm]
  refine Nat.le_trans (Nat.add_le_add ?_ ?_) few <;>
  · refine List.countP_mono_left fun v _ asked => ?_
    obtain ⟨node', here', output⟩ := output_of_source ordered (beq_iff_eq.mp asked)
    obtain rfl := Option.some.inj (here.symm.trans here')
    exact decide_eq_true output

end Counting

section Writing

variable {e : Expression String} {parts : List Printout} {tagged : List NodeId}
  (ordered : e.graph.Ordered) (walk : e.graph.Walks e.inputs e.outputs [] e.order)
  (spells : e.Spells e.outputs parts)
  (tagging : Tagging e.Repeated [] (Printout.usesAll parts) tagged)

include ordered walk spells tagging

/-- Where the calls of the later nodes are written once each, so is the call of a node. -/
theorem count_calls_eq (m : NodeId) (later : ∀ n, m < n → n < e.graph.nodes.size →
      (Use.calls (Printout.usesAll parts)).count n = e.order.count n) :
    (Use.calls (Printout.usesAll parts)).count m = e.order.count m := by
  have scheduled := walk.scheduled .nil
  have uses := (spells.uses_perm.count_eq m).trans
    (count_demanded_congr ordered e.outputs later)
  by_cases member : m ∈ e.order
  · have asked := List.count_pos_iff.mpr ((mem_order_iff_demanded walk).mp member)
    rw [List.count_eq_one_of_mem scheduled.nodup member]
    by_cases several : e.Repeated m
    · rw [tagging.count_calls_several several]
      omega
    · obtain ⟨node, here⟩ := scheduled.exists_node member
      have once := count_demanded_single ordered member here several
      rw [tagging.count_calls_single several]
      omega
  · rw [List.count_eq_zero.mpr fun asked => member ((mem_order_iff_demanded walk).mpr asked)]
      at uses
    rw [List.count_eq_zero.mpr member]
    by_cases several : e.Repeated m
    · rw [tagging.count_calls_several several]
      omega
    · rw [tagging.count_calls_single several, uses]

theorem calls_perm : (Use.calls (Printout.usesAll parts)).Perm e.order := by
  rw [List.perm_iff_count]
  intro (m : Nat)
  -- what asks for a node comes after it, so the induction goes from the last node down
  induction rank : e.graph.nodes.size - m using Nat.strongRecOn generalizing m with
  | ind _ ih =>
    apply count_calls_eq ordered walk spells tagging m
    intro (n : Nat) (above : m < n) (inside : n < e.graph.nodes.size)
    exact ih (e.graph.nodes.size - n) (by omega) n rfl

theorem uses_of_mem_order {n : NodeId} (member : n ∈ e.order) :
    (e.Repeated n → ∃ i k, tagged[i]? = some n ∧ (Printout.usesAll parts).filter (·.node = n) =
      .call n (some (i + 1)) :: .replicate k (.mention n (i + 1))) ∧
    (¬ e.Repeated n → (Printout.usesAll parts).filter (·.node = n) = [.call n none]) := by
  have once := (calls_perm ordered walk spells tagging).count_eq n
  rw [List.count_eq_one_of_mem (walk.scheduled .nil).nodup member] at once
  constructor
  · intro several
    refine (tagging.uses_fresh List.nodup_nil several List.not_mem_nil).resolve_left fun unused => ?_
    rw [Use.count_calls, unused] at once
    exact absurd once (by decide)
  · intro single
    obtain ⟨k, uses⟩ := tagging.uses_single single
    rw [tagging.count_calls_single single, Use.count_node, uses, List.length_replicate] at once
    rw [uses, once]
    rfl

end Writing

theorem repeated_map {ι : Type} (f : κ → ι) (e : Expression κ) (n : NodeId) :
    (e.map f).Repeated n ↔ e.Repeated n := by
  have referenced : (e.map f).referenced = e.referenced := by
    rw [referenced_eq, referenced_eq]
    refine congrArg (e.order.flatMap · ++ e.outputs) (funext fun m => ?_)
    show ((e.graph.map f).nodes[m]?).elim [] Node.inputs = (e.graph.nodes[m]?).elim [] Node.inputs
    rw [Graph.map_node_at]
    cases e.graph.nodes[m]? <;> rfl
  simp only [Repeated, referenced, nodes_map, List.mem_map, Prod.mk.injEq]
  constructor
  · rintro ⟨_, ⟨⟨m, node⟩, member, rfl, rfl⟩, cause⟩
    exact ⟨node, member, cause⟩
  · rintro ⟨node, member, cause⟩
    exact ⟨node.map f, ⟨(n, node), member, rfl, rfl⟩, cause⟩

end Expression

theorem Graph.Walks.map {κ ι : Type} {g : Graph κ} {inputs vs : List ValueId}
    {done done' : List NodeId} (walk : g.Walks inputs vs done done') (f : κ → ι) :
    (g.map f).Walks inputs vs done done' := by
  induction walk with
  | nil => exact .nil
  | skip supplied _ ih =>
    refine .skip ?_ ih
    cases supplied with
    | input member => exact .input member
    | constant found => exact .constant found
    | output found member => exact .output found member
  | enter beyond found fresh here _ unmet _ ihOperands ihRest =>
    exact .enter beyond found fresh (by rw [map_node_at, here]; rfl) ihOperands unmet ihRest

/-- The display of an expression is the text of a forest for its outputs in which the call of each
    of its nodes is written once. A node with several outputs or references has a tag, given where
    the node is first used: its call stands there, and every other use mentions the tag. The call
    of any other node is its only use. -/
theorem display_expands_once {g : Arena} (reachable : Reachable g) {inputs outputs : List ValueId}
    (known : g.Knows outputs) {e : Expression Composite}
    (success : g.expression inputs outputs = .ok e) : ∃ parts tagged,
      (e.map Composite.signature).display =
        "ExpressionGraph(" ++ String.intercalate ", " (Printout.texts parts) ++ ")" ∧
      (e.map Composite.signature).Spells outputs parts ∧
      Tagging e.Repeated [] (Printout.usesAll parts) tagged ∧
      e.order.Nodup ∧ (Use.calls (Printout.usesAll parts)).Perm e.order ∧
      ∀ n ∈ e.order,
        (e.Repeated n → ∃ i k, tagged[i]? = some n ∧
          (Printout.usesAll parts).filter (·.node = n) =
            .call n (some (i + 1)) :: .replicate k (.mention n (i + 1))) ∧
        (¬ e.Repeated n → (Printout.usesAll parts).filter (·.node = n) = [.call n none]) := by
  have ordered := reachable.built.ordered
  have walk := Graph.walks_of_expression ordered known success
  obtain ⟨rfl, rfl, rfl⟩ := Graph.expression_eq success
  have ordered' := ordered.map Composite.signature
  have walk' := walk.map Composite.signature
  obtain ⟨parts, tagged, spells, tagging, display⟩ :=
    Expression.exists_display (e := e.map Composite.signature) ordered' known
  have same : (e.map Composite.signature).Repeated = e.Repeated :=
    funext fun n => propext (Expression.repeated_map _ e n)
  have calls := Expression.calls_perm ordered' walk' spells tagging
  have uses := fun n (member : n ∈ e.order) =>
    Expression.uses_of_mem_order ordered' walk' spells tagging member
  rw [same] at tagging uses
  have distinct : e.order.Nodup := (walk.scheduled .nil).nodup
  exact ⟨parts, tagged, display (calls.nodup_iff.mpr distinct), spells, tagging, distinct, calls, uses⟩

def Graph.gathered : Arena :=
  (Action.apply (.prim .neg) [3]).perform ((Action.apply (.prim .add) [1, 2]).perform .paired)

theorem gathered_reachable : Reachable .gathered := by
  refine .perform (.perform paired_reachable ?_ ?_) ?_ ?_
  · decide
  · simp [Action.composite?, Op.callee?]
  · decide
  · simp [Action.composite?, Op.callee?]

def Expression.gathered : Expression Composite :=
  ⟨.gathered, [0], [4], [0, 1, 2]⟩

theorem gathered_displayed : Reachable .gathered ∧ Graph.gathered.Knows [4] ∧
    Graph.gathered.expression [0] [4] = .ok .gathered ∧ ∃ parts,
      (Expression.gathered.map Composite.signature).display =
        "ExpressionGraph(" ++ String.intercalate ", " (Printout.texts parts) ++ ")" ∧
      (Expression.gathered.map Composite.signature).Spells [4] parts ∧
      (Use.calls (Printout.usesAll parts)).Perm [0, 1, 2] ∧
      (∃ i k, (Printout.usesAll parts).filter (·.node = 0) =
        .call 0 (some (i + 1)) :: .replicate k (.mention 0 (i + 1))) ∧
      (Printout.usesAll parts).filter (·.node = 1) = [.call 1 none] ∧
      (Printout.usesAll parts).filter (·.node = 2) = [.call 2 none] := by
  have known : Graph.gathered.Knows [4] := by decide
  have success : Graph.gathered.expression [0] [4] = .ok .gathered := rfl
  have repeated := Expression.contains_sharedNodes .gathered
  obtain ⟨parts, tagged, display, spells, -, -, calls, uses⟩ :=
    display_expands_once gathered_reachable known success
  obtain ⟨i, k, -, first⟩ := (uses 0 (by decide)).1 ((repeated 0).mp rfl)
  exact ⟨gathered_reachable, known, success, parts, display, spells, calls, ⟨i, k, first⟩,
    (uses 1 (by decide)).2 ((repeated 1).not.mp (by decide)),
    (uses 2 (by decide)).2 ((repeated 2).not.mp (by decide))⟩

end ScalarFusion
