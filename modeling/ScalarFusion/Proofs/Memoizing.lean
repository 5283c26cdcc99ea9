import ScalarFusion.Proofs.Building

/-!
Signatures without their table. `WrittenOut` is the plain recursion: every use of a node is written
anew. The printer keeps the call of a node for its other uses, and since what it keeps is what the
recursion would write, it does not matter which values were written before.
-/
namespace ScalarFusion.Graph

/-- The texts of values by recursion alone. Values that are neither inputs nor computed are written
    as leaves, and a node puts its mark on its outputs after the first. -/
structure WrittenOut (g : Graph String) (inputs : List ValueId) (text : ValueId → String) :
    Prop where
  input : ∀ v ∈ inputs, text v = "i" ++ toString (inputs.idxOf v)
  free : ∀ v ∉ inputs, ∀ type name, g.values[v]? = some ⟨type, .free name⟩ →
    text v = Expression.leafName name type
  constant : ∀ v ∉ inputs, ∀ type literal name,
    g.values[v]? = some ⟨type, .constant literal name⟩ → text v = literal.text
  output : ∀ v ∉ inputs, ∀ type n k node, g.values[v]? = some ⟨type, .output n k⟩ →
    g.nodes[n]? = some node → text v = node.op.write (node.inputs.map text) ++
      (if 1 < node.outputs.length ∧ 0 < k then "::" ++ toString k else "")

/-- The texts as a function. An operand is older than the value, so the guard holds wherever the
    recursion leads. -/
def writeOut (g : Graph String) (inputs : List ValueId) (v : Nat) : String :=
  if v ∈ inputs then "i" ++ toString (inputs.idxOf v) else
    match g.values[v]? with
    | none => ""
    | some value =>
      match value.source with
      | .free name => Expression.leafName name value.type
      | .constant literal _ => literal.text
      | .output n k =>
        match g.nodes[n]? with
        | none => ""
        | some node =>
          node.op.write (node.inputs.map fun u => if u < v then g.writeOut inputs u else "") ++
            Expression.outputMark node.outputs.length k

variable {g : Graph String} {inputs : List ValueId} {text : ValueId → String}

theorem writtenOut_writeOut (ordered : g.Ordered) (inputs : List ValueId) :
    g.WrittenOut inputs (g.writeOut inputs) where
  input v member := by rw [writeOut, if_pos member]
  free v beyond type name found := by rw [writeOut, if_neg beyond, found]
  constant v beyond type literal name found := by rw [writeOut, if_neg beyond, found]
  output v beyond type n k node found here := by
    obtain ⟨node', here', output⟩ := ordered.produced.mp ⟨type, found⟩
    obtain rfl := Option.some.inj (here.symm.trans here')
    have operands : (node.inputs.map fun u => if u < v then g.writeOut inputs u else "") =
        node.inputs.map (g.writeOut inputs) := by
      apply List.map_congr_left
      intro u member
      rw [if_pos (ordered.before here u v member (List.mem_of_getElem? output))]
    rw [writeOut, if_neg beyond, found]
    simp only [here, operands]
    rfl

/-- The calls that are kept are those that the recursion writes. -/
def Recalls (g : Graph String) (text : ValueId → String) (calls : Table String) : Prop :=
  ∀ n call, calls.get? n = some call →
    ∃ node, g.nodes[n]? = some node ∧ call = node.op.write (node.inputs.map text)

theorem recalls_empty (g : Graph String) (text : ValueId → String) : g.Recalls text .empty := by
  intro n call kept
  simp at kept

theorem Recalls.insert {calls : Table String} (recalls : g.Recalls text calls) {n : NodeId}
    {node : Node String} (here : g.nodes[n]? = some node) :
    g.Recalls text (calls.insert n (node.op.write (node.inputs.map text))) := by
  intro m call kept
  rcases Table.insert_cases kept with ⟨rfl, rfl⟩ | old
  · exact ⟨node, here, rfl⟩
  · exact recalls m call old

def Delivers {α : Type} (g : Graph String) (text : ValueId → String)
    (action : StateM (Table String) α) (result : α) : Prop :=
  ∀ calls, g.Recalls text calls →
    ∃ calls', action.run calls = (result, calls') ∧ g.Recalls text calls'

theorem delivers_pure {α : Type} (result : α) : g.Delivers text (pure result) result :=
  fun calls recalls => ⟨calls, rfl, recalls⟩

theorem Delivers.bind {α β : Type} {action : StateM (Table String) α}
    {next : α → StateM (Table String) β} {a : α} {b : β}
    (first : g.Delivers text action a) (second : g.Delivers text (next a) b) :
    g.Delivers text (action >>= next) b := by
  intro calls recalls
  obtain ⟨middle, run, recalls'⟩ := first calls recalls
  obtain ⟨calls', run', recalls''⟩ := second middle recalls'
  refine ⟨calls', ?_, recalls''⟩
  rw [StateT.run_bind, run]
  exact run'

theorem delivers_mapM {vs : List ValueId} {write : ValueId → StateM (Table String) String}
    (one : ∀ v ∈ vs, g.Delivers text (write v) (text v)) :
    g.Delivers text (vs.mapM write) (vs.map text) := by
  induction vs with
  | nil => exact delivers_pure []
  | cons v vs ih =>
    rw [List.mapM_cons]
    refine (one v (by simp)).bind ((ih fun u member => one u (by simp [member])).bind ?_)
    exact delivers_pure _

theorem delivers_keepCall {n : NodeId} {node : Node String} (here : g.nodes[n]? = some node)
    {write : StateM (Table String) String}
    (writes : g.Delivers text write (node.op.write (node.inputs.map text))) :
    g.Delivers text (keepCall n write) (node.op.write (node.inputs.map text)) := by
  intro calls recalls
  rw [keepCall, StateT.run_bind, StateT.run_get, pure_bind]
  cases kept : calls.get? n with
  | some call =>
    obtain ⟨node', here', rfl⟩ := recalls n call kept
    obtain rfl := Option.some.inj (here.symm.trans here')
    exact ⟨calls, rfl, recalls⟩
  | none =>
    -- writing the operands may have kept calls of its own, so the call joins the later table
    obtain ⟨calls', run, recalls'⟩ := writes calls recalls
    refine ⟨_, ?_, recalls'.insert here⟩
    simp only [StateT.run_bind, run]
    rfl

/-- The printer writes a value as the recursion does, whatever it wrote before. -/
theorem delivers_signatureText (ordered : g.Ordered) (written : g.WrittenOut inputs text)
    {fuel v : Nat} (inside : v < fuel) (known : v < g.values.size) :
    g.Delivers text (g.signatureText inputs fuel v) (text v) := by
  induction fuel generalizing v with
  | zero => exact absurd inside (Nat.not_lt_zero v)
  | succ fuel ih =>
    rw [signatureText]
    by_cases input : v ∈ inputs
    · rw [if_pos (by simpa using input), written.input v input]
      exact delivers_pure _
    rw [if_neg (by simpa using input)]
    obtain ⟨⟨type, source⟩, found⟩ : ∃ value, g.values[v]? = some value :=
      ⟨_, Array.getElem?_eq_getElem known⟩
    simp only [found]
    cases source with
    | free name =>
      rw [written.free v input type name found]
      exact delivers_pure _
    | constant literal name =>
      rw [written.constant v input type literal name found]
      exact delivers_pure _
    | output n k =>
      obtain ⟨node, here, output⟩ := ordered.produced.mp ⟨type, found⟩
      rw [written.output v input type n k node found here]
      simp only [here]
      refine (delivers_keepCall here ((delivers_mapM ?_).bind (delivers_pure _))).bind
        (delivers_pure _)
      intro (u : Nat) member
      have older := ordered.before here u v member (List.mem_of_getElem? output)
      exact ih (by omega) (ordered.known here u member)

theorem delivers_signatureTexts (ordered : g.Ordered) (written : g.WrittenOut inputs text)
    {vs : List ValueId} (known : g.Knows vs) :
    g.Delivers text (g.signatureTexts inputs vs) (vs.map text) :=
  delivers_mapM fun v member =>
    delivers_signatureText ordered written (Nat.lt_succ_self v) (known v member)

theorem signature_eq_of_writtenOut (ordered : g.Ordered) (written : g.WrittenOut inputs text)
    {outputs : List ValueId} (known : g.Knows outputs) : g.signature inputs outputs =
      "Composite\x7b" ++ String.intercalate ", " (outputs.map text) ++ "\x7d" := by
  obtain ⟨calls, run, -⟩ :=
    delivers_signatureTexts ordered written known .empty (g.recalls_empty text)
  unfold signature
  simp only [run]

theorem signatureTexts_after (ordered : g.Ordered) (written : g.WrittenOut inputs text)
    {visited outputs : List ValueId} (before : g.Knows visited) (known : g.Knows outputs) :
    ((g.signatureTexts inputs visited *> g.signatureTexts inputs outputs).run .empty).1 =
      outputs.map text := by
  have delivers : g.Delivers text (g.signatureTexts inputs visited >>= fun _ =>
      g.signatureTexts inputs outputs) (outputs.map text) :=
    (delivers_signatureTexts ordered written before).bind
      (delivers_signatureTexts ordered written known)
  obtain ⟨calls, run, -⟩ := delivers .empty (g.recalls_empty text)
  rw [seqRight_eq_bind, run]

end ScalarFusion.Graph
