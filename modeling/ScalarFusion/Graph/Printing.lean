import ScalarFusion.Graph.Expression

/-!
The two texts of an expression. A signature names inputs by position and spells every use out; the
display names inputs by their names and writes a shared node once, under a tag. A callee is given
by its text.
-/
namespace ScalarFusion

namespace Expression

def outputMark (outputs index : Nat) : String :=
  if 1 < outputs ∧ 0 < index then "::" ++ toString index else ""

def leafName (name : Option String) (t : ScalarType) : String :=
  match name with
  | some s => s
  | none => "<" ++ t.name ++ ">"

end Expression

namespace Graph

def keepCall (n : NodeId) (write : StateM (Table String) String) : StateM (Table String) String := do
  let calls ← get
  match calls.get? n with
  | some call => pure call
  | none =>
    let call ← write
    modify fun calls => calls.insert n call
    pure call

/-- A value in a signature. All outputs of a node share its call. Operands have smaller ids, so
    `v + 1` is enough fuel. -/
def signatureText (g : Graph String) (inputs : List ValueId) :
    Nat → ValueId → StateM (Table String) String
  | 0, _ => pure ""
  | fuel + 1, v =>
    if inputs.contains v then pure ("i" ++ toString (inputs.idxOf v)) else
      match g.values[v]? with
      | none => pure ""
      | some value =>
        match value.source with
        | .free name => pure (Expression.leafName name value.type)
        | .constant literal _ => pure literal.text
        | .output n index =>
          match g.nodes[n]? with
          | none => pure ""
          | some node => do
            let call ← keepCall n do
              let args ← node.inputs.mapM (g.signatureText inputs fuel)
              pure (node.op.write args)
            pure (call ++ Expression.outputMark node.outputs.length index)

def signatureTexts (g : Graph String) (inputs vs : List ValueId) :
    StateM (Table String) (List String) :=
  vs.mapM fun v => g.signatureText inputs (v + 1) v

def signature (g : Graph String) (inputs outputs : List ValueId) : String :=
  let (texts, _) := (g.signatureTexts inputs outputs).run .empty
  "Composite\x7b" ++ String.intercalate ", " texts ++ "\x7d"

end Graph

namespace Expression

def signature (e : Expression String) : String :=
  e.graph.signature e.inputs e.outputs

def references {κ : Type} (e : Expression κ) : Table Nat :=
  let count := fun (t : Table Nat) (v : ValueId) => t.insert v ((t.get? v).getD 0 + 1)
  e.outputs.foldl count (e.nodes.foldl (fun t (_, node) => node.inputs.foldl count t) .empty)

/-- The nodes that the display writes under a tag: those with several outputs or uses. -/
def sharedNodes {κ : Type} (e : Expression κ) : Table Unit :=
  let references := e.references
  e.nodes.foldl
    (fun t (n, node) =>
      if 1 < node.outputs.length ∨ (node.outputs.any fun o => 1 < (references.get? o).getD 0) then
        t.insert n ()
      else t)
    .empty

structure Tags where
  numbers : Table Nat := {}
  count : Nat := 0

/-- What is kept of the nodes that were written: tags, and the calls of nodes without one. -/
structure Notes where
  tags : Tags := {}
  calls : Table String := {}

/-- A value in the display. Operands have smaller ids, so `v + 1` is enough fuel. -/
def displayText (e : Expression String) (shared : Table Unit) : Nat → ValueId → StateM Notes String
  | 0, _ => pure ""
  | fuel + 1, v =>
    match e.graph.values[v]? with
    | none => pure ""
    | some value =>
      if e.inputs.contains v then pure (leafName value.name? value.type) else
        match value.source with
        | .free name => pure (leafName name value.type)
        | .constant literal name => pure (name.getD literal.text)
        | .output n index =>
          match e.graph.nodes[n]? with
          | none => pure ""
          | some node => do
            let mark := outputMark node.outputs.length index
            let notes ← get
            if shared.contains n then
              match notes.tags.numbers.get? n with
              | some number => pure ("*" ++ toString number ++ mark)
              | none =>
                let number := notes.tags.count + 1
                set { notes with tags := ⟨notes.tags.numbers.insert n number, number⟩ }
                let args ← node.inputs.mapM (e.displayText shared fuel)
                pure ("*" ++ toString number ++ mark ++ " -> " ++ node.op.write args)
            else
              match notes.calls.get? n with
              | some call => pure (call ++ mark)
              | none =>
                let args ← node.inputs.mapM (e.displayText shared fuel)
                let call := node.op.write args
                modify fun notes => { notes with calls := notes.calls.insert n call }
                pure (call ++ mark)

def display (e : Expression String) : String :=
  let shared := e.sharedNodes
  let (texts, _) := (e.outputs.mapM fun v => e.displayText shared (v + 1) v).run {}
  "ExpressionGraph(" ++ String.intercalate ", " texts ++ ")"

end Expression

end ScalarFusion
