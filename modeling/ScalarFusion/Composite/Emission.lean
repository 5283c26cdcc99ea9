import ScalarFusion.Composite.Basic
import ScalarFusion.Primitive.Statement
import ScalarFusion.Text.Lines

/-!
The body of a composite as straight-line C. Each output of a node gets a temporary, named after the
caller's id and numbered in order; a call becomes a block.
-/
namespace ScalarFusion

abbrev Emitter := List String → List String → String → Except Error String

def block (body : String) : String :=
  "\x7b\n" ++ Text.indentLines body ++ "\n\x7d"

def Op.statement (op : Op Emitter) (inputs outputs : List Operand) (id : String) :
    Except Error String :=
  match op with
  | prim p => p.statement inputs outputs id
  | call emit => do
    let body ← emit (inputs.map Operand.text) (outputs.map Operand.text) id
    .ok (block body)

structure Emission where
  names : Table Operand := {}
  temporaries : Nat := 0
  lines : Array String := #[]

namespace Expression

def operand {κ : Type} (e : Expression κ) (names : Table Operand) (v : ValueId) :
    Except Error Operand :=
  match names.get? v with
  | some x => .ok x
  | none =>
    match (e.graph.values[v]?).bind Value.literal? with
    | some literal => .ok ⟨literal.cText (e.graph.typeOf v), e.graph.typeOf v⟩
    | none => .error (.unnamedValue v)

def temporary (id : String) (n : Nat) : String :=
  "V" ++ id ++ "_tmp" ++ toString n

def declare {κ : Type} (e : Expression κ) (id : String) (s : Emission) (v : ValueId) :
    Except Error Emission := do
  let t := e.graph.typeOf v
  let name := temporary id s.temporaries
  let type ← t.cName
  .ok { names := s.names.insert v ⟨name, t⟩
        temporaries := s.temporaries + 1
        lines := s.lines.push (type ++ " " ++ name ++ ";") }

def emitNode (e : Expression Emitter) (id : String) (s : Emission) (position : Nat)
    (node : Node Emitter) : Except Error Emission := do
  let inputs ← node.inputs.mapM (e.operand s.names)
  let s ← node.outputs.foldlM (e.declare id) s
  let outputs ← node.outputs.mapM (e.operand s.names)
  let code ← node.op.statement inputs outputs (id ++ "_" ++ toString position)
  .ok { s with lines := s.lines.push code }

def emit (e : Expression Emitter) (inputs outputs : List String) (id : String) :
    Except Error String := do
  if inputs.length ≠ e.inputs.length then
    .error (.arity "composite inputs" (.exactly e.inputs.length) inputs.length)
  if outputs.length ≠ e.outputs.length then
    .error (.arity "composite outputs" (.exactly e.outputs.length) outputs.length)
  let names : Table Operand := (e.inputs.zip inputs).foldl
    (fun t (v, name) => t.insertNew v ⟨name, e.graph.typeOf v⟩) .empty
  let s ← (e.nodes.zipIdx).foldlM (fun s ((_, node), position) => e.emitNode id s position node)
    { names }
  let last ← (e.outputs.zip outputs).mapM fun (v, name) => do
    let x ← e.operand s.names v
    .ok (name ++ " = " ++ x.text ++ ";")
  .ok (String.intercalate "\n" (s.lines.toList ++ last))

end Expression

def Composite.emit : Composite → Emitter :=
  fold fun e => (e.map Prod.snd).emit

end ScalarFusion
