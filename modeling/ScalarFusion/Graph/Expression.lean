import ScalarFusion.Graph.Basic

/-!
Expressions: the part of a graph between declared inputs and outputs. Inputs are never looked
past, and every other variable that the outputs need is an error.
-/
namespace ScalarFusion

structure Expression (κ : Type) where
  graph : Graph κ
  inputs : List ValueId
  outputs : List ValueId
  order : List NodeId

structure Walk where
  entered : Table Unit := {}
  left : Array NodeId := #[]

namespace Graph

variable {κ : Type}

/-- Visits a value: the nodes that it needs are left after their operands, which are visited from
    left to right. Operands have smaller ids than outputs, so `v + 1` is enough fuel. -/
def visit (g : Graph κ) (inputs : List ValueId) : Nat → ValueId → Walk → Except Error Walk
  | 0, _, w => .ok w
  | fuel + 1, v, w =>
    if inputs.contains v then .ok w else
      match g.values[v]? with
      | none => .ok w
      | some value =>
        match value.source with
        | .constant _ _ => .ok w
        | .free name => .error (.missingInput name value.type)
        | .output n _ =>
          if w.entered.contains n then .ok w else
            match g.nodes[n]? with
            | none => .ok w
            | some node => do
              let inner ← node.inputs.foldlM (fun w u => g.visit inputs fuel u w)
                { w with entered := w.entered.insert n () }
              .ok { inner with left := inner.left.push n }

def expression (g : Graph κ) (inputs outputs : List ValueId) : Except Error (Expression κ) := do
  let w ← outputs.foldlM (fun w v => g.visit inputs (v + 1) v w) {}
  .ok { graph := g, inputs, outputs, order := w.left.toList }

end Graph

namespace Expression

variable {κ ι : Type}

def map (f : κ → ι) (e : Expression κ) : Expression ι where
  graph := e.graph.map f
  inputs := e.inputs
  outputs := e.outputs
  order := e.order

def inputTypes (e : Expression κ) : List ScalarType :=
  e.inputs.map e.graph.typeOf

def outputTypes (e : Expression κ) : List ScalarType :=
  e.outputs.map e.graph.typeOf

def nodes (e : Expression κ) : List (NodeId × Node κ) :=
  e.order.filterMap fun n => (e.graph.nodes[n]?).map fun node => (n, node)

def callees (e : Expression κ) : List κ :=
  e.nodes.filterMap fun (_, node) => node.op.callee?

def see (seen : Table Unit × Array ValueId) (v : ValueId) : Table Unit × Array ValueId :=
  if seen.1.contains v then seen else (seen.1.insert v (), seen.2.push v)

/-- Inputs, operands, node outputs and outputs, in the order in which they are first seen. -/
def values (e : Expression κ) : List ValueId :=
  let afterInputs := e.inputs.foldl see (.empty, #[])
  let afterNodes := e.nodes.foldl
    (fun seen (_, node) => node.outputs.foldl see (node.inputs.foldl see seen)) afterInputs
  (e.outputs.foldl see afterNodes).2.toList

def addConsumer (n : NodeId) (t : Table (List NodeId)) (v : ValueId) : Table (List NodeId) :=
  let users := (t.get? v).getD []
  if users.contains n then t else t.insert v (users ++ [n])

def consumers (e : Expression κ) : Table (List NodeId) :=
  e.nodes.foldl (fun t (n, node) => node.inputs.foldl (addConsumer n) t) .empty

end Expression

end ScalarFusion
