import ScalarFusion.Graph.Evaluation
import ScalarFusion.Graph.Printing
import ScalarFusion.Hash

/-!
Composites: expressions used as operations. The nodes of a body may call other composites, so
whatever depends on nested bodies is computed by one recursion, `Composite.fold`.
-/
namespace ScalarFusion

inductive Composite where
  | mk (body : Expression Composite)

namespace Composite

def body : Composite → Expression Composite
  | mk e => e

theorem sizeOf_callee_lt {e : Expression Composite} {node : Node Composite} {c : Composite}
    (member : node ∈ e.graph.nodes) (called : node.op = .call c) : sizeOf c < sizeOf (mk e) := by
  have inNodes := Array.sizeOf_lt_of_mem member
  obtain ⟨graph, inputs, outputs, order⟩ := e
  obtain ⟨config, values, nodes⟩ := graph
  obtain ⟨op, ins, outs⟩ := node
  simp only at called
  subst called
  simp at inNodes ⊢
  omega

/-- Recursion over nested bodies: `f` sees a body with each callee beside its own result. -/
def fold {α : Type} (f : Expression (Composite × α) → α) : Composite → α
  | mk e =>
    f { graph :=
          { config := e.graph.config
            values := e.graph.values
            nodes := e.graph.nodes.attach.map fun node =>
              { op :=
                  match _called : node.val.op with
                  | .prim p => .prim p
                  | .call c => .call (c, fold f c)
                inputs := node.val.inputs
                outputs := node.val.outputs } }
        inputs := e.inputs
        outputs := e.outputs
        order := e.order }
  termination_by c => sizeOf c
  decreasing_by exact sizeOf_callee_lt node.property _called

theorem fold_eq {α : Type} (f : Expression (Composite × α) → α) (c : Composite) :
    c.fold f = f (c.body.map fun d => (d, d.fold f)) := by
  obtain ⟨e⟩ := c
  rw [fold]
  congr 1
  simp only [body, Expression.map, Graph.map, Expression.mk.injEq, Graph.mk.injEq, true_and,
    and_true]
  apply Array.ext
  · simp
  · intro i _ _
    simp only [Array.getElem_map, Array.getElem_attach, Node.mk.injEq, and_true]
    split <;> simp_all [Op.map]

def graph (c : Composite) : Graph Composite := c.body.graph
def inputs (c : Composite) : List ValueId := c.body.inputs
def outputs (c : Composite) : List ValueId := c.body.outputs
def order (c : Composite) : List NodeId := c.body.order
def config (c : Composite) : Config := c.graph.config
def inputTypes (c : Composite) : List ScalarType := c.body.inputTypes
def outputTypes (c : Composite) : List ScalarType := c.body.outputTypes
def inputCount (c : Composite) : Nat := c.inputs.length
def outputCount (c : Composite) : Nat := c.outputs.length

def arity (c : Composite) : Arity := .exactly c.inputCount

def checkArity (c : Composite) (found : Nat) : Except Error Unit :=
  if c.arity.admits found then .ok () else .error (.arity "composite" c.arity found)

def outputOp? (c : Composite) (index : Nat) : Option (Op Composite) := do
  let v ← c.outputs[index]?
  let n ← c.graph.producer? v
  let node ← c.graph.nodes[n]?
  pure node.op

def depth : Composite → Nat :=
  fold fun e =>
    e.graph.nodes.foldl (fun d node => max d ((node.op.callee?.map Prod.snd).getD 0)) 0 + 1

def callCount : Composite → Nat :=
  fold fun e => e.callees.foldl (fun total (_, n) => total + n + 1) 0

def evaluate [Numerics] : Composite → List Literal → Except Error (List Literal) :=
  fold fun e => (e.map Prod.snd).evaluate

def mentions (p : ScalarType → Bool) : Composite → Bool :=
  fold fun e => (e.graph.values.any fun v => p v.type) || e.callees.any Prod.snd

def hasHalf : Composite → Bool :=
  mentions (· == .float .half)

def signature : Composite → String :=
  fold fun e => (e.map Prod.snd).signature

def typeList (types : List ScalarType) : String :=
  String.intercalate "," (types.map ScalarType.name)

/-- The signature, the types of inputs, outputs and all values, and the keys of the callees. -/
def key : Composite → String :=
  fold fun e =>
    let nested := e.callees.map Prod.snd
    (e.map fun (c, _) => c.signature).signature ++ "|" ++ typeList e.inputTypes ++ "->" ++
      typeList e.outputTypes ++ "|" ++ typeList (e.values.map e.graph.typeOf) ++
      (if nested.isEmpty then "" else "|[" ++ String.intercalate ";" nested ++ "]")

def fingerprint (c : Composite) : UInt64 :=
  Hash.ofString c.key

def same (c d : Composite) : Bool :=
  c.key == d.key

def description (c : Composite) : String :=
  let list := fun (types : List ScalarType) =>
    "[" ++ String.intercalate ", " (types.map ScalarType.capitalName) ++ "]"
  "Composite \x7b signature: \"" ++ c.signature ++ "\", inputs: " ++ list c.inputTypes ++
    ", outputs: " ++ list c.outputTypes ++ " \x7d"

end Composite

end ScalarFusion
