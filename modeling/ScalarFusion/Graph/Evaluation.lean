import ScalarFusion.Graph.Expression
import ScalarFusion.Primitive.Evaluation

/-!
The value of an expression. A callee is given by the function that it computes.
-/
namespace ScalarFusion

abbrev Kernel := List Literal → Except Error (List Literal)

namespace Op

def evaluate [Numerics] (op : Op Kernel) (values : List Literal)
    (inputTypes outputTypes : List ScalarType) : Except Error (List Literal) :=
  match op with
  | prim p => p.evaluate values inputTypes outputTypes
  | call kernel => kernel values

end Op

namespace Expression

variable {κ : Type}

/-- The value of an id: what it is bound to, or the literal of a constant. -/
def lookup (e : Expression κ) (env : Table Literal) (v : ValueId) : Except Error Literal :=
  match env.get? v with
  | some literal => .ok literal
  | none =>
    match (e.graph.values[v]?).bind Value.literal? with
    | some literal => .ok literal
    | none => .error (.unboundValue v (e.graph.typeOf v))

def bindArguments (e : Expression κ) (args : List Literal) : Table Literal :=
  (e.inputs.zip args).foldl (fun env (v, arg) => env.insertNew v (arg.cast (e.graph.typeOf v)))
    .empty

def evaluateNode [Numerics] (e : Expression Kernel) (env : Table Literal) (node : Node Kernel) :
    Except Error (Table Literal) := do
  let args ← node.inputs.mapM (e.lookup env)
  let types := node.outputs.map e.graph.typeOf
  let results ← node.op.evaluate args (node.inputs.map e.graph.typeOf) types
  .ok ((node.outputs.zip (results.zip types)).foldl
    (fun env (v, result, t) => env.insert v (result.cast t)) env)

def evaluate [Numerics] (e : Expression Kernel) (args : List Literal) :
    Except Error (List Literal) := do
  if args.length ≠ e.inputs.length then
    .error (.arity "expression graph" (.exactly e.inputs.length) args.length)
  let env ← e.nodes.foldlM (fun env (_, node) => e.evaluateNode env node) (e.bindArguments args)
  e.outputs.mapM (e.lookup env)

end Expression

end ScalarFusion
