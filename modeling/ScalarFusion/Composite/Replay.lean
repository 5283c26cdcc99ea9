import ScalarFusion.Build

/-!
Replaying: the nodes of an expression are applied again in another graph, where they are typed
anew from the operands that they get there. Calls are bound to the types of their arguments by a
given specialiser.
-/
namespace ScalarFusion

abbrev Specialiser := Composite → List ScalarType → Except Error Composite

namespace Build

def callWith (specialise : Specialiser) (c : Composite) (args : List ValueId) : Build NodeId := do
  ofExcept (c.checkArity args.length)
  let g ← get
  let types := args.map g.typeOf
  let bound ← if types = c.inputTypes then pure c else ofExcept (specialise c types)
  apply (.call bound) args

def placeWith (specialise : Specialiser) (op : Op Composite) (args : List ValueId) :
    Build (List ValueId) := do
  let n ← match op with
    | .prim p => apply (.prim p) args
    | .call c => callWith specialise c args
  outputsOf n

/-- The copy of a value of another graph. Constants are copied when they are first needed. -/
def resolve {κ : Type} (source : Graph κ) (retype : ScalarType → ScalarType)
    (copies : Table ValueId) (v : ValueId) : Build (ValueId × Table ValueId) :=
  match copies.get? v with
  | some copy => pure (copy, copies)
  | none =>
    match source.values[v]? with
    | some { type, source := .constant literal name } => do
      let t := retype type
      let copy ← newValue { type := t, source := .constant (literal.cast t) name }
      pure (copy, copies.insert v copy)
    | some { source := .free name, .. } => throw (.unboundVariable name)
    | _ => throw (.unreplayedValue v)

def resolveAll {κ : Type} (source : Graph κ) (retype : ScalarType → ScalarType) :
    List ValueId → Table ValueId → Build (List ValueId × Table ValueId)
  | [], copies => pure ([], copies)
  | v :: vs, copies => do
    let (copy, copies) ← resolve source retype copies v
    let (rest, copies) ← resolveAll source retype vs copies
    pure (copy :: rest, copies)

/-- Applies the nodes of an expression in order, each as `place` says, and gives the copies of its
    outputs. `copies` starts with those of the inputs. -/
def replay {κ : Type} (e : Expression κ) (retype : ScalarType → ScalarType)
    (place : NodeId → Op κ → List ValueId → Build (List ValueId)) (copies : Table ValueId) :
    Build (List ValueId) := do
  let copies ← e.nodes.foldlM
    (fun copies (n, node) => do
      let (args, copies) ← resolveAll e.graph retype node.inputs copies
      let outputs ← place n node.op args
      pure ((node.outputs.zip outputs).foldl (fun t (old, new) => t.insert old new) copies))
    copies
  let (outputs, _) ← resolveAll e.graph retype e.outputs copies
  pure outputs

/-- Binds inputs to values; the first of two equal inputs counts. -/
def bindInputs (inputs args : List ValueId) : Table ValueId :=
  (inputs.zip args).foldl (fun t (v, arg) => t.insertNew v arg) .empty

def inlineWith (specialise : Specialiser) (c : Composite) (args : List ValueId) :
    Build (List ValueId) := do
  ofExcept (c.checkArity args.length)
  replay c.body id (fun _ op => placeWith specialise op) (bindInputs c.inputs args)

def freshInputs {κ : Type} (source : Graph κ) (inputs : List ValueId) (types : List ScalarType) :
    Build (List ValueId) :=
  (inputs.zip types).mapM fun (v, t) => newVariable t ((source.values[v]?).bind Value.name?)

end Build

structure Copy where
  graph : Arena
  inputs : List ValueId
  outputs : List ValueId

def Build.runNew {α : Type} (b : Build α) (config : Config) : Except Error (α × Arena) :=
  match (b.run).run { config } with
  | (.ok a, g) => .ok (a, g)
  | (.error e, _) => .error e

def Expression.rebuild {κ : Type} (e : Expression κ) (config : Config)
    (retype : ScalarType → ScalarType)
    (place : NodeId → Op κ → List ValueId → Build (List ValueId)) : Except Error Copy := do
  let build : Build (List ValueId × List ValueId) := do
    let inputs ← Build.freshInputs e.graph e.inputs (e.inputTypes.map retype)
    let outputs ← Build.replay e retype place (Build.bindInputs e.inputs inputs)
    pure (inputs, outputs)
  let ((inputs, outputs), graph) ← build.runNew config
  .ok { graph, inputs, outputs }

end ScalarFusion
