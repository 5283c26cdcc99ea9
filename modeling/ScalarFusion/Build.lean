import ScalarFusion.Composite.Basic

/-!
Building graphs. What a failing step had already added stays in the graph.
-/
namespace ScalarFusion

abbrev Arena := Graph Composite

abbrev Build := ExceptT Error (StateM Arena)

namespace Op

def outputTypes (op : Op Composite) (inputs : List ScalarType) (config : Config) :
    Except Error (List ScalarType) :=
  match op with
  | prim p => do
    let t ← p.outputType inputs config
    .ok [t]
  | call c => do
    c.checkArity inputs.length
    .ok c.outputTypes

end Op

namespace Graph

def pushValue {κ : Type} (g : Graph κ) (value : Value) : Graph κ :=
  match g with
  | { config, values, nodes } => { config, values := values.push value, nodes }

def outputValues (node : NodeId) (types : List ScalarType) : List Value :=
  types.mapIdx fun index type => { type, source := .output node index }

def pushNode {κ : Type} (g : Graph κ) (op : Op κ) (inputs : List ValueId)
    (types : List ScalarType) : Graph κ :=
  match g with
  | { config, values, nodes } =>
    let outputs := List.range' values.size types.length
    let added := outputValues nodes.size types
    { config, values := values.appendList added, nodes := nodes.push { op, inputs, outputs } }

end Graph

namespace Build

def ofExcept {α : Type} (x : Except Error α) : Build α :=
  ExceptT.mk (pure x)

def typeOf (v : ValueId) : Build ScalarType := do
  let g ← get
  pure (g.typeOf v)

def newValue (value : Value) : Build ValueId :=
  modifyGet fun g => (g.values.size, g.pushValue value)

def newVariable (type : ScalarType) (name : Option String) : Build ValueId :=
  newValue { type, source := .free name }

/-- A constant. Without a type it keeps its literal as it is and gets the type of the literal. -/
def constant (literal : Literal) (type : Option ScalarType) (name : Option String) :
    Build ValueId :=
  match type with
  | some t => do
    let checked ← ofExcept (literal.checkedCast t)
    newValue { type := t, source := .constant checked name }
  | none => newValue { type := literal.inferType, source := .constant literal name }

def typedConstant (literal : Literal) (type : ScalarType) : Build ValueId :=
  newValue { type, source := .constant (literal.cast type) none }

/-- Applies an operation. Only the mean can do without operands. -/
def apply (op : Op Composite) (inputs : List ValueId) : Build NodeId := do
  let canBeEmpty := match op with
    | .prim .mean => true
    | _ => false
  if inputs.isEmpty && !canBeEmpty then
    throw (.arity op.name (.atLeast 1) 0)
  let g ← get
  let types ← ofExcept (op.outputTypes (inputs.map g.typeOf) g.config)
  modifyGet fun g => (g.nodes.size, g.pushNode op inputs types)

def outputsOf (n : NodeId) : Build (List ValueId) := do
  let g ← get
  pure (((g.nodes[n]?).map Node.outputs).getD [])

def apply1 (op : Op Composite) (inputs : List ValueId) : Build ValueId := do
  let n ← apply op inputs
  let outputs ← outputsOf n
  match outputs with
  | [out] => pure out
  | _ => throw (.severalOutputs op.name outputs.length)

def primitive (p : Primitive) (inputs : List ValueId) : Build ValueId :=
  apply1 (.prim p) inputs

def add (a b : ValueId) : Build ValueId := primitive .add [a, b]
def sub (a b : ValueId) : Build ValueId := primitive .sub [a, b]
def mul (a b : ValueId) : Build ValueId := primitive .mul [a, b]
def mulMany (factors : List ValueId) : Build ValueId := primitive .mul factors
def trueDiv (a b : ValueId) : Build ValueId := primitive .trueDiv [a, b]
def intDiv (a b : ValueId) : Build ValueId := primitive .intDiv [a, b]
def mod (a b : ValueId) : Build ValueId := primitive .mod [a, b]
def pow (a b : ValueId) : Build ValueId := primitive .pow [a, b]
def neg (a : ValueId) : Build ValueId := primitive .neg [a]
def reciprocal (a : ValueId) : Build ValueId := primitive .reciprocal [a]
def identity (a : ValueId) : Build ValueId := primitive .identity [a]
def compare (c : Comparison) (a b : ValueId) : Build ValueId := primitive (.compare c) [a, b]
def bitwise (b : Bitwise) (operands : List ValueId) : Build ValueId :=
  primitive (.bitwise b) operands
def elementary (f : Elementary) (a : ValueId) : Build ValueId := primitive (.elementary f) [a]
def arctan2 (y x : ValueId) : Build ValueId := primitive .arctan2 [y, x]
def cast (a : ValueId) (t : ScalarType) : Build ValueId := primitive (.cast t) [a]
def switch (c a b : ValueId) : Build ValueId := primitive .switch [c, a, b]
def mean (operands : List ValueId) : Build ValueId := primitive .mean operands
def inRange (lowerClosed upperClosed : Bool) (x low high : ValueId) : Build ValueId :=
  primitive (.inRange lowerClosed upperClosed) [x, low, high]

end Build

end ScalarFusion
