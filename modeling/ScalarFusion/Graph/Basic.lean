import ScalarFusion.Graph.Table
import ScalarFusion.Primitive.Typing

/-!
Graphs of scalar values. A graph only grows: values and nodes are appended and keep their ids, and
a node is appended after its operands. `κ` is what a node can call besides the primitives.
-/
namespace ScalarFusion

/-- Ids are places in an arena. They have no bound: arenas are taken to stay below `2^32` values and
    `2^32` nodes, so that no id is cut to 32 bits. -/
abbrev ValueId := Nat

abbrev NodeId := Nat

inductive Source where
  | free (name : Option String)
  | constant (literal : Literal) (name : Option String)
  | output (node : NodeId) (index : Nat)
  deriving DecidableEq, Repr

structure Value where
  type : ScalarType
  source : Source
  deriving DecidableEq, Repr

namespace Value

def name? (v : Value) : Option String :=
  match v.source with
  | .free name => name
  | .constant _ name => name
  | .output _ _ => none

def literal? (v : Value) : Option Literal :=
  match v.source with
  | .constant literal _ => some literal
  | _ => none

def producer? (v : Value) : Option NodeId :=
  match v.source with
  | .output node _ => some node
  | _ => none

end Value

inductive Op (κ : Type) where
  | prim (p : Primitive)
  | call (callee : κ)

structure Node (κ : Type) where
  op : Op κ
  inputs : List ValueId
  outputs : List ValueId

structure Graph (κ : Type) where
  config : Config := {}
  values : Array Value := #[]
  nodes : Array (Node κ) := #[]

namespace Op

variable {κ ι : Type}

def map (f : κ → ι) : Op κ → Op ι
  | prim p => prim p
  | call c => call (f c)

def callee? : Op κ → Option κ
  | prim _ => none
  | call c => some c

def name : Op κ → String
  | prim p => p.name
  | call _ => "composite"

def write : Op String → List String → String
  | prim p, args => p.write args
  | call text, args => text ++ Primitive.listed args

end Op

namespace Graph

variable {κ ι : Type}

def typeOf (g : Graph κ) (v : ValueId) : ScalarType :=
  match g.values[v]? with
  | some value => value.type
  | none => .bool

def producer? (g : Graph κ) (v : ValueId) : Option NodeId :=
  (g.values[v]?).bind Value.producer?

def map (f : κ → ι) (g : Graph κ) : Graph ι where
  config := g.config
  values := g.values
  nodes := g.nodes.map fun n => { op := n.op.map f, inputs := n.inputs, outputs := n.outputs }

def users (g : Graph κ) (v : ValueId) : List NodeId :=
  (List.range g.nodes.size).filter fun n =>
    match g.nodes[n]? with
    | some node => node.inputs.contains v
    | none => false

def operandsOf (g : Graph κ) (n : NodeId) : List ValueId :=
  (g.nodes[n]?).elim [] Node.inputs

def unseen? (g : Graph κ) (boundary : List ValueId) (seen : Table Unit) (v : ValueId) :
    Option NodeId :=
  if boundary.contains v then none else (g.producer? v).filter fun n => !seen.contains n

/-- Takes the values from a stack, the last one pushed first, and pushes the operands of each
    producer that was not seen. All of them are pushed once at most, which bounds the fuel. -/
def search (g : Graph κ) (boundary : List ValueId) : Nat → List ValueId → Table Unit → Table Unit
  | 0, _, seen => seen
  | _ + 1, [], seen => seen
  | fuel + 1, v :: stack, seen =>
    match g.unseen? boundary seen v with
    | some n => g.search boundary fuel ((g.operandsOf n).reverse ++ stack) (seen.insert n ())
    | none => g.search boundary fuel stack seen

def operandCount (g : Graph κ) : Nat :=
  ((List.range g.nodes.size).flatMap g.operandsOf).length

/-- The nodes from which the values are computed, in ascending order; nodes that are only needed
    for values of the boundary are left out. -/
def ancestors (g : Graph κ) (values boundary : List ValueId) : List NodeId :=
  let seen := g.search boundary (values.length + g.operandCount) values.reverse .empty
  (List.range g.nodes.size).filter seen.contains

end Graph

end ScalarFusion
