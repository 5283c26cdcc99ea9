import ScalarFusion.Composite.Replay

/-!
Fusion: an expression becomes a composite with a body of its own. Nested composites that only one
place uses are dissolved into the body; those with several outputs or uses stay calls.
-/
namespace ScalarFusion

/-- The calls that fusion dissolves: of one output that either exactly one node uses and that is no
    output of the expression, or that no node uses and that is its only output. -/
def Expression.dissolvable (e : Expression Composite) : List NodeId :=
  let consumers := e.consumers
  e.nodes.filterMap fun (n, node) =>
    match node.op, node.outputs with
    | .call c, [out] =>
      let users := ((consumers.get? out).getD []).length
      let isOutput := e.outputs.contains out
      if c.outputCount = 1 ∧
          ((users = 1 ∧ !isOutput) ∨ (users = 0 ∧ isOutput ∧ e.outputs.length = 1)) then
        some n
      else none
    | _, _ => none

def Expression.dissolve (specialise : Specialiser) (e : Expression Composite)
    (calls : List NodeId) : Except Error Copy :=
  let marked : Table Unit := calls.foldl (fun t n => t.insert n ()) .empty
  e.rebuild e.graph.config id fun n op args =>
    match op with
    | .call c =>
      if marked.contains n then Build.inlineWith specialise c args
      else Build.placeWith specialise op args
    | _ => Build.placeWith specialise op args

def Graph.callCount (g : Arena) : Nat :=
  g.nodes.foldl (fun n node => n + ((node.op.callee?.map fun c => c.callCount + 1).getD 0)) 0

/-- Dissolves calls until none is left that can be. Each pass removes a call for good, so the
    number of calls is enough fuel. -/
def Copy.flatten (specialise : Specialiser) : Nat → Copy → Except Error Copy
  | 0, copy => .ok copy
  | fuel + 1, copy => do
    let e ← copy.graph.expression copy.inputs copy.outputs
    let calls := e.dissolvable
    if calls.isEmpty then .ok copy else do
      let next ← e.dissolve specialise calls
      next.flatten specialise fuel

/-- Fuses what computes `outputs` from `inputs`. Repeated inputs count once. -/
def Graph.fuseWith (specialise : Specialiser) (g : Arena) (inputs outputs : List ValueId) :
    Except Error Composite := do
  if outputs.isEmpty then .error .noOutputs
  let e ← g.expression inputs.eraseDups outputs
  let copy ← e.dissolve specialise e.dissolvable
  let flat ← copy.flatten specialise copy.graph.callCount
  let body ← flat.graph.expression flat.inputs flat.outputs
  .ok (.mk body)

namespace Composite

/-- The composite over inputs of other types: its body is inlined over fresh variables of these
    types and fused again. -/
def retypeWith (specialise : Specialiser) : Specialiser := fun c types => do
  let build : Build (List ValueId × List ValueId) := do
    let inputs ← Build.freshInputs c.graph c.inputs types
    let outputs ← Build.inlineWith specialise c inputs
    pure (inputs, outputs)
  let ((inputs, outputs), scratch) ← build.runNew c.config
  scratch.fuseWith specialise inputs outputs

/-- Retyping of composites up to a depth: callees are retyped one level below. -/
def specialiseAt : Nat → Specialiser
  | 0 => fun c _ => .ok c
  | n + 1 => retypeWith (specialiseAt n)

def specialise : Specialiser := fun c types =>
  specialiseAt c.depth c types

end Composite

/-- A composite is its body alone. Its signature and its key are total functions of the body, to be
    rendered where they are asked for and not here. -/
def Graph.fuse (g : Arena) (inputs outputs : List ValueId) : Except Error Composite :=
  g.fuseWith Composite.specialise inputs outputs

namespace Build

def makeCall (c : Composite) (args : List ValueId) : Build NodeId :=
  callWith Composite.specialise c args

def call (c : Composite) (args : List ValueId) : Build (List ValueId) := do
  let n ← makeCall c args
  outputsOf n

def inline (c : Composite) (args : List ValueId) : Build (List ValueId) :=
  inlineWith Composite.specialise c args

end Build

end ScalarFusion
