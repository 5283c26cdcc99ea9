import ScalarFusion.Composite.Fusion

/-!
Narrowing: the composite that computes with float32 wherever a composite computes with float16.
-/
namespace ScalarFusion

namespace Build

/-- Applies an operation without float16. Only casts and calls mention it themselves; the others
    take their types from their operands. -/
def placeWidened : Op (Composite × Except Error Composite) → List ValueId → Build (List ValueId)
  | .prim (.cast t), args => placeWith Composite.specialise (.prim (.cast t.widen)) args
  | .prim p, args => placeWith Composite.specialise (.prim p) args
  | .call (c, narrowed), args => do
    let d ← if c.hasHalf then ofExcept narrowed else pure c
    placeWith Composite.specialise (.call d) args

end Build

def Composite.narrow : Composite → Except Error Composite :=
  fold fun e => do
    let copy ← e.rebuild e.graph.config.widen ScalarType.widen fun _ op => Build.placeWidened op
    copy.graph.fuse copy.inputs copy.outputs

end ScalarFusion
