import ScalarFusion.Composite.Fusion

/-!
Gradients by reverse accumulation: each operation turns the gradients of its outputs into
gradients of its operands, as new nodes of the same graph. Discrete operands get zeros.
-/
namespace ScalarFusion

namespace Build

def gradientType (v : ValueId) : Build ScalarType := do
  let g ← get
  let t := g.typeOf v
  pure (if t.isDiscrete then g.config.floatType else t)

def constantLike (v : ValueId) (x : Float) : Build ValueId := do
  let t ← gradientType v
  typedConstant (.float x) t

def zeroGradient (v : ValueId) : Build ValueId :=
  constantLike v 0.0

def isDiscrete (v : ValueId) : Build Bool := do
  let t ← typeOf v
  pure t.isDiscrete

end Build

open Build

/-- `gz · f'(x)` for `z = f(x)`. -/
def Elementary.gradient (f : Elementary) (x z gz : ValueId) : Build ValueId := do
  let one ← constantLike z 1.0
  match f with
  | sqrt => do
    let half ← constantLike z 0.5
    let scaled ← mul gz half
    trueDiv scaled z
  | log => trueDiv gz x
  | log2 => do
    let ln ← constantLike z Real.ln2
    let denominator ← mul x ln
    trueDiv gz denominator
  | log10 => do
    let ln ← constantLike z Real.ln10
    let denominator ← mul x ln
    trueDiv gz denominator
  | log1p => do
    let denominator ← add one x
    trueDiv gz denominator
  | exp => mul gz z
  | exp2 => do
    let ln ← constantLike z Real.ln2
    mulMany [gz, z, ln]
  | expm1 => do
    let e ← add z one
    mul gz e
  | sin => do
    let c ← elementary .cos x
    mul gz c
  | cos => do
    let s ← elementary .sin x
    let scaled ← mul gz s
    neg scaled
  | tan => do
    let square ← mul z z
    let slope ← add one square
    mul gz slope
  | arcsin => do
    let square ← mul x x
    let difference ← sub one square
    let root ← elementary .sqrt difference
    trueDiv gz root
  | arccos => do
    let square ← mul x x
    let difference ← sub one square
    let root ← elementary .sqrt difference
    let ratio ← trueDiv gz root
    neg ratio
  | arctan => do
    let square ← mul x x
    let denominator ← add one square
    trueDiv gz denominator
  | sinh => do
    let c ← elementary .cosh x
    mul gz c
  | cosh => do
    let s ← elementary .sinh x
    mul gz s
  | tanh => do
    let square ← mul z z
    let slope ← sub one square
    mul gz slope
  | arcsinh => do
    let square ← mul x x
    let inner ← add square one
    let root ← elementary .sqrt inner
    trueDiv gz root
  | arccosh => do
    let square ← mul x x
    let inner ← sub square one
    let root ← elementary .sqrt inner
    trueDiv gz root
  | arctanh => do
    let square ← mul x x
    let denominator ← sub one square
    trueDiv gz denominator
  | deg2rad => do
    let factor ← constantLike z Real.radiansPerDegree
    mul gz factor
  | rad2deg => do
    let factor ← constantLike z Real.degreesPerRadian
    mul gz factor

/-- The gradients of the operands of a primitive with output `z` whose gradient is `gz`, discrete
    operands not yet set to zero. Operands beyond those that a rule reads are passed over. -/
def Primitive.gradient (p : Primitive) (inputs : List ValueId) (z gz : ValueId) :
    Build (List ValueId) :=
  match p, inputs with
  | add, _ => pure (inputs.map fun _ => gz)
  | identity, _ => pure (inputs.map fun _ => gz)
  | mul, _ =>
    (List.range inputs.length).mapM fun k => do
      let others := inputs.eraseIdx k
      if others.isEmpty then pure gz else mulMany (gz :: others)
  | sub, _ => do
    let negated ← Build.neg gz
    pure [gz, negated]
  | neg, _ => do
    let negated ← Build.neg gz
    pure [negated]
  | trueDiv, x :: y :: _ => do
    let gx ← Build.trueDiv gz y
    let scaled ← Build.mul gz x
    let square ← Build.mul y y
    let ratio ← Build.trueDiv scaled square
    let gy ← Build.neg ratio
    pure [gx, gy]
  | mod, x :: y :: _ => do
    let quotient ← Build.intDiv x y
    let scaled ← Build.mul gz quotient
    let gy ← Build.neg scaled
    pure [gz, gy]
  | pow, x :: y :: _ => do
    let one ← constantLike y 1.0
    let lower ← Build.sub y one
    let power ← Build.pow x lower
    let gx ← mulMany [gz, y, power]
    let ln ← Build.elementary .log x
    let gy ← mulMany [gz, ln, z]
    pure [gx, gy]
  | reciprocal, x :: _ => do
    let square ← Build.mul x x
    let ratio ← Build.trueDiv gz square
    let gx ← Build.neg ratio
    pure [gx]
  | cast target, _ =>
    if target.isDiscrete then inputs.mapM zeroGradient else
      match inputs with
      | x :: _ => do
        let t ← typeOf x
        let gx ← Build.cast gz t
        pure [gx]
      | [] => throw (.missingOperand p.name)
  | switch, c :: _ => do
    let off ← constantLike gz 0.0
    let ga ← Build.switch c gz off
    let gb ← Build.switch c off gz
    let gc ← zeroGradient c
    pure [gc, ga, gb]
  | mean, _ => do
    let count ← constantLike gz (Real.ofInt inputs.length)
    let share ← Build.trueDiv gz count
    pure (inputs.map fun _ => share)
  | arctan2, y :: x :: _ => do
    let yy ← Build.mul y y
    let xx ← Build.mul x x
    let norm ← Build.add yy xx
    let gzx ← Build.mul gz x
    let gy ← Build.trueDiv gzx norm
    let gzy ← Build.mul gz y
    let ratio ← Build.trueDiv gzy norm
    let gx ← Build.neg ratio
    pure [gy, gx]
  | elementary f, x :: _ => do
    let gx ← f.gradient x z gz
    pure [gx]
  | intDiv, _ => inputs.mapM zeroGradient
  | compare _, _ => inputs.mapM zeroGradient
  | bitwise _, _ => inputs.mapM zeroGradient
  | inRange _ _, _ => inputs.mapM zeroGradient
  | _, _ => throw (.missingOperand p.name)

abbrev CallGradient := Composite → List ValueId → List ValueId → Build (List ValueId)

def Build.clearDiscrete : List ValueId → List ValueId → Build (List ValueId)
  | v :: vs, g :: gs => do
    let discrete ← isDiscrete v
    let first ← if discrete then zeroGradient v else pure g
    let rest ← clearDiscrete vs gs
    pure (first :: rest)
  | _, gs => pure gs

/-- The gradients of the operands of an operation. If all are discrete they are zeros, whatever the
    operation; otherwise a primitive needs the gradient of its output. -/
def Op.gradientWith (ofCall : CallGradient) (op : Op Composite)
    (inputs outputs arriving : List ValueId) : Build (List ValueId) := do
  let g ← get
  if inputs.all fun v => (g.typeOf v).isDiscrete then inputs.mapM zeroGradient else do
    let gradients ← match op with
      | .call c => ofCall c inputs arriving
      | .prim p =>
        match outputs, arriving with
        | z :: _, gz :: _ => p.gradient inputs z gz
        | _, _ => throw (.noOutputGradient p.name)
    clearDiscrete inputs gradients

namespace Build

def accumulate (gradients : Table ValueId) (v contribution : ValueId) : Build (Table ValueId) := do
  match gradients.get? v with
  | some existing => do
    let total ← add existing contribution
    pure (gradients.insert v total)
  | none => pure (gradients.insert v contribution)

def accumulateAll (gradients : Table ValueId) (pairs : List (ValueId × ValueId)) :
    Build (Table ValueId) :=
  pairs.foldlM (fun t (v, contribution) => accumulate t v contribution) gradients

def gradientOf (gradients : Table ValueId) (v : ValueId) : Build ValueId :=
  match gradients.get? v with
  | some g => pure g
  | none => zeroGradient v

/-- Passes the gradients of a node's outputs on to its operands; nothing happens if there are none.
    -/
def backNode (ofCall : CallGradient) (gradients : Table ValueId) (n : NodeId) :
    Build (Table ValueId) := do
  let g ← get
  match g.nodes[n]? with
  | none => pure gradients
  | some node =>
    if node.outputs.any gradients.contains then do
      let arriving ← node.outputs.mapM (gradientOf gradients)
      let contributions ← node.op.gradientWith ofCall node.inputs node.outputs arriving
      accumulateAll gradients (node.inputs.zip contributions)
    else pure gradients

/-- Propagates seeds `(value, gradient)` back through the nodes that they depend on, consumers
    before producers, up to the boundary. -/
def backpropagate (ofCall : CallGradient) (seeds : List (ValueId × ValueId))
    (targets boundary : List ValueId) : Build (List ValueId) := do
  let gradients ← accumulateAll .empty seeds
  let g ← get
  let nodes := g.ancestors (seeds.map Prod.fst) boundary
  let gradients ← nodes.reverse.foldlM (backNode ofCall) gradients
  targets.mapM (gradientOf gradients)

/-- The gradients of a call are those of the inlined body, swept back to the arguments. Callees
    of the body are one level below. -/
def callGradientAt : Nat → CallGradient
  | 0 => fun _ args _ => args.mapM zeroGradient
  | n + 1 => fun c args arriving => do
    let outputs ← inline c args
    backpropagate (callGradientAt n) (outputs.zip arriving) args args

def callGradient : CallGradient := fun c args arriving =>
  callGradientAt c.depth c args arriving

def gradient (cost : ValueId) (targets : List ValueId) : Build (List ValueId) := do
  let seed ← constantLike cost 1.0
  backpropagate callGradient [(cost, seed)] targets []

end Build

def Op.gradient (op : Op Composite) (inputs outputs arriving : List ValueId) :
    Build (List ValueId) :=
  op.gradientWith callGradient inputs outputs arriving

end ScalarFusion
