import ScalarFusion.ComplexFloat

/-!
The numerical functions that evaluation takes from its platform. Results about evaluation hold
whatever these functions are; `Numerics.standard` is the choice with which programs run.
-/
namespace ScalarFusion

structure ComplexFloat.Functions where
  neg : ComplexFloat → ComplexFloat
  inv : ComplexFloat → ComplexFloat
  add : ComplexFloat → ComplexFloat → ComplexFloat
  sub : ComplexFloat → ComplexFloat → ComplexFloat
  mul : ComplexFloat → ComplexFloat → ComplexFloat
  div : ComplexFloat → ComplexFloat → ComplexFloat
  scale : ComplexFloat → Float → ComplexFloat
  unscale : ComplexFloat → Float → ComplexFloat
  pow : ComplexFloat → ComplexFloat → ComplexFloat
  sqrt : ComplexFloat → ComplexFloat
  log : ComplexFloat → ComplexFloat
  exp : ComplexFloat → ComplexFloat
  sin : ComplexFloat → ComplexFloat
  cos : ComplexFloat → ComplexFloat
  tan : ComplexFloat → ComplexFloat
  arcsin : ComplexFloat → ComplexFloat
  arccos : ComplexFloat → ComplexFloat
  arctan : ComplexFloat → ComplexFloat
  sinh : ComplexFloat → ComplexFloat
  cosh : ComplexFloat → ComplexFloat
  tanh : ComplexFloat → ComplexFloat
  arcsinh : ComplexFloat → ComplexFloat
  arccosh : ComplexFloat → ComplexFloat
  arctanh : ComplexFloat → ComplexFloat

class Numerics where
  log1p : Float → Float
  expm1 : Float → Float
  arcsinh : Float → Float
  arccosh : Float → Float
  arctanh : Float → Float
  complex : ComplexFloat.Functions

namespace ComplexFloat

def functions : Functions where
  neg := neg
  inv := inv
  add := add
  sub := sub
  mul := mul
  div := div
  scale := scale
  unscale := unscale
  pow := pow
  sqrt := sqrt
  log := log
  exp := exp
  sin := sin
  cos := cos
  tan := tan
  arcsin := arcsin
  arccos := arccos
  arctan := arctan
  sinh := sinh
  cosh := cosh
  tanh := tanh
  arcsinh := arcsinh
  arccosh := arccosh
  arctanh := arctanh

end ComplexFloat

instance Numerics.standard : Numerics where
  log1p := Real.log1p
  expm1 := Real.expm1
  arcsinh := Float.asinh
  arccosh := Float.acosh
  arctanh := Real.arctanh
  complex := ComplexFloat.functions

end ScalarFusion
