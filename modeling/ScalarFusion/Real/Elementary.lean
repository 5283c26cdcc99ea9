import ScalarFusion.Real.Binary

/-!
Functions on doubles that are exact or correctly rounded by integer arithmetic, the two functions
that stay accurate near zero, and the inverse of the hyperbolic tangent as a logarithm.
-/
namespace ScalarFusion.Real

def nan : Float := 0.0 / 0.0
def pi : Float := 3.141592653589793
def ln2 : Float := 0.6931471805599453
def ln10 : Float := 2.302585092994046
def radiansPerDegree : Float := pi / 180.0
def degreesPerRadian : Float := 180.0 / pi

def align (m₁ : Nat) (q₁ : Int) (m₂ : Nat) (q₂ : Int) : Nat × Nat × Int :=
  let q := min q₁ q₂
  (m₁ * pow2 (q₁ - q).toNat, m₂ * pow2 (q₂ - q).toNat, q)

def remainder (x y : Float) : Float :=
  match read x, read y with
  | .finite negative m₁ q₁, .finite _ m₂ q₂ =>
    if m₂ = 0 then nan else
      let (a, b, q) := align m₁ q₁ m₂ q₂
      ofDyadic negative (a % b) q
  | .finite _ _ _, .infinite _ => x
  | _, _ => nan

def floorMod (x y : Float) : Float :=
  let r := remainder x y
  if r != 0.0 && (r < 0.0) != (y < 0.0) then r + y else r

def rootStep (n : Nat) : Nat → Nat → Nat
  | 0, r => r
  | k + 1, r =>
    let next := r + pow2 k
    rootStep n k (if next * next ≤ n then next else r)

def root (n : Nat) : Nat :=
  rootStep n (bitLength n / 2 + 1) 0

def hypot (x y : Float) : Float :=
  match read x, read y with
  | .infinite _, _ => infinity false
  | _, .infinite _ => infinity false
  | .finite _ m₁ q₁, .finite _ m₂ q₂ =>
    let (a, b, q) := align m₁ q₁ m₂ q₂
    let square := (a * a + b * b) * pow2 128
    let r := root square
    let sticky := if r * r = square then 0 else 1
    ofDyadic false (2 * r + sticky) (q - 65)
  | _, _ => nan

/-- `log (1 + x)`, accurate for small `x`: what the rounding of `1 + x` lost is added again. -/
def log1p (x : Float) : Float :=
  let u := 1.0 + x
  if u == 1.0 then x
  else if u == 0.0 || u.isInf then u.log
  else u.log + (x - (u - 1.0)) / u

/-- `exp x - 1`, accurate for small `x`: what the rounding of `exp x` added is taken away again. -/
def expm1 (x : Float) : Float :=
  let u := x.exp
  if u == 1.0 then x
  else if x.abs < 1.0 then (u - 1.0) - u * (u.log - x)
  else u - 1.0

/-- The inverse of `tanh` as half the logarithm of `1 + 2 x / (1 - x)`. The quotient is rounded near
    `-1`, so the two signs need not give opposite values. -/
def arctanh (x : Float) : Float :=
  0.5 * log1p (2.0 * x / (1.0 - x))

end ScalarFusion.Real
