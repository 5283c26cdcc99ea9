import ScalarFusion.Real.Elementary

/-!
Complex numbers with double parts. Products and quotients are the plain formulas, which decide
the cases with overflow and with parts that are not numbers.
-/
namespace ScalarFusion

structure ComplexFloat where
  re : Float
  im : Float
  deriving DecidableEq, Repr

namespace ComplexFloat

def ofReal (x : Float) : ComplexFloat := ⟨x, 0.0⟩
def zero : ComplexFloat := ⟨0.0, 0.0⟩
def one : ComplexFloat := ⟨1.0, 0.0⟩
def two : ComplexFloat := ⟨2.0, 0.0⟩
def i : ComplexFloat := ⟨0.0, 1.0⟩

def neg (z : ComplexFloat) : ComplexFloat := ⟨-z.re, -z.im⟩
def add (z w : ComplexFloat) : ComplexFloat := ⟨z.re + w.re, z.im + w.im⟩
def sub (z w : ComplexFloat) : ComplexFloat := ⟨z.re - w.re, z.im - w.im⟩

def mul (z w : ComplexFloat) : ComplexFloat :=
  ⟨z.re * w.re - z.im * w.im, z.re * w.im + z.im * w.re⟩

def div (z w : ComplexFloat) : ComplexFloat :=
  let n := w.re * w.re + w.im * w.im
  ⟨(z.re * w.re + z.im * w.im) / n, (z.im * w.re - z.re * w.im) / n⟩

def inv (z : ComplexFloat) : ComplexFloat :=
  let n := z.re * z.re + z.im * z.im
  ⟨z.re / n, -z.im / n⟩

def scale (z : ComplexFloat) (x : Float) : ComplexFloat := ⟨z.re * x, z.im * x⟩
def unscale (z : ComplexFloat) (x : Float) : ComplexFloat := ⟨z.re / x, z.im / x⟩

/-- Equality of numbers: both zeros are equal, and what is not a number differs from itself. -/
def equal (z w : ComplexFloat) : Bool := z.re == w.re && z.im == w.im

def isZero (z : ComplexFloat) : Bool := z.re == 0.0 && z.im == 0.0

def ofPolar (r t : Float) : ComplexFloat := ⟨r * t.cos, r * t.sin⟩

def log (z : ComplexFloat) : ComplexFloat :=
  ⟨(Real.hypot z.re z.im).log, Float.atan2 z.im z.re⟩

def exp (z : ComplexFloat) : ComplexFloat :=
  let infinite := z.re.isInf
  let negative := Real.isNegative z.re
  let plain := z.im.isFinite
  if infinite && negative && !plain then zero
  else if infinite && !negative && (z.im == 0.0 || !plain) then
    ⟨z.re, if z.im.isInf then Real.nan else z.im⟩
  else if z.re.isNaN && z.im == 0.0 then z
  else ofPolar z.re.exp z.im

def sqrt (z : ComplexFloat) : ComplexFloat :=
  if z.im == 0.0 then
    if Real.isNegative z.re then ⟨0.0, Real.copySign (-z.re).sqrt z.im⟩ else ⟨z.re.sqrt, z.im⟩
  else if z.re == 0.0 then
    let x := (z.im.abs / 2.0).sqrt
    ⟨x, Real.copySign x z.im⟩
  else ofPolar (Real.hypot z.re z.im).sqrt (Float.atan2 z.im z.re / 2.0)

def pow (z w : ComplexFloat) : ComplexFloat :=
  if w.isZero then one else (w.mul z.log).exp

def sin (z : ComplexFloat) : ComplexFloat :=
  ⟨z.re.sin * z.im.cosh, z.re.cos * z.im.sinh⟩

def cos (z : ComplexFloat) : ComplexFloat :=
  ⟨z.re.cos * z.im.cosh, -z.re.sin * z.im.sinh⟩

def tan (z : ComplexFloat) : ComplexFloat :=
  let a := z.re + z.re
  let b := z.im + z.im
  unscale ⟨a.sin, b.sinh⟩ (a.cos + b.cosh)

def sinh (z : ComplexFloat) : ComplexFloat :=
  ⟨z.re.sinh * z.im.cos, z.re.cosh * z.im.sin⟩

def cosh (z : ComplexFloat) : ComplexFloat :=
  ⟨z.re.cosh * z.im.cos, z.re.sinh * z.im.sin⟩

def tanh (z : ComplexFloat) : ComplexFloat :=
  let a := z.re + z.re
  let b := z.im + z.im
  unscale ⟨a.sinh, b.sin⟩ (a.cosh + b.cos)

def arcsin (z : ComplexFloat) : ComplexFloat :=
  (neg i).mul (((one.sub (z.mul z)).sqrt.add (i.mul z)).log)

def arccos (z : ComplexFloat) : ComplexFloat :=
  (neg i).mul (((i.mul (one.sub (z.mul z)).sqrt).add z).log)

def arctan (z : ComplexFloat) : ComplexFloat :=
  if z.equal i then ⟨0.0, Real.infinity false⟩
  else if z.equal (neg i) then ⟨0.0, Real.infinity true⟩
  else (((one.add (i.mul z)).log).sub ((one.sub (i.mul z)).log)).div (two.mul i)

def arcsinh (z : ComplexFloat) : ComplexFloat :=
  (z.add (one.add (z.mul z)).sqrt).log

def arccosh (z : ComplexFloat) : ComplexFloat :=
  two.mul (((((z.add one).div two).sqrt).add (((z.sub one).div two).sqrt)).log)

def arctanh (z : ComplexFloat) : ComplexFloat :=
  if z.equal one then ⟨Real.infinity false, 0.0⟩
  else if z.equal (neg one) then ⟨Real.infinity true, 0.0⟩
  else (((one.add z).log).sub ((one.sub z).log)).div two

end ComplexFloat

end ScalarFusion
