import ScalarFusion.Numerics
import ScalarFusion.Primitive.Basic

/-!
The value of a primitive operation. Discrete types compute with integers, floating and complex
types with doubles; the result is then converted to the output type, so that wrapping and
rounding are those of that type.
-/
namespace ScalarFusion

def Literal.intIn (t : ScalarType) (v : Literal) : Int :=
  ((v.cast t).toInt?).getD 0

def wrap64 (n : Int) : Int :=
  n.bmod Width.w64.modulus

namespace Primitive

/-- A sum, product or difference in the domain of the type; integers wrap after each step. -/
def fold (ints : Int → Int → Int) (floats : Float → Float → Float)
    (complexes : ComplexFloat → ComplexFloat → ComplexFloat) (t : ScalarType) :
    List Literal → Literal
  | [] => .ofInt 0
  | v :: vs =>
    match t with
    | .complex _ => .complex ((vs.map Literal.toComplex).foldl complexes v.toComplex)
    | .float _ => .float ((vs.map Literal.real).foldl floats v.real)
    | _ => .ofInt ((vs.map (Literal.intIn t)).foldl (fun a b => wrap64 (ints a b)) (v.intIn t))

/-- Integer quotient rounded down; 0 for a zero divisor. Where something is left and the operands
    have opposite signs, the truncated quotient is one too great. -/
def floorDiv (a b : Int) : Int :=
  if b = 0 then 0
  else if a.tmod b ≠ 0 && decide (a < 0) != decide (b < 0) then a.tdiv b - 1
  else a.tdiv b

def floorMod (a b : Int) : Int :=
  if b = 0 then 0 else
    let r := a.tmod b
    if r ≠ 0 && decide (r < 0) != decide (b < 0) then r + b else r

def powerLoop : Nat → Int → Nat → Int → Int
  | 0, _, _, acc => acc
  | fuel + 1, base, exponent, acc =>
    if exponent = 0 then acc else
      powerLoop fuel (wrap64 (base * base)) (exponent / 2)
        (if exponent % 2 = 1 then wrap64 (acc * base) else acc)

/-- Integer power within 64 bits. A negative exponent truncates the inverse power: only 1 and -1
    keep a magnitude. -/
def integerPower (base exponent : Int) : Int :=
  if exponent < 0 then
    if base = 1 then 1
    else if base = -1 then (if exponent % 2 = 0 then 1 else -1)
    else 0
  else powerLoop (Real.bitLength exponent.toNat) base exponent.toNat 1

def compareIn (t : ScalarType) (a b : Literal) : Option Ordering :=
  match t with
  | .complex _ => if a.toComplex.equal b.toComplex then some .eq else none
  | .float _ =>
    let x := a.real
    let y := b.real
    if x < y then some .lt else if x == y then some .eq else if y < x then some .gt else none
  | _ => some (compareOfLessAndEq (a.intIn t) (b.intIn t))

end Primitive

namespace Comparison

def holds : Comparison → Option Ordering → Bool
  | gt, o => o == some .gt
  | lt, o => o == some .lt
  | ge, o => o == some .gt || o == some .eq
  | le, o => o == some .lt || o == some .eq
  | eq, o => o == some .eq
  | neq, o => o != some .eq

end Comparison

namespace Bitwise

def onBools : Bitwise → List Bool → Bool
  | and, bs => bs.all id
  | or, bs => bs.any id
  | xor, bs => bs.foldl Bool.xor false
  | invert, bs => !(bs.head?.getD false)

def onWords : Bitwise → List Int64 → Int64
  | and, ws => ws.foldl (· &&& ·) (-1)
  | or, ws => ws.foldl (· ||| ·) 0
  | xor, ws => ws.foldl (· ^^^ ·) 0
  | invert, ws => ~~~(ws.head?.getD 0)

def evaluate (b : Bitwise) (t : ScalarType) (values : List Literal) : Except Error Literal :=
  match t with
  | .complex _ => .error (.complexOperands b.name)
  | .bool => .ok (.bool (b.onBools (values.map Literal.isTruthy)))
  | _ => .ok (.signed (b.onWords (values.map fun v => Int64.ofInt (v.intIn t))))

end Bitwise

namespace Elementary

variable [n : Numerics]

def onFloat : Elementary → Float → Float
  | sqrt, x => x.sqrt
  | log, x => x.log
  | log2, x => x.log2
  | log10, x => x.log10
  | log1p, x => n.log1p x
  | exp, x => x.exp
  | exp2, x => x.exp2
  | expm1, x => n.expm1 x
  | sin, x => x.sin
  | cos, x => x.cos
  | tan, x => x.tan
  | arcsin, x => x.asin
  | arccos, x => x.acos
  | arctan, x => x.atan
  | sinh, x => x.sinh
  | cosh, x => x.cosh
  | tanh, x => x.tanh
  | arcsinh, x => n.arcsinh x
  | arccosh, x => n.arccosh x
  | arctanh, x => n.arctanh x
  | deg2rad, x => x * Real.radiansPerDegree
  | rad2deg, x => x * Real.degreesPerRadian

def onComplex : Elementary → ComplexFloat → ComplexFloat
  | sqrt, z => n.complex.sqrt z
  | log, z => n.complex.log z
  | log2, z => n.complex.unscale (n.complex.log z) Real.ln2
  | log10, z => n.complex.unscale (n.complex.log z) Real.ln10
  | log1p, z => n.complex.log (n.complex.add z .one)
  | exp, z => n.complex.exp z
  | exp2, z => n.complex.exp (n.complex.scale z Real.ln2)
  | expm1, z => n.complex.sub (n.complex.exp z) .one
  | sin, z => n.complex.sin z
  | cos, z => n.complex.cos z
  | tan, z => n.complex.tan z
  | arcsin, z => n.complex.arcsin z
  | arccos, z => n.complex.arccos z
  | arctan, z => n.complex.arctan z
  | sinh, z => n.complex.sinh z
  | cosh, z => n.complex.cosh z
  | tanh, z => n.complex.tanh z
  | arcsinh, z => n.complex.arcsinh z
  | arccosh, z => n.complex.arccosh z
  | arctanh, z => n.complex.arctanh z
  | deg2rad, z => n.complex.scale z Real.radiansPerDegree
  | rad2deg, z => n.complex.scale z Real.degreesPerRadian

end Elementary

namespace Primitive

/-- The mean of the values; 0 of none. Reals are summed from -0.0 and complex numbers from 0. -/
def average [n : Numerics] (t : ScalarType) (values : List Literal) : Literal :=
  if values.isEmpty then .float 0.0 else
    let count := Real.ofInt values.length
    match t with
    | .complex _ =>
      .complex (n.complex.unscale ((values.map Literal.toComplex).foldl n.complex.add .zero) count)
    | _ => .float ((values.map Literal.real).foldl (· + ·) (-0.0) / count)

def comparedIn (inputTypes : List ScalarType) : ScalarType :=
  (ScalarType.upcast inputTypes).getD (.float .double)

def compute [n : Numerics] (p : Primitive) (values : List Literal) (inputTypes : List ScalarType)
    (t : ScalarType) : Except Error Literal :=
  match p, values with
  | add, vs => .ok (fold (· + ·) (· + ·) n.complex.add t vs)
  | mul, vs => .ok (fold (· * ·) (· * ·) n.complex.mul t vs)
  | sub, vs => .ok (fold (· - ·) (· - ·) n.complex.sub t vs)
  | mean, vs => .ok (average t vs)
  | bitwise b, vs => b.evaluate t vs
  | neg, [a] =>
    match t with
    | .complex _ => .ok (.complex (n.complex.neg a.toComplex))
    | .float _ => .ok (.float (-a.real))
    | _ => .ok (.ofInt (-a.intIn t))
  | reciprocal, [a] =>
    match t with
    | .complex _ => .ok (.complex (n.complex.inv a.toComplex))
    | _ => .ok (.float (1.0 / a.real))
  | identity, [a] => .ok a
  | cast _, [a] => .ok a
  | elementary f, [a] =>
    match t with
    | .complex _ => .ok (.complex (f.onComplex a.toComplex))
    | _ => .ok (.float (f.onFloat a.real))
  | trueDiv, [a, b] =>
    match t with
    | .complex _ => .ok (.complex (n.complex.div a.toComplex b.toComplex))
    | _ => .ok (.float (a.real / b.real))
  | intDiv, [a, b] =>
    match t with
    | .complex _ => .error (.complexOperands p.name)
    | .float _ => .ok (.float (a.real / b.real).floor)
    | _ => .ok (.ofInt (floorDiv (a.intIn t) (b.intIn t)))
  | mod, [a, b] =>
    match t with
    | .complex _ => .error (.complexOperands p.name)
    | .float _ => .ok (.float (Real.floorMod a.real b.real))
    | _ => .ok (.ofInt (floorMod (a.intIn t) (b.intIn t)))
  | pow, [a, b] =>
    match t with
    | .complex _ => .ok (.complex (n.complex.pow a.toComplex b.toComplex))
    | .float _ => .ok (.float (a.real.pow b.real))
    | _ => .ok (.ofInt (integerPower (a.intIn t) (b.intIn t)))
  | arctan2, [a, b] => .ok (.float (Float.atan2 a.real b.real))
  | compare c, [a, b] => .ok (.bool (c.holds (compareIn (comparedIn inputTypes) a b)))
  | switch, [c, a, b] => .ok (if c.isTruthy then a else b)
  | inRange lower upper, [x, low, high] =>
    let t := comparedIn inputTypes
    let above := (if lower then Comparison.ge else .gt).holds (compareIn t x low)
    let below := (if upper then Comparison.le else .lt).holds (compareIn t x high)
    .ok (.bool (above && below))
  | _, vs => .error (p.arityError vs.length)

def evaluate [Numerics] (p : Primitive) (values : List Literal)
    (inputTypes outputTypes : List ScalarType) : Except Error (List Literal) := do
  p.checkArity values.length
  match outputTypes with
  | [] => .error (.undeclaredOutput p.name)
  | t :: _ => do
    let v ← p.compute values inputTypes t
    .ok [v.cast t]

end Primitive

end ScalarFusion
