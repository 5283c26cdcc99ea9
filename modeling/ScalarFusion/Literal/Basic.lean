import ScalarFusion.ComplexFloat
import ScalarFusion.Real.Decimal
import ScalarFusion.ScalarType

/-!
Literals: the values that constants hold and that evaluation computes with, and their conversion
to a scalar type.
-/
namespace ScalarFusion

inductive Literal where
  | bool (value : Bool)
  | signed (value : Int64)
  | unsigned (value : UInt64)
  | float (value : Float)
  | complex (value : ComplexFloat)
  deriving DecidableEq, Repr

def ScalarType.bounds : ScalarType → Int × Int
  | bool => (0, 1)
  | signed w => (-((w.modulus / 2 : Nat) : Int), ((w.modulus / 2 : Nat) : Int) - 1)
  | unsigned w => (0, (w.modulus : Int) - 1)
  | float _ => (-Real.wide, Real.wide - 1)
  | complex _ => (-Real.wide, Real.wide - 1)

def ScalarType.holds (t : ScalarType) (n : Int) : Bool :=
  decide (t.bounds.1 ≤ n ∧ n ≤ t.bounds.2)

/-- The rounding of doubles to a precision. Half precision is reached through single. -/
def Precision.round : Precision → Float → Float
  | half, x => Real.Format.half.narrow (Real.Format.single.narrow x)
  | single, x => Real.Format.single.narrow x
  | double, x => x

namespace Literal

def toInt? : Literal → Option Int
  | bool b => some (if b then 1 else 0)
  | signed n => some n.toInt
  | unsigned n => some n.toNat
  | float _ => none
  | complex _ => none

def ofInt (n : Int) : Literal :=
  if (ScalarType.signed .w64).holds n then signed (Int64.ofInt n) else unsigned (UInt64.ofInt n)

def isTruthy : Literal → Bool
  | bool b => b
  | signed n => n != 0
  | unsigned n => n != 0
  | float x => x != 0.0
  | complex z => z.re != 0.0 || z.im != 0.0

def real : Literal → Float
  | bool b => if b then 1.0 else 0.0
  | signed n => Real.ofInt n.toInt
  | unsigned n => Real.ofInt n.toNat
  | float x => x
  | complex z => z.re

def toComplex : Literal → ComplexFloat
  | complex z => z
  | v => .ofReal v.real

def toFloat? : Literal → Option Float
  | complex _ => none
  | v => some v.real

/-- The integer part of the value, kept within 128 signed bits. -/
def truncated (v : Literal) : Int :=
  match v.toInt? with
  | some n => n
  | none => Real.truncate v.real

def integer? (v : Literal) : Option Int :=
  match v.toInt? with
  | some n => some n
  | none => Real.integer? v.real

def smallestSigned (n : Int) : ScalarType :=
  if (ScalarType.signed .w8).holds n then .signed .w8
  else if (ScalarType.signed .w16).holds n then .signed .w16
  else if (ScalarType.signed .w32).holds n then .signed .w32
  else .signed .w64

def inferType : Literal → ScalarType
  | bool _ => .bool
  | signed n => smallestSigned n.toInt
  | unsigned n => if (ScalarType.signed .w64).holds n.toNat then smallestSigned n.toNat else .unsigned .w64
  | float _ => .float .double
  | complex _ => .complex .double

/-- Conversion to a type: integers keep their low bits, reals are truncated to integers, floating
    targets round. -/
def cast (v : Literal) : ScalarType → Literal
  | .bool => bool v.isTruthy
  | .signed w => signed (Int64.ofInt (v.truncated.bmod w.modulus))
  | .unsigned w => unsigned (UInt64.ofInt (v.truncated % w.modulus))
  | .float p => float (p.round v.real)
  | .complex p =>
    let z := v.toComplex
    complex ⟨p.toPrecision.round z.re, p.toPrecision.round z.im⟩

end Literal

end ScalarFusion
