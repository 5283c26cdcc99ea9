/-!
Doubles read exactly as sign · mantissa · 2^exponent, and rounding of such numbers to a binary
format, to nearest with ties to even. All arithmetic here is on `Nat` and `Int`.
-/
namespace ScalarFusion.Real

inductive Reading where
  | nan
  | infinite (negative : Bool)
  | finite (negative : Bool) (mantissa : Nat) (exponent : Int)
  deriving DecidableEq, Repr

/-- A binary format: numbers `m · 2^q` with `m < 2^digits` and `least ≤ q ≤ greatest`. -/
structure Format where
  digits : Nat
  least : Int
  greatest : Int
  deriving DecidableEq, Repr

def Format.half : Format := ⟨11, -24, 5⟩
def Format.single : Format := ⟨24, -149, 104⟩
def Format.double : Format := ⟨53, -1074, 971⟩

def pow2 (k : Nat) : Nat :=
  Nat.pow 2 k

def read (x : Float) : Reading :=
  let word := x.toBits.toNat
  let negative := decide (pow2 63 ≤ word)
  let field : Nat := word / pow2 52 % pow2 11
  let fraction := word % pow2 52
  if field = 2047 then
    if fraction = 0 then .infinite negative else .nan
  else if field = 0 then .finite negative fraction (-1074)
  else .finite negative (pow2 52 + fraction) (field - 1075)

def bitLength (m : Nat) : Nat :=
  if m = 0 then 0 else m.log2 + 1

def shiftRound (m k : Nat) : Nat :=
  let quotient := m / pow2 k
  let twice := 2 * (m % pow2 k)
  if pow2 k < twice || (twice = pow2 k && quotient % 2 = 1) then quotient + 1 else quotient

/-- The number of the format nearest to `m · 2^q`, as a mantissa and an exponent; none if it is
    beyond the largest one. -/
def Format.round (f : Format) (m : Nat) (q : Int) : Option (Nat × Int) :=
  if m = 0 then some (0, f.least) else
    let target := max f.least (q + bitLength m - f.digits)
    let rounded := if target ≤ q then m * pow2 (q - target).toNat else shiftRound m (target - q).toNat
    if f.greatest < target ∨ (target = f.greatest ∧ pow2 f.digits ≤ rounded) then none
    else some (rounded, target)

def signWord (negative : Bool) : Nat :=
  if negative then pow2 63 else 0

def infinity (negative : Bool) : Float :=
  Float.ofBits (UInt64.ofNat (signWord negative + 2047 * pow2 52))

def ofDyadic (negative : Bool) (m : Nat) (q : Int) : Float :=
  match Format.double.round m q with
  | none => infinity negative
  | some (r, t) => Float.ofBits (UInt64.ofNat (signWord negative + (t + 1074).toNat * pow2 52 + r))

def Format.narrow (f : Format) (x : Float) : Float :=
  match read x with
  | .nan => x
  | .infinite _ => x
  | .finite negative m q =>
    match f.round m q with
    | none => infinity negative
    | some (r, t) => ofDyadic negative r t

def ofInt (n : Int) : Float :=
  ofDyadic (decide (n < 0)) n.natAbs 0

/-- The sign bit; it also tells `-0.0` from `0.0`. -/
def isNegative (x : Float) : Bool :=
  decide (pow2 63 ≤ x.toBits.toNat)

def copySign (x y : Float) : Float :=
  if isNegative y then -x.abs else x.abs

def integerPart (m : Nat) (q : Int) : Nat :=
  if 0 ≤ q then m * pow2 q.toNat else m / pow2 (-q).toNat

def isIntegral (m : Nat) (q : Int) : Bool :=
  decide (0 ≤ q) || m % pow2 (-q).toNat == 0

def applySign (negative : Bool) (n : Nat) : Int :=
  if negative then -(n : Int) else n

def wide : Int :=
  pow2 127

def clampWide (n : Int) : Int :=
  if n < -wide then -wide else if wide ≤ n then wide - 1 else n

/-- The integer part of a double, kept within 128 signed bits; nothing is read as 0. -/
def truncate (x : Float) : Int :=
  match read x with
  | .nan => 0
  | .infinite negative => if negative then -wide else wide - 1
  | .finite negative m q => clampWide (applySign negative (integerPart m q))

def integer? (x : Float) : Option Int :=
  match read x with
  | .finite negative m q =>
    if isIntegral m q then some (clampWide (applySign negative (integerPart m q))) else none
  | _ => none

def ofSingleBits (word : UInt32) : Float :=
  let negative := decide (pow2 31 ≤ word.toNat)
  let field : Nat := word.toNat / pow2 23 % pow2 8
  let fraction := word.toNat % pow2 23
  if field = 255 then
    if fraction = 0 then infinity negative else Float.ofBits 0x7ff8000000000000
  else if field = 0 then ofDyadic negative fraction (-149)
  else ofDyadic negative (pow2 23 + fraction) (field - 150)

end ScalarFusion.Real
