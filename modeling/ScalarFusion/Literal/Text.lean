import ScalarFusion.Literal.Basic

/-!
The two texts of a literal: the one in signatures and messages, and the one in C code.
-/
namespace ScalarFusion.Literal

def text : Literal → String
  | bool b => if b then "true" else "false"
  | signed n => toString n.toInt
  | unsigned n => toString n.toNat
  | float x => Real.text x
  | complex z =>
    let sign := if Real.isNegative z.im then "-" else "+"
    "(" ++ Real.text z.re ++ sign ++ Real.text z.im.abs ++ "j)"

def floatCText (x : Float) (single : Bool) : String :=
  match Real.read x with
  | .nan => "NAN"
  | .infinite negative => if negative then "-INFINITY" else "INFINITY"
  | .finite _ _ _ => Real.text x ++ (if single then "f" else "")

/-- A signed integer as a C constant. The least one has no literal of its own. -/
def signedCText (n : Int) : String :=
  if n = (ScalarType.signed .w64).bounds.1 then "(-9223372036854775807LL - 1)"
  else if (ScalarType.signed .w32).holds n then toString n
  else toString n ++ "LL"

def unsignedCText (n : Nat) : String :=
  if n < Width.w32.modulus then toString n ++ "u" else toString n ++ "ULL"


def cText (v : Literal) (t : ScalarType) : String :=
  let single := t == .float .half || t == .float .single || t == .complex .single
  match v.cast t with
  | bool b => if b then "1" else "0"
  | signed n => signedCText n.toInt
  | unsigned n => unsignedCText n.toNat
  | float x => floatCText x single
  | complex z => "(" ++ floatCText z.re single ++ " + " ++ floatCText z.im single ++ " * I)"

end ScalarFusion.Literal
