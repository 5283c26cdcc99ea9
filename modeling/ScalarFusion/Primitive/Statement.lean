import ScalarFusion.Primitive.Basic

/-!
The C statement that assigns the value of a primitive operation to its output.
-/
namespace ScalarFusion

def ScalarType.cName : ScalarType → Except Error String
  | bool => .ok "uint8_t"
  | signed .w8 => .ok "int8_t"
  | signed .w16 => .ok "int16_t"
  | signed .w32 => .ok "int32_t"
  | signed .w64 => .ok "int64_t"
  | unsigned .w8 => .ok "uint8_t"
  | unsigned .w16 => .ok "uint16_t"
  | unsigned .w32 => .ok "uint32_t"
  | unsigned .w64 => .ok "uint64_t"
  | float .half => .error .halfInC
  | float .single => .ok "float"
  | float .double => .ok "double"
  | complex .single => .ok "float _Complex"
  | complex .double => .ok "double _Complex"

def ScalarType.isSingle : ScalarType → Bool
  | float .single => true
  | complex .single => true
  | _ => false

structure Operand where
  text : String
  type : ScalarType
  deriving DecidableEq, Repr

namespace Operand

def convert (x : Operand) (t : ScalarType) : Except Error String :=
  if x.type = t then .ok x.text else do
    let name ← t.cName
    if t.isBool then .ok ("((" ++ name ++ ")(" ++ x.text ++ " != 0))")
    else if x.type.isComplex && !t.isComplex then
      let part := if x.type = .complex .single then "crealf" else "creal"
      .ok ("((" ++ name ++ ")" ++ part ++ "(" ++ x.text ++ "))")
    else .ok ("((" ++ name ++ ")" ++ x.text ++ ")")

end Operand

def cFunction (base : String) : ScalarType → Except Error String
  | .float .single => .ok (base ++ "f")
  | .float .double => .ok base
  | .complex .single => .ok ("c" ++ base ++ "f")
  | .complex .double => .ok ("c" ++ base)
  | t => .error (.noCFunction base t)

namespace Elementary

def cCall (base : String) (t : ScalarType) (x : String) : Except Error String := do
  let f ← cFunction base t
  .ok (f ++ "(" ++ x ++ ")")

/-- The C expression for the function at a type. The complex functions that C lacks are built
    from logarithm and exponential. -/
def cExpression (f : Elementary) (t : ScalarType) (x : String) : Except Error String :=
  let constant := fun (c : Float) => Literal.floatCText c t.isSingle
  match f with
  | sqrt => cCall "sqrt" t x
  | log => cCall "log" t x
  | exp => cCall "exp" t x
  | sin => cCall "sin" t x
  | cos => cCall "cos" t x
  | tan => cCall "tan" t x
  | arcsin => cCall "asin" t x
  | arccos => cCall "acos" t x
  | arctan => cCall "atan" t x
  | sinh => cCall "sinh" t x
  | cosh => cCall "cosh" t x
  | tanh => cCall "tanh" t x
  | arcsinh => cCall "asinh" t x
  | arccosh => cCall "acosh" t x
  | arctanh => cCall "atanh" t x
  | deg2rad => .ok (x ++ " * " ++ constant Real.radiansPerDegree)
  | rad2deg => .ok (x ++ " * " ++ constant Real.degreesPerRadian)
  | log2 =>
    if t.isComplex then do
      let call ← cCall "log" t x
      .ok (call ++ " / " ++ constant Real.ln2)
    else cCall "log2" t x
  | log10 =>
    if t.isComplex then do
      let call ← cCall "log" t x
      .ok (call ++ " / " ++ constant Real.ln10)
    else cCall "log10" t x
  | log1p =>
    if t.isComplex then cCall "log" t (constant 1.0 ++ " + " ++ x) else cCall "log1p" t x
  | exp2 =>
    if t.isComplex then cCall "exp" t (x ++ " * " ++ constant Real.ln2) else cCall "exp2" t x
  | expm1 =>
    if t.isComplex then do
      let call ← cCall "exp" t x
      .ok (call ++ " - " ++ constant 1.0)
    else cCall "expm1" t x

end Elementary

namespace Primitive

def braced (statements : List String) : String :=
  "\x7b\n" ++ String.intercalate "\n" (statements.map ("    " ++ ·)) ++ "\n\x7d"

def signedQuotient (type out a b id : String) : String :=
  let x := "V" ++ id ++ "_a"
  let y := "V" ++ id ++ "_b"
  braced
    [type ++ " " ++ x ++ " = " ++ a ++ ";",
     type ++ " " ++ y ++ " = " ++ b ++ ";",
     out ++ " = (" ++ y ++ " == 0) ? 0 : (" ++ x ++ " / " ++ y ++ " - ((" ++ x ++ " % " ++ y ++
       " != 0) && ((" ++ x ++ " % " ++ y ++ " < 0) != (" ++ y ++ " < 0))));"]

def signedRemainder (type out a b id : String) : String :=
  let y := "V" ++ id ++ "_b"
  let r := "V" ++ id ++ "_r"
  braced
    [type ++ " " ++ y ++ " = " ++ b ++ ";",
     type ++ " " ++ r ++ " = (" ++ y ++ " == 0) ? 0 : " ++ a ++ " % " ++ y ++ ";",
     out ++ " = (" ++ r ++ " != 0 && ((" ++ r ++ " < 0) != (" ++ y ++ " < 0))) ? " ++ r ++ " + " ++
       y ++ " : " ++ r ++ ";"]

def floatRemainder (type out f a b id : String) : String :=
  let r := "V" ++ id ++ "_r"
  braced
    [type ++ " " ++ r ++ " = " ++ f ++ "(" ++ a ++ ", " ++ b ++ ");",
     out ++ " = (" ++ r ++ " != 0 && ((" ++ r ++ " < 0) != (" ++ b ++ " < 0))) ? " ++ r ++ " + " ++
       b ++ " : " ++ r ++ ";"]

def powerLoopText (type : String) (unsigned : Bool) (out a b id : String) : String :=
  let base := "V" ++ id ++ "_base"
  let exponent := "V" ++ id ++ "_exp"
  let acc := "V" ++ id ++ "_acc"
  let start :=
    if unsigned then
      ["uint64_t " ++ exponent ++ " = (uint64_t)" ++ b ++ ";",
       type ++ " " ++ acc ++ " = 1;"]
    else
      ["int64_t " ++ exponent ++ " = (int64_t)" ++ b ++ ";",
       type ++ " " ++ acc ++ " = 1;",
       "if (" ++ exponent ++ " < 0) \x7b",
       "    " ++ acc ++ " = (" ++ base ++ " == 1) ? 1 : (" ++ base ++ " == -1) ? ((" ++ exponent ++
         " & 1) ? -1 : 1) : 0;",
       "\x7d"]
  braced
    ([type ++ " " ++ base ++ " = " ++ a ++ ";"] ++ start ++
      ["while (" ++ exponent ++ " > 0) \x7b",
       "    if (" ++ exponent ++ " & 1) " ++ acc ++ " *= " ++ base ++ ";",
       "    " ++ base ++ " *= " ++ base ++ ";",
       "    " ++ exponent ++ " >>= 1;",
       "\x7d",
       out ++ " = " ++ acc ++ ";"])

/-- The C statement that assigns the operation's value to `out`; its helper variables carry the name
    `id`. -/
def assignment (p : Primitive) (inputs : List Operand) (out : Operand) (id : String) :
    Except Error String := do
  let t := out.type
  let o := out.text
  let type ← t.cName
  let set := fun (expression : String) => o ++ " = " ++ expression ++ ";"
  let args := inputs.mapM (·.convert t)
  let domain := (ScalarType.upcast (inputs.map Operand.type)).getD t
  match p, inputs with
  | add, _ => do
    let args ← args
    .ok (set (String.intercalate (if t.isBool then " || " else " + ") args))
  | mul, _ => do
    let args ← args
    .ok (set (String.intercalate (if t.isBool then " && " else " * ") args))
  | sub, _ => do
    let args ← args
    .ok (set (String.intercalate " - " args))
  | trueDiv, _ => do
    let args ← args
    .ok (set (String.intercalate " / " args))
  | neg, [a] => do
    let a ← a.convert t
    .ok (set ("-" ++ a))
  | identity, [a] => do
    let a ← a.convert t
    .ok (set a)
  | cast _, [a] => do
    let a ← a.convert t
    .ok (set a)
  | reciprocal, [a] => do
    let a ← a.convert t
    .ok (set (Literal.floatCText 1.0 t.isSingle ++ " / " ++ a))
  | elementary f, [a] => do
    let a ← a.convert t
    let expression ← f.cExpression t a
    .ok (set expression)
  | intDiv, [a, b] => do
    let a ← a.convert t
    let b ← b.convert t
    if t.isComplex then .error (.complexOperands p.name)
    else if !t.isDiscrete then do
      let floor ← cFunction "floor" t
      .ok (set (floor ++ "(" ++ a ++ " / " ++ b ++ ")"))
    else if t.isSigned then .ok (signedQuotient type o a b id)
    else .ok (set ("(" ++ b ++ " == 0) ? 0 : " ++ a ++ " / " ++ b))
  | mod, [a, b] => do
    let a ← a.convert t
    let b ← b.convert t
    if t.isComplex then .error (.complexOperands p.name)
    else if !t.isDiscrete then do
      let fmod ← cFunction "fmod" t
      .ok (floatRemainder type o fmod a b id)
    else if t.isSigned then .ok (signedRemainder type o a b id)
    else .ok (set ("(" ++ b ++ " == 0) ? 0 : " ++ a ++ " % " ++ b))
  | pow, [a, b] => do
    let a ← a.convert t
    let b ← b.convert t
    if t.isDiscrete then .ok (powerLoopText type t.isUnsigned o a b id)
    else do
      let pow ← cFunction "pow" t
      .ok (set (pow ++ "(" ++ a ++ ", " ++ b ++ ")"))
  | arctan2, [a, b] => do
    let a ← a.convert t
    let b ← b.convert t
    let atan2 ← cFunction "atan2" t
    .ok (set (atan2 ++ "(" ++ a ++ ", " ++ b ++ ")"))
  | compare c, [a, b] => do
    let a ← a.convert domain
    let b ← b.convert domain
    .ok (set ("(" ++ a ++ " " ++ c.symbol ++ " " ++ b ++ ")"))
  | bitwise .invert, [a] =>
    if t.isComplex then .error (.complexOperands p.name) else do
      let a ← a.convert t
      .ok (set ((if t.isBool then "!" else "~") ++ a))
  | bitwise b, _ =>
    if t.isComplex then .error (.complexOperands p.name) else do
      let args ← args
      .ok (set (String.intercalate (" " ++ b.symbol ++ " ") args))
  | switch, [c, a, b] => do
    let a ← a.convert t
    let b ← b.convert t
    .ok (set (c.text ++ " ? " ++ a ++ " : " ++ b))
  | mean, [] => .ok (set "0")
  | mean, _ => do
    let args ← args
    let count := Literal.floatCText (Real.ofInt inputs.length) t.isSingle
    .ok (set ("(" ++ String.intercalate " + " args ++ ") / " ++ count))
  | inRange lower upper, [x, low, high] => do
    let x ← x.convert domain
    let low ← low.convert domain
    let high ← high.convert domain
    .ok (set ("(" ++ x ++ (if lower then " >= " else " > ") ++ low ++ " && " ++ x ++
      (if upper then " <= " else " < ") ++ high ++ ")"))
  | _, _ => .error (p.arityError inputs.length)

def statement (p : Primitive) (inputs outputs : List Operand) (id : String) :
    Except Error String := do
  p.checkArity inputs.length
  match outputs with
  | [] => .error (.unassignedOutput p.name)
  | out :: _ => p.assignment inputs out id

end Primitive

end ScalarFusion
