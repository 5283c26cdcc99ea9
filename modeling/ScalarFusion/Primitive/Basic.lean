import ScalarFusion.Error

/-!
The primitive operations of a graph: their names, how many operands they take, and how an
application is written.
-/
namespace ScalarFusion

inductive Comparison where
  | gt
  | lt
  | le
  | ge
  | eq
  | neq
  deriving DecidableEq, Repr

namespace Comparison

def name : Comparison → String
  | gt => "gt"
  | lt => "lt"
  | le => "le"
  | ge => "ge"
  | eq => "eq"
  | neq => "neq"

def symbol : Comparison → String
  | gt => ">"
  | lt => "<"
  | le => "<="
  | ge => ">="
  | eq => "=="
  | neq => "!="

def isOrdered : Comparison → Bool
  | eq => false
  | neq => false
  | _ => true

end Comparison

inductive Bitwise where
  | and
  | or
  | xor
  | invert
  deriving DecidableEq, Repr

namespace Bitwise

def name : Bitwise → String
  | and => "and"
  | or => "or"
  | xor => "xor"
  | invert => "invert"

def symbol : Bitwise → String
  | and => "&"
  | or => "|"
  | xor => "^"
  | invert => "~"

end Bitwise

inductive Elementary where
  | sqrt
  | log
  | log2
  | log10
  | log1p
  | exp
  | exp2
  | expm1
  | sin
  | cos
  | tan
  | arcsin
  | arccos
  | arctan
  | sinh
  | cosh
  | tanh
  | arcsinh
  | arccosh
  | arctanh
  | deg2rad
  | rad2deg
  deriving DecidableEq, Repr

namespace Elementary

def all : List Elementary :=
  [sqrt, log, log2, log10, log1p, exp, exp2, expm1, sin, cos, tan, arcsin, arccos, arctan,
   sinh, cosh, tanh, arcsinh, arccosh, arctanh, deg2rad, rad2deg]

def name : Elementary → String
  | sqrt => "sqrt"
  | log => "log"
  | log2 => "log2"
  | log10 => "log10"
  | log1p => "log1p"
  | exp => "exp"
  | exp2 => "exp2"
  | expm1 => "expm1"
  | sin => "sin"
  | cos => "cos"
  | tan => "tan"
  | arcsin => "arcsin"
  | arccos => "arccos"
  | arctan => "arctan"
  | sinh => "sinh"
  | cosh => "cosh"
  | tanh => "tanh"
  | arcsinh => "arcsinh"
  | arccosh => "arccosh"
  | arctanh => "arctanh"
  | deg2rad => "deg2rad"
  | rad2deg => "rad2deg"

end Elementary

inductive Primitive where
  | add
  | mul
  | sub
  | trueDiv
  | intDiv
  | mod
  | pow
  | neg
  | reciprocal
  | identity
  | compare (comparison : Comparison)
  | bitwise (operation : Bitwise)
  | elementary (f : Elementary)
  | arctan2
  | cast (target : ScalarType)
  | switch
  | mean
  | inRange (lowerClosed upperClosed : Bool)
  deriving DecidableEq, Repr

namespace Primitive

def name : Primitive → String
  | add => "add"
  | mul => "mul"
  | sub => "sub"
  | trueDiv => "true_div"
  | intDiv => "int_div"
  | mod => "mod"
  | pow => "pow"
  | neg => "neg"
  | reciprocal => "reciprocal"
  | identity => "identity"
  | compare c => c.name
  | bitwise b => b.name
  | elementary f => f.name
  | arctan2 => "arctan2"
  | cast _ => "cast"
  | switch => "switch"
  | mean => "mean"
  | inRange _ _ => "in_range"

def named : List Primitive :=
  [add, mul, sub, trueDiv, intDiv, mod, pow, neg, reciprocal, identity,
   compare .gt, compare .lt, compare .le, compare .ge, compare .eq, compare .neq,
   bitwise .and, bitwise .or, bitwise .xor, bitwise .invert, arctan2, switch, mean] ++
    Elementary.all.map elementary

def ofName? (s : String) : Option Primitive :=
  named.find? fun p => p.name == s

def arity : Primitive → Arity
  | add => .atLeast 1
  | mul => .atLeast 1
  | sub => .exactly 2
  | trueDiv => .exactly 2
  | intDiv => .exactly 2
  | mod => .exactly 2
  | pow => .exactly 2
  | neg => .exactly 1
  | reciprocal => .exactly 1
  | identity => .exactly 1
  | compare _ => .exactly 2
  | bitwise .invert => .exactly 1
  | bitwise _ => .atLeast 2
  | elementary _ => .exactly 1
  | arctan2 => .exactly 2
  | cast _ => .exactly 1
  | switch => .exactly 3
  | mean => .atLeast 0
  | inRange _ _ => .exactly 3

def arityError (p : Primitive) (found : Nat) : Error :=
  .arity p.name p.arity found

def checkArity (p : Primitive) (found : Nat) : Except Error Unit :=
  if p.arity.admits found then .ok () else .error (p.arityError found)

def between (symbol : String) (args : List String) : String :=
  "(" ++ String.intercalate (" " ++ symbol ++ " ") args ++ ")"

def listed (args : List String) : String :=
  "(" ++ String.intercalate ", " args ++ ")"

def endpointText (closed : Bool) : String :=
  if closed then "closed" else "open"

def write (p : Primitive) (args : List String) : String :=
  match p with
  | add => between "+" args
  | mul => between "*" args
  | sub => between "-" args
  | trueDiv => between "/" args
  | intDiv => between "//" args
  | mod => between "%" args
  | pow => between "**" args
  | neg => "(-" ++ String.intercalate ", " args ++ ")"
  | compare c => between c.symbol args
  | bitwise .invert => "(~" ++ String.intercalate ", " args ++ ")"
  | bitwise b => between b.symbol args
  | cast t => "cast\x7b" ++ t.name ++ "\x7d" ++ listed args
  | inRange lower upper =>
    "in_range\x7b" ++ endpointText lower ++ "," ++ endpointText upper ++ "\x7d" ++ listed args
  | _ => p.name ++ listed args

end Primitive

end ScalarFusion
