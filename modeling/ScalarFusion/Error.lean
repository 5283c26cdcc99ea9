import ScalarFusion.Literal.Text

/-!
The causes for which building, typing, evaluating or emitting can fail, and their wording.
-/
namespace ScalarFusion

inductive Arity where
  | exactly (n : Nat)
  | atLeast (n : Nat)
  deriving DecidableEq, Repr

namespace Arity

def admits : Arity → Nat → Bool
  | exactly n, found => found == n
  | atLeast n, found => n ≤ found

def text : Arity → String
  | exactly n => toString n
  | atLeast n => "at least " ++ toString n

end Arity

inductive Error where
  | missingInput (name : Option String) (type : ScalarType)
  | unboundValue (id : Nat) (type : ScalarType)
  | unboundVariable (name : Option String)
  | unreplayedValue (id : Nat)
  | unnamedValue (id : Nat)
  | unknownType (text : String)
  | notFloating (type : ScalarType)
  | undefinedFor (op : String) (type : ScalarType)
  | untypedInputs (op : String)
  | undeclaredOutput (op : String)
  | unassignedOutput (op : String)
  | halfInC
  | noCFunction (base : String) (type : ScalarType)
  | imaginary (value : Literal) (type : ScalarType)
  | notIntegral (value : Literal) (type : ScalarType)
  | outOfRange (value : Literal) (type : ScalarType)
  | complexOperands (op : String)
  | arity (op : String) (expected : Arity) (found : Nat)
  | noOutputs
  | severalOutputs (op : String) (found : Nat)
  | noOutputGradient (op : String)
  | missingOperand (op : String)
  deriving DecidableEq, Repr

inductive Error.Family where
  | dependency
  | typing
  | domain
  | complexOperands
  | arity
  | misuse
  deriving DecidableEq, Repr

namespace Error

def family : Error → Family
  | missingInput .. => .dependency
  | unboundValue .. => .dependency
  | unboundVariable _ => .dependency
  | unreplayedValue _ => .dependency
  | unnamedValue _ => .dependency
  | unknownType _ => .typing
  | notFloating _ => .typing
  | undefinedFor .. => .typing
  | untypedInputs _ => .typing
  | undeclaredOutput _ => .typing
  | unassignedOutput _ => .typing
  | halfInC => .typing
  | noCFunction .. => .typing
  | imaginary .. => .domain
  | notIntegral .. => .domain
  | outOfRange .. => .domain
  | complexOperands _ => .complexOperands
  | arity .. => .arity
  | noOutputs => .arity
  | severalOutputs .. => .arity
  | noOutputGradient _ => .misuse
  | missingOperand _ => .misuse

def nameText (name : Option String) : String :=
  name.getD "<unnamed>"

def message : Error → String
  | missingInput name type =>
    "dependency error: variable " ++ nameText name ++ " of type " ++ type.name ++
      " is required but is not among the declared inputs"
  | unboundValue id type =>
    "dependency error: value " ++ toString id ++ " of type " ++ type.name ++
      " has no binding during evaluation"
  | unboundVariable name =>
    "dependency error: variable " ++ nameText name ++ " is not bound in the rewritten graph"
  | unreplayedValue id =>
    "dependency error: value " ++ toString id ++ " is used before its producer was replayed"
  | unnamedValue id =>
    "dependency error: value " ++ toString id ++ " has no C name during emission"
  | unknownType text => "type error: unknown scalar type '" ++ text ++ "'"
  | notFloating type => "type error: float_x must be a floating type, got " ++ type.name
  | undefinedFor op type =>
    "type error: " ++ op ++ " is not defined for " ++ type.name ++ " operands"
  | untypedInputs op => "type error: " ++ op ++ " needs at least one typed input"
  | undeclaredOutput op => "type error: " ++ op ++ " has no declared output type"
  | unassignedOutput op => "type error: " ++ op ++ " has no output to assign"
  | halfInC =>
    "type error: float16 has no C representation; narrow the composite to float32 first"
  | noCFunction base type =>
    "type error: " ++ base ++ " has no C implementation for " ++ type.name
  | imaginary value type =>
    "domain error: " ++ value.text ++ " has an imaginary part and cannot be stored as " ++
      type.name
  | notIntegral value type =>
    "domain error: " ++ value.text ++ " is not an integral value for " ++ type.name
  | outOfRange value type =>
    "domain error: " ++ value.text ++ " is outside the range of " ++ type.name ++ " [" ++
      toString type.bounds.1 ++ ", " ++ toString type.bounds.2 ++ "]"
  | complexOperands op => "complex error: " ++ op ++ " is not defined for complex operands"
  | arity op expected found =>
    op ++ " expects " ++ expected.text ++ " inputs, got " ++ toString found
  | noOutputs => "composite expects at least 1 output inputs, got 0"
  | severalOutputs op found => op ++ " expects 1 output inputs, got " ++ toString found
  | noOutputGradient op => op ++ " has no gradient of its output"
  | missingOperand op => op ++ " has too few operands"

end Error

def ScalarType.ofName (s : String) : Except Error ScalarType :=
  match ofName? s with
  | some t => .ok t
  | none => .error (.unknownType s)

/-- Conversion that refuses what a discrete type cannot hold, and imaginary parts outside the
    complex types. -/
def Literal.checkedCast (v : Literal) (t : ScalarType) : Except Error Literal :=
  let imaginary := match v with
    | complex z => z.im != 0.0
    | _ => false
  if imaginary && !t.isComplex then .error (.imaginary v t)
  else if !t.isDiscrete then .ok (v.cast t)
  else
    match v.integer? with
    | none => .error (.notIntegral v t)
    | some n =>
      if t.holds n then .ok (v.cast t) else .error (.outOfRange v t)

end ScalarFusion
