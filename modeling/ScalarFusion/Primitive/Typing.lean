import ScalarFusion.Config
import ScalarFusion.Primitive.Basic

/-!
The output type of a primitive operation at given operand types.
-/
namespace ScalarFusion.Primitive

def joined (p : Primitive) (inputs : List ScalarType) : Except Error ScalarType :=
  match ScalarType.upcast inputs with
  | some t => .ok t
  | none => .error (.untypedInputs p.name)

def refuse (p : Primitive) (excluded : ScalarType → Bool) (inputs : List ScalarType) :
    Except Error Unit :=
  match inputs.find? excluded with
  | some t => .error (.undefinedFor p.name t)
  | none => .ok ()

def outputType (p : Primitive) (inputs : List ScalarType) (config : Config) :
    Except Error ScalarType := do
  p.checkArity inputs.length
  match p with
  | add => p.joined inputs
  | mul => p.joined inputs
  | identity => p.joined inputs
  | sub => do
    let t ← p.joined inputs
    if t.isBool then .error (.undefinedFor p.name t) else .ok t
  | neg => do
    let t ← p.joined inputs
    if t.isBool then .error (.undefinedFor p.name t) else .ok t
  | intDiv => do
    let t ← p.joined inputs
    .ok (if t.isBool then .signed .w8 else t)
  | mod => do
    let t ← p.joined inputs
    .ok (if t.isBool then .signed .w8 else t)
  | pow => do
    let t ← p.joined inputs
    .ok (if t.isBool then .signed .w8 else t)
  | trueDiv => if inputs.all ScalarType.isDiscrete then .ok config.floatType else p.joined inputs
  | reciprocal => do
    let t ← p.joined inputs
    .ok t.upgrade
  | elementary _ => do
    let t ← p.joined inputs
    .ok t.upgrade
  | arctan2 => do
    p.refuse ScalarType.isComplex inputs
    let t ← p.joined inputs
    .ok t.upgrade
  | compare c => do
    if c.isOrdered then p.refuse ScalarType.isComplex inputs
    .ok .bool
  | inRange _ _ => do
    p.refuse ScalarType.isComplex inputs
    .ok .bool
  | bitwise _ => do
    p.refuse ScalarType.isFloat inputs
    p.joined inputs
  | cast t => .ok t
  | switch => p.joined (inputs.drop 1)
  | mean =>
    match ScalarType.upcast inputs with
    | some t => .ok t.upgrade
    | none => .ok config.floatType

end ScalarFusion.Primitive
