import ScalarFusion.Text.Blank

/-!
The element types of scalar values, their names, and the join of two types.
-/
namespace ScalarFusion

inductive Width where
  | w8
  | w16
  | w32
  | w64
  deriving DecidableEq, Repr

namespace Width

def bits : Width → Nat
  | w8 => 8
  | w16 => 16
  | w32 => 32
  | w64 => 64

def modulus : Width → Nat
  | w8 => 256
  | w16 => 65536
  | w32 => 4294967296
  | w64 => 18446744073709551616

def max (v w : Width) : Width :=
  if v.bits ≤ w.bits then w else v

def next? : Width → Option Width
  | w8 => some w16
  | w16 => some w32
  | w32 => some w64
  | w64 => none

end Width

inductive Precision where
  | half
  | single
  | double
  deriving DecidableEq, Repr

namespace Precision

def bits : Precision → Nat
  | half => 16
  | single => 32
  | double => 64

def max (p q : Precision) : Precision :=
  if p.bits ≤ q.bits then q else p

def widen : Precision → Precision
  | half => single
  | p => p

end Precision

inductive PartPrecision where
  | single
  | double
  deriving DecidableEq, Repr

namespace PartPrecision

def toPrecision : PartPrecision → Precision
  | single => .single
  | double => .double

def ofPrecision : Precision → PartPrecision
  | .half => single
  | .single => single
  | .double => double

end PartPrecision

inductive ScalarType where
  | bool
  | signed (width : Width)
  | unsigned (width : Width)
  | float (precision : Precision)
  | complex (parts : PartPrecision)
  deriving DecidableEq, Repr

namespace ScalarType

def all : List ScalarType :=
  [bool, signed .w8, signed .w16, signed .w32, signed .w64,
   unsigned .w8, unsigned .w16, unsigned .w32, unsigned .w64,
   float .half, float .single, float .double, complex .single, complex .double]

def name : ScalarType → String
  | bool => "bool"
  | signed .w8 => "int8"
  | signed .w16 => "int16"
  | signed .w32 => "int32"
  | signed .w64 => "int64"
  | unsigned .w8 => "uint8"
  | unsigned .w16 => "uint16"
  | unsigned .w32 => "uint32"
  | unsigned .w64 => "uint64"
  | float .half => "float16"
  | float .single => "float32"
  | float .double => "float64"
  | complex .single => "complex64"
  | complex .double => "complex128"

def capitalName : ScalarType → String
  | bool => "Bool"
  | signed .w8 => "Int8"
  | signed .w16 => "Int16"
  | signed .w32 => "Int32"
  | signed .w64 => "Int64"
  | unsigned .w8 => "UInt8"
  | unsigned .w16 => "UInt16"
  | unsigned .w32 => "UInt32"
  | unsigned .w64 => "UInt64"
  | float .half => "Float16"
  | float .single => "Float32"
  | float .double => "Float64"
  | complex .single => "Complex64"
  | complex .double => "Complex128"

def ofName? (s : String) : Option ScalarType :=
  let wanted := Text.normalizeName s
  all.find? fun t => t.name == wanted

def isBool : ScalarType → Bool
  | bool => true
  | _ => false

def isSigned : ScalarType → Bool
  | signed _ => true
  | _ => false

def isUnsigned : ScalarType → Bool
  | unsigned _ => true
  | _ => false

def isInteger (t : ScalarType) : Bool :=
  t.isSigned || t.isUnsigned

def isFloat : ScalarType → Bool
  | float _ => true
  | _ => false

def isComplex : ScalarType → Bool
  | complex _ => true
  | _ => false

/-- Discrete types hold booleans or integers; their gradients are zero. -/
def isDiscrete (t : ScalarType) : Bool :=
  t.isBool || t.isInteger

def bits : ScalarType → Nat
  | bool => 1
  | signed w => w.bits
  | unsigned w => w.bits
  | float p => p.bits
  | complex p => 2 * p.toPrecision.bits

def precision : ScalarType → Precision
  | bool => .single
  | signed w => if w.bits ≤ 16 then .single else .double
  | unsigned w => if w.bits ≤ 16 then .single else .double
  | float p => p
  | complex p => p.toPrecision

/-- The join of a signed and an unsigned type: a signed type that holds both, if there is one. -/
def mixedSigns (signedWidth unsignedWidth : Width) : ScalarType :=
  if unsignedWidth.bits < signedWidth.bits then signed signedWidth else
    match unsignedWidth.next? with
    | some w => signed w
    | none => float .double

def promote : ScalarType → ScalarType → ScalarType
  | bool, t => t
  | s, bool => s
  | complex p, t => complex (.ofPrecision (p.toPrecision.max t.precision))
  | s, complex q => complex (.ofPrecision (s.precision.max q.toPrecision))
  | float p, t => float (p.max t.precision)
  | s, float q => float (s.precision.max q)
  | signed v, signed w => signed (v.max w)
  | unsigned v, unsigned w => unsigned (v.max w)
  | signed v, unsigned w => mixedSigns v w
  | unsigned v, signed w => mixedSigns w v

def upcast : List ScalarType → Option ScalarType
  | [] => none
  | t :: ts => some (ts.foldl promote t)

def upgrade (t : ScalarType) : ScalarType :=
  if t.isDiscrete then float t.precision else t

def widen : ScalarType → ScalarType
  | float p => float p.widen
  | t => t

end ScalarType

end ScalarFusion
