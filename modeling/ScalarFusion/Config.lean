import ScalarFusion.Error

/-!
The one setting of a graph: the floating type of quotients of discrete values and of the
gradients of discrete values.
-/
namespace ScalarFusion

/-- The setting is a precision: a type that `ofType` refuses cannot be set at all. Only the results
    about gradients need this; the others would hold for any scalar type. -/
structure Config where
  floatX : Precision := .double
  deriving DecidableEq, Repr

namespace Config

def floatType (c : Config) : ScalarType :=
  .float c.floatX

def ofType : ScalarType → Except Error Config
  | .float p => .ok ⟨p⟩
  | t => .error (.notFloating t)

def precisionOfName? (s : String) : Option Precision :=
  let name := Text.normalizeName s
  if name == "float16" || name == "f16" || name == "half" then some .half
  else if name == "float32" || name == "f32" || name == "single" then some .single
  else if name == "float64" || name == "f64" || name == "double" then some .double
  else none

/-- The configuration under an optional setting; a setting without a meaning is ignored. -/
def ofSetting (setting : Option String) : Config :=
  match setting.bind precisionOfName? with
  | some p => ⟨p⟩
  | none => {}

def widen (c : Config) : Config :=
  ⟨c.floatX.widen⟩

end Config

end ScalarFusion
