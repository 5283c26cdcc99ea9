import ScalarFusion.Composite.Emission
import ScalarFusion.Composite.Narrowing

/-!
A composite as a C module of one function, and the cache of such modules.
-/
namespace ScalarFusion

structure CModule where
  symbol : String
  source : String
  deriving DecidableEq, Repr

namespace CModule

def isIdentifierChar (c : Char) : Bool :=
  c.isAlphanum || c == '_'

def identifier (s : String) : String :=
  let cs := s.toList
  let start := match cs with
    | c :: _ => if c.isDigit then ['_'] else []
    | [] => []
  if cs.isEmpty then "composite"
  else String.ofList (start ++ cs.map fun c => if isIdentifierChar c then c else '_')

def entrypoint (stem : String) (c : Composite) : String :=
  identifier stem ++ "__" ++ Hash.hex c.fingerprint

def parameters (c : Composite) : Except Error (List String) := do
  let inputs ← c.inputTypes.zipIdx.mapM fun (t, k) => do
    let type ← t.cName
    .ok (type ++ " i" ++ toString k)
  let outputs ← c.outputTypes.zipIdx.mapM fun (t, k) => do
    let type ← t.cName
    .ok (type ++ "* o" ++ toString k)
  .ok (inputs ++ outputs)

def usesComplex : Composite → Bool :=
  Composite.mentions ScalarType.isComplex

def write (c : Composite) (symbol : String) : Except Error String := do
  let params ← parameters c
  let inputs := (List.range c.inputCount).map fun k => "i" ++ toString k
  let outputs := (List.range c.outputCount).map fun k => "(*o" ++ toString k ++ ")"
  let body ← c.emit inputs outputs "0"
  .ok ("#include <stdint.h>\n#include <math.h>\n" ++
    (if usesComplex c then "#include <complex.h>\n" else "") ++ "\n" ++
    "void " ++ symbol ++ "(" ++ String.intercalate ", " params ++ ") \x7b\n" ++
    Text.moveBlock "  " body ++ "\x7d\n")

/-- The module of a composite. C has no half precision, so float16 is narrowed away first. -/
def ofComposite (stem : String) (c : Composite) : Except Error CModule := do
  let c ← if c.hasHalf then c.narrow else .ok c
  let symbol := entrypoint stem c
  let source ← write c symbol
  .ok { symbol, source }

end CModule

structure CodegenError where
  message : String
  deriving DecidableEq, Repr

def CodegenError.ofError (e : Error) : CodegenError :=
  ⟨e.message⟩

def CModule.convert (stem : String) (c : Composite) : Except CodegenError CModule :=
  (ofComposite stem c).mapError CodegenError.ofError

/-- Modules, or the failures to build them, by the keys of their composites. A key gets its cell
    when it is first asked for; the cell stays empty until the module is built. -/
structure KernelCache (ε : Type := Error) where
  cells : List (String × Option (Except ε CModule)) := []

namespace KernelCache

variable {ε : Type}

def cell? (cache : KernelCache ε) (key : String) : Option (Option (Except ε CModule)) :=
  cache.cells.lookup key

def get? (cache : KernelCache ε) (key : String) : Option (Except ε CModule) :=
  (cache.cell? key).join

def size (cache : KernelCache ε) : Nat :=
  cache.cells.length

def reserve (cache : KernelCache ε) (key : String) : KernelCache ε :=
  match cache.cell? key with
  | some _ => cache
  | none => ⟨cache.cells ++ [(key, none)]⟩

/-- Fills the cell of a key. A cell that holds something keeps it. -/
def fill (cache : KernelCache ε) (key : String) (result : Except ε CModule) : KernelCache ε :=
  ⟨cache.cells.map fun (k, held) => (k, if k = key then some (held.getD result) else held)⟩

structure Answer (ε : Type) where
  result : Except ε CModule
  built : Bool
  cache : KernelCache ε

/-- The module of a composite. The builder runs, with all its effects, if the cell of the key is
    empty. -/
def fetchM {m : Type → Type} [Monad m] (cache : KernelCache ε) (c : Composite)
    (build : Composite → m (Except ε CModule)) : m (Answer ε) :=
  let reserved := cache.reserve c.key
  match reserved.get? c.key with
  | some result => pure { result, built := false, cache := reserved }
  | none => do
    let result ← build c
    let filled := reserved.fill c.key result
    pure { result := (filled.get? c.key).getD result, built := true, cache := filled }

def fetch (cache : KernelCache ε) (c : Composite) (build : Composite → Except ε CModule) :
    Answer ε :=
  Id.run (cache.fetchM c fun c => pure (build c))

end KernelCache

end ScalarFusion
