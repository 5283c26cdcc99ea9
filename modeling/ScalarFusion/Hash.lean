/-!
The 64-bit FNV-1a hash of byte strings.
-/
namespace ScalarFusion.Hash

def basis : UInt64 := 0xcbf29ce484222325
def prime : UInt64 := 0x100000001b3

def step (state : UInt64) (byte : UInt8) : UInt64 :=
  (state ^^^ byte.toUInt64) * prime

def write (state : UInt64) (bytes : List UInt8) : UInt64 :=
  bytes.foldl step state

def hash (bytes : List UInt8) : UInt64 :=
  write basis bytes

def ofString (s : String) : UInt64 :=
  hash s.toUTF8.toList

def hexDigit (n : Nat) : Char :=
  if n < 10 then Char.ofNat (48 + n) else Char.ofNat (87 + n)

def hex (word : UInt64) : String :=
  String.ofList ((List.range 16).map fun k => hexDigit (word.toNat >>> (4 * (15 - k)) % 16))

end ScalarFusion.Hash
