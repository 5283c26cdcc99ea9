import ScalarFusion.Proofs.Keys
import Mathlib.Logic.Function.Basic

/-!
Hashes of byte strings that are nearly the same. The prime is odd and so has an inverse among the
64-bit words: the state before a byte can be told from the state after it, and a difference in the
state stays a difference whatever is written afterwards.
-/
namespace ScalarFusion

namespace Hash

def inverse : UInt64 := 0xce965057aff6957b

theorem prime_mul_inverse : prime * inverse = 1 := by decide

def stepBack (state : UInt64) (byte : UInt8) : UInt64 :=
  (state * inverse) ^^^ byte.toUInt64

theorem stepBack_step (state : UInt64) (byte : UInt8) :
    stepBack (step state byte) byte = state := by
  rw [stepBack, step, UInt64.mul_assoc, prime_mul_inverse, UInt64.mul_one, UInt64.xor_assoc,
    UInt64.xor_self, UInt64.xor_zero]

theorem step_stepBack (state : UInt64) (byte : UInt8) :
    step (stepBack state byte) byte = state := by
  rw [stepBack, step, UInt64.xor_assoc, UInt64.xor_self, UInt64.xor_zero, UInt64.mul_assoc,
    UInt64.mul_comm inverse, prime_mul_inverse, UInt64.mul_one]

def writeBack (state : UInt64) : List UInt8 → UInt64
  | [] => state
  | byte :: bytes => stepBack (writeBack state bytes) byte

@[simp]
theorem write_nil (state : UInt64) : write state [] = state := rfl

@[simp]
theorem write_cons (state : UInt64) (byte : UInt8) (bytes : List UInt8) :
    write state (byte :: bytes) = write (step state byte) bytes := rfl

@[simp]
theorem write_append (state : UInt64) (first second : List UInt8) :
    write state (first ++ second) = write (write state first) second :=
  List.foldl_append

theorem writeBack_write (state : UInt64) (bytes : List UInt8) :
    writeBack (write state bytes) bytes = state := by
  induction bytes generalizing state with
  | nil => rfl
  | cons byte bytes ih => rw [write_cons, writeBack, ih, stepBack_step]

theorem write_writeBack (state : UInt64) (bytes : List UInt8) :
    write (writeBack state bytes) bytes = state := by
  induction bytes with
  | nil => rfl
  | cons byte bytes ih => rw [writeBack, write_cons, step_stepBack, ih]

theorem write_bijective (bytes : List UInt8) : Function.Bijective fun state => write state bytes :=
  Function.bijective_iff_has_inverse.mpr
    ⟨fun state => writeBack state bytes, fun state => writeBack_write state bytes,
      fun state => write_writeBack state bytes⟩

theorem step_inj_byte {state : UInt64} {a b : UInt8} (same : step state a = step state b) :
    a = b := by
  have undone := congrArg (· * inverse) same
  simp only [step, UInt64.mul_assoc, prime_mul_inverse, UInt64.mul_one] at undone
  exact UInt8.toUInt64_inj.mp ((UInt64.xor_right_inj state).mp undone)

theorem hash_replace_inj {p s : List UInt8} {a b : UInt8}
    (same : hash (p ++ [a] ++ s) = hash (p ++ [b] ++ s)) : a = b := by
  simp only [hash, write_append, write_cons, write_nil] at same
  exact step_inj_byte ((write_bijective s).1 same)

end Hash

/-- Fingerprints separate keys that differ in one byte: wherever the byte stands and whatever comes
    before and after it, the hashes differ. This is so because writing a byte string takes different
    states to different states; in fact it reaches every state from exactly one. -/
theorem fingerprints_separate_bytes (p s : List UInt8) :
    (∀ a b : UInt8, a ≠ b → Hash.hash (p ++ [a] ++ s) ≠ Hash.hash (p ++ [b] ++ s) ∧
      ∀ c d : Composite, c.key.toUTF8.toList = p ++ [a] ++ s →
        d.key.toUTF8.toList = p ++ [b] ++ s → c.fingerprint ≠ d.fingerprint) ∧
    Function.Bijective fun state => Hash.write state s := by
  refine ⟨fun a b different => ?_, Hash.write_bijective s⟩
  have hashes : Hash.hash (p ++ [a] ++ s) ≠ Hash.hash (p ++ [b] ++ s) :=
    fun same => different (Hash.hash_replace_inj same)
  refine ⟨hashes, fun c d first second => ?_⟩
  rwa [Composite.fingerprint, Composite.fingerprint, Hash.ofString, Hash.ofString, first, second]

theorem signs_separated : ∃ p s : List UInt8,
    (Composite.unary .neg).key.toUTF8.toList = p ++ [45] ++ s ∧
    (Composite.unary (.bitwise .invert)).key.toUTF8.toList = p ++ [126] ++ s ∧
    (Composite.unary .neg).fingerprint ≠ (Composite.unary (.bitwise .invert)).fingerprint := by
  refine ⟨"Composite\x7b(".toUTF8.toList, "i0)\x7d|int8->int8|int8,int8".toUTF8.toList, ?_⟩
  have neg : (Composite.unary .neg).key = "Composite\x7b(-i0)\x7d|int8->int8|int8,int8" := by
    rw [Composite.key, Composite.fold_eq]
    decide +kernel
  have invert : (Composite.unary (.bitwise .invert)).key =
      "Composite\x7b(~i0)\x7d|int8->int8|int8,int8" := by
    rw [Composite.key, Composite.fold_eq]
    decide +kernel
  have first : (Composite.unary .neg).key.toUTF8.toList = "Composite\x7b(".toUTF8.toList ++ [45] ++
      "i0)\x7d|int8->int8|int8,int8".toUTF8.toList := by
    rw [neg]
    decide +kernel
  have second : (Composite.unary (.bitwise .invert)).key.toUTF8.toList =
      "Composite\x7b(".toUTF8.toList ++ [126] ++ "i0)\x7d|int8->int8|int8,int8".toUTF8.toList := by
    rw [invert]
    decide +kernel
  exact ⟨first, second,
    ((fingerprints_separate_bytes _ _).1 45 126 (by decide)).2 _ _ first second⟩

end ScalarFusion
