import Mathlib.Data.Nat.Bitwise
import Mathlib.Tactic.Common

/-!
# ByteOrder — 32-bit words in little-endian memory

`littleEndian` and `loadUint32` are the copies of a word into four bytes and back.  What shifts and
masks do to a word is read bit by bit.
-/

namespace Mozi
namespace Foundation

/-! ## Bits -/

namespace Word

def bit (x : UInt32) (j : Nat) : Bool :=
  x.toNat.testBit j

variable {x y k : UInt32} {j : Nat}

theorem ext (h : ∀ j, bit x j = bit y j) : x = y :=
  UInt32.toNat_inj.1 (Nat.eq_of_testBit_eq h)

theorem bit_or : bit (x ||| y) j = (bit x j || bit y j) := by
  simp [bit]

theorem bit_and : bit (x &&& y) j = (bit x j && bit y j) := by
  simp [bit]

theorem bit_shiftLeft (hk : k.toNat < 32) :
    bit (x <<< k) j = (decide (j < 32) && (decide (k.toNat ≤ j) && bit x (j - k.toNat))) := by
  simp only [bit, UInt32.toNat_shiftLeft, Nat.testBit_mod_two_pow, Nat.testBit_shiftLeft,
    Nat.mod_eq_of_lt hk, ge_iff_le]

theorem bit_shiftRight (hk : k.toNat < 32) : bit (x >>> k) j = bit x (k.toNat + j) := by
  simp only [bit, UInt32.toNat_shiftRight, Nat.testBit_shiftRight, Nat.mod_eq_of_lt hk]

theorem bit_of_ge (hj : 32 ≤ j) : bit x j = false :=
  Nat.testBit_lt_two_pow (lt_of_lt_of_le x.toNat_lt (Nat.pow_le_pow_right (by decide) hj))

/-- A mask of eight bits. -/
theorem testBit_byteMask (s : Nat) :
    (255 <<< s).testBit j = (decide (s ≤ j) && decide (j - s < 8)) := by
  have hones : (255).testBit (j - s) = decide (j - s < 8) := Nat.testBit_two_pow_sub_one 8 (j - s)
  rw [Nat.testBit_shiftLeft, hones]

end Word

/-! ## Bytes -/

variable {j : Nat}

def byteBit (a : UInt8) (j : Nat) : Bool :=
  a.toNat.testBit j

theorem byteBit_of_ge {a : UInt8} (hj : 8 ≤ j) : byteBit a j = false :=
  Nat.testBit_lt_two_pow (lt_of_lt_of_le a.toNat_lt (Nat.pow_le_pow_right (by decide) hj))

theorem bit_toUInt32 {a : UInt8} : Word.bit a.toUInt32 j = byteBit a j := by
  simp [Word.bit, byteBit]

theorem byteBit_toUInt8 {x : UInt32} : byteBit x.toUInt8 j = (decide (j < 8) && Word.bit x j) := by
  simp only [byteBit, Word.bit, UInt32.toNat_toUInt8, Nat.testBit_mod_two_pow]

/-- The bytes of a `uint32_t` in memory. -/
def littleEndian (x : UInt32) : Vector UInt8 4 :=
  #v[x.toUInt8, (x >>> 8).toUInt8, (x >>> 16).toUInt8, (x >>> 24).toUInt8]

/-- The `uint32_t` in four bytes of memory. -/
def loadUint32 (v : Vector UInt8 4) : UInt32 :=
  v[0].toUInt32 ||| v[1].toUInt32 <<< 8 ||| v[2].toUInt32 <<< 16 ||| v[3].toUInt32 <<< 24

theorem bit_loadUint32 (v : Vector UInt8 4) :
    Word.bit (loadUint32 v) j =
      if j < 8 then byteBit v[0] j
      else if j < 16 then byteBit v[1] (j - 8)
      else if j < 24 then byteBit v[2] (j - 16)
      else byteBit v[3] (j - 24) := by
  simp (disch := decide) only [loadUint32, Word.bit_or, Word.bit_shiftLeft, bit_toUInt32]
  grind [byteBit_of_ge]

theorem loadUint32_littleEndian (x : UInt32) : loadUint32 (littleEndian x) = x := by
  refine Word.ext fun j => ?_
  have h0 : (littleEndian x)[0] = x.toUInt8 := rfl
  have h1 : (littleEndian x)[1] = (x >>> 8).toUInt8 := rfl
  have h2 : (littleEndian x)[2] = (x >>> 16).toUInt8 := rfl
  have h3 : (littleEndian x)[3] = (x >>> 24).toUInt8 := rfl
  rw [bit_loadUint32, h0, h1, h2, h3]
  simp (disch := decide) only [byteBit_toUInt8, Word.bit_shiftRight]
  grind [Word.bit_of_ge]

end Foundation
end Mozi
