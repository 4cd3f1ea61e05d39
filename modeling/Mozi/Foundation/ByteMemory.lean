import Mathlib.Algebra.Group.Int.Defs
import Mathlib.Algebra.Group.Nat.Defs
import Mathlib.Tactic.Common

/-!
# Byte memory — flat memory with ranges of bytes

A memory maps addresses to bytes.  `load` reads a range, `store` writes a list of bytes at an
address, and `memcpy` is a load followed by a store.  Ranges are given by an address and a length;
`Apart` says that two of them share no address.
-/

namespace Mozi
namespace Foundation

abbrev Memory := Nat → UInt8

/-- The ranges `[a, a + m)` and `[b, b + n)` share no address. -/
def Apart (a m b n : Nat) : Prop :=
  a + m ≤ b ∨ b + n ≤ a

instance {a m b n : Nat} : Decidable (Apart a m b n) :=
  inferInstanceAs (Decidable (_ ∨ _))

theorem Apart.symm {a m b n : Nat} (h : Apart a m b n) : Apart b n a m :=
  Or.symm h

/-- Sub-ranges of ranges that are apart are apart. -/
theorem Apart.mono {a m b n a' m' b' n' : Nat} (h : Apart a m b n)
    (ha : a ≤ a') (ham : a' + m' ≤ a + m) (hb : b ≤ b') (hbn : b' + n' ≤ b + n) :
    Apart a' m' b' n' := by
  unfold Apart at *
  omega

namespace Memory

variable {mem mem' : Memory} {addr n : Nat} {bytes : List UInt8}

/-! ## Ranges of bytes -/

def load (mem : Memory) (addr n : Nat) : List UInt8 :=
  (List.range n).map fun i => mem (addr + i)

def store (mem : Memory) (addr : Nat) (bytes : List UInt8) : Memory := fun x =>
  if addr ≤ x then (bytes[x - addr]?).getD (mem x) else mem x

@[simp] theorem length_load (mem : Memory) (addr n : Nat) : (mem.load addr n).length = n := by
  simp [load]

@[simp] theorem load_zero (mem : Memory) (addr : Nat) : mem.load addr 0 = [] := rfl

theorem load_append (mem : Memory) (addr m n : Nat) :
    mem.load addr (m + n) = mem.load addr m ++ mem.load (addr + m) n := by
  simp [load, List.range_add, Nat.add_assoc]

theorem load_congr (h : ∀ i, i < n → mem (addr + i) = mem' (addr + i)) :
    mem.load addr n = mem'.load addr n := by
  refine List.map_congr_left ?_
  intro i hi
  exact h i (List.mem_range.1 hi)

@[simp] theorem store_nil (mem : Memory) (addr : Nat) : mem.store addr [] = mem := by
  funext x
  simp [store]

/-- A store leaves the addresses outside its range alone. -/
theorem store_outside {x : Nat} (h : x < addr ∨ addr + bytes.length ≤ x) :
    mem.store addr bytes x = mem x := by
  unfold store
  rcases h with hlt | hge
  · rw [if_neg (by omega)]
  · rw [List.getElem?_eq_none (by omega)]
    simp

theorem store_inside {i : Nat} (h : i < bytes.length) :
    mem.store addr bytes (addr + i) = bytes[i] := by
  simp [store, List.getElem?_eq_getElem h]

theorem load_store_same (mem : Memory) (addr : Nat) (bytes : List UInt8) :
    (mem.store addr bytes).load addr bytes.length = bytes := by
  refine List.ext_getElem (by simp) ?_
  intro i _ hi
  simpa [load] using store_inside hi

theorem load_store_apart {b : Nat} (h : Apart b n addr bytes.length) :
    (mem.store addr bytes).load b n = mem.load b n := by
  refine load_congr ?_
  intro i hi
  refine store_outside ?_
  rcases h with h | h <;> omega

/-- Two adjacent stores are one. -/
theorem store_append (mem : Memory) (addr : Nat) (xs ys : List UInt8) :
    (mem.store addr xs).store (addr + xs.length) ys = mem.store addr (xs ++ ys) := by
  funext x
  -- Before the range, in the first list, in the second list, or behind both.
  rcases Nat.lt_or_ge x addr with hlt | hge
  · rw [store_outside (by omega), store_outside (by omega), store_outside (by omega)]
  · obtain ⟨i, rfl⟩ := Nat.exists_eq_add_of_le hge
    rcases Nat.lt_or_ge i xs.length with hi | hi
    · rw [store_outside (by omega), store_inside hi,
        store_inside (by simpa using Nat.lt_add_right _ hi), List.getElem_append_left hi]
    · obtain ⟨j, rfl⟩ := Nat.exists_eq_add_of_le hi
      rcases Nat.lt_or_ge j ys.length with hj | hj
      · rw [← Nat.add_assoc, store_inside hj, Nat.add_assoc, store_inside (by simpa using hj)]
        simp
      · rw [store_outside (by omega), store_outside (by omega),
          store_outside (by simp only [List.length_append]; omega)]

/-! ## Copying -/

/-- `memcpy(dst, src, n)`. -/
def memcpy (mem : Memory) (dst src n : Nat) : Memory :=
  mem.store dst (mem.load src n)

theorem load_memcpy_dst (mem : Memory) (dst src n : Nat) :
    (mem.memcpy dst src n).load dst n = mem.load src n := by
  have h := load_store_same mem dst (mem.load src n)
  rwa [length_load] at h

theorem load_memcpy_apart {b m dst src : Nat} (h : Apart b m dst n) :
    (mem.memcpy dst src n).load b m = mem.load b m :=
  load_store_apart (by simpa using h)

/-- A copy goes on with what was at its source before it began. -/
theorem memcpy_extend (mem : Memory) (dst src m n : Nat) :
    (mem.memcpy dst src m).store (dst + m) (mem.load (src + m) n) = mem.memcpy dst src (m + n) := by
  have hstore := store_append mem dst (mem.load src m) (mem.load (src + m) n)
  rw [length_load, ← load_append] at hstore
  exact hstore

/-- Two adjacent copies are one, as long as the first does not reach the source of the second. -/
theorem memcpy_append (mem : Memory) {dst src m n : Nat} (h : Apart (src + m) n dst m) :
    (mem.memcpy dst src m).memcpy (dst + m) (src + m) n = mem.memcpy dst src (m + n) := by
  have hload : (mem.memcpy dst src m).load (src + m) n = mem.load (src + m) n :=
    load_memcpy_apart h
  calc
    (mem.memcpy dst src m).memcpy (dst + m) (src + m) n
        = (mem.memcpy dst src m).store (dst + m) (mem.load (src + m) n) := by rw [memcpy, hload]
    _ = mem.memcpy dst src (m + n) := memcpy_extend mem dst src m n

/-- `mem'` has the bytes of the range `[src, src + n)` of `mem` at `dst`, and the rest of `mem`. -/
structure Copied (mem mem' : Memory) (dst src n : Nat) : Prop where
  bytes : ∀ i < n, mem' (dst + i) = mem (src + i)
  frame : ∀ x, x < dst ∨ dst + n ≤ x → mem' x = mem x

theorem copied_memcpy (mem : Memory) (dst src n : Nat) :
    Copied mem (mem.memcpy dst src n) dst src n where
  bytes := by
    intro i hi
    have hload : i < (mem.load src n).length := by simpa using hi
    rw [memcpy, store_inside hload]
    simp [load]
  frame := by
    intro x hx
    refine store_outside ?_
    simpa using hx

/-! ## Accesses of one size -/

/-- A read through a pointer to a type of `n` bytes, at an address that is aligned for it. -/
def loadAligned (mem : Memory) (addr n : Nat) : Option (List UInt8) :=
  if addr % n = 0 then some (mem.load addr n) else none

/-- The write of such a value. -/
def storeAligned (mem : Memory) (addr : Nat) (bytes : List UInt8) : Option Memory :=
  if addr % bytes.length = 0 then some (mem.store addr bytes) else none

/-! ## Little-endian words -/

def word32 (mem : Memory) (addr : Nat) : Nat :=
  (mem addr).toNat + 256 * ((mem (addr + 1)).toNat + 256 * ((mem (addr + 2)).toNat +
    256 * (mem (addr + 3)).toNat))

/-- The four bytes of a word. -/
def bytes32 (n : Nat) : List UInt8 :=
  [UInt8.ofNat n, UInt8.ofNat (n / 256), UInt8.ofNat (n / 256 ^ 2), UInt8.ofNat (n / 256 ^ 3)]

@[simp] theorem length_bytes32 (n : Nat) : (bytes32 n).length = 4 := rfl

theorem getElem_bytes32 {n k : Nat} (hk : k < (bytes32 n).length) :
    (bytes32 n)[k] = UInt8.ofNat (n / 256 ^ k) := by
  rw [length_bytes32] at hk
  rcases k with _ | _ | _ | _ | k
  · simp [bytes32]
  · simp [bytes32]
  · rfl
  · rfl
  · omega

theorem word32_store_same (mem : Memory) (addr : Nat) {n : Nat} (h : n < 2 ^ 32) :
    (mem.store addr (bytes32 n)).word32 addr = n := by
  have h₀ : mem.store addr (bytes32 n) addr = UInt8.ofNat n := by simp [store, bytes32]
  have h₁ : mem.store addr (bytes32 n) (addr + 1) = UInt8.ofNat (n / 256) := by
    simp [store, bytes32]
  have h₂ : mem.store addr (bytes32 n) (addr + 2) = UInt8.ofNat (n / 256 ^ 2) := by
    simp [store, bytes32]
  have h₃ : mem.store addr (bytes32 n) (addr + 3) = UInt8.ofNat (n / 256 ^ 3) := by
    simp [store, bytes32]
  simp only [word32, h₀, h₁, h₂, h₃, UInt8.toNat_ofNat']
  omega

theorem word32_congr (h : ∀ i, i < 4 → mem (addr + i) = mem' (addr + i)) :
    mem.word32 addr = mem'.word32 addr := by
  have h₀ : mem addr = mem' addr := h 0 (by omega)
  have h₁ := h 1 (by omega)
  have h₂ := h 2 (by omega)
  have h₃ := h 3 (by omega)
  simp only [word32, h₀, h₁, h₂, h₃]

/-- A word of zero bytes. -/
theorem word32_eq_zero (h : ∀ i, i < 4 → mem (addr + i) = 0) : mem.word32 addr = 0 := by
  have h₀ : mem addr = 0 := h 0 (by omega)
  have h₁ := h 1 (by omega)
  have h₂ := h 2 (by omega)
  have h₃ := h 3 (by omega)
  simp [word32, h₀, h₁, h₂, h₃]

/-! ## Zeros -/

theorem load_zeros (addr n : Nat) : load (fun _ => 0) addr n = List.replicate n 0 := by
  simp [load, List.map_const']

/-- A word in a range that has been cleared. -/
theorem word32_store_zeros {a n : Nat} (hle : a ≤ addr) (hend : addr + 4 ≤ a + n) :
    (mem.store a (List.replicate n 0)).word32 addr = 0 := by
  refine word32_eq_zero fun i hi => ?_
  obtain ⟨k, hk⟩ : ∃ k, addr + i = a + k := ⟨addr + i - a, by omega⟩
  have hlt : k < (List.replicate n (0 : UInt8)).length := by
    rw [List.length_replicate]
    omega
  rw [hk, store_inside hlt, List.getElem_replicate]

end Memory

end Foundation
end Mozi
