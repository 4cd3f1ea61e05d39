import Mozi.Foundation.ByteMemory

/-!
# Memcpy — the copy `mz_resume` saves and restores stacks with

The macros of `core/coroutine/detail/mzco.cc`.  The fast path loads up to eight 16-byte blocks
into registers, stores them, and moves the last eight bytes on their own.
-/

namespace Mozi
namespace Coroutine

open Foundation

/-- `mz_amd64_inline_short_aligned_memcpy_test_ok`. -/
def short_aligned_memcpy_test_ok (dst src sz : Nat) : Bool :=
  src % 16 == 0 && dst % 16 == 0 && sz % 16 == 8 && decide (sz / 16 ≤ 8)

/-- `xmm0 .. xmm(n-1)`: the first `n` blocks at `src`. -/
def loadBlocks (mem : Memory) (src n : Nat) : List (List UInt8) :=
  (List.range n).map fun i => mem.load (src + 16 * i) 16

/-- The registers stored block after block. -/
def storeBlocks (mem : Memory) (dst : Nat) : List (List UInt8) → Memory
  | [] => mem
  | xmm :: rest => storeBlocks (mem.store dst xmm) (dst + 16) rest

/-- `mz_amd64_inline_short_aligned_memcpy`: case `n` of the switch moves `n` blocks, and there is
no case past 8. -/
def short_aligned_memcpy (mem : Memory) (dst src sz : Nat) : Memory :=
  let mem :=
    if sz / 16 ≤ 8 then storeBlocks mem dst (loadBlocks mem src (sz / 16)) else mem
  mem.store (dst + sz - 8) (mem.load (src + sz - 8) 8)

/-- `mz_amd64_optimized_memcpy_drop_in`. -/
def optimized_memcpy_drop_in (mem : Memory) (dst src sz : Nat) : Memory :=
  if short_aligned_memcpy_test_ok dst src sz then
    short_aligned_memcpy mem dst src sz
  else
    mem.memcpy dst src sz

/-! ## The blocks -/

theorem storeBlocks_eq {mem : Memory} {dst : Nat} {blocks : List (List UInt8)}
    (h : ∀ b ∈ blocks, b.length = 16) :
    storeBlocks mem dst blocks = mem.store dst blocks.flatten := by
  induction blocks generalizing mem dst with
  | nil =>
      simp [storeBlocks]
  | cons b blocks ih =>
      have hb : b.length = 16 := h b (by simp)
      have hrest : ∀ c ∈ blocks, c.length = 16 := fun c hc => h c (List.mem_cons_of_mem b hc)
      calc
        storeBlocks mem dst (b :: blocks)
            = (mem.store dst b).store (dst + 16) blocks.flatten := ih hrest
        _ = (mem.store dst b).store (dst + b.length) blocks.flatten := by rw [hb]
        _ = mem.store dst (b :: blocks).flatten := Memory.store_append mem dst b blocks.flatten

theorem loadBlocks_flatten (mem : Memory) (src n : Nat) :
    (loadBlocks mem src n).flatten = mem.load src (16 * n) := by
  induction n with
  | zero =>
      rfl
  | succ n ih =>
      calc
        (loadBlocks mem src (n + 1)).flatten
            = (loadBlocks mem src n).flatten ++ mem.load (src + 16 * n) 16 := by
              simp [loadBlocks, List.range_succ]
        _ = mem.load src (16 * n) ++ mem.load (src + 16 * n) 16 := by rw [ih]
        _ = mem.load src (16 * (n + 1)) := (Memory.load_append mem src (16 * n) 16).symm

theorem storeBlocks_loadBlocks (mem : Memory) (dst src n : Nat) :
    storeBlocks mem dst (loadBlocks mem src n) = mem.memcpy dst src (16 * n) := by
  rw [storeBlocks_eq, loadBlocks_flatten]
  · rfl
  · intro b hb
    rcases List.mem_map.1 hb with ⟨i, _, rfl⟩
    simp

/-! ## The drop-in is `memcpy` -/

theorem short_aligned_memcpy_eq {mem : Memory} {dst src sz : Nat}
    (hok : short_aligned_memcpy_test_ok dst src sz = true) (happart : Apart dst sz src sz) :
    short_aligned_memcpy mem dst src sz = mem.memcpy dst src sz := by
  simp only [short_aligned_memcpy_test_ok, Bool.and_eq_true, beq_iff_eq, decide_eq_true_eq] at hok
  rcases hok with ⟨⟨_, hsz⟩, hblocks⟩
  -- `sz` is the blocks and the tail word.
  have hsplit : sz = 16 * (sz / 16) + 8 := by omega
  have hdst : dst + sz - 8 = dst + 16 * (sz / 16) := by omega
  have hsrc : src + sz - 8 = src + 16 * (sz / 16) := by omega
  have htail : Apart (src + 16 * (sz / 16)) 8 dst (16 * (sz / 16)) :=
    happart.symm.mono (by omega) (by omega) (by omega) (by omega)
  have hcopy := Memory.memcpy_append mem htail
  rw [← hsplit] at hcopy
  simp only [short_aligned_memcpy, if_pos hblocks, storeBlocks_loadBlocks, hdst, hsrc]
  exact hcopy

theorem optimized_memcpy_eq {mem : Memory} {dst src sz : Nat} (happart : Apart dst sz src sz) :
    optimized_memcpy_drop_in mem dst src sz = mem.memcpy dst src sz := by
  unfold optimized_memcpy_drop_in
  split
  · rename_i hok
    exact short_aligned_memcpy_eq hok happart
  · rfl

end Coroutine
end Mozi
