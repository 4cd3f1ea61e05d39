import Mathlib.Logic.Function.Basic
import Mozi.Coroutine.Memcpy
import Mozi.Foundation.Machine

/-!
# MemcpyCases — the switch of the stack copy, case by case

The macros of `core/coroutine/detail/mzco.cc` as they are written out: a case of the switch is the
list of its assignments.  The result is `none` where a block or the last word is not aligned for
the type it is accessed with, or a variable is read without a value.  What `mz_resume` copies with
is the same function with the cases taken together.

Addresses are naturals: a range that is copied does not wrap.
-/

namespace Mozi
namespace Coroutine
namespace Memcpy

open Foundation

/-! ## The source -/

/-- An assignment in a case of the switch. -/
inductive Move
  /-- to `xmm<r>` from `*((__uint128_t*)(src) + i)` -/
  | load (r i : Nat)
  /-- to `*((__uint128_t*)(dst) + i)` from `xmm<r>` -/
  | store (i r : Nat)
  deriving DecidableEq, Repr

/-- The memory and the variables `xmm0` to `xmm7`. -/
structure Copying where
  mem : Memory
  xmm : Nat → Option (List UInt8)

def moves (dst src : Nat) : Machine Copying Move :=
  { step := fun s move =>
      match move with
      | .load r i => (s.mem.loadAligned (src + 16 * i) 16).map fun block =>
          { s with xmm := Function.update s.xmm r (some block) }
      | .store i r => (s.xmm r).bind fun block =>
          (s.mem.storeAligned (dst + 16 * i) block).map fun mem => { s with mem := mem } }

/-- `switch((sz) >> 4)` -/
def switchCase : Nat → List Move
  | 0 => []
  | 1 =>
    [.load 0 0,
      .store 0 0]
  | 2 =>
    [.load 0 0, .load 1 1,
      .store 0 0, .store 1 1]
  | 3 =>
    [.load 0 0, .load 1 1, .load 2 2,
      .store 0 0, .store 1 1, .store 2 2]
  | 4 =>
    [.load 0 0, .load 1 1, .load 2 2, .load 3 3,
      .store 0 0, .store 1 1, .store 2 2, .store 3 3]
  | 5 =>
    [.load 0 0, .load 1 1, .load 2 2, .load 3 3, .load 4 4,
      .store 0 0, .store 1 1, .store 2 2, .store 3 3, .store 4 4]
  | 6 =>
    [.load 0 0, .load 1 1, .load 2 2, .load 3 3, .load 4 4, .load 5 5,
      .store 0 0, .store 1 1, .store 2 2, .store 3 3, .store 4 4, .store 5 5]
  | 7 =>
    [.load 0 0, .load 1 1, .load 2 2, .load 3 3, .load 4 4, .load 5 5, .load 6 6,
      .store 0 0, .store 1 1, .store 2 2, .store 3 3, .store 4 4, .store 5 5, .store 6 6]
  | 8 =>
    [.load 0 0, .load 1 1, .load 2 2, .load 3 3, .load 4 4, .load 5 5, .load 6 6, .load 7 7,
      .store 0 0, .store 1 1, .store 2 2, .store 3 3, .store 4 4, .store 5 5, .store 6 6,
      .store 7 7]
  | _ => []

def mz_amd64_inline_short_aligned_memcpy_test_ok (dst src sz : Nat) : Bool :=
  ((src &&& 0x0f) == 0) && ((dst &&& 0x0f) == 0)
    && ((sz &&& 0x0f) == 0x08) && decide (sz >>> 4 ≥ 0) && decide (sz >>> 4 ≤ 8)

def mz_amd64_inline_short_aligned_memcpy (mem : Memory) (dst src sz : Nat) : Option Memory :=
  ((moves dst src).exec ⟨mem, fun _ => none⟩ (switchCase (sz >>> 4))).bind fun s =>
    -- The `uint64_t` at the end.
    (s.mem.loadAligned (src + sz - 8) 8).bind fun word =>
      s.mem.storeAligned (dst + sz - 8) word

def mz_amd64_optimized_memcpy_drop_in (mem : Memory) (dst src sz : Nat) : Option Memory :=
  if mz_amd64_inline_short_aligned_memcpy_test_ok dst src sz then
    mz_amd64_inline_short_aligned_memcpy mem dst src sz
  else
    some (mem.memcpy dst src sz)

variable {mem : Memory} {s : Copying} {dst src sz n : Nat}

/-! ## One assignment -/

theorem load_step (dst : Nat) (halign : src % 16 = 0) (s : Copying) (r i : Nat) :
    (moves dst src).step s (.load r i) =
      some { s with xmm := Function.update s.xmm r (some (s.mem.load (src + 16 * i) 16)) } := by
  have hblock : s.mem.loadAligned (src + 16 * i) 16 = some (s.mem.load (src + 16 * i) 16) :=
    if_pos (by omega)
  simp only [moves, hblock, Option.map_some]

theorem store_step (src : Nat) (halign : dst % 16 = 0) {r : Nat} {block : List UInt8}
    (hxmm : s.xmm r = some block) (hlength : block.length = 16) (i : Nat) :
    (moves dst src).step s (.store i r) =
      some { s with mem := s.mem.store (dst + 16 * i) block } := by
  have hstored : s.mem.storeAligned (dst + 16 * i) block =
      some (s.mem.store (dst + 16 * i) block) := if_pos (by rw [hlength]; omega)
  simp only [moves, hxmm, hstored, Option.bind_some, Option.map_some]

/-! ## A case -/

def loads (n : Nat) : List Move :=
  (List.range n).map fun i => .load i i

def stores (n : Nat) : List Move :=
  (List.range n).map fun i => .store i i

theorem loads_succ (n : Nat) : loads (n + 1) = loads n ++ [.load n n] := by
  simp [loads, List.range_succ]

theorem stores_succ (n : Nat) : stores (n + 1) = stores n ++ [.store n n] := by
  simp [stores, List.range_succ]

/-- Every case reads its blocks into variables of their own before it writes the first one. -/
theorem switchCase_eq : ∀ n ≤ 8, switchCase n = loads n ++ stores n := by
  decide

theorem exec_loads (halign : src % 16 = 0) (s : Copying) (n : Nat) :
    ∃ t, (moves dst src).exec s (loads n) = some t ∧ t.mem = s.mem ∧
      ∀ r < n, t.xmm r = some (s.mem.load (src + 16 * r) 16) := by
  induction n with
  | zero =>
      exact ⟨s, rfl, rfl, fun r hr => absurd hr (Nat.not_lt_zero r)⟩
  | succ n ih =>
      obtain ⟨t, ht, hmem, hxmm⟩ := ih
      have hstep := load_step dst halign t n n
      rw [loads_succ]
      refine ⟨_, (Machine.exec_append _).2 ⟨t, ht, (Machine.exec_singleton _).2 hstep⟩, hmem, ?_⟩
      intro r hr
      rcases Nat.eq_or_lt_of_le (Nat.le_of_lt_succ hr) with rfl | hlt
      · simp only [Function.update_self, hmem]
      · simp only [Function.update_of_ne (Nat.ne_of_lt hlt), hxmm r hlt]

/-- With the blocks of the source in the variables, the first `n` stores copy `n` blocks. -/
theorem exec_stores (halign : dst % 16 = 0)
    (hxmm : ∀ r < n, s.xmm r = some (s.mem.load (src + 16 * r) 16)) :
    (moves dst src).exec s (stores n) = some { s with mem := s.mem.memcpy dst src (16 * n) } := by
  induction n with
  | zero =>
      simp [stores, Memory.memcpy]
  | succ n ih =>
      have hfirst := ih fun r hr => hxmm r (Nat.lt_succ_of_lt hr)
      have hregister : ({ s with mem := s.mem.memcpy dst src (16 * n) } : Copying).xmm n =
          some (s.mem.load (src + 16 * n) 16) := hxmm n (Nat.lt_succ_self n)
      have hstep := store_step src halign hregister (Memory.length_load ..) n
      rw [stores_succ, Machine.exec_append]
      refine ⟨_, hfirst, ?_⟩
      rw [Machine.exec_singleton, hstep, Memory.memcpy_extend]
      rfl

/-- Case `n` copies `n` blocks. -/
theorem exec_switchCase (hdst : dst % 16 = 0) (hsrc : src % 16 = 0) (hn : n ≤ 8) :
    ∃ t, (moves dst src).exec ⟨mem, fun _ => none⟩ (switchCase n) = some t ∧
      t.mem = mem.memcpy dst src (16 * n) := by
  obtain ⟨t, ht, hmem, hxmm⟩ :
      ∃ t, (moves dst src).exec ⟨mem, fun _ => none⟩ (loads n) = some t ∧ t.mem = mem ∧
        ∀ r < n, t.xmm r = some (mem.load (src + 16 * r) 16) := exec_loads hsrc _ n
  have hstores : (moves dst src).exec t (stores n) =
      some { t with mem := t.mem.memcpy dst src (16 * n) } := by
    refine exec_stores hdst ?_
    rwa [hmem]
  rw [switchCase_eq n hn]
  refine ⟨_, (Machine.exec_append _).2 ⟨t, ht, hstores⟩, ?_⟩
  rw [hmem]

/-! ## The cases taken together -/

theorem test_ok_eq (dst src sz : Nat) :
    mz_amd64_inline_short_aligned_memcpy_test_ok dst src sz =
      short_aligned_memcpy_test_ok dst src sz := by
  have hlow : ∀ n : Nat, n &&& 0x0f = n % 16 := fun n => Nat.and_two_pow_sub_one_eq_mod n 4
  have hhigh : sz >>> 4 = sz / 16 := Nat.shiftRight_eq_div_pow sz 4
  simp [mz_amd64_inline_short_aligned_memcpy_test_ok, short_aligned_memcpy_test_ok, hlow, hhigh]

theorem inline_short_aligned_memcpy_eq (hok : short_aligned_memcpy_test_ok dst src sz = true) :
    mz_amd64_inline_short_aligned_memcpy mem dst src sz =
      some (short_aligned_memcpy mem dst src sz) := by
  simp only [short_aligned_memcpy_test_ok, Bool.and_eq_true, beq_iff_eq, decide_eq_true_eq] at hok
  obtain ⟨⟨⟨hsrc, hdst⟩, hsz⟩, hblocks⟩ := hok
  have hcase : sz >>> 4 = sz / 16 := Nat.shiftRight_eq_div_pow sz 4
  obtain ⟨t, ht, hmem⟩ : ∃ t, (moves dst src).exec ⟨mem, fun _ => none⟩ (switchCase (sz / 16)) =
      some t ∧ t.mem = mem.memcpy dst src (16 * (sz / 16)) := exec_switchCase hdst hsrc hblocks
  -- The last word is aligned because the blocks before it are.
  have hword : t.mem.loadAligned (src + sz - 8) 8 = some (t.mem.load (src + sz - 8) 8) :=
    if_pos (by omega)
  have hlast : t.mem.storeAligned (dst + sz - 8) (t.mem.load (src + sz - 8) 8) =
      some (t.mem.store (dst + sz - 8) (t.mem.load (src + sz - 8) 8)) := by
    refine if_pos ?_
    rw [Memory.length_load]
    omega
  rw [mz_amd64_inline_short_aligned_memcpy, hcase, ht, Option.bind_some, hword, Option.bind_some,
    hlast, hmem]
  simp only [short_aligned_memcpy, if_pos hblocks, storeBlocks_loadBlocks]

/-- `mz_resume` copies with this function. -/
theorem drop_in_eq (mem : Memory) (dst src sz : Nat) :
    mz_amd64_optimized_memcpy_drop_in mem dst src sz =
      some (optimized_memcpy_drop_in mem dst src sz) := by
  unfold mz_amd64_optimized_memcpy_drop_in optimized_memcpy_drop_in
  rw [test_ok_eq]
  split_ifs with hok
  · exact inline_short_aligned_memcpy_eq hok
  · rfl

/-- On ranges that are apart the copy has a result, the one of `memcpy`, whichever path is taken. -/
theorem drop_in_copies (mem : Memory) {dst src sz : Nat} (happart : Apart dst sz src sz) :
    ∃ mem', mz_amd64_optimized_memcpy_drop_in mem dst src sz = some mem' ∧
      mem' = mem.memcpy dst src sz ∧ Memory.Copied mem mem' dst src sz := by
  refine ⟨_, drop_in_eq mem dst src sz, optimized_memcpy_eq happart, ?_⟩
  rw [optimized_memcpy_eq happart]
  exact Memory.copied_memcpy mem dst src sz

/-- 40 bytes between aligned addresses, and 41 from an odd one. -/
theorem drop_in_copies_both_paths :
    (mz_amd64_inline_short_aligned_memcpy_test_ok 64 0 40 = true ∧
      ∃ mem', mz_amd64_optimized_memcpy_drop_in UInt8.ofNat 64 0 40 = some mem' ∧
        mem' = Memory.memcpy UInt8.ofNat 64 0 40 ∧ Memory.Copied UInt8.ofNat mem' 64 0 40) ∧
      mz_amd64_inline_short_aligned_memcpy_test_ok 64 1 41 = false ∧
        ∃ mem', mz_amd64_optimized_memcpy_drop_in UInt8.ofNat 64 1 41 = some mem' ∧
          mem' = Memory.memcpy UInt8.ofNat 64 1 41 ∧ Memory.Copied UInt8.ofNat mem' 64 1 41 :=
  ⟨⟨by decide, drop_in_copies _ (by decide)⟩, by decide, drop_in_copies _ (by decide)⟩

end Memcpy
end Coroutine
end Mozi
