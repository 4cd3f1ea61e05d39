import Mozi.Coroutine.Isolation
import Mozi.Coroutine.ShareStackNew

/-!
# StackBounds — saving and restoring stay inside the share stack

The addresses `mz_share_stack_new2` derives from a stack, and the two assertions of `mz_resume`
that use them.  What the first assertion lets through is saved with a size the second one lets
through, and the restore writes below `align_retptr` only.
-/

namespace Mozi
namespace Coroutine

open Foundation

/-! ## The copy -/

/-- The drop-in writes the destination only. -/
theorem optimized_memcpy_outside {mem : Memory} {dst src sz a : Nat}
    (ha : a < dst ∨ dst + sz ≤ a) : optimized_memcpy_drop_in mem dst src sz a = mem a := by
  unfold optimized_memcpy_drop_in
  split
  · rename_i hok
    simp only [short_aligned_memcpy_test_ok, Bool.and_eq_true, beq_iff_eq,
      decide_eq_true_eq] at hok
    obtain ⟨⟨-, hsz⟩, hblocks⟩ := hok
    simp only [short_aligned_memcpy, if_pos hblocks, storeBlocks_loadBlocks]
    -- The tail word, then the blocks.
    rw [Memory.store_outside (by rw [Memory.length_load]; omega)]
    exact Memory.store_outside (by rw [Memory.length_load]; omega)
  · exact Memory.store_outside (by rwa [Memory.length_load])

/-! ## The derived addresses -/

/-- The object describes this stack. -/
structure MzShareStack.Describes (p : MzShareStack) (stk : ShareStack) : Prop where
  ptr_eq : p.ptr = stk.ptr
  sz_eq : p.sz = stk.sz
  highptr_eq : p.align_highptr = stk.align_highptr
  retptr_eq : p.align_retptr = stk.align_retptr
  limit_eq : p.align_limit = stk.align_limit

theorem ShareStack.highptr_le (stk : ShareStack) : stk.align_highptr ≤ stk.ptr + stk.sz := by
  have h := stk.large
  unfold align_highptr
  omega

theorem ShareStack.limit_le_highptr (stk : ShareStack) : stk.align_limit ≤ stk.align_highptr := by
  have h := stk.large
  unfold align_limit align_highptr
  omega

/-- What is below `align_retptr` and not below `lowptr` fits under the limit of the restore. -/
theorem ShareStack.saved_le (stk : ShareStack) {sp : Nat} (hlow : stk.lowptr ≤ sp) :
    stk.align_retptr - sp ≤ stk.align_limit - 8 := by
  have h := stk.large
  unfold lowptr at hlow
  unfold align_retptr
  unfold align_limit align_highptr at *
  omega

/-- Restoring that much starts in the stack. -/
theorem ShareStack.ptr_le_restored (stk : ShareStack) {n : Nat} (h : n ≤ stk.align_limit - 8) :
    stk.ptr ≤ stk.align_retptr - n ∧ n ≤ stk.align_retptr := by
  have hlarge := stk.large
  unfold align_limit at h
  unfold align_retptr align_highptr
  omega

theorem highptr_eq {ptr sz : Nat} (hlarge : 16 + 8 * 2 + 8 < sz) (hbound : ptr + sz ≤ 2 ^ 64) :
    highptr ptr sz = (sz - 8 * 2 + ptr) / 16 * 16 := by
  have hwrap : (2 ^ 64 + sz - 8 * 2 + ptr) % 2 ^ 64 = sz - 8 * 2 + ptr := by omega
  unfold highptr
  rw [hwrap]

/-- The object that is returned describes a stack in the address space. -/
theorem alignStack_describes {p t : MzShareStack} {mem mem' : Memory} {protector : List UInt8}
    (hbound : p.ptr + p.sz ≤ 2 ^ 64) (hrun : alignStack p mem protector = some (t, mem')) :
    ∃ stk : ShareStack, t.Describes stk := by
  unfold alignStack at hrun
  simp only [Option.ite_none_right_eq_some, Option.some.injEq, Prod.mk.injEq] at hrun
  obtain ⟨hlarge, rfl, -⟩ := hrun
  have hhigh := highptr_eq hlarge hbound
  refine ⟨⟨p.ptr, p.sz, hlarge, hbound⟩, rfl, rfl, hhigh, ?_, rfl⟩
  simp only [ShareStack.align_retptr, ShareStack.align_highptr, hhigh]
  omega

/-- The ranges the system hands out are in the address space. -/
structure System.InSpace (sys : System) : Prop where
  mmap : ∀ n r, sys.mmap n = some r → r + n ≤ 2 ^ 64
  malloc : ∀ n r, sys.malloc n = some r → r + n ≤ 2 ^ 64

theorem checkPageSize_bound {pgsz : Int} {u_pgsz : Nat}
    (h : checkPageSize pgsz = some u_pgsz) : 0 < u_pgsz ∧ u_pgsz * 2 < 2 ^ 64 := by
  unfold checkPageSize at h
  simp only [Option.ite_none_right_eq_some, Option.some.injEq] at h
  omega

theorem newGuarded_describes {sys : System} (hsys : sys.InSpace) {mem mem' : Memory}
    {protector : List UInt8} {sz : Nat} {p : MzShareStack}
    (hrun : newGuarded sys mem protector sz = some (p, mem')) :
    ∃ stk : ShareStack, p.Describes stk := by
  unfold newGuarded at hrun
  simp only [Option.bind_eq_some_iff, Option.ite_none_right_eq_some] at hrun
  obtain ⟨u_pgsz, hpage, n, -, -, r, hmap, ⟨-, htwo⟩, halign⟩ := hrun
  obtain ⟨hpos, hlt⟩ := checkPageSize_bound hpage
  have hroom := hsys.mmap n r hmap
  rw [Nat.mod_eq_of_lt hlt] at htwo
  refine alignStack_describes ?_ halign
  show (r + u_pgsz) % 2 ^ 64 + (n - u_pgsz) ≤ 2 ^ 64
  omega

theorem newUnguarded_describes {sys : System} (hsys : sys.InSpace) {mem mem' : Memory}
    {protector : List UInt8} {sz : Nat} {p : MzShareStack}
    (hrun : newUnguarded sys mem protector sz = some (p, mem')) :
    ∃ stk : ShareStack, p.Describes stk := by
  unfold newUnguarded at hrun
  simp only [Option.bind_eq_some_iff, Option.ite_none_right_eq_some] at hrun
  obtain ⟨-, r, hmalloc, halign⟩ := hrun
  exact alignStack_describes (hsys.malloc sz r hmalloc) halign

theorem share_stack_describes {sys : System} (hsys : sys.InSpace) {mem mem' : Memory}
    {protector : List UInt8} {sz : Nat} {guard_page_enabled : Bool} {p : MzShareStack}
    (hrun : mz_share_stack_new2 sys mem protector sz guard_page_enabled = some (p, mem')) :
    ∃ stk : ShareStack, p.Describes stk := by
  unfold mz_share_stack_new2 at hrun
  cases guard_page_enabled with
  | true =>
      exact newGuarded_describes hsys hrun
  | false =>
      exact newUnguarded_describes hsys hrun

/-! ## Saving and restoring -/

namespace State

variable {Stk : Type} [DecidableEq Stk] {L : Layout Stk} {s t : State Stk} {k : Stk} {c o : CoId}
  {ptr : Nat}

/-- The saved size passes the assertion of the restore, and nobody owns the stack. -/
theorem saveOwner_fits (howner : s.owner k = some o) (hsave : s.saveOwner L k ptr = some t) :
    t.owner k = none ∧ ∃ co, t.cos o = some co ∧ co.share_stack = k ∧
      co.save_stack.valid_sz ≤ (L.stack k).align_limit - 8 := by
  unfold saveOwner at hsave
  cases hco : s.cos o with
  | none =>
      simp [howner, hco] at hsave
  | some co =>
      simp only [howner, hco, Option.ite_none_right_eq_some, Option.map_eq_some_iff] at hsave
      obtain ⟨⟨rfl, hhigh, hlow⟩, save, hgrow, rfl⟩ := hsave
      obtain ⟨hvalid, -, -⟩ := grow_spec hgrow
      refine ⟨by simp, { co with save_stack := save.noteSave }, by simp, rfl, ?_⟩
      rw [SaveStack.noteSave_valid_sz, hvalid]
      exact (L.stack co.share_stack).saved_le hlow

/-- So the coroutine that was saved can be restored. -/
theorem restore_of_fits {co : Co Stk} (hco : s.cos c = some co)
    (hfree : s.owner co.share_stack = none)
    (hfits : co.save_stack.valid_sz ≤ (L.stack co.share_stack).align_limit - 8) :
    ∃ u, s.restore L c = some u := by
  simp only [restore, hco, if_pos (And.intro hfree hfits)]
  exact ⟨_, rfl⟩

/-- The restore changes memory in the stack below `align_retptr` only. -/
theorem restore_within {co : Co Stk} (hco : s.cos c = some co)
    (hrestore : s.restore L c = some t) {a : Nat} (ha : t.mem a ≠ s.mem a) :
    (L.stack co.share_stack).ptr ≤ a ∧ a < (L.stack co.share_stack).align_retptr := by
  simp only [restore, hco, Option.ite_none_right_eq_some, Option.some.injEq] at hrestore
  obtain ⟨⟨-, hfits⟩, rfl⟩ := hrestore
  obtain ⟨hlow, hroom⟩ := (L.stack co.share_stack).ptr_le_restored hfits
  by_contra hout
  refine ha ?_
  simp only
  split_ifs
  · refine optimized_memcpy_outside ?_
    omega
  · rfl

end State

/-- What is saved and restored on a stack that was made by `mz_share_stack_new2`: the range down to
the limit lies in the stack, a stack pointer the save accepts leaves a size the restore accepts,
and the restore writes from `ptr` up to `align_retptr`. -/
theorem save_and_restore_inside {sys : System} (hsys : sys.InSpace) {mem mem' : Memory}
    {protector : List UInt8} {sz : Nat} {guard_page_enabled : Bool} {p : MzShareStack}
    (hrun : mz_share_stack_new2 sys mem protector sz guard_page_enabled = some (p, mem')) :
    (p.align_limit ≤ p.align_highptr ∧ p.ptr ≤ p.align_highptr - p.align_limit ∧
      p.align_highptr ≤ p.ptr + p.sz) ∧
    (∀ sp, sp ≤ p.align_retptr → p.align_highptr - p.align_limit ≤ sp →
      p.align_retptr - sp ≤ p.align_limit - 8) ∧
    (∃ stk : ShareStack, p.Describes stk) ∧
    ∀ (Stk : Type) [DecidableEq Stk] (L : Layout Stk) (k : Stk) (s t : State Stk),
      p.Describes (L.stack k) →
      (∀ o ptr, s.owner k = some o → s.saveOwner L k ptr = some t →
        (∃ co, t.cos o = some co ∧ co.save_stack.valid_sz ≤ p.align_limit - 8) ∧
          ∃ u, t.restore L o = some u) ∧
      (∀ c co a, s.cos c = some co → co.share_stack = k → s.restore L c = some t →
        t.mem a ≠ s.mem a → p.ptr ≤ a ∧ a < p.align_retptr) := by
  obtain ⟨stk, hstk⟩ := share_stack_describes hsys hrun
  refine ⟨?_, ?_, ⟨stk, hstk⟩, ?_⟩
  · rw [hstk.ptr_eq, hstk.sz_eq, hstk.highptr_eq, hstk.limit_eq]
    exact ⟨stk.limit_le_highptr, stk.ptr_le_lowptr, stk.highptr_le⟩
  · intro sp _ hlow
    rw [hstk.highptr_eq, hstk.limit_eq] at hlow
    rw [hstk.retptr_eq, hstk.limit_eq]
    exact stk.saved_le hlow
  · intro Stk _ L k s t hk
    refine ⟨?_, ?_⟩
    · intro o ptr howner hsave
      obtain ⟨hfree, co, hco, rfl, hfits⟩ := State.saveOwner_fits howner hsave
      refine ⟨⟨co, hco, by rwa [hk.limit_eq]⟩, ?_⟩
      exact State.restore_of_fits hco hfree hfits
    · rintro c co a hco rfl hrestore ha
      rw [hk.ptr_eq, hk.retptr_eq]
      exact State.restore_within hco hrestore ha

theorem smallPages_inSpace : smallPages.InSpace := by
  constructor
  · intro n r h
    simp only [smallPages, Option.ite_none_right_eq_some, Option.some.injEq] at h
    omega
  · intro n r h
    simp only [smallPages, Option.ite_none_right_eq_some, Option.some.injEq] at h
    omega

/-- A stack of four pages behind a guard page. -/
def fourPages : MzShareStack where
  ptr := 0x7f0000001000
  sz := 16384
  align_highptr := 0x7f0000004ff0
  align_retptr := 0x7f0000004fe8
  align_validsz := 0
  align_limit := 16352
  guard_page_enabled := true
  real_ptr := 0x7f0000000000
  real_sz := 20480

theorem save_and_restore_inside_fourPages :
    (fourPages.align_limit ≤ fourPages.align_highptr ∧
      fourPages.ptr ≤ fourPages.align_highptr - fourPages.align_limit ∧
      fourPages.align_highptr ≤ fourPages.ptr + fourPages.sz) ∧
    (∀ sp, sp ≤ fourPages.align_retptr →
      fourPages.align_highptr - fourPages.align_limit ≤ sp →
      fourPages.align_retptr - sp ≤ fourPages.align_limit - 8) ∧
    (∃ stk : ShareStack, fourPages.Describes stk) ∧
    ∀ (Stk : Type) [DecidableEq Stk] (L : Layout Stk) (k : Stk) (s t : State Stk),
      fourPages.Describes (L.stack k) →
      (∀ o ptr, s.owner k = some o → s.saveOwner L k ptr = some t →
        (∃ co, t.cos o = some co ∧ co.save_stack.valid_sz ≤ fourPages.align_limit - 8) ∧
          ∃ u, t.restore L o = some u) ∧
      (∀ c co a, s.cos c = some co → co.share_stack = k → s.restore L c = some t →
        t.mem a ≠ s.mem a → fourPages.ptr ≤ a ∧ a < fourPages.align_retptr) :=
  save_and_restore_inside smallPages_inSpace
    (show mz_share_stack_new2 smallPages (fun _ => 0) [0] 16384 true = some (fourPages, _) from rfl)

end Coroutine
end Mozi
