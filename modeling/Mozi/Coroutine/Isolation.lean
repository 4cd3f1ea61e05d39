import Mozi.Coroutine.Mzco

/-!
# Isolation — a resumed coroutine finds its stack as it left it

The bytes of a suspended coroutine are on its share stack while it owns the stack, and in its save
buffer otherwise (`State.held`).  Every step of anybody else keeps them: a save moves them to the
buffer, and the layout invariant `Wf` keeps all buffers apart from each other and from the share
stacks.  The resume that switches back finds them on the stack.
-/

namespace Mozi
namespace Coroutine

open Foundation

variable {Stk : Type} [DecidableEq Stk] {L : Layout Stk}

namespace State

variable {s t : State Stk} {c d o : CoId} {a : Action Stk}

/-! ## The invariant -/

structure Wf (L : Layout Stk) (s : State Stk) : Prop where
  /-- An owner is live, not ended and created on the stack. -/
  owned : ∀ k c, s.owner k = some c →
    ∃ co, s.cos c = some co ∧ co.is_end = false ∧ co.share_stack = k
  /-- The running coroutine owns its stack. -/
  running : ∀ c, s.gtls_co = some c →
    ∃ co, s.cos c = some co ∧ s.owner co.share_stack = some c
  sp_range : ∀ c co, s.cos c = some co → co.is_end = false →
    (L.stack co.share_stack).lowptr ≤ co.reg_sp ∧
      co.reg_sp ≤ (L.stack co.share_stack).align_retptr
  /-- A coroutine that does not own its stack is saved. -/
  saved : ∀ c co, s.cos c = some co → co.is_end = false →
    s.owner co.share_stack ≠ some c →
      co.save_stack.valid_sz = (L.stack co.share_stack).align_retptr - co.reg_sp ∧
        co.save_stack.valid_sz ≤ co.save_stack.sz
  buffers : ∀ c co, s.cos c = some co → s.Fresh L c co.save_stack.ptr co.save_stack.sz

omit [DecidableEq Stk] in
theorem wf_init : Wf L (State.init : State Stk) :=
  { owned := by simp [State.init]
    running := by simp [State.init]
    sp_range := by simp [State.init]
    saved := by simp [State.init]
    buffers := by simp [State.init] }

/-! ## Where the bytes of a coroutine are -/

/-- The bytes of the live region: on the stack of its owner, in the save buffer otherwise. -/
def held (L : Layout Stk) (s : State Stk) (c : CoId) (co : Co Stk) : List UInt8 :=
  s.mem.load (if s.owner co.share_stack = some c then co.reg_sp else co.save_stack.ptr)
    ((L.stack co.share_stack).align_retptr - co.reg_sp)

/-- A live coroutine on stack `k` with stack pointer `sp` and these bytes in its live region. -/
def Holds (L : Layout Stk) (s : State Stk) (c : CoId) (k : Stk) (sp : Nat)
    (bytes : List UInt8) : Prop :=
  ∃ co, s.cos c = some co ∧ co.is_end = false ∧ co.share_stack = k ∧ co.reg_sp = sp ∧
    s.held L c co = bytes

/-! ## Growing a save buffer -/

theorem double_ge {valid_sz sz r : Nat} :
    ∀ {fuel : Nat}, SaveStack.double valid_sz fuel sz = some r → valid_sz ≤ r := by
  intro fuel
  induction fuel generalizing sz with
  | zero =>
      intro h
      simp [SaveStack.double] at h
  | succ fuel ih =>
      intro h
      simp only [SaveStack.double] at h
      split_ifs at h with hpos hge
      · cases h
        exact hge
      · exact ih h

/-- The buffer after `grow` has room, and is the old block or the one the allocator gave. -/
theorem grow_spec {save save' : SaveStack} {valid_sz ptr : Nat}
    (h : save.grow valid_sz ptr = some save') :
    save'.valid_sz = valid_sz ∧ valid_sz ≤ save'.sz ∧
      ((save'.ptr = save.ptr ∧ save'.sz = save.sz) ∨
        (save.sz < valid_sz ∧ save'.ptr = ptr ∧
          SaveStack.double valid_sz 65 save.sz = some save'.sz)) := by
  unfold SaveStack.grow at h
  split_ifs at h with hsmall
  · rcases Option.map_eq_some_iff.1 h with ⟨sz, hsz, rfl⟩
    exact ⟨rfl, double_ge hsz, Or.inr ⟨hsmall, rfl, hsz⟩⟩
  · cases h
    exact ⟨rfl, Nat.le_of_not_lt hsmall, Or.inl ⟨rfl, rfl⟩⟩

/-- The guarded copy of `mz_resume` on ranges that are apart. -/
theorem copy_eq {mem : Memory} {dst src n : Nat} (h : Apart dst n src n) :
    (if 0 < n then optimized_memcpy_drop_in mem dst src n else mem) = mem.memcpy dst src n := by
  split_ifs with hpos
  · exact optimized_memcpy_eq h
  · have hzero : n = 0 := by omega
    simp [hzero, Memory.memcpy]

/-! ## The objects after an update -/

section Update

variable {x : Option (Co Stk)}

omit [DecidableEq Stk] in
theorem forall_update {P : CoId → Co Stk → Prop} (h : ∀ c co, s.cos c = some co → P c co)
    (hx : ∀ co, x = some co → P o co) :
    ∀ c co, Function.update s.cos o x c = some co → P c co := by
  intro c co hc
  by_cases hco : c = o
  · subst hco
    exact hx co (by simpa using hc)
  · exact h c co (by simpa [hco] using hc)

omit [DecidableEq Stk] in
/-- Replacing one object keeps the buffers apart if its new buffer is fresh. -/
theorem Wf.buffers_update (hs : Wf L s) (hcos : t.cos = Function.update s.cos o x)
    (hx : ∀ co, x = some co → s.Fresh L o co.save_stack.ptr co.save_stack.sz) :
    ∀ c co, t.cos c = some co → t.Fresh L c co.save_stack.ptr co.save_stack.sz := by
  intro c co hc
  refine ⟨?_, ?_⟩
  · refine forall_update (P := fun _ co => ∀ k, Apart co.save_stack.ptr co.save_stack.sz
      (L.stack k).ptr (L.stack k).sz) (fun c co hc => (hs.buffers c co hc).1)
      (fun co hco => (hx co hco).1) c co (hcos ▸ hc)
  · intro d do' hd hdo
    rw [hcos] at hc hdo
    -- Either of the two buffers may be the new one; two old ones were apart before.
    by_cases hco : c = o
    · subst hco
      have hnew : x = some co := by simpa using hc
      exact (hx co hnew).2 d do' hd (by simpa [hd] using hdo)
    · have hold : s.cos c = some co := by simpa [hco] using hc
      by_cases hdo' : d = o
      · subst hdo'
        have hnew : x = some do' := by simpa using hdo
        exact ((hx do' hnew).2 c co hco hold).symm
      · exact (hs.buffers c co hold).2 d do' hd (by simpa [hdo'] using hdo)

end Update

/-! ## Memory changes that keep the bytes of a coroutine -/

omit [DecidableEq Stk] in
/-- A store that misses the stack of a coroutine that owns it, and the buffer of one that does
not, keeps its bytes. -/
theorem Wf.held_store (hs : Wf L s) {co : Co Stk} (hc : s.cos c = some co)
    (hlive : co.is_end = false) {addr : Nat} {bytes : List UInt8}
    (hmem : t.mem = s.mem.store addr bytes)
    (howner : t.owner co.share_stack = some c ↔ s.owner co.share_stack = some c)
    (hstack : s.owner co.share_stack = some c →
      Apart (L.stack co.share_stack).ptr (L.stack co.share_stack).sz addr bytes.length)
    (hbuffer : s.owner co.share_stack ≠ some c →
      Apart co.save_stack.ptr co.save_stack.sz addr bytes.length) :
    t.held L c co = s.held L c co := by
  have hlow := (L.stack co.share_stack).ptr_le_lowptr
  have hhigh := (L.stack co.share_stack).retptr_le
  have hsp := hs.sp_range c co hc hlive
  unfold held
  -- The live region is part of the stack, the saved bytes are part of the buffer.
  by_cases hown : s.owner co.share_stack = some c
  · rw [if_pos (howner.2 hown), if_pos hown, hmem]
    exact Memory.load_store_apart
      ((hstack hown).mono (by omega) (by omega) (Nat.le_refl _) (Nat.le_refl _))
  · have hvalid := hs.saved c co hc hlive hown
    rw [if_neg (fun h => hown (howner.1 h)), if_neg hown, hmem]
    exact Memory.load_store_apart
      ((hbuffer hown).mono (Nat.le_refl _) (by omega) (Nat.le_refl _) (Nat.le_refl _))

/-! ## Saving the owner -/

/-- What `saveOwner` does when the stack has an owner. -/
structure Saved (L : Layout Stk) (s : State Stk) (k : Stk) (o : CoId) (co : Co Stk)
    (save : SaveStack) (t : State Stk) : Prop where
  owner_eq : s.owner k = some o
  cos_eq : s.cos o = some co
  live : co.is_end = false
  on_stack : co.share_stack = k
  low : (L.stack k).lowptr ≤ co.reg_sp
  high : co.reg_sp ≤ (L.stack k).align_retptr
  valid : save.valid_sz = (L.stack k).align_retptr - co.reg_sp
  room : save.valid_sz ≤ save.sz
  fresh : s.Fresh L o save.ptr save.sz
  result : t =
    { s with
      mem := s.mem.memcpy save.ptr co.reg_sp save.valid_sz
      cos := Function.update s.cos o (some { co with save_stack := save.noteSave })
      owner := Function.update s.owner k none
      align_validsz := Function.update s.align_validsz k 0 }

theorem saveOwner_spec {k : Stk} {ptr : Nat} (hs : Wf L s)
    (halloc : ∀ o owner_co sz, s.owner k = some o → s.cos o = some owner_co →
      owner_co.save_stack.sz <
        (L.stack owner_co.share_stack).align_retptr - owner_co.reg_sp →
      SaveStack.double ((L.stack owner_co.share_stack).align_retptr - owner_co.reg_sp) 65
        owner_co.save_stack.sz = some sz →
      s.Fresh L o ptr sz)
    (h : s.saveOwner L k ptr = some t) :
    (s.owner k = none ∧ t = s) ∨ ∃ o co save, Saved L s k o co save t := by
  unfold saveOwner at h
  cases howner : s.owner k with
  | none =>
      simp only [howner] at h
      cases h
      exact Or.inl ⟨rfl, rfl⟩
  | some o =>
      obtain ⟨co, hco, hlive, rfl⟩ := hs.owned k o howner
      simp only [howner, hco, true_and] at h
      split_ifs at h with hrange
      rcases Option.map_eq_some_iff.1 h with ⟨save, hgrow, rfl⟩
      rcases grow_spec hgrow with ⟨hvalid, hroom, hblock⟩
      -- The buffer is the old one, or the block that the contract says is fresh.
      have hfresh : s.Fresh L o save.ptr save.sz := by
        rcases hblock with ⟨hptr, hsz⟩ | ⟨hsmall, hptr, hdouble⟩
        · rw [hptr, hsz]
          exact hs.buffers o co hco
        · rw [hptr]
          exact halloc o co save.sz howner hco hsmall hdouble
      refine Or.inr ⟨o, co, save, ?_⟩
      have hlow := (L.stack co.share_stack).ptr_le_lowptr
      have hhigh := (L.stack co.share_stack).retptr_le
      have happart : Apart save.ptr save.valid_sz co.reg_sp save.valid_sz :=
        (hfresh.1 co.share_stack).mono (Nat.le_refl _) (by omega) (by omega) (by omega)
      exact
        { owner_eq := howner
          cos_eq := hco
          live := hlive
          on_stack := rfl
          low := hrange.2
          high := hrange.1
          valid := hvalid
          room := hvalid ▸ hroom
          fresh := hfresh
          result := by rw [copy_eq happart] }

namespace Saved

variable {k : Stk} {co : Co Stk} {save : SaveStack}

theorem owner_none (h : Saved L s k o co save t) : t.owner k = none := by
  simp [h.result]

theorem gtls_co (h : Saved L s k o co save t) : t.gtls_co = s.gtls_co := by
  simp [h.result]

theorem cos_update (h : Saved L s k o co save t) :
    t.cos = Function.update s.cos o (some { co with save_stack := save.noteSave }) := by
  simp [h.result]

theorem owner_update (h : Saved L s k o co save t) : t.owner = Function.update s.owner k none := by
  simp [h.result]

theorem mem_store (h : Saved L s k o co save t) :
    t.mem = s.mem.store save.ptr (s.mem.load co.reg_sp save.valid_sz) := by
  simp [h.result, Memory.memcpy]

theorem wf (hs : Wf L s) (hmain : s.gtls_co = none) (h : Saved L s k o co save t) : Wf L t := by
  have hcos := h.cos_update
  have howner := h.owner_update
  refine
    { owned := ?_
      running := ?_
      sp_range := ?_
      saved := ?_
      buffers := ?_ }
  · -- The stack has lost its owner, and the other stacks keep theirs.
    intro k' c hc
    have hk : k' ≠ k := by
      rintro rfl
      simp [howner] at hc
    have hold : s.owner k' = some c := by simpa [howner, hk] using hc
    obtain ⟨co', hco', hlive', hstack'⟩ := hs.owned k' c hold
    have hne : c ≠ o := by
      rintro rfl
      rw [h.cos_eq] at hco'
      cases hco'
      exact hk (hstack'.symm.trans h.on_stack)
    exact ⟨co', by simpa [hcos, hne] using hco', hlive', hstack'⟩
  · intro c hc
    rw [h.gtls_co, hmain] at hc
    cases hc
  · rw [hcos]
    refine forall_update hs.sp_range ?_
    rintro co' hco' hlive'
    cases hco'
    exact hs.sp_range o co h.cos_eq hlive'
  · intro c co' hco' hlive' hnot
    -- The saved owner has its bytes in the buffer now; whoever was saved stays so.
    by_cases hne : c = o
    · subst hne
      have heq : co' = { co with save_stack := save.noteSave } := by simpa [hcos] using hco'.symm
      subst heq
      exact ⟨by simpa [h.on_stack] using h.valid, by simpa using h.room⟩
    · have hold : s.cos c = some co' := by simpa [hcos, hne] using hco'
      refine hs.saved c co' hold hlive' ?_
      intro hown
      by_cases hk : co'.share_stack = k
      · rw [hk, h.owner_eq] at hown
        exact hne (Option.some.inj hown).symm
      · exact hnot (by simpa [howner, hk] using hown)
  · refine hs.buffers_update hcos ?_
    intro co' hco'
    cases hco'
    simpa using h.fresh

/-- A save moves the bytes of the owner to its buffer and keeps everybody else's. -/
theorem holds (hs : Wf L s) (h : Saved L s k o co save t) {k' : Stk} {sp : Nat}
    {bytes : List UInt8} (hc : s.Holds L c k' sp bytes) : t.Holds L c k' sp bytes := by
  have hcos := h.cos_update
  have howner := h.owner_update
  have hmem := h.mem_store
  obtain ⟨co', hco', hlive, rfl, rfl, hheld⟩ := hc
  -- The owner itself: its bytes have moved with the copy.
  by_cases hne : c = o
  · subst hne
    have heq : co' = co := by simpa [h.cos_eq] using hco'.symm
    subst heq
    refine ⟨{ co' with save_stack := save.noteSave }, by simp [hcos], hlive, rfl, rfl, ?_⟩
    have hstack := h.on_stack
    subst hstack
    have hcopy : t.mem.load save.ptr save.valid_sz = s.mem.load co'.reg_sp save.valid_sz :=
      hmem ▸ Memory.load_memcpy_dst s.mem save.ptr co'.reg_sp save.valid_sz
    rw [← hheld]
    simp only [held, howner, h.owner_eq, Function.update_self, SaveStack.noteSave_ptr, ← h.valid]
    simpa using hcopy
  · refine ⟨co', by simpa [hcos, hne] using hco', hlive, rfl, rfl, ?_⟩
    rw [← hheld]
    refine hs.held_store hco' hlive hmem ?_ ?_ ?_
    · by_cases hk : co'.share_stack = k
      · rw [hk, howner, h.owner_eq]
        simpa using fun heq => hne heq.symm
      · simp [howner, hk]
    · intro _
      exact ((h.fresh.1 co'.share_stack).mono (Nat.le_refl _) (by simpa using h.room)
        (Nat.le_refl _) (Nat.le_refl _)).symm
    · intro _
      exact ((h.fresh.2 c co' hne hco').mono (Nat.le_refl _) (by simpa using h.room)
        (Nat.le_refl _) (Nat.le_refl _)).symm

end Saved

/-! ## Taking the stack -/

/-- What `restore` does with a live coroutine on a stack nobody owns. -/
structure Restored (L : Layout Stk) (s : State Stk) (c : CoId) (co : Co Stk) (t : State Stk) :
    Prop where
  cos_eq : s.cos c = some co
  owner_none : s.owner co.share_stack = none
  result : t =
    { s with
      mem := s.mem.memcpy ((L.stack co.share_stack).align_retptr - co.save_stack.valid_sz)
        co.save_stack.ptr co.save_stack.valid_sz
      cos := Function.update s.cos c (some { co with save_stack := co.save_stack.noteRestore })
      owner := Function.update s.owner co.share_stack (some c)
      align_validsz :=
        Function.update s.align_validsz co.share_stack (co.save_stack.valid_sz + 8) }

theorem restore_spec {co : Co Stk} (hs : Wf L s) (hc : s.cos c = some co)
    (hlive : co.is_end = false) (h : s.restore L c = some t) : Restored L s c co t := by
  unfold restore at h
  simp only [hc, Option.ite_none_right_eq_some] at h
  rcases h with ⟨hguard, heq⟩
  cases heq
  have hvalid := hs.saved c co hc hlive (by simp [hguard.1])
  have hlow := (L.stack co.share_stack).ptr_le_lowptr
  have hhigh := (L.stack co.share_stack).retptr_le
  have hsp := hs.sp_range c co hc hlive
  -- The buffer lies outside the stack, so the two ranges do not overlap.
  have happart : Apart ((L.stack co.share_stack).align_retptr - co.save_stack.valid_sz)
      co.save_stack.valid_sz co.save_stack.ptr co.save_stack.valid_sz :=
    (((hs.buffers c co hc).1 co.share_stack).symm).mono (by omega) (by omega) (Nat.le_refl _)
      (by omega)
  exact
    { cos_eq := hc
      owner_none := hguard.1
      result := by rw [copy_eq happart] }

namespace Restored

variable {co : Co Stk}

theorem cos_update (h : Restored L s c co t) :
    t.cos =
      Function.update s.cos c (some { co with save_stack := co.save_stack.noteRestore }) := by
  simp [h.result]

theorem owner_update (h : Restored L s c co t) :
    t.owner = Function.update s.owner co.share_stack (some c) := by
  simp [h.result]

theorem mem_store (h : Restored L s c co t) :
    t.mem = s.mem.store ((L.stack co.share_stack).align_retptr - co.save_stack.valid_sz)
      (s.mem.load co.save_stack.ptr co.save_stack.valid_sz) := by
  simp [h.result, Memory.memcpy]

/-- A stack with an owner is not the one that is taken. -/
theorem stack_ne (h : Restored L s c co t) {k : Stk} (hown : s.owner k = some d) :
    k ≠ co.share_stack := by
  rintro rfl
  rw [h.owner_none] at hown
  cases hown

theorem wf (hs : Wf L s) (hlive : co.is_end = false)
    (h : Restored L s c co t) : Wf L { t with gtls_co := some c } := by
  have hcos := h.cos_update
  have howner := h.owner_update
  refine
    { owned := ?_
      running := ?_
      sp_range := ?_
      saved := ?_
      buffers := ?_ }
  · -- The stack belongs to the resumed coroutine, which cannot own another one.
    intro k' c' hc'
    by_cases hk : k' = co.share_stack
    · subst hk
      have hcc : c = c' := by simpa [howner] using hc'
      subst hcc
      exact ⟨{ co with save_stack := co.save_stack.noteRestore }, by simp [hcos], hlive, rfl⟩
    · have hold : s.owner k' = some c' := by simpa [howner, hk] using hc'
      obtain ⟨co', hco', hlive', hstack'⟩ := hs.owned k' c' hold
      have hne : c' ≠ c := by
        rintro rfl
        rw [h.cos_eq] at hco'
        cases hco'
        exact hk hstack'.symm
      exact ⟨co', by simpa [hcos, hne] using hco', hlive', hstack'⟩
  · intro c' hc'
    have hcc : c = c' := Option.some.inj hc'
    subst hcc
    exact ⟨{ co with save_stack := co.save_stack.noteRestore }, by simp [hcos], by simp [howner]⟩
  · show ∀ c' co', t.cos c' = some co' → _
    rw [hcos]
    refine forall_update hs.sp_range ?_
    rintro co' hco' hlive'
    cases hco'
    exact hs.sp_range c co h.cos_eq hlive
  · intro c' co' hco' hlive' hnot
    by_cases hne : c' = c
    · subst hne
      have heq : co' = { co with save_stack := co.save_stack.noteRestore } := by
        simpa [hcos] using hco'.symm
      subst heq
      simp [howner] at hnot
    · refine hs.saved c' co' (by simpa [hcos, hne] using hco') hlive' ?_
      intro hown
      refine hnot ?_
      simpa [howner, h.stack_ne hown] using hown
  · refine hs.buffers_update (t := { t with gtls_co := some c }) hcos ?_
    intro co' hco'
    cases hco'
    simpa using hs.buffers c co h.cos_eq

/-- A restore keeps the bytes of everybody else. -/
theorem holds (hs : Wf L s) (hlive : co.is_end = false) (h : Restored L s c co t) (hdc : d ≠ c)
    {k : Stk} {sp : Nat} {bytes : List UInt8} (hd : s.Holds L d k sp bytes) :
    t.Holds L d k sp bytes := by
  have hcos := h.cos_update
  have howner := h.owner_update
  have hmem := h.mem_store
  have hvalid := hs.saved c co h.cos_eq hlive (by simp [h.owner_none])
  have hlow := (L.stack co.share_stack).ptr_le_lowptr
  have hhigh := (L.stack co.share_stack).retptr_le
  have hsp := hs.sp_range c co h.cos_eq hlive
  obtain ⟨co', hco', hlive', rfl, rfl, hheld⟩ := hd
  refine ⟨co', by simpa [hcos, hdc] using hco', hlive', rfl, rfl, ?_⟩
  rw [← hheld]
  refine hs.held_store hco' hlive' hmem ?_ ?_ ?_
  · by_cases hk : co'.share_stack = co.share_stack
    · rw [hk, howner, h.owner_none]
      simpa using fun heq => hdc heq.symm
    · simp [howner, hk]
  · -- Another owner stands on another stack, and stacks are apart.
    intro hown
    exact (L.apart _ _ (h.stack_ne hown)).mono (Nat.le_refl _) (Nat.le_refl _) (by omega)
      (by simp only [Memory.length_load]; omega)
  · intro _
    exact ((hs.buffers d co' hco').1 co.share_stack).mono (Nat.le_refl _) (Nat.le_refl _)
      (by omega) (by simp only [Memory.length_load]; omega)

/-- A restore leaves the saved bytes on the stack, from the saved stack pointer on. -/
theorem load (hs : Wf L s) (hlive : co.is_end = false) (h : Restored L s c co t) :
    t.mem.load co.reg_sp ((L.stack co.share_stack).align_retptr - co.reg_sp) =
      s.held L c co := by
  have hvalid := hs.saved c co h.cos_eq hlive (by simp [h.owner_none])
  have hsp := hs.sp_range c co h.cos_eq hlive
  have hdst : (L.stack co.share_stack).align_retptr - co.save_stack.valid_sz = co.reg_sp := by
    omega
  have hcopy := Memory.load_memcpy_dst s.mem co.reg_sp co.save_stack.ptr co.save_stack.valid_sz
  have hmem : t.mem = s.mem.memcpy co.reg_sp co.save_stack.ptr co.save_stack.valid_sz := by
    rw [h.result, ← hdst]
  rw [held, h.owner_none, hmem, ← hvalid.1]
  simpa using hcopy

end Restored

/-! ## Every step -/

theorem resume_spec {ptr : Nat} (h : s.mz_resume L c ptr = some t) :
    ∃ co, s.cos c = some co ∧ co.is_end = false ∧
      ((s.owner co.share_stack = some c ∧ t = { s with gtls_co := some c }) ∨
        (s.owner co.share_stack ≠ some c ∧
          ∃ s₁ s₂, s.saveOwner L co.share_stack ptr = some s₁ ∧ s₁.restore L c = some s₂ ∧
            t = { s₂ with gtls_co := some c })) := by
  unfold mz_resume at h
  cases hc : s.cos c with
  | none =>
      simp [hc] at h
  | some co =>
      simp only [hc] at h
      split_ifs at h with hend hown
      · cases h
        exact ⟨co, rfl, by simpa using hend, Or.inl ⟨hown, rfl⟩⟩
      · rcases Option.bind_eq_some_iff.1 h with ⟨s₁, hsave, hrest⟩
        rcases Option.map_eq_some_iff.1 hrest with ⟨s₂, hrestore, rfl⟩
        exact ⟨co, rfl, by simpa using hend, Or.inr ⟨hown, s₁, s₂, hsave, hrestore, rfl⟩⟩

/-- The coroutine to resume is still there when the owner has been saved. -/
theorem saveOwner_cos {k : Stk} {co co' : Co Stk} {save : SaveStack} (h : Saved L s k o co' save t)
    (hc : s.cos c = some co) (hown : s.owner k ≠ some c) : t.cos c = some co := by
  have hne : c ≠ o := by
    rintro rfl
    exact hown h.owner_eq
  simpa [h.result, hne] using hc

/-- The two halves of a resume that takes the stack. -/
theorem take_stack {ptr : Nat} {co : Co Stk} {s₁ s₂ : State Stk} (hs : Wf L s)
    (hmain : s.gtls_co = none) (hcontract : s.Contract L (.mz_resume c ptr))
    (hc : s.cos c = some co) (hlive : co.is_end = false) (hown : s.owner co.share_stack ≠ some c)
    (hsave : s.saveOwner L co.share_stack ptr = some s₁) (hrestore : s₁.restore L c = some s₂) :
    Wf L s₁ ∧ Restored L s₁ c co s₂ ∧
      ∀ d k sp bytes, s.Holds L d k sp bytes → s₁.Holds L d k sp bytes := by
  rcases saveOwner_spec hs (fun o oco sz => hcontract co o oco sz hc) hsave with
    ⟨_, rfl⟩ | ⟨o, oco, save, hsaved⟩
  · exact ⟨hs, restore_spec hs hc hlive hrestore, fun _ _ _ _ hd => hd⟩
  · have hs₁ : Wf L s₁ := hsaved.wf hs hmain
    exact ⟨hs₁, restore_spec hs₁ (saveOwner_cos hsaved hc hown) hlive hrestore,
      fun d k sp bytes hd => hsaved.holds hs hd⟩

theorem wf_resume {ptr : Nat} (hs : Wf L s) (hmain : s.gtls_co = none)
    (hcontract : s.Contract L (.mz_resume c ptr)) (h : s.mz_resume L c ptr = some t) :
    Wf L t := by
  obtain ⟨co, hc, hlive, ⟨hown, rfl⟩ | ⟨hown, s₁, s₂, hsave, hrestore, rfl⟩⟩ := resume_spec h
  · refine
      { owned := hs.owned
        running := ?_
        sp_range := hs.sp_range
        saved := hs.saved
        buffers := hs.buffers }
    rintro c' hc'
    cases hc'
    exact ⟨co, hc, hown⟩
  · obtain ⟨hs₁, hrestored, _⟩ := take_stack hs hmain hcontract hc hlive hown hsave hrestore
    exact hrestored.wf hs₁ hlive

omit [DecidableEq Stk] in
theorem wf_create {k : Stk} {save_stack_sz ptr : Nat} (hs : Wf L s)
    (hcontract : s.Contract L (.mz_create c k save_stack_sz ptr)) :
    Wf L (s.mz_create L c k save_stack_sz ptr) := by
  rcases hcontract with ⟨hnew, hfresh⟩
  -- The new object stands at a number that was free.
  have hkeep : ∀ d co, s.cos d = some co →
      (s.mz_create L c k save_stack_sz ptr).cos d = some co := by
    intro d co hd
    have hne : d ≠ c := by
      rintro rfl
      simp [hnew] at hd
    simpa [mz_create, hne] using hd
  refine
    { owned := ?_
      running := ?_
      sp_range := ?_
      saved := ?_
      buffers := ?_ }
  · intro k' d hd
    obtain ⟨co, hco, hrest⟩ := hs.owned k' d hd
    exact ⟨co, hkeep d co hco, hrest⟩
  · intro d hd
    obtain ⟨co, hco, hrest⟩ := hs.running d hd
    exact ⟨co, hkeep d co hco, hrest⟩
  · refine forall_update hs.sp_range ?_
    rintro co hco _
    cases hco
    exact ⟨(L.stack k).lowptr_le_retptr, Nat.le_refl _⟩
  · refine forall_update (P := fun d co => co.is_end = false →
      s.owner co.share_stack ≠ some d →
        co.save_stack.valid_sz = (L.stack co.share_stack).align_retptr - co.reg_sp ∧
          co.save_stack.valid_sz ≤ co.save_stack.sz) hs.saved ?_
    rintro co hco _ _
    cases hco
    simp
  · refine hs.buffers_update (t := s.mz_create L c k save_stack_sz ptr) rfl ?_
    rintro co hco
    cases hco
    exact hfresh

omit [DecidableEq Stk] in
theorem wf_yield {sp : Nat} (hs : Wf L s) (hcontract : s.Contract L (.mz_yield sp))
    (h : s.mz_yield sp = some t) : Wf L t := by
  unfold mz_yield at h
  cases hrun : s.gtls_co with
  | none =>
      simp [hrun] at h
  | some c =>
      simp only [hrun] at h
      rcases Option.map_eq_some_iff.1 h with ⟨co, hc, rfl⟩
      obtain ⟨co', hc', hown⟩ := hs.running c hrun
      -- The running coroutine owns its stack, so it need not be saved.
      have hsame : co' = co := by simpa [hc] using hc'.symm
      subst hsame
      refine
        { owned := ?_
          running := by simp
          sp_range := ?_
          saved := ?_
          buffers := ?_ }
      · intro k d hd
        obtain ⟨dco, hdco, hdlive, hdstack⟩ := hs.owned k d hd
        by_cases hne : d = c
        · subst hne
          rw [hc] at hdco
          cases hdco
          exact ⟨{ co' with reg_sp := sp }, by simp, hdlive, hdstack⟩
        · exact ⟨dco, by simpa [hne] using hdco, hdlive, hdstack⟩
      · refine forall_update hs.sp_range ?_
        rintro dco hdco _
        cases hdco
        exact hcontract c co' hrun hc
      · intro d dco hdco hdlive hnot
        by_cases hne : d = c
        · subst hne
          have heq : dco = { co' with reg_sp := sp } := by simpa using hdco.symm
          subst heq
          exact absurd hown hnot
        · exact hs.saved d dco (by simpa [hne] using hdco) hdlive hnot
      · refine hs.buffers_update (x := some { co' with reg_sp := sp }) rfl ?_
        rintro dco hdco
        cases hdco
        exact hs.buffers c co' hc

omit [DecidableEq Stk] in
/-- An owner was created on the stack it owns. -/
theorem Wf.stack_of_owner (hs : Wf L s) {co : Co Stk} {k : Stk} (hc : s.cos c = some co)
    (hk : s.owner k = some c) : k = co.share_stack := by
  obtain ⟨co', hc', _, hstack⟩ := hs.owned k c hk
  have hsame : co' = co := by simpa [hc] using hc'.symm
  rw [← hstack, hsame]

/-- Stack `k` is given up, if `c` owns it. -/
def Released (s t : State Stk) (c : CoId) (k : Stk) : Prop :=
  t.owner = s.owner ∧ s.owner k ≠ some c ∨
    t.owner = Function.update s.owner k none ∧ s.owner k = some c

/-- Giving up an ownership concerns the owner only. -/
theorem Released.owner_iff {k : Stk} (h : Released s t c k) (hdc : d ≠ c) (k' : Stk) :
    t.owner k' = some d ↔ s.owner k' = some d := by
  rcases h with ⟨heq, _⟩ | ⟨heq, hown⟩
  · rw [heq]
  · rw [heq]
    by_cases hk : k' = k
    · subst hk
      simpa [hown] using fun heq => hdc heq.symm
    · simp [hk]

theorem Released.not_owner {co : Co Stk} (h : Released s t c co.share_stack) (hs : Wf L s)
    (hc : s.cos c = some co) (k : Stk) : t.owner k ≠ some c := by
  intro hk
  rcases h with ⟨heq, hnot⟩ | ⟨heq, hown⟩
  · rw [heq] at hk
    rw [hs.stack_of_owner hc hk] at hk
    exact hnot hk
  · rw [heq] at hk
    by_cases hstack : k = co.share_stack
    · simp [hstack] at hk
    · simp only [ne_eq, hstack, not_false_eq_true, Function.update_of_ne] at hk
      exact hstack (hs.stack_of_owner hc hk)

/-- An object that is gone or ended, and owns nothing any more, leaves the invariant alone. -/
theorem Wf.retire (hs : Wf L s) {co : Co Stk} {x : Option (Co Stk)} (hc : s.cos c = some co)
    (hx : ∀ co', x = some co' → co'.is_end = true ∧ co'.save_stack = co.save_stack)
    (hcos : t.cos = Function.update s.cos c x) (howner : Released s t c co.share_stack)
    (hrun : ∀ d, t.gtls_co = some d → s.gtls_co = some d ∧ d ≠ c) : Wf L t := by
  refine
    { owned := ?_
      running := ?_
      sp_range := ?_
      saved := ?_
      buffers := ?_ }
  · intro k d hd
    have hne : d ≠ c := by
      rintro rfl
      exact howner.not_owner hs hc k hd
    obtain ⟨dco, hdco, hrest⟩ := hs.owned k d ((howner.owner_iff hne k).1 hd)
    exact ⟨dco, by simpa [hcos, hne] using hdco, hrest⟩
  · intro d hd
    obtain ⟨hold, hne⟩ := hrun d hd
    obtain ⟨dco, hdco, hown⟩ := hs.running d hold
    exact ⟨dco, by simpa [hcos, hne] using hdco, (howner.owner_iff hne _).2 hown⟩
  · rw [hcos]
    refine forall_update hs.sp_range ?_
    intro co' hco' hlive
    simp [(hx co' hco').1] at hlive
  · -- The retired object is gone or ended, and nothing is asked of it.
    intro d dco hdco hdlive hnot
    by_cases hne : d = c
    · subst hne
      simp [(hx dco (by simpa [hcos] using hdco)).1] at hdlive
    · refine hs.saved d dco (by simpa [hcos, hne] using hdco) hdlive ?_
      intro hown
      exact hnot ((howner.owner_iff hne _).2 hown)
  · refine hs.buffers_update hcos ?_
    intro co' hco'
    rw [(hx co' hco').2]
    exact hs.buffers c co hc

theorem exit_spec {sp : Nat} (h : s.mz_exit sp = some t) :
    ∃ c co, s.gtls_co = some c ∧ s.cos c = some co ∧ s.owner co.share_stack = some c ∧
      t =
        { s with
          cos := Function.update s.cos c (some { co with is_end := true, reg_sp := sp })
          owner := Function.update s.owner co.share_stack none
          align_validsz := Function.update s.align_validsz co.share_stack 0
          gtls_co := none } := by
  unfold mz_exit at h
  cases hrun : s.gtls_co with
  | none =>
      simp [hrun] at h
  | some c =>
      cases hc : s.cos c with
      | none =>
          simp [hrun, hc] at h
      | some co =>
          simp only [hrun, hc, Option.ite_none_right_eq_some] at h
          rcases h with ⟨hown, heq⟩
          exact ⟨c, co, rfl, hc, hown, by simpa [mz_yield, hrun] using heq.symm⟩

theorem wf_exit {sp : Nat} (hs : Wf L s) (h : s.mz_exit sp = some t) : Wf L t := by
  obtain ⟨c, co, hrun, hc, hown, rfl⟩ := exit_spec h
  refine hs.retire hc ?_ rfl (Or.inr ⟨rfl, hown⟩) (by simp)
  rintro co' hco'
  cases hco'
  exact ⟨rfl, rfl⟩

theorem destory_spec (h : s.mz_destory c = some t) :
    ∃ co, s.cos c = some co ∧ t.mem = s.mem ∧ t.gtls_co = s.gtls_co ∧
      t.cos = Function.update s.cos c none ∧ Released s t c co.share_stack := by
  rcases Option.map_eq_some_iff.1 h with ⟨co, hc, rfl⟩
  refine ⟨co, hc, ?_⟩
  split_ifs with hown
  · exact ⟨rfl, rfl, rfl, Or.inr ⟨rfl, hown⟩⟩
  · exact ⟨rfl, rfl, rfl, Or.inl ⟨rfl, hown⟩⟩

theorem wf_destory (hs : Wf L s) (hcontract : s.Contract L (.mz_destory c))
    (h : s.mz_destory c = some t) : Wf L t := by
  obtain ⟨co, hc, _, hrun, hcos, howner⟩ := destory_spec h
  refine hs.retire hc (by simp) hcos howner ?_
  intro d hd
  rw [hrun] at hd
  refine ⟨hd, ?_⟩
  rintro rfl
  exact hcontract hd

/-- The assumptions on the environment keep the invariant. -/
theorem wf_step (hs : Wf L s) (hcontract : s.Contract L a) (h : s.step L a = some t) :
    Wf L t := by
  cases a with
  | mz_create c k save_stack_sz ptr =>
      cases h
      exact wf_create hs hcontract
  | mz_resume c ptr =>
      simp only [step, Option.ite_none_right_eq_some] at h
      exact wf_resume hs h.1 hcontract h.2
  | mz_yield sp =>
      exact wf_yield hs hcontract h
  | mz_exit sp =>
      exact wf_exit hs h
  | mz_destory c =>
      exact wf_destory hs hcontract h
  | write addr byte =>
      cases h
      exact
        { owned := hs.owned
          running := hs.running
          sp_range := hs.sp_range
          saved := hs.saved
          buffers := hs.buffers }

/-! ## Nobody else touches the bytes -/

omit [DecidableEq Stk] in
/-- A coroutine that owns its stack shares it with no other owner. -/
theorem stack_ne {co dco : Co Stk} (hc : s.owner co.share_stack = some c)
    (hd : s.owner dco.share_stack = some d) (hne : d ≠ c) :
    dco.share_stack ≠ co.share_stack := by
  intro heq
  rw [heq, hc] at hd
  exact hne (Option.some.inj hd).symm

omit [DecidableEq Stk] in
theorem holds_write {addr : Nat} {byte : UInt8} (hs : Wf L s)
    (hcontract : s.Contract L (.write addr byte)) (hidle : s.gtls_co ≠ some d) {k : Stk} {sp : Nat}
    {bytes : List UInt8} (hd : s.Holds L d k sp bytes) :
    Holds L { s with mem := s.mem.store addr [byte] } d k sp bytes := by
  obtain ⟨dco, hdco, hlive, rfl, rfl, hheld⟩ := hd
  refine ⟨dco, hdco, hlive, rfl, rfl, ?_⟩
  rw [← hheld]
  refine hs.held_store hdco hlive (t := { s with mem := s.mem.store addr [byte] }) rfl Iff.rfl ?_ ?_
  · intro hown
    -- The running body writes to its own stack, everybody else outside the stacks.
    rcases hcontract with ⟨c, co, hrun, hc, hlow, hhigh⟩ | ⟨hout, _⟩
    · obtain ⟨co', hc', hcown⟩ := hs.running c hrun
      have hsame : co' = co := by simpa [hc] using hc'.symm
      subst hsame
      have hne : d ≠ c := by
        rintro rfl
        exact hidle hrun
      have hptr := (L.stack co'.share_stack).ptr_le_lowptr
      have hret := (L.stack co'.share_stack).retptr_le
      exact (L.apart _ _ (stack_ne hcown hown hne)).mono (Nat.le_refl _) (Nat.le_refl _)
        (by omega) (by simp only [List.length_singleton]; omega)
    · exact (hout dco.share_stack).symm
  · intro _
    rcases hcontract with ⟨c, co, hrun, hc, hlow, hhigh⟩ | ⟨_, hout⟩
    · have hptr := (L.stack co.share_stack).ptr_le_lowptr
      have hret := (L.stack co.share_stack).retptr_le
      exact ((hs.buffers d dco hdco).1 co.share_stack).mono (Nat.le_refl _) (Nat.le_refl _)
        (by omega) (by simp only [List.length_singleton]; omega)
    · exact (hout d dco hdco).symm

omit [DecidableEq Stk] in
/-- The bytes depend on the memory, the object and its ownership. -/
theorem Holds.frame (hmem : t.mem = s.mem) (hcos : t.cos d = s.cos d)
    (howner : ∀ k, t.owner k = some d ↔ s.owner k = some d)
    {k : Stk} {sp : Nat} {bytes : List UInt8} (hd : s.Holds L d k sp bytes) :
    t.Holds L d k sp bytes := by
  obtain ⟨dco, hdco, hlive, rfl, rfl, hheld⟩ := hd
  refine ⟨dco, hcos.trans hdco, hlive, rfl, rfl, ?_⟩
  rw [← hheld]
  unfold held
  simp only [hmem, howner]

/-- No step but its own resume, its own end or its destruction changes the bytes of a suspended
coroutine, or starts it. -/
theorem holds_step (hs : Wf L s) (hcontract : s.Contract L a) (h : s.step L a = some t)
    (hidle : s.gtls_co ≠ some d) (hdestory : a ≠ .mz_destory d)
    (hresume : ∀ ptr, a ≠ .mz_resume d ptr)
    {k : Stk} {sp : Nat} {bytes : List UInt8} (hd : s.Holds L d k sp bytes) :
    t.Holds L d k sp bytes ∧ t.gtls_co ≠ some d := by
  cases a with
  | mz_create c k' save_stack_sz ptr =>
      cases h
      -- The new coroutine is none that exists.
      have hdc : d ≠ c := by
        rintro rfl
        obtain ⟨dco, hdco, _⟩ := hd
        simp [hcontract.1] at hdco
      refine ⟨hd.frame ?_ ?_ ?_, hidle⟩
      · rfl
      · simp [mz_create, hdc]
      · exact fun _ => Iff.rfl
  | mz_resume c ptr =>
      have hdc : d ≠ c := by
        rintro rfl
        exact hresume ptr rfl
      simp only [step, Option.ite_none_right_eq_some] at h
      rcases h with ⟨hmain, h⟩
      obtain ⟨co, hc, hlive, ⟨_, rfl⟩ | ⟨hown, s₁, s₂, hsave, hrestore, rfl⟩⟩ := resume_spec h
      · exact ⟨hd, by simpa using fun heq => hdc heq.symm⟩
      · obtain ⟨hs₁, hrestored, hholds⟩ :=
          take_stack hs hmain hcontract hc hlive hown hsave hrestore
        exact ⟨hrestored.holds hs₁ hlive hdc (hholds d k sp bytes hd),
          by simpa using fun heq => hdc heq.symm⟩
  | mz_yield sp' =>
      simp only [step, mz_yield] at h
      cases hrun : s.gtls_co with
      | none =>
          simp [hrun] at h
      | some c =>
          simp only [hrun] at h
          rcases Option.map_eq_some_iff.1 h with ⟨co, hc, rfl⟩
          have hdc : d ≠ c := by
            rintro rfl
            exact hidle hrun
          refine ⟨hd.frame ?_ ?_ ?_, by simp⟩
          · rfl
          · simp [hdc]
          · exact fun _ => Iff.rfl
  | mz_exit sp' =>
      obtain ⟨c, co, hrun, hc, hown, rfl⟩ := exit_spec h
      have hdc : d ≠ c := by
        rintro rfl
        exact hidle hrun
      refine ⟨hd.frame ?_ ?_ ?_, by simp⟩
      · rfl
      · simp [hdc]
      · exact Released.owner_iff (Or.inr ⟨rfl, hown⟩) hdc
  | mz_destory c =>
      obtain ⟨co, hc, hmem, hrun, hcos, howner⟩ := destory_spec h
      have hdc : d ≠ c := by
        rintro rfl
        exact hdestory rfl
      exact ⟨hd.frame hmem (by simp [hcos, hdc]) (howner.owner_iff hdc),
        by simpa [hrun] using hidle⟩
  | write addr byte =>
      cases h
      exact ⟨holds_write hs hcontract hidle hd, hidle⟩

/-- A resume puts the bytes where they were when the coroutine yielded. -/
theorem resume_load {ptr : Nat} {k : Stk} {sp : Nat} {bytes : List UInt8} (hs : Wf L s)
    (hcontract : s.Contract L (.mz_resume c ptr)) (h : s.step L (.mz_resume c ptr) = some t)
    (hc : s.Holds L c k sp bytes) :
    ∃ co, t.cos c = some co ∧ co.share_stack = k ∧ co.reg_sp = sp ∧ t.gtls_co = some c ∧
      t.mem.load sp ((L.stack k).align_retptr - sp) = bytes := by
  simp only [step, Option.ite_none_right_eq_some] at h
  rcases h with ⟨hmain, h⟩
  obtain ⟨co, hco, hlive, ⟨hown, rfl⟩ | ⟨hown, s₁, s₂, hsave, hrestore, rfl⟩⟩ := resume_spec h
  · -- It still owns the stack: the bytes have stayed there.
    obtain ⟨co', hco', _, rfl, rfl, rfl⟩ := hc
    have hsame : co' = co := by simpa [hco] using hco'.symm
    subst hsame
    exact ⟨co', hco, rfl, rfl, rfl, by simp [held, hown]⟩
  · -- It was saved before: the restore puts the buffer back at the saved stack pointer.
    obtain ⟨hs₁, hrestored, hholds⟩ := take_stack hs hmain hcontract hco hlive hown hsave hrestore
    obtain ⟨co', hco', _, rfl, rfl, rfl⟩ := hholds c k sp bytes hc
    have hsame : co' = co := by simpa [hrestored.cos_eq] using hco'.symm
    subst hsame
    have hload := hrestored.load hs₁ hlive
    exact ⟨{ co' with save_stack := co'.save_stack.noteRestore }, by simp [hrestored.result], rfl,
      rfl, rfl, hload⟩

end State

/-! ## Runs -/

open State

theorem wf_run {tr : List (Action Stk)} {s t : State Stk} (hs : Wf L s)
    (hcontract : (coroutines L).Along (State.Contract L) s tr)
    (hrun : (coroutines L).exec s tr = some t) : Wf L t :=
  (coroutines L).exec_invariant (fun _ _ _ hs hP ht => wf_step hs hP ht) hs hcontract hrun

/-- What a run keeps of a suspended coroutine that it neither resumes nor destroys. -/
theorem holds_run {tr : List (Action Stk)} {s t : State Stk} {c : CoId} {k : Stk} {sp : Nat}
    {bytes : List UInt8} (hs : Wf L s) (hidle : s.gtls_co ≠ some c) (hc : s.Holds L c k sp bytes)
    (hcontract : (coroutines L).Along (State.Contract L) s tr)
    (hother : ∀ a ∈ tr, a ≠ .mz_destory c ∧ ∀ ptr, a ≠ .mz_resume c ptr)
    (hrun : (coroutines L).exec s tr = some t) :
    Wf L t ∧ t.Holds L c k sp bytes := by
  have hboth := hcontract.and (M := coroutines L)
    ((coroutines L).along_of_forall_mem hother)
  have hinv := (coroutines L).exec_invariant
    (I := fun s => Wf L s ∧ s.Holds L c k sp bytes ∧ s.gtls_co ≠ some c)
    (fun s a t hs hP ht =>
      ⟨wf_step hs.1 hP.1 ht, holds_step hs.1 hP.1 ht hs.2.2 hP.2.1 hP.2.2 hs.2.1⟩)
    ⟨hs, hc, hidle⟩ hboth hrun
  exact ⟨hinv.1, hinv.2.1⟩

/-- A coroutine that yields holds the bytes it leaves on the stack it owns. -/
theorem holds_yield {s t : State Stk} {c : CoId} {sp : Nat} (hs : Wf L s)
    (hc : s.gtls_co = some c) (h : s.step L (.mz_yield sp) = some t) :
    ∃ co, s.cos c = some co ∧ t.gtls_co ≠ some c ∧
      t.Holds L c co.share_stack sp
        (s.mem.load sp ((L.stack co.share_stack).align_retptr - sp)) := by
  obtain ⟨co, hco, hown⟩ := hs.running c hc
  obtain ⟨co', hco', hlive, _⟩ := hs.owned _ c hown
  have hsame : co' = co := by simpa [hco] using hco'.symm
  subst hsame
  simp only [step, mz_yield, hc] at h
  rcases Option.map_eq_some_iff.1 h with ⟨co, hco, rfl⟩
  have hsame : co' = co := by simpa [hco] using hco'.symm
  subst hsame
  exact ⟨co', hco, by simp, { co' with reg_sp := sp }, by simp, hlive, rfl, rfl,
    by simp [held, hown]⟩

/-- In every run the owner of a share stack is a live coroutine of that stack that has not ended,
and a coroutine that is resumed finds the stack pointer and the bytes of its live region as they
were when it last yielded. -/
theorem copy_stack_isolation {tr : List (Action Stk)} {s : State Stk}
    (hcontract : (coroutines L).Along (State.Contract L) .init tr)
    (hrun : (coroutines L).exec .init tr = some s) :
    (∀ k c, s.owner k = some c →
        ∃ co, s.cos c = some co ∧ co.is_end = false ∧ co.share_stack = k) ∧
      ∀ c sp tr' ptr t, s.gtls_co = some c →
        (coroutines L).Along (State.Contract L) s
          (.mz_yield sp :: tr' ++ [.mz_resume c ptr]) →
        (∀ a ∈ tr', a ≠ .mz_destory c ∧ ∀ ptr, a ≠ .mz_resume c ptr) →
        (coroutines L).exec s (.mz_yield sp :: tr' ++ [.mz_resume c ptr]) = some t →
        ∃ co, t.cos c = some co ∧ co.reg_sp = sp ∧ t.gtls_co = some c ∧
          t.mem.load sp ((L.stack co.share_stack).align_retptr - sp) =
            s.mem.load sp ((L.stack co.share_stack).align_retptr - sp) := by
  have hs : Wf L s := wf_run wf_init hcontract hrun
  refine ⟨hs.owned, ?_⟩
  intro c sp tr' ptr t hc halong hother hexec
  -- The yield, what the others do, and the resume.
  rcases ((coroutines L).exec_cons).1 hexec with ⟨s₁, hyield, hrest⟩
  rcases ((coroutines L).exec_append).1 hrest with ⟨s₂, hmiddle, hresume⟩
  have hresume' : s₂.step L (.mz_resume c ptr) = some t :=
    ((coroutines L).exec_singleton).1 hresume
  have halong₁ := ((coroutines L).along_append).1 (halong.2 s₁ hyield)
  have hs₁ : Wf L s₁ := wf_step hs halong.1 hyield
  obtain ⟨co, hco, hidle, hheld⟩ := holds_yield hs hc hyield
  obtain ⟨hs₂, hheld₂⟩ := holds_run hs₁ hidle hheld halong₁.1 hother hmiddle
  have hcontract₂ := (halong₁.2 s₂ hmiddle).1
  obtain ⟨co', hco', hstack, hsp, hrunning, hload⟩ := resume_load hs₂ hcontract₂ hresume' hheld₂
  exact ⟨co', hco', hsp, hrunning, by rw [hstack]; exact hload⟩

/-- One share stack of 64 bytes at 4096: `align_retptr` is 4136 and `lowptr` is 4112. -/
def oneStack : Layout Unit :=
  { stack := fun _ => { ptr := 4096, sz := 64, large := by decide, bound := by decide }
    apart := by simp }

/-- Two coroutines on the stack; the first writes a byte at 4128. -/
def firstWrites : List (Action Unit) :=
  [.mz_create 0 () 0 8192, .mz_create 1 () 0 8320, .mz_resume 0 0, .write 4128 7]

/-- The second coroutine writes the same byte and suspends. -/
def secondOverwrites : List (Action Unit) :=
  [.mz_resume 1 0, .write 4128 9, .mz_yield 4128]

theorem oneStack_lowptr : ∀ k, (oneStack.stack k).lowptr = 4112 := by
  rintro ⟨⟩
  decide

theorem oneStack_retptr : ∀ k, (oneStack.stack k).align_retptr = 4136 := by
  rintro ⟨⟩
  decide

theorem oneStack_yield (s : State Unit) : s.Contract oneStack (.mz_yield 4128) := by
  intro c co _ _
  simp [oneStack_lowptr, oneStack_retptr]

theorem oneStack_write {s : State Unit} {c : CoId} {co : Co Unit} {byte : UInt8}
    (hc : s.gtls_co = some c) (hco : s.cos c = some co) :
    s.Contract oneStack (.write 4128 byte) :=
  Or.inl ⟨c, co, hc, hco, by simp [oneStack_lowptr], by simp [oneStack_retptr]⟩

/-- A save buffer of 64 bytes is large enough for the owner. -/
theorem oneStack_resume {s : State Unit} {c o : CoId} {co : Co Unit} {ptr : Nat}
    (howner : s.owner () = some o) (hco : s.cos o = some co) (hsp : co.reg_sp = 4128)
    (hsz : co.save_stack.sz = 64) : s.Contract oneStack (.mz_resume c ptr) := by
  intro _ o' oco sz _ howner' hoco hsmall
  have ho : o = o' := Option.some.inj (howner.symm.trans howner')
  subst ho
  have hsame : co = oco := Option.some.inj (hco.symm.trans hoco)
  subst hsame
  rw [hsz, hsp, oneStack_retptr] at hsmall
  omega

theorem firstWrites_contract :
    (coroutines oneStack).Along (State.Contract oneStack) .init firstWrites := by
  refine Machine.Along.cons _ rfl ?_ (Machine.Along.cons _ rfl ?_ (Machine.Along.cons _ rfl ?_
    (Machine.Along.cons _ rfl ?_ trivial)))
  · exact ⟨rfl, fun ⟨⟩ => by decide, by simp [State.init]⟩
  · refine ⟨rfl, fun ⟨⟩ => by decide, ?_⟩
    intro d co hd hco
    have hzero : d = 0 := by
      by_contra hne
      simp [State.mz_create, State.init, hne] at hco
    subst hzero
    cases hco
    decide
  · intro _ o oco sz _ howner
    cases howner
  · exact oneStack_write rfl rfl

theorem copy_stack_isolation_two :
    ∃ s t, (coroutines oneStack).exec .init firstWrites = some s ∧
      (coroutines oneStack).exec s (.mz_yield 4128 :: secondOverwrites ++ [.mz_resume 0 0]) =
        some t ∧
      t.mem.load 4128 8 = s.mem.load 4128 8 := by
  obtain ⟨s, s₁, s₂, s₃, s₄, t, hs, hrun, h₁, h₂, h₃, h₄, h₅, facts₁, facts₂, facts₄⟩ :
      ∃ s s₁ s₂ s₃ s₄ t,
        (coroutines oneStack).exec .init firstWrites = some s ∧ s.gtls_co = some 0 ∧
        s.step oneStack (.mz_yield 4128) = some s₁ ∧
        s₁.step oneStack (.mz_resume 1 0) = some s₂ ∧
        s₂.step oneStack (.write 4128 9) = some s₃ ∧
        s₃.step oneStack (.mz_yield 4128) = some s₄ ∧
        s₄.step oneStack (.mz_resume 0 0) = some t ∧
        (s₁.owner () = some 0 ∧ ∃ co, s₁.cos 0 = some co ∧ co.reg_sp = 4128 ∧
          co.save_stack.sz = 64) ∧
        (s₂.gtls_co = some 1 ∧ ∃ co, s₂.cos 1 = some co) ∧
        (s₄.owner () = some 1 ∧ ∃ co, s₄.cos 1 = some co ∧ co.reg_sp = 4128 ∧
          co.save_stack.sz = 64) :=
    ⟨_, _, _, _, _, _, rfl, rfl, rfl, rfl, rfl, rfl, rfl, ⟨rfl, _, rfl, rfl, rfl⟩,
      ⟨rfl, _, rfl⟩, ⟨rfl, _, rfl, rfl, rfl⟩⟩
  obtain ⟨howner₁, co₁, hco₁, hsp₁, hsz₁⟩ := facts₁
  obtain ⟨hrun₂, co₂, hco₂⟩ := facts₂
  obtain ⟨howner₄, co₄, hco₄, hsp₄, hsz₄⟩ := facts₄
  have hexec : (coroutines oneStack).exec s
      (.mz_yield 4128 :: secondOverwrites ++ [.mz_resume 0 0]) = some t := by
    simp [secondOverwrites, Machine.exec, h₁, h₂, h₃, h₄, h₅]
  have halong : (coroutines oneStack).Along (State.Contract oneStack) s
      (.mz_yield 4128 :: secondOverwrites ++ [.mz_resume 0 0]) :=
    .cons _ h₁ (oneStack_yield s) (.cons _ h₂ (oneStack_resume howner₁ hco₁ hsp₁ hsz₁)
      (.cons _ h₃ (oneStack_write hrun₂ hco₂) (.cons _ h₄ (oneStack_yield s₃)
        (.cons _ h₅ (oneStack_resume howner₄ hco₄ hsp₄ hsz₄) trivial))))
  obtain ⟨co, _, _, _, hload⟩ := (copy_stack_isolation firstWrites_contract hs).2 0 4128
    secondOverwrites 0 t hrun halong (by simp [secondOverwrites]) hexec
  exact ⟨s, t, hs, hexec, by simpa [oneStack_retptr] using hload⟩

end Coroutine
end Mozi
