import Mozi.Coroutine.Events

/-!
# Transparency — a switch returns as an ordinary call does

The `reg` array of an object that does not run is written by nobody else (`reg_step`), and the
library keeps the live region of its stack.  So a coroutine that yields goes on, when it is resumed,
at its return address with the registers that its caller relies on, the control words and the
stack it left.  So does the main coroutine when the coroutine it resumed yields or ends, but for the
bytes of its stack that the code of that coroutine wrote to.
-/

namespace Mozi
namespace Coroutine

open Foundation Thread

variable {Stk : Type} [DecidableEq Stk] {L : Layout Stk} {img : Image L}
  {th th' : Thread Stk} {e : Event Stk} {c d : CoId}

/-! ## The invariant of the library -/

theorem sound_step (hs : Sound img th.lib) (hcontract : th.Contract img e)
    (h : th.step img e = some th') : Sound img th'.lib := by
  obtain ⟨⟨acts, _, hacts⟩, hplaced⟩ := event_performs hs hcontract h
  exact { wf := wf_run hs.wf hacts.1 hacts.2, placed := hplaced }

omit [DecidableEq Stk] in
theorem sound_init (mem : Memory) (cpu : Amd64.Cpu) :
    Sound img (Thread.init mem cpu : Thread Stk).lib :=
  { wf :=
      { owned := by simp [Thread.init, State.withMem, State.init]
        running := by simp [Thread.init, State.withMem, State.init]
        sp_range := by simp [Thread.init, State.withMem, State.init]
        saved := by simp [Thread.init, State.withMem, State.init]
        buffers := by simp [Thread.init, State.withMem, State.init] }
    placed := placed_init mem }

theorem sound_run {tr : List (Event Stk)} (hs : Sound img th.lib)
    (hcontract : (threads img).Along (Thread.Contract img) th tr)
    (hrun : (threads img).exec th tr = some th') : Sound img th'.lib :=
  (threads img).exec_invariant (I := fun th => Sound img th.lib)
    (fun _ _ _ hs hP ht => sound_step hs hP ht) hs hcontract hrun

/-! ## What an event writes -/

/-- The object whose `reg` array is written. -/
def Thread.saves (img : Image L) (th : Thread Stk) : Event Stk → Option CoId
  | .mz_create c _ _ _ _ => some c
  | .mz_resume _ _ => some img.main_co
  | .mz_yield => th.lib.gtls_co
  | .mz_exit => th.lib.gtls_co
  | _ => none

omit [DecidableEq Stk] in
/-- A byte that is neither pushed nor saved. -/
theorem switch_memory {lib : State Stk} {from_co to_co x : Nat} (hfrom : from_co + 72 ≤ 2 ^ 64)
    (hto : to_co + 72 ≤ 2 ^ 64) (h8 : 8 ≤ (th.cpu.gpr .rsp).toNat)
    (hpush : x < (th.cpu.gpr .rsp).toNat - 8 ∨ (th.cpu.gpr .rsp).toNat ≤ x)
    (hsave : x < from_co ∨ from_co + 72 ≤ x) :
    (th.switch img lib from_co to_co).lib.mem x = lib.mem x := by
  rw [switch_lib hfrom hto]
  change (Context.ofCpu th.cpu).store (lib.mem.writeWord _ th.cpu.rip) from_co x = lib.mem x
  rw [Context.store_outside hsave, Memory.writeWord_outside]
  rw [toNat_push h8]
  omega

/-- The two ways of a coroutine to give the processor back. -/
def Event.Leaves : Event Stk → Prop
  | .mz_yield => True
  | .mz_exit => True
  | _ => False

/-- What both do: the library changes the object of the coroutine, then the processor switches. -/
theorem leave_spec (he : e.Leaves) (h : th.step img e = some th') :
    ∃ c co co' lib, th.lib.gtls_co = some c ∧ th.lib.cos c = some co ∧ lib.mem = th.lib.mem ∧
      lib.gtls_co = none ∧ lib.cos = Function.update th.lib.cos c (some co') ∧
      co'.save_stack = co.save_stack ∧ th' = th.switch img lib c img.main_co := by
  cases e with
  | mz_yield =>
      simp only [Thread.step, Option.bind_eq_some_iff, Option.map_eq_some_iff] at h
      obtain ⟨c, hrun, lib, hstep, rfl⟩ := h
      obtain ⟨c', co, hrun', hc, rfl⟩ := yield_spec hstep
      have hsame : c' = c := Option.some.inj (hrun'.symm.trans hrun)
      subst hsame
      let co' : Co Stk := { co with reg_sp := (th.cpu.gpr .rsp).toNat }
      refine ⟨c', co, co', _, hrun, hc, ?_, ?_, ?_, ?_, rfl⟩ <;> rfl
  | mz_exit =>
      simp only [Thread.step, Option.bind_eq_some_iff, Option.map_eq_some_iff] at h
      obtain ⟨c, hrun, lib, hstep, rfl⟩ := h
      obtain ⟨c', co, hrun', hc, _, rfl⟩ := State.exit_spec hstep
      have hsame : c' = c := Option.some.inj (hrun'.symm.trans hrun)
      subst hsame
      let co' : Co Stk := { co with is_end := true, reg_sp := (th.cpu.gpr .rsp).toNat }
      refine ⟨c', co, co', _, hrun, hc, ?_, ?_, ?_, ?_, rfl⟩ <;> rfl
  | _ => exact he.elim

/-- The running coroutine writes below `align_retptr` when it leaves, and to its object. -/
theorem leave_memory {x : Nat} (hs : Sound img th.lib) (hin : InStack (L := L) th)
    (he : e.Leaves) (h : th.step img e = some th')
    (hstack : ∀ k, x < (L.stack k).lowptr ∨ (L.stack k).align_retptr ≤ x)
    (hsaves : ∀ c : Nat, th.lib.gtls_co = some c → x < c ∨ c + 72 ≤ x) :
    th'.lib.mem x = th.lib.mem x := by
  obtain ⟨c, co, co', lib, hrun, hc, hmem, _, _, _, rfl⟩ := leave_spec he h
  obtain ⟨hlow, hhigh⟩ := hin c co hrun hc
  have hbound := hs.placed.bound c (Or.inr ⟨co, hc⟩)
  have hout := hstack co.share_stack
  rw [switch_memory hbound img.main_co_bound (by omega) (by omega) (hsaves c hrun), hmem]

/-- An event writes to the share stacks below `align_retptr`, the save buffers, the stack of the
main coroutine below its live region and one object. -/
theorem step_memory {x : Nat} (hs : Sound img th.lib) (hcontract : th.Contract img e)
    (h : th.step img e = some th')
    (hstack : ∀ k, x < (L.stack k).lowptr ∨ (L.stack k).align_retptr ≤ x)
    (hbuffer : ∀ d co, th'.lib.cos d = some co →
      x < co.save_stack.ptr ∨ co.save_stack.ptr + co.save_stack.sz ≤ x)
    (hmain : x < img.main_stack ∨ img.main_stack + img.main_stack_sz ≤ x ∨
      ∀ c ptr, e = .mz_resume c ptr → (th.cpu.gpr .rsp).toNat ≤ x)
    (hsaves : ∀ c : Nat, th.saves img e = some c → x < c ∨ c + 72 ≤ x)
    (hwrite : ∀ b, e ≠ .write x b) : th'.lib.mem x = th.lib.mem x := by
  cases e with
  | code cpu =>
      cases h
      rfl
  | write addr byte =>
      simp only [Thread.step, Option.map_eq_some_iff] at h
      obtain ⟨lib, hstep, rfl⟩ := h
      cases hstep
      have hne : x ≠ addr := by
        rintro rfl
        exact hwrite byte rfl
      refine Memory.store_outside ?_
      rw [List.length_singleton]
      omega
  | mz_thread_init =>
      cases h
      rfl
  | mz_create c k save_stack_sz ptr fp =>
      simp only [Thread.step, Option.map_eq_some_iff] at h
      obtain ⟨lib, hstep, rfl⟩ := h
      cases hstep
      exact newReg_outside (hsaves c rfl)
  | mz_resume c ptr =>
      simp only [Thread.step, Option.map_eq_some_iff] at h
      obtain ⟨lib, hstep, rfl⟩ := h
      obtain ⟨hlib, _, hlow, hhigh⟩ := hcontract
      obtain ⟨hgtls, hresume⟩ := Option.ite_none_right_eq_some.1 hstep
      obtain ⟨co, hco, _⟩ := State.resume_spec hresume
      have hto : c + 72 ≤ 2 ^ 64 := hs.placed.bound c (Or.inr ⟨co, hco⟩)
      have hpush : x < (th.cpu.gpr .rsp).toNat - 8 ∨ (th.cpu.gpr .rsp).toNat ≤ x := by
        rcases hmain with hbelow | habove | hlive
        · omega
        · omega
        · exact Or.inr (hlive c ptr rfl)
      rw [switch_memory img.main_co_bound hto (by omega) hpush (hsaves _ rfl)]
      refine resume_memory hs.wf hgtls hlib hresume hstack fun d co hd => hbuffer d co ?_
      rw [switch_lib img.main_co_bound hto]
      exact hd
  | mz_yield => exact leave_memory hs hcontract (e := .mz_yield) trivial h hstack hsaves
  | mz_exit => exact leave_memory hs hcontract (e := .mz_exit) trivial h hstack hsaves
  | mz_destory c =>
      simp only [Thread.step, Option.map_eq_some_iff] at h
      obtain ⟨lib, hstep, rfl⟩ := h
      obtain ⟨co, hc, hmem, _⟩ := State.destory_spec hstep
      exact congrFun hmem x

omit [DecidableEq Stk] in
/-- Objects are saved one at a time. -/
theorem saves_apart (hs : Sound img th.lib) (hcontract : th.Contract img e)
    (hd : Object img th.lib d) (hother : th.saves img e ≠ some d) (hc : th.saves img e = some c) :
    Apart d 72 c 72 := by
  have hne : d ≠ c := by
    rintro rfl
    exact hother hc
  have hrunning : th.lib.gtls_co = some c → Apart d 72 c 72 := by
    intro hrun
    obtain ⟨co, hco, _⟩ := hs.wf.running c hrun
    exact hs.placed.objects d c hd (Or.inr ⟨co, hco⟩) hne
  cases e with
  | mz_create c' k save_stack_sz ptr fp =>
      cases hc
      exact (hcontract.2.1.2.1.2 d hd).symm
  | mz_resume c' ptr =>
      cases hc
      exact hs.placed.objects d _ hd (Or.inl rfl) hne
  | mz_yield => exact hrunning hc
  | mz_exit => exact hrunning hc
  | _ => cases hc

omit [DecidableEq Stk] in
/-- No object is on a share stack, a new one included. -/
theorem saves_stack_apart (hs : Sound img th.lib) (hcontract : th.Contract img e)
    (hc : th.saves img e = some c) (k : Stk) : Apart c 72 (L.stack k).ptr (L.stack k).sz := by
  have hrunning : th.lib.gtls_co = some c → Apart c 72 (L.stack k).ptr (L.stack k).sz := by
    intro hrun
    obtain ⟨co, hco, _⟩ := hs.wf.running c hrun
    exact hs.placed.share_stacks c (Or.inr ⟨co, hco⟩) k
  cases e with
  | mz_create c' k' save_stack_sz ptr fp =>
      cases hc
      exact hcontract.2.1.2.2.1 k
  | mz_resume c' ptr =>
      cases hc
      exact img.main_co_apart k
  | mz_yield => exact hrunning hc
  | mz_exit => exact hrunning hc
  | _ => cases hc

omit [DecidableEq Stk] in
/-- Nor is one on the stack of the main coroutine. -/
theorem saves_main_apart (hs : Sound img th.lib) (hcontract : th.Contract img e)
    (hc : th.saves img e = some c) : Apart c 72 img.main_stack img.main_stack_sz := by
  have hrunning : th.lib.gtls_co = some c → Apart c 72 img.main_stack img.main_stack_sz := by
    intro hrun
    obtain ⟨co, hco, _⟩ := hs.wf.running c hrun
    exact hs.placed.main_stack c (Or.inr ⟨co, hco⟩)
  cases e with
  | mz_create c' k' save_stack_sz ptr fp =>
      cases hc
      exact hcontract.2.1.2.1.1
  | mz_resume c' ptr =>
      cases hc
      exact img.main_apart
  | mz_yield => exact hrunning hc
  | mz_exit => exact hrunning hc
  | _ => cases hc

/-- A byte of the stack of the main coroutine that no code writes to and no return address is
pushed over. -/
theorem main_byte_step {x : Nat} (hs : Sound img th.lib) (hcontract : th.Contract img e)
    (h : th.step img e = some th') (hlow : img.main_stack ≤ x)
    (hhigh : x < img.main_stack + img.main_stack_sz)
    (hlive : ∀ c ptr, e = .mz_resume c ptr → (th.cpu.gpr .rsp).toNat ≤ x)
    (hwrite : ∀ b, e ≠ .write x b) : th'.lib.mem x = th.lib.mem x := by
  have hs' := sound_step hs hcontract h
  refine step_memory hs hcontract h ?_ ?_ (Or.inr (Or.inr hlive)) ?_ hwrite
  · intro k
    have hptr := (L.stack k).ptr_le_lowptr
    have hret := (L.stack k).retptr_le
    have hapart := img.main_stack_apart k
    unfold Apart at hapart
    omega
  · intro d co hd
    have hapart := (hs'.placed.buffers d co hd).1
    unfold Apart at hapart
    omega
  · intro c hc
    have hapart := saves_main_apart hs hcontract hc
    unfold Apart at hapart
    omega

/-- The `reg` array of an object that the event does not save to. -/
theorem reg_step (hs : Sound img th.lib) (hcontract : th.Contract img e)
    (h : th.step img e = some th') (hd : Object img th.lib d) (hd' : Object img th'.lib d)
    (hother : th.saves img e ≠ some d) :
    Context.ofReg th'.lib.mem d = Context.ofReg th.lib.mem d := by
  have hs' := sound_step hs hcontract h
  refine Context.ofReg_congr fun x hlow hhigh => ?_
  refine step_memory hs hcontract h ?_ ?_ ?_ ?_ ?_
  · intro k
    have hptr := (L.stack k).ptr_le_lowptr
    have hret := (L.stack k).retptr_le
    have hapart := hs.placed.share_stacks d hd k
    unfold Apart at hapart
    omega
  · intro o co ho
    have hapart := (hs'.placed.buffers o co ho).2 d hd'
    unfold Apart at hapart
    omega
  · have hapart := hs.placed.main_stack d hd
    unfold Apart at hapart
    omega
  · intro c hc
    have hapart := saves_apart hs hcontract hd hother hc
    unfold Apart at hapart
    omega
  · rintro b rfl
    have hapart := hcontract.2 d hd
    unfold Apart at hapart
    omega

/-! ## Contexts over runs -/

omit [DecidableEq Stk] in
/-- A switch saves one context and goes on with another. -/
theorem switch_contexts {lib : State Stk} {from_co to_co : CoId} (hfrom : from_co + 72 ≤ 2 ^ 64)
    (hto : to_co + 72 ≤ 2 ^ 64) :
    Context.ofReg (th.switch img lib from_co to_co).lib.mem from_co = Context.ofCpu th.cpu ∧
      Context.ofCpu (th.switch img lib from_co to_co).cpu =
        Context.ofReg (th.switch img lib from_co to_co).lib.mem to_co := by
  rw [switch_lib hfrom hto]
  exact ⟨Context.ofReg_store _ _ _, (swap_spec img hfrom hto).2⟩

/-- A coroutine that does not run: its context is in its object, and the bytes of its stack are
where the library keeps them. -/
structure Parked (L : Layout Stk) (th : Thread Stk) (c : CoId) (k : Stk) (sp : Nat)
    (bytes : List UInt8) (ctx : Context) : Prop where
  holds : th.lib.Holds L c k sp bytes
  idle : th.lib.gtls_co ≠ some c
  reg : Context.ofReg th.lib.mem c = ctx

variable {k : Stk} {sp : Nat} {bytes : List UInt8} {ctx : Context}

omit [DecidableEq Stk] in
theorem object_of_holds {s : State Stk} (h : s.Holds L c k sp bytes) : Object img s c := by
  obtain ⟨co, hco, _⟩ := h
  exact Or.inr ⟨co, hco⟩

omit [DecidableEq Stk] in
/-- Nobody but the coroutine itself saves to its object. -/
theorem saves_ne (hs : Sound img th.lib) (hcontract : th.Contract img e)
    (hc : Parked L th c k sp bytes ctx) : th.saves img e ≠ some c := by
  obtain ⟨co, hco, _⟩ := hc.holds
  intro hsaves
  cases e with
  | mz_create c' k' save_stack_sz ptr fp =>
      cases hsaves
      have hfree := hcontract.1.1
      rw [hco] at hfree
      cases hfree
  | mz_resume c' ptr =>
      cases hsaves
      have hmain := hs.placed.main_co
      rw [hco] at hmain
      cases hmain
  | mz_yield => exact hc.idle hsaves
  | mz_exit => exact hc.idle hsaves
  | _ => cases hsaves

/-- The events of others leave a parked coroutine as it is. -/
theorem parked_step (hs : Sound img th.lib) (hcontract : th.Contract img e)
    (h : th.step img e = some th') (hother : ¬ e.Concerns c)
    (hc : Parked L th c k sp bytes ctx) : Parked L th' c k sp bytes ctx := by
  obtain ⟨⟨acts, hacts, hperforms⟩, _⟩ := event_performs hs hcontract h
  have hnot : ∀ a ∈ acts, a ≠ .mz_destory c ∧ ∀ ptr, a ≠ .mz_resume c ptr := by
    intro a ha
    refine ⟨?_, ?_⟩
    · rintro rfl
      exact hother (hacts _ ha c rfl)
    · rintro ptr rfl
      exact hother (hacts _ ha c rfl)
  -- The library keeps the bytes along the actions of the event.
  have hboth := hperforms.1.and (M := coroutines L) ((coroutines L).along_of_forall_mem hnot)
  have hkept : State.Wf L th'.lib ∧ th'.lib.Holds L c k sp bytes ∧ th'.lib.gtls_co ≠ some c :=
    (coroutines L).exec_invariant
      (I := fun s => State.Wf L s ∧ s.Holds L c k sp bytes ∧ s.gtls_co ≠ some c)
      (fun s a t hs hP ht =>
        ⟨State.wf_step hs.1 hP.1 ht, State.holds_step hs.1 hP.1 ht hs.2.2 hP.2.1 hP.2.2 hs.2.1⟩)
      ⟨hs.wf, hc.holds, hc.idle⟩ hboth hperforms.2
  exact
    { holds := hkept.2.1
      idle := hkept.2.2
      reg := (reg_step hs hcontract h (object_of_holds hc.holds) (object_of_holds hkept.2.1)
        (saves_ne hs hcontract hc)).trans hc.reg }

theorem parked_run {tr : List (Event Stk)} (hs : Sound img th.lib)
    (hc : Parked L th c k sp bytes ctx)
    (hcontract : (threads img).Along (Thread.Contract img) th tr)
    (hother : ∀ e ∈ tr, ¬ e.Concerns c) (hrun : (threads img).exec th tr = some th') :
    Sound img th'.lib ∧ Parked L th' c k sp bytes ctx :=
  (threads img).exec_invariant
    (I := fun th => Sound img th.lib ∧ Parked L th c k sp bytes ctx)
    (fun _ _ _ hs hP ht =>
      ⟨sound_step hs.1 hP.1 ht, parked_step hs.1 hP.1 ht hP.2 hs.2⟩)
    ⟨hs, hc⟩ (hcontract.and (M := threads img) ((threads img).along_of_forall_mem hother)) hrun

/-! ## Leaving and coming back -/

/-- The running coroutine is parked by its `mz_yield`. -/
theorem parked_yield (hs : Sound img th.lib) (hcontract : th.Contract img (.mz_yield))
    (h : th.step img (.mz_yield) = some th') (hrun : th.lib.gtls_co = some c) :
    ∃ co, th.lib.cos c = some co ∧
      Parked L th' c co.share_stack (th.cpu.gpr .rsp).toNat
        (th.lib.mem.load (th.cpu.gpr .rsp).toNat
          ((L.stack co.share_stack).align_retptr - (th.cpu.gpr .rsp).toNat))
        (Context.ofCpu th.cpu) := by
  simp only [Thread.step, Option.bind_eq_some_iff, Option.map_eq_some_iff] at h
  obtain ⟨c', hrun', lib, hstep, rfl⟩ := h
  have hsame : c' = c := Option.some.inj (hrun'.symm.trans hrun)
  subst hsame
  obtain ⟨c'', co, hrun'', hco, hlib⟩ := yield_spec hstep
  have hsame : c'' = c' := Option.some.inj (hrun''.symm.trans hrun)
  subst hsame
  have hown : th.lib.owner co.share_stack = some c'' := by
    obtain ⟨co', hco', hown⟩ := hs.wf.running c'' hrun
    rwa [Option.some.inj (hco'.symm.trans hco)] at hown
  have hlive : co.is_end = false := by
    obtain ⟨co', hco', hlive, _⟩ := hs.wf.owned _ c'' hown
    rwa [Option.some.inj (hco'.symm.trans hco)] at hlive
  obtain ⟨hlow, hhigh⟩ := hcontract c'' co hrun hco
  have hobject : Object img th.lib c'' := Or.inr ⟨co, hco⟩
  have hbound := hs.placed.bound c'' hobject
  have hmem : ∀ x, (th.cpu.gpr .rsp).toNat ≤ x → x < (L.stack co.share_stack).align_retptr →
      (th.switch img lib c'' img.main_co).lib.mem x = th.lib.mem x := by
    intro x hx hx'
    have hptr := (L.stack co.share_stack).ptr_le_lowptr
    have hret := (L.stack co.share_stack).retptr_le
    have hapart := hs.placed.share_stacks c'' hobject co.share_stack
    unfold Apart at hapart
    rw [switch_memory hbound img.main_co_bound (by omega) (by omega) (by omega), hlib]
  refine ⟨co, hco, ?_⟩
  refine
    { holds := ?_
      idle := ?_
      reg := (switch_contexts hbound img.main_co_bound).1 }
  · refine ⟨{ co with reg_sp := (th.cpu.gpr .rsp).toNat }, ?_, hlive, rfl, rfl, ?_⟩
    · rw [switch_lib hbound img.main_co_bound, hlib]
      exact Function.update_self ..
    · have howner : (th.switch img lib c'' img.main_co).lib.owner co.share_stack = some c'' := by
        rw [switch_lib hbound img.main_co_bound, hlib]
        exact hown
      simp only [State.held, howner, if_true]
      exact Memory.load_congr fun i hi => hmem _ (by omega) (by omega)
  · rw [switch_lib hbound img.main_co_bound, hlib]
    simp [State.withMem]

/-- A parked coroutine that is resumed goes on with its context and finds its bytes. -/
theorem resume_parked {ptr : Nat} (hs : Sound img th.lib)
    (hcontract : th.Contract img (.mz_resume c ptr))
    (h : th.step img (.mz_resume c ptr) = some th') (hc : Parked L th c k sp bytes ctx) :
    Context.ofCpu th'.cpu = ctx ∧ th'.lib.gtls_co = some c ∧
      th'.lib.mem.load sp ((L.stack k).align_retptr - sp) = bytes := by
  have hbound := hs.placed.bound c (object_of_holds hc.holds)
  have hother : th.saves img (.mz_resume c ptr) ≠ some c := saves_ne hs hcontract hc
  have hstep := h
  simp only [Thread.step, Option.map_eq_some_iff] at h
  obtain ⟨lib, hresume, rfl⟩ := h
  obtain ⟨co, hco, rfl, rfl, hgtls, hload⟩ :=
    State.resume_load hs.wf hcontract.1 hresume hc.holds
  have hlib : (th.switch img lib img.main_co c).lib = _ := switch_lib img.main_co_bound hbound
  have hobject : Object img (th.switch img lib img.main_co c).lib c := Or.inr ⟨co, by
    rw [hlib]
    exact hco⟩
  refine ⟨?_, ?_, ?_⟩
  · rw [(switch_contexts img.main_co_bound hbound).2,
      reg_step hs hcontract hstep (object_of_holds hc.holds) hobject hother, hc.reg]
  · rw [hlib]
    exact hgtls
  · rw [← hload]
    refine Memory.load_congr fun i hi => ?_
    -- The switch writes to the stack and the object of the main coroutine only.
    obtain ⟨dco, hdco, hlive, hstack, hsp, _⟩ := hc.holds
    have hlow := (hs.wf.sp_range c dco hdco hlive).1
    rw [hstack, hsp] at hlow
    have hptr := (L.stack co.share_stack).ptr_le_lowptr
    have hret := (L.stack co.share_stack).retptr_le
    have hobj := img.main_co_apart co.share_stack
    have hmain := img.main_stack_apart co.share_stack
    obtain ⟨_, _, hrsp, hrsp'⟩ := hcontract
    unfold Apart at hobj hmain
    exact switch_memory img.main_co_bound hbound (by omega) (by omega) (by omega)

/-- A resume saves the context of the main coroutine. -/
theorem resume_main {ptr : Nat} (hs : Sound img th.lib)
    (h : th.step img (.mz_resume c ptr) = some th') :
    th'.lib.gtls_co = some c ∧ Context.ofReg th'.lib.mem img.main_co = Context.ofCpu th.cpu := by
  simp only [Thread.step, Option.map_eq_some_iff] at h
  obtain ⟨lib, hresume, rfl⟩ := h
  have hresume' := (Option.ite_none_right_eq_some.1 hresume).2
  obtain ⟨co, hco, _, hcases⟩ := State.resume_spec hresume'
  have hbound := hs.placed.bound c (Or.inr ⟨co, hco⟩)
  refine ⟨?_, (switch_contexts img.main_co_bound hbound).1⟩
  rw [switch_lib img.main_co_bound hbound]
  rcases hcases with ⟨_, rfl⟩ | ⟨_, s₁, s₂, _, _, rfl⟩
  · rfl
  · rfl

/-- The context of the main coroutine stays in its object while a coroutine runs. -/
theorem main_step (hs : Sound img th.lib) (hcontract : th.Contract img e)
    (h : th.step img e = some th') (hrun : th.lib.gtls_co = some c) (he : ¬ e.Leaves) :
    th'.lib.gtls_co = some c ∧
      Context.ofReg th'.lib.mem img.main_co = Context.ofReg th.lib.mem img.main_co := by
  have hgtls : th'.lib.gtls_co = some c ∧ th.saves img e ≠ some img.main_co := by
    cases e with
    | code cpu =>
        cases h
        exact ⟨hrun, by simp [Thread.saves]⟩
    | write addr byte =>
        simp only [Thread.step, Option.map_eq_some_iff] at h
        obtain ⟨lib, hstep, rfl⟩ := h
        cases hstep
        exact ⟨hrun, by simp [Thread.saves]⟩
    | mz_thread_init =>
        cases h
        exact ⟨hrun, by simp [Thread.saves]⟩
    | mz_create c' k save_stack_sz ptr fp =>
        simp only [Thread.step, Option.map_eq_some_iff] at h
        obtain ⟨lib, hstep, rfl⟩ := h
        cases hstep
        refine ⟨hrun, fun heq => ?_⟩
        have hne := ne_of_apart (hcontract.2.1.2.1.2 img.main_co (Or.inl rfl))
        exact hne (Option.some.inj heq)
    | mz_resume c' ptr =>
        simp [Thread.step, State.step, hrun] at h
    | mz_yield => exact absurd trivial he
    | mz_exit => exact absurd trivial he
    | mz_destory c' =>
        simp only [Thread.step, Option.map_eq_some_iff] at h
        obtain ⟨lib, hstep, rfl⟩ := h
        obtain ⟨_, _, _, hgtls, _⟩ := State.destory_spec hstep
        exact ⟨hgtls.trans hrun, by simp [Thread.saves]⟩
  exact ⟨hgtls.1, reg_step hs hcontract h (Or.inl rfl) (Or.inl rfl) hgtls.2⟩

theorem main_run {tr : List (Event Stk)} (hs : Sound img th.lib) (hrun : th.lib.gtls_co = some c)
    (hreg : Context.ofReg th.lib.mem img.main_co = ctx)
    (hcontract : (threads img).Along (Thread.Contract img) th tr)
    (hstays : ∀ e ∈ tr, ¬ e.Leaves) (hexec : (threads img).exec th tr = some th') :
    Sound img th'.lib ∧ th'.lib.gtls_co = some c ∧
      Context.ofReg th'.lib.mem img.main_co = ctx :=
  (threads img).exec_invariant
    (I := fun th => Sound img th.lib ∧ th.lib.gtls_co = some c ∧
      Context.ofReg th.lib.mem img.main_co = ctx)
    (fun _ _ _ hs hP ht =>
      have hmain := main_step hs.1 hP.1 ht hs.2.1 hP.2
      ⟨sound_step hs.1 hP.1 ht, hmain.1, hmain.2.trans hs.2.2⟩)
    ⟨hs, hrun, hreg⟩ (hcontract.and (M := threads img) ((threads img).along_of_forall_mem hstays))
    hexec

theorem main_byte_run {x : Nat} {tr : List (Event Stk)} (hs : Sound img th.lib)
    (hrun : th.lib.gtls_co = some c) (hlow : img.main_stack ≤ x)
    (hhigh : x < img.main_stack + img.main_stack_sz)
    (hcontract : (threads img).Along (Thread.Contract img) th tr)
    (hstays : ∀ e ∈ tr, ¬ e.Leaves) (hwrite : ∀ b, .write x b ∉ tr)
    (hexec : (threads img).exec th tr = some th') : th'.lib.mem x = th.lib.mem x := by
  have hquiet : ∀ e ∈ tr, ¬ e.Leaves ∧ ∀ b, e ≠ .write x b := by
    refine fun e he => ⟨hstays e he, ?_⟩
    rintro b rfl
    exact hwrite b he
  have hkept : Sound img th'.lib ∧ th'.lib.gtls_co = some c ∧ th'.lib.mem x = th.lib.mem x := by
    refine (threads img).exec_invariant
      (I := fun t => Sound img t.lib ∧ t.lib.gtls_co = some c ∧ t.lib.mem x = th.lib.mem x)
      ?_ ⟨hs, hrun, rfl⟩
      (hcontract.and (M := threads img) ((threads img).along_of_forall_mem hquiet)) hexec
    rintro t e t' ⟨ht, hgtls, hbyte⟩ ⟨hP, hleaves, hother⟩ hstep
    refine ⟨sound_step ht hP hstep, (main_step ht hP hstep hgtls hleaves).1, ?_⟩
    rw [← hbyte]
    refine main_byte_step ht hP hstep hlow hhigh ?_ hother
    -- A coroutine that runs resumes nobody.
    rintro c' ptr rfl
    simp [threads, Thread.step, State.step, hgtls] at hstep
  exact hkept.2.2

/-- A coroutine that leaves gives the processor back with the context of the main coroutine. -/
theorem leave_main (hs : Sound img th.lib) (hin : InStack (L := L) th) (he : e.Leaves)
    (h : th.step img e = some th') :
    Context.ofCpu th'.cpu = Context.ofReg th.lib.mem img.main_co ∧ th'.lib.gtls_co = none := by
  have hstep := h
  obtain ⟨c, co, co', lib, hrun, hc, hmem, hgtls, hcos, _, rfl⟩ := leave_spec he h
  have hobject : Object img th.lib c := Or.inr ⟨co, hc⟩
  have hbound := hs.placed.bound c hobject
  refine ⟨?_, by rw [switch_lib hbound img.main_co_bound]; exact hgtls⟩
  rw [(switch_contexts hbound img.main_co_bound).2]
  refine Context.ofReg_congr fun x hlow hhigh => ?_
  have hne : img.main_co ≠ c := by
    rintro heq
    have hmain := hs.placed.main_co
    rw [heq, hc] at hmain
    cases hmain
  have happart := hs.placed.objects _ c (Or.inl rfl) hobject hne
  refine leave_memory hs hin he hstep (fun k => ?_) (fun d hd => ?_)
  · have hptr := (L.stack k).ptr_le_lowptr
    have hret := (L.stack k).retptr_le
    have hobj := img.main_co_apart k
    unfold Apart at hobj
    omega
  · have hsame : d = c := Option.some.inj (hd.symm.trans hrun)
    subst hsame
    unfold Apart at happart
    omega

/-- In every run a switch is an ordinary call to who makes it.  A coroutine that yields goes on,
after any events of others and its resume, at its return address with the registers a call keeps,
its control words and the bytes of its stack.  The main coroutine goes on so when the coroutine it
resumed yields or ends, with the bytes of its stack that nobody wrote to meanwhile. -/
theorem switch_transparent {mem : Memory} {cpu : Amd64.Cpu} {tr : List (Event Stk)}
    {th : Thread Stk} (hcontract : (threads img).Along (Thread.Contract img) (.init mem cpu) tr)
    (hrun : (threads img).exec (.init mem cpu) tr = some th) :
    (∀ c tr' ptr th', th.lib.gtls_co = some c →
        (threads img).Along (Thread.Contract img) th (.mz_yield :: tr' ++ [.mz_resume c ptr]) →
        (∀ e ∈ tr', ¬ e.Concerns c) →
        (threads img).exec th (.mz_yield :: tr' ++ [.mz_resume c ptr]) = some th' →
        Context.ofCpu th'.cpu = Context.ofCpu th.cpu ∧ th'.lib.gtls_co = some c ∧
          ∃ co, th.lib.cos c = some co ∧
            th'.lib.mem.load (th.cpu.gpr .rsp).toNat
                ((L.stack co.share_stack).align_retptr - (th.cpu.gpr .rsp).toNat) =
              th.lib.mem.load (th.cpu.gpr .rsp).toNat
                ((L.stack co.share_stack).align_retptr - (th.cpu.gpr .rsp).toNat)) ∧
      ∀ c ptr tr' e th',
        (threads img).Along (Thread.Contract img) th (.mz_resume c ptr :: tr' ++ [e]) →
        e.Leaves → (∀ e' ∈ tr', ¬ e'.Leaves) →
        (threads img).exec th (.mz_resume c ptr :: tr' ++ [e]) = some th' →
        Context.ofCpu th'.cpu = Context.ofCpu th.cpu ∧ th'.lib.gtls_co = none ∧
          ∀ x, (th.cpu.gpr .rsp).toNat ≤ x → x < img.main_stack + img.main_stack_sz →
            (∀ b, .write x b ∉ tr') → th'.lib.mem x = th.lib.mem x := by
  have hs : Sound img th.lib := sound_run (sound_init mem cpu) hcontract hrun
  constructor
  · intro c tr' ptr th' hgtls halong hother hexec
    obtain ⟨th₁, hyield, hrest⟩ := ((threads img).exec_cons).1 hexec
    obtain ⟨th₂, hmiddle, hresume⟩ := ((threads img).exec_append).1 hrest
    have hresume' : th₂.step img (.mz_resume c ptr) = some th' :=
      ((threads img).exec_singleton).1 hresume
    obtain ⟨hmiddle_contract, hlast⟩ := ((threads img).along_append).1 (halong.2 th₁ hyield)
    obtain ⟨co, hco, hparked⟩ := parked_yield hs halong.1 hyield hgtls
    have hs₁ := sound_step hs halong.1 hyield
    obtain ⟨hs₂, hparked₂⟩ := parked_run hs₁ hparked hmiddle_contract hother hmiddle
    obtain ⟨hcontext, hgtls', hbytes⟩ :=
      resume_parked hs₂ (hlast th₂ hmiddle).1 hresume' hparked₂
    exact ⟨hcontext, hgtls', co, hco, hbytes⟩
  · intro c ptr tr' e th' halong he hstays hexec
    obtain ⟨th₁, hresume, hrest⟩ := ((threads img).exec_cons).1 hexec
    obtain ⟨th₂, hmiddle, hleave⟩ := ((threads img).exec_append).1 hrest
    have hleave' : th₂.step img e = some th' := ((threads img).exec_singleton).1 hleave
    obtain ⟨hmiddle_contract, hlast⟩ := ((threads img).along_append).1 (halong.2 th₁ hresume)
    have hs₁ := sound_step hs halong.1 hresume
    obtain ⟨hgtls, hsaved⟩ := resume_main hs hresume
    obtain ⟨hs₂, _, hsaved₂⟩ := main_run hs₁ hgtls hsaved hmiddle_contract hstays hmiddle
    have hcontract₂ := (hlast th₂ hmiddle).1
    have hin : InStack (L := L) th₂ := by
      cases e with
      | mz_yield => exact hcontract₂
      | mz_exit => exact hcontract₂
      | _ => exact he.elim
    obtain ⟨hcontext, hnone⟩ := leave_main hs₂ hin he hleave'
    refine ⟨hcontext.trans hsaved₂, hnone, ?_⟩
    intro x hsp hhigh hwrite
    have hlow : img.main_stack ≤ x := by
      obtain ⟨_, _, hbase, _⟩ := halong.1
      omega
    have hfirst : th₁.lib.mem x = th.lib.mem x :=
      main_byte_step hs halong.1 hresume hlow hhigh (fun _ _ _ => hsp) (by simp)
    have hmiddle_byte : th₂.lib.mem x = th₁.lib.mem x :=
      main_byte_run hs₁ hgtls hlow hhigh hmiddle_contract hstays hwrite hmiddle
    have hlast_byte : th'.lib.mem x = th₂.lib.mem x := by
      refine main_byte_step hs₂ hcontract₂ hleave' hlow hhigh ?_ ?_
      · rintro c' ptr' rfl
        exact he.elim
      · rintro b rfl
        exact he.elim
    rw [hlast_byte, hmiddle_byte, hfirst]

/-- A main coroutine beside the stack of `oneStack`. -/
def mainAtLow : Image oneStack :=
  { main_co := 512
    main_stack := 1024
    main_stack_sz := 256
    mzswap := 16
    mz_funcp_protector_asm := 32
    mz_funcp_protector := 48
    main_co_bound := by decide
    main_stack_bound := by decide
    main_apart := by decide
    main_co_apart := fun ⟨⟩ => by decide
    main_stack_apart := fun ⟨⟩ => by decide }

/-- A processor with one value in all registers. -/
def flatCpu (v : BitVec 64) : Amd64.Cpu :=
  { gpr := fun _ => v, fpucw := 0x37f, mxcsr := 0x1f80, rip := v }

/-- The memory in which `oneStack` has been made. -/
def guardedMem : Memory :=
  Memory.writeWord (fun _ => 0) 4136 (32 : BitVec 64)

/-- A coroutine is created at 640 and resumed, and its body gets going. -/
def startsBody : List (Event Unit) :=
  [.mz_create 640 () 0 8192 96, .mz_resume 640 0, .code (flatCpu 4128)]

/-- It yields and is resumed. -/
def yieldsOnce : List (Event Unit) :=
  [.mz_yield, .code (flatCpu 1200), .mz_resume 640 0]

theorem create_contract (cpu : Amd64.Cpu) :
    Contract mainAtLow (.init guardedMem cpu) (.mz_create 640 () 0 8192 96) := by
  have hmain : ∀ d, Object mainAtLow (State.init.withMem guardedMem) d → d = 512 := by
    rintro d (rfl | ⟨co, hco⟩)
    · rfl
    · cases hco
  refine ⟨⟨rfl, fun ⟨⟩ => by decide, nofun⟩, ⟨by decide, ⟨by decide, ?_⟩, fun ⟨⟩ => by decide,
    nofun⟩, ⟨by decide, ?_⟩, by decide⟩
  · intro d hd
    rw [hmain d hd]
    decide
  · intro d hd
    rw [hmain d hd]
    decide

theorem inStack_flat {th : Thread Unit} (hcpu : th.cpu = flatCpu 4128) :
    InStack (L := oneStack) th := by
  intro c co _ _
  rw [hcpu]
  simp [flatCpu, oneStack_lowptr, oneStack_retptr]

theorem startsBody_contract : (threads mainAtLow).Along (Contract mainAtLow)
    (.init guardedMem (flatCpu 1200)) startsBody := by
  refine Machine.Along.cons _ rfl (create_contract _) (Machine.Along.cons _ rfl ?_
    (Machine.Along.cons _ rfl trivial trivial))
  exact ⟨nofun, nofun, by decide, by decide⟩

/-- The save buffer is large enough for the bytes of the body. -/
theorem resume_contract {th : Thread Unit} {co : Co Unit} (howner : th.lib.owner () = some 640)
    (hco : th.lib.cos 640 = some co) (hsp : co.reg_sp = 4128) (hsz : co.save_stack.sz = 64)
    (hcpu : th.cpu.gpr .rsp = 1200) : Contract mainAtLow th (.mz_resume 640 0) := by
  refine ⟨oneStack_resume howner hco hsp hsz, ?_, by rw [hcpu]; decide, by rw [hcpu]; decide⟩
  intro _ o oco sz _ howner' hoco hsmall
  have ho : 640 = o := Option.some.inj (howner.symm.trans howner')
  subst ho
  have hsame : co = oco := Option.some.inj (hco.symm.trans hoco)
  subst hsame
  rw [hsz, hsp, oneStack_retptr] at hsmall
  omega

/-- The coroutine yields and is resumed; before, the main coroutine has resumed it, and gets back
the byte at 1210 of its stack. -/
theorem switch_transparent_once :
    (∃ th th', (threads mainAtLow).exec (.init guardedMem (flatCpu 1200)) startsBody = some th ∧
        (threads mainAtLow).exec th yieldsOnce = some th' ∧
        Context.ofCpu th'.cpu = Context.ofCpu (flatCpu 4128)) ∧
      ∃ th th', (threads mainAtLow).exec (.init guardedMem (flatCpu 1200))
          [.mz_create 640 () 0 8192 96] = some th ∧
        (threads mainAtLow).exec th [.mz_resume 640 0, .code (flatCpu 4128), .mz_yield] = some th' ∧
        Context.ofCpu th'.cpu = Context.ofCpu (flatCpu 1200) ∧ th'.lib.mem 1210 = 0 := by
  constructor
  · obtain ⟨th, th₁, th₂, th', hstart, hgtls, hcpu, h₁, h₂, h₃, facts, hcpu₂⟩ :
        ∃ th th₁ th₂ th' : Thread Unit,
          (threads mainAtLow).exec (.init guardedMem (flatCpu 1200)) startsBody = some th ∧
          th.lib.gtls_co = some 640 ∧ th.cpu = flatCpu 4128 ∧
          (threads mainAtLow).step th .mz_yield = some th₁ ∧
          (threads mainAtLow).step th₁ (.code (flatCpu 1200)) = some th₂ ∧
          (threads mainAtLow).step th₂ (.mz_resume 640 0) = some th' ∧
          (th₂.lib.owner () = some 640 ∧ ∃ co, th₂.lib.cos 640 = some co ∧ co.reg_sp = 4128 ∧
            co.save_stack.sz = 64) ∧ th₂.cpu.gpr .rsp = 1200 :=
      ⟨_, _, _, _, rfl, rfl, rfl, rfl, rfl, rfl, ⟨rfl, _, rfl, rfl, rfl⟩, rfl⟩
    obtain ⟨howner, co, hco, hsp, hsz⟩ := facts
    have halong : (threads mainAtLow).Along (Contract mainAtLow) th
        (.mz_yield :: [.code (flatCpu 1200)] ++ [.mz_resume 640 0]) :=
      .cons _ h₁ (inStack_flat hcpu) (.cons _ h₂ trivial
        (.cons _ h₃ (resume_contract howner hco hsp hsz hcpu₂) trivial))
    have hexec : (threads mainAtLow).exec th
        (.mz_yield :: [.code (flatCpu 1200)] ++ [.mz_resume 640 0]) = some th' :=
      ((threads mainAtLow).exec_cons).2 ⟨th₁, h₁,
        ((threads mainAtLow).exec_cons).2 ⟨th₂, h₂, ((threads mainAtLow).exec_singleton).2 h₃⟩⟩
    obtain ⟨hcontext, _⟩ := (switch_transparent startsBody_contract hstart).1 640
      [.code (flatCpu 1200)] 0 th' hgtls halong (by simp [Event.Concerns]) hexec
    exact ⟨th, th', hstart, hexec, hcpu ▸ hcontext⟩
  · obtain ⟨th, th₁, th₂, th', hstart, hcpu, hbyte, h₁, h₂, h₃, hcpu₂⟩ :
        ∃ th th₁ th₂ th' : Thread Unit,
          (threads mainAtLow).exec (.init guardedMem (flatCpu 1200))
            [.mz_create 640 () 0 8192 96] = some th ∧
          th.cpu = flatCpu 1200 ∧ th.lib.mem 1210 = 0 ∧
          (threads mainAtLow).step th (.mz_resume 640 0) = some th₁ ∧
          (threads mainAtLow).step th₁ (.code (flatCpu 4128)) = some th₂ ∧
          (threads mainAtLow).step th₂ .mz_yield = some th' ∧ th₂.cpu = flatCpu 4128 :=
      ⟨_, _, _, _, rfl, rfl, rfl, rfl, rfl, rfl, rfl⟩
    have hcreate : (threads mainAtLow).Along (Contract mainAtLow)
        (.init guardedMem (flatCpu 1200)) [.mz_create 640 () 0 8192 96] :=
      .cons _ ((threads mainAtLow).exec_singleton.1 hstart) (create_contract _) trivial
    have halong : (threads mainAtLow).Along (Contract mainAtLow) th
        (.mz_resume 640 0 :: [.code (flatCpu 4128)] ++ [.mz_yield]) := by
      have hfirst := startsBody_contract.2 th ((threads mainAtLow).exec_singleton.1 hstart)
      exact .cons _ h₁ hfirst.1 (.cons _ h₂ trivial (.cons _ h₃ (inStack_flat hcpu₂) trivial))
    have hexec : (threads mainAtLow).exec th
        (.mz_resume 640 0 :: [.code (flatCpu 4128)] ++ [.mz_yield]) = some th' :=
      ((threads mainAtLow).exec_cons).2 ⟨th₁, h₁,
        ((threads mainAtLow).exec_cons).2 ⟨th₂, h₂, ((threads mainAtLow).exec_singleton).2 h₃⟩⟩
    obtain ⟨hcontext, _, hbytes⟩ := (switch_transparent hcreate hstart).2 640 0
      [.code (flatCpu 4128)] .mz_yield th' halong trivial (by simp [Event.Leaves]) hexec
    refine ⟨th, th', hstart, hexec, hcpu ▸ hcontext, ?_⟩
    rw [hbytes 1210 (by rw [hcpu]; decide) (by decide) (by simp), hbyte]

end Coroutine
end Mozi
