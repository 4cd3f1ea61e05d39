import Mozi.Coroutine.Transparency

/-!
# BodyEntry — how a body begins and where it comes to when it returns

`mz_create` prepares an object so that the first resume calls the entry point: on the stack of the
coroutine, aligned as the calling convention wants it, with the control words of `mz_thread_init`.
The return address of that call is the word `mz_share_stack_new2` wrote at `align_retptr`, which
nothing in a run overwrites: a body that returns comes to `mz_funcp_protector`.
-/

namespace Mozi
namespace Coroutine

open Foundation Thread

variable {Stk : Type} [DecidableEq Stk] {L : Layout Stk} {img : Image L}
  {th th' : Thread Stk} {e : Event Stk} {c : CoId} {k : Stk}

/-! ## The first resume -/

/-- The context of a body that has not begun. -/
def Context.entry (fp sp : BitVec 64) (fpucw : BitVec 16) (mxcsr : BitVec 32) : Context :=
  { r12 := 0
    r13 := 0
    r14 := 0
    r15 := 0
    retaddr := fp
    rsp := sp
    rbx := 0
    rbp := 0
    fpucw := fpucw
    mxcsr := mxcsr }

theorem ofReg_newReg (mem : Memory) (c : Nat) (fp sp : BitVec 64) (fpucw : BitVec 16)
    (mxcsr : BitVec 32) :
    Context.ofReg (newReg mem c fp sp fpucw mxcsr) c = Context.entry fp sp fpucw mxcsr := by
  unfold Context.ofReg newReg Context.entry
  simp (disch := omega) only [Memory.readWord_writeWord_same, Memory.readWord_writeWord_apart,
    Memory.readWord_store_zeros]

theorem retptr_mod (stk : ShareStack) : stk.align_retptr % 16 = 8 := by
  have h := stk.large
  unfold ShareStack.align_retptr ShareStack.align_highptr
  omega

theorem toNat_retptr (stk : ShareStack) :
    (BitVec.ofNat 64 stk.align_retptr).toNat = stk.align_retptr := by
  have hret := stk.retptr_le
  have hbound := stk.bound
  have hlarge := stk.large
  have hlt : stk.align_retptr < 2 ^ 64 := by
    unfold ShareStack.align_retptr ShareStack.align_highptr at *
    omega
  rw [BitVec.toNat_ofNat, Nat.mod_eq_of_lt hlt]

/-- The word at `align_retptr` is inside the stack. -/
theorem retptr_word (stk : ShareStack) :
    stk.ptr ≤ stk.align_retptr ∧ stk.align_retptr + 8 ≤ stk.ptr + stk.sz := by
  have h := stk.large
  unfold ShareStack.align_retptr ShareStack.align_highptr
  omega

/-- A new coroutine is parked at its entry point. -/
theorem parked_create {save_stack_sz ptr : Nat} {fp : BitVec 64} (hs : Sound img th.lib)
    (hcontract : th.Contract img (.mz_create c k save_stack_sz ptr fp))
    (h : th.step img (.mz_create c k save_stack_sz ptr fp) = some th') :
    Parked L th' c k (L.stack k).align_retptr []
      (Context.entry fp (BitVec.ofNat 64 (L.stack k).align_retptr) th.gtls_fpucw
        th.gtls_mxcsr) := by
  simp only [Thread.step, Option.map_eq_some_iff] at h
  obtain ⟨lib, hstep, rfl⟩ := h
  cases hstep
  refine
    { holds := ?_
      idle := ?_
      reg := ofReg_newReg _ c fp _ _ _ }
  · refine ⟨_, Function.update_self .., rfl, rfl, rfl, ?_⟩
    simp only [State.held, Nat.sub_self, Memory.load_zero]
  · -- A running coroutine is live, and the new one was not.
    intro hrun
    obtain ⟨co, hco, _⟩ := hs.wf.running c hrun
    have hfree := hcontract.1.1
    rw [hco] at hfree
    cases hfree

/-! ## The word above the live region -/

/-- Every share stack has the address of the protector at `align_retptr`. -/
def Guarded (img : Image L) (mem : Memory) : Prop :=
  ∀ k, mem.readWord 64 (L.stack k).align_retptr = img.mz_funcp_protector_asm

theorem guarded_step (hs : Sound img th.lib) (hcontract : th.Contract img e)
    (h : th.step img e = some th') (hg : Guarded img th.lib.mem) : Guarded img th'.lib.mem := by
  have hs' := sound_step hs hcontract h
  intro k
  rw [← hg k]
  refine Memory.readWord_congr (Memory.load_congr fun i hi => ?_)
  obtain ⟨hbelow, habove⟩ := retptr_word (L.stack k)
  refine step_memory hs hcontract h ?_ ?_ ?_ ?_ ?_
  · -- The live regions end below it, those of the other stacks are elsewhere.
    intro k'
    by_cases hk : k' = k
    · subst hk
      exact Or.inr (by omega)
    · have hptr := (L.stack k').ptr_le_lowptr
      have hret := (L.stack k').retptr_le
      have happart := L.apart k' k hk
      unfold Apart at happart
      omega
  · intro d co hd
    have happart := (hs'.wf.buffers d co hd).1 k
    unfold Apart at happart
    omega
  · have happart := img.main_stack_apart k
    unfold Apart at happart
    omega
  · intro d hd
    have happart := saves_stack_apart hs hcontract hd k
    unfold Apart at happart
    omega
  · rintro b rfl
    rcases hcontract.1 with ⟨d, co, _, _, hlow, hhigh⟩ | ⟨hout, _⟩
    · by_cases hk : co.share_stack = k
      · rw [hk] at hhigh
        omega
      · have hptr := (L.stack co.share_stack).ptr_le_lowptr
        have hret := (L.stack co.share_stack).retptr_le
        have happart := L.apart _ k hk
        unfold Apart at happart
        omega
    · have happart := hout k
      unfold Apart at happart
      omega

theorem guarded_run {tr : List (Event Stk)} (hs : Sound img th.lib) (hg : Guarded img th.lib.mem)
    (hcontract : (threads img).Along (Thread.Contract img) th tr)
    (hrun : (threads img).exec th tr = some th') :
    Sound img th'.lib ∧ Guarded img th'.lib.mem :=
  (threads img).exec_invariant (I := fun th => Sound img th.lib ∧ Guarded img th.lib.mem)
    (fun _ _ _ hs hP ht => ⟨sound_step hs.1 hP ht, guarded_step hs.1 hP ht hs.2⟩)
    ⟨hs, hg⟩ hcontract hrun

/-- The mask of `mz_funcp_protector_asm` clears the low bits. -/
theorem toNat_mask_mod (v : BitVec 64) : (v &&& 0xfffffffffffffff0).toNat % 16 = 0 := by
  have h := Nat.and_mod_two_pow (a := v.toNat) (b := 0xfffffffffffffff0) (n := 4)
  rw [BitVec.toNat_and]
  change (v.toNat &&& 0xfffffffffffffff0) % 2 ^ 4 = 0
  rw [h, show 0xfffffffffffffff0 % 2 ^ 4 = 0 from rfl, Nat.and_zero]

/-- The code of the protector calls `mz_funcp_protector` as the calling convention wants it. -/
theorem protector_spec (p : BitVec 64) (s : Amd64.State) :
    (Amd64.exec (mz_funcp_protector_asm p) s).cpu.rip = p ∧
      ((Amd64.exec (mz_funcp_protector_asm p) s).cpu.gpr .rsp).toNat % 16 = 8 := by
  have hrsp : (Amd64.exec (mz_funcp_protector_asm p) s).cpu.gpr .rsp =
      (s.cpu.gpr .rsp &&& 0xfffffffffffffff0) - 8 := by
    simp [mz_funcp_protector_asm, Amd64.exec, Amd64.Instr.run, Amd64.Instr.transfers]
  refine ⟨rfl, ?_⟩
  have hmod := toNat_mask_mod (s.cpu.gpr .rsp)
  have hlt := (s.cpu.gpr .rsp &&& 0xfffffffffffffff0).isLt
  rw [hrsp, BitVec.toNat_sub]
  change (2 ^ 64 - 8 + (s.cpu.gpr .rsp &&& 0xfffffffffffffff0).toNat) % 2 ^ 64 % 16 = 8
  omega

/-- In every run the first resume of a coroutine enters its entry point with the stack pointer at
`align_retptr`, the control words of `mz_thread_init` and zeros in the other registers, and a body
that returns with the stack pointer it began with comes to `mz_funcp_protector`, with the stack
aligned for the call. -/
theorem body_enters_and_returns {mem : Memory} {cpu : Amd64.Cpu} {tr : List (Event Stk)}
    {th : Thread Stk} (hg : Guarded img mem)
    (hcontract : (threads img).Along (Thread.Contract img) (.init mem cpu) tr)
    (hrun : (threads img).exec (.init mem cpu) tr = some th) :
    (∀ c k save_stack_sz ptr fp tr' ptr' th',
        (threads img).Along (Thread.Contract img) th
          (.mz_create c k save_stack_sz ptr fp :: tr' ++ [.mz_resume c ptr']) →
        (∀ e ∈ tr', ¬ e.Concerns c) →
        (threads img).exec th (.mz_create c k save_stack_sz ptr fp :: tr' ++ [.mz_resume c ptr']) =
          some th' →
        Context.ofCpu th'.cpu =
            Context.entry fp (BitVec.ofNat 64 (L.stack k).align_retptr) th.gtls_fpucw
              th.gtls_mxcsr ∧
          (th'.cpu.gpr .rsp).toNat % 16 = 8) ∧
      ∀ c co, th.lib.gtls_co = some c → th.lib.cos c = some co →
        (th.cpu.gpr .rsp).toNat = (L.stack co.share_stack).align_retptr →
        let s := Amd64.Instr.ret.run { cpu := th.cpu, mem := th.lib.mem }
        let s' := Amd64.exec (mz_funcp_protector_asm img.mz_funcp_protector) s
        s.cpu.rip = img.mz_funcp_protector_asm ∧ s'.cpu.rip = img.mz_funcp_protector ∧
          (s'.cpu.gpr .rsp).toNat % 16 = 8 := by
  obtain ⟨hs, hguarded⟩ := guarded_run (sound_init mem cpu) hg hcontract hrun
  constructor
  · intro c k save_stack_sz ptr fp tr' ptr' th' halong hother hexec
    obtain ⟨th₁, hcreate, hrest⟩ := ((threads img).exec_cons).1 hexec
    obtain ⟨th₂, hmiddle, hresume⟩ := ((threads img).exec_append).1 hrest
    have hresume' : th₂.step img (.mz_resume c ptr') = some th' :=
      ((threads img).exec_singleton).1 hresume
    obtain ⟨hmiddle_contract, hlast⟩ := ((threads img).along_append).1 (halong.2 th₁ hcreate)
    have hparked := parked_create hs halong.1 hcreate
    have hs₁ := sound_step hs halong.1 hcreate
    obtain ⟨hs₂, hparked₂⟩ := parked_run hs₁ hparked hmiddle_contract hother hmiddle
    obtain ⟨hcontext, _⟩ := resume_parked hs₂ (hlast th₂ hmiddle).1 hresume' hparked₂
    refine ⟨hcontext, ?_⟩
    have hrsp : th'.cpu.gpr .rsp = BitVec.ofNat 64 (L.stack k).align_retptr :=
      congrArg Context.rsp hcontext
    rw [hrsp, toNat_retptr]
    exact retptr_mod _
  · intro c co _ _ hsp
    refine ⟨?_, protector_spec _ _⟩
    change th.lib.mem.readWord 64 (th.cpu.gpr .rsp).toNat = img.mz_funcp_protector_asm
    rw [hsp, hguarded co.share_stack]

theorem guarded_guardedMem : Guarded mainAtLow guardedMem := by
  rintro ⟨⟩
  rw [oneStack_retptr]
  exact Memory.readWord_writeWord_same (by decide) _ _ _

theorem body_enters_and_returns_first :
    ∃ th', (threads mainAtLow).exec (.init guardedMem (flatCpu 1200))
        [.mz_create 640 () 0 8192 96, .mz_resume 640 0] = some th' ∧
      Context.ofCpu th'.cpu = Context.entry 96 (BitVec.ofNat 64 4136) 0 0 := by
  have halong : (threads mainAtLow).Along (Contract mainAtLow) (.init guardedMem (flatCpu 1200))
      (.mz_create 640 () 0 8192 96 :: [] ++ [.mz_resume 640 0]) := by
    refine Machine.Along.cons _ rfl (create_contract _) (Machine.Along.cons _ rfl ?_ trivial)
    exact ⟨nofun, nofun, by decide, by decide⟩
  obtain ⟨th', hexec⟩ : ∃ th', (threads mainAtLow).exec (.init guardedMem (flatCpu 1200))
      (.mz_create 640 () 0 8192 96 :: [] ++ [.mz_resume 640 0]) = some th' := ⟨_, rfl⟩
  have hstart : (threads mainAtLow).Along (Contract mainAtLow)
      (.init guardedMem (flatCpu 1200)) [] := trivial
  obtain ⟨hcontext, _⟩ := (body_enters_and_returns guarded_guardedMem hstart rfl).1 640 () 0 8192
    96 [] 0 th' halong (by simp) hexec
  exact ⟨th', hexec, hcontext⟩

end Coroutine
end Mozi
