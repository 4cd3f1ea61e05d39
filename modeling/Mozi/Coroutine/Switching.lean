import Mozi.Coroutine.Isolation
import Mozi.Coroutine.Mzswap

/-!
# Switching — the library together with the processor

`Mzco` is the library without the registers.  Here a thread has both: the coroutines of the library
and the processor, with the `reg` arrays in the memory of the library and `mzswap` as the
instructions that move between them.  The macros of `Mzswap` are undefined.

Every event of a thread is a run of the library (`event_performs` in `Events`), so what holds of all
runs of the library holds of threads.
-/

namespace Mozi
namespace Coroutine

open Foundation

variable {Stk : Type}

/-! ## Threads -/

/-- Where the things are that are there before the first coroutine is created. -/
structure Image (L : Layout Stk) where
  /-- the object of the main coroutine -/
  main_co : CoId
  /-- the stack the thread was started on -/
  main_stack : Nat
  main_stack_sz : Nat
  mzswap : BitVec 64
  mz_funcp_protector_asm : BitVec 64
  mz_funcp_protector : BitVec 64
  main_co_bound : main_co + 72 ≤ 2 ^ 64
  main_stack_bound : main_stack + main_stack_sz ≤ 2 ^ 64
  main_apart : Apart main_co 72 main_stack main_stack_sz
  main_co_apart : ∀ k, Apart main_co 72 (L.stack k).ptr (L.stack k).sz
  main_stack_apart : ∀ k, Apart main_stack main_stack_sz (L.stack k).ptr (L.stack k).sz

structure Thread (Stk : Type) where
  lib : State Stk
  cpu : Amd64.Cpu
  /-- The two control words in `mz_gtls_fpucw_mxcsr[0]`; the bytes between them stay 0. -/
  gtls_fpucw : BitVec 16
  gtls_mxcsr : BitVec 32

inductive Event (Stk : Type)
  /-- compiled code of whoever runs, up to its next call or write to memory -/
  | code (cpu : Amd64.Cpu)
  | write (addr : Nat) (byte : UInt8)
  | mz_thread_init
  | mz_create (c : CoId) (share_stack : Stk) (save_stack_sz ptr : Nat) (fp : BitVec 64)
  | mz_resume (c : CoId) (ptr : Nat)
  | mz_yield
  | mz_exit
  | mz_destory (c : CoId)

/-- What `mz_create` leaves in `reg`: zeros, then the entry point, the stack pointer and the
control words. -/
def newReg (mem : Memory) (c : CoId) (fp sp : BitVec 64) (fpucw : BitVec 16)
    (mxcsr : BitVec 32) : Memory :=
  ((((mem.store c (List.replicate 72 0)).writeWord (c + 0x20) fp).writeWord (c + 0x28)
    sp).writeWord (c + 0x40) fpucw).writeWord (c + 0x44) mxcsr

def State.withMem (s : State Stk) (mem : Memory) : State Stk :=
  { s with mem := mem }

namespace Thread

variable [DecidableEq Stk] {L : Layout Stk} (img : Image L)

/-- The call of `mzswap`, which pushes the address the caller goes on at. -/
def swap (cpu : Amd64.Cpu) (mem : Memory) (from_co to_co : CoId) : Amd64.State :=
  Amd64.exec (mzswap .plain)
    ((Amd64.Instr.call img.mzswap).run
      { cpu := (cpu.set .rdi (BitVec.ofNat 64 from_co)).set .rsi (BitVec.ofNat 64 to_co)
        mem := mem })

/-- The processor of a thread that calls into the library is as it is at the call of `mzswap`. -/
def switch (t : Thread Stk) (lib : State Stk) (from_co to_co : CoId) : Thread Stk :=
  { t with
    lib := lib.withMem (swap img t.cpu lib.mem from_co to_co).mem
    cpu := (swap img t.cpu lib.mem from_co to_co).cpu }

def step (t : Thread Stk) : Event Stk → Option (Thread Stk)
  | .code cpu => some { t with cpu := cpu }
  | .write addr byte => (t.lib.step L (.write addr byte)).map fun lib => { t with lib := lib }
  | .mz_thread_init => some { t with gtls_fpucw := t.cpu.fpucw, gtls_mxcsr := t.cpu.mxcsr }
  | .mz_create c k save_stack_sz ptr fp =>
      (t.lib.step L (.mz_create c k save_stack_sz ptr)).map fun lib =>
        let sp := BitVec.ofNat 64 (L.stack k).align_retptr
        { t with lib := lib.withMem (newReg lib.mem c fp sp t.gtls_fpucw t.gtls_mxcsr) }
  | .mz_resume c ptr =>
      (t.lib.step L (.mz_resume c ptr)).map fun lib => t.switch img lib img.main_co c
  | .mz_yield =>
      t.lib.gtls_co.bind fun c =>
        (t.lib.step L (.mz_yield (t.cpu.gpr .rsp).toNat)).map fun lib =>
          t.switch img lib c img.main_co
  | .mz_exit =>
      t.lib.gtls_co.bind fun c =>
        (t.lib.step L (.mz_exit (t.cpu.gpr .rsp).toNat)).map fun lib =>
          t.switch img lib c img.main_co
  | .mz_destory c => (t.lib.step L (.mz_destory c)).map fun lib => { t with lib := lib }

/-- Before the first coroutine, with any memory. -/
def init (mem : Memory) (cpu : Amd64.Cpu) : Thread Stk :=
  { lib := State.init.withMem mem
    cpu := cpu
    gtls_fpucw := 0
    gtls_mxcsr := 0 }

/-! ## The assumptions -/

/-- An `mz_t`, the one of the main coroutine included. -/
def Object (s : State Stk) (c : CoId) : Prop :=
  c = img.main_co ∨ ∃ co, s.cos c = some co

/-- A block apart from the objects and the stack of the main coroutine. -/
def Clear (s : State Stk) (a n : Nat) : Prop :=
  Apart a n img.main_stack img.main_stack_sz ∧ ∀ d, Object img s d → Apart a n d 72

/-- A block for a new object. -/
def Room (s : State Stk) (c : CoId) : Prop :=
  c + 72 ≤ 2 ^ 64 ∧ Clear img s c 72 ∧ (∀ k, Apart c 72 (L.stack k).ptr (L.stack k).sz) ∧
    ∀ d co, s.cos d = some co → Apart c 72 co.save_stack.ptr co.save_stack.sz

/-- The stack pointer of the running coroutine leaves room for one more return address. -/
def InStack (t : Thread Stk) : Prop :=
  ∀ c co, t.lib.gtls_co = some c → t.lib.cos c = some co →
    (L.stack co.share_stack).lowptr + 8 ≤ (t.cpu.gpr .rsp).toNat ∧
      (t.cpu.gpr .rsp).toNat ≤ (L.stack co.share_stack).align_retptr

/-- What the library assumes, and that allocated blocks are apart from the objects and the stack
of the main coroutine, that nobody writes to an object, and that calls are made with the stack
pointer on the stack of the caller. -/
def Contract (t : Thread Stk) : Event Stk → Prop
  | .code _ => True
  | .write addr byte =>
      t.lib.Contract L (.write addr byte) ∧ ∀ d, Object img t.lib d → Apart addr 1 d 72
  | .mz_thread_init => True
  | .mz_create c k save_stack_sz ptr _ =>
      t.lib.Contract L (.mz_create c k save_stack_sz ptr) ∧ Room img t.lib c ∧
        Clear img t.lib ptr (saveSize save_stack_sz) ∧ Apart ptr (saveSize save_stack_sz) c 72
  | .mz_resume c ptr =>
      t.lib.Contract L (.mz_resume c ptr) ∧
        (∀ co o owner_co sz, t.lib.cos c = some co → t.lib.owner co.share_stack = some o →
          t.lib.cos o = some owner_co →
          owner_co.save_stack.sz <
            (L.stack owner_co.share_stack).align_retptr - owner_co.reg_sp →
          SaveStack.double ((L.stack owner_co.share_stack).align_retptr - owner_co.reg_sp) 65
            owner_co.save_stack.sz = some sz →
          Clear img t.lib ptr sz) ∧
        img.main_stack + 8 ≤ (t.cpu.gpr .rsp).toNat ∧
        (t.cpu.gpr .rsp).toNat ≤ img.main_stack + img.main_stack_sz
  | .mz_yield => InStack (L := L) t
  | .mz_exit => InStack (L := L) t
  | .mz_destory c => t.lib.Contract L (.mz_destory c)

end Thread

/-- A thread as a machine over its events. -/
def threads [DecidableEq Stk] {L : Layout Stk} (img : Image L) :
    Machine (Thread Stk) (Event Stk) :=
  { step := Thread.step img }

/-! ## What a call of `mzswap` does -/

section Swap

variable {L : Layout Stk} (img : Image L)

theorem swap_spec {cpu : Amd64.Cpu} {mem : Memory} {from_co to_co : CoId}
    (hfrom : from_co + 72 ≤ 2 ^ 64) (hto : to_co + 72 ≤ 2 ^ 64) :
    (Thread.swap img cpu mem from_co to_co).mem =
        (Context.ofCpu cpu).store (mem.writeWord (cpu.gpr .rsp - 8).toNat cpu.rip) from_co ∧
      Context.ofCpu (Thread.swap img cpu mem from_co to_co).cpu =
        Context.ofReg
          ((Context.ofCpu cpu).store (mem.writeWord (cpu.gpr .rsp - 8).toNat cpu.rip) from_co)
          to_co := by
  let s : Amd64.State :=
    (Amd64.Instr.call img.mzswap).run
      { cpu := (cpu.set .rdi (BitVec.ofNat 64 from_co)).set .rsi (BitVec.ofNat 64 to_co)
        mem := mem }
  have hmem : s.mem = mem.writeWord (cpu.gpr .rsp - 8).toNat cpu.rip := by
    simp [s, Amd64.Instr.run]
  -- The pushed address is the one the caller goes on at.
  have hleft : Mzswap.left s = Context.ofCpu cpu := by
    have hrsp : s.cpu.gpr .rsp = cpu.gpr .rsp - 8 := by
      simp [s, Amd64.Instr.run]
    have hret : s.mem.readWord 64 (s.cpu.gpr .rsp).toNat = cpu.rip := by
      rw [hmem, hrsp, Memory.readWord_writeWord_same (by decide)]
    rw [Mzswap.left, hret, hrsp, BitVec.sub_add_cancel]
    simp [s, Amd64.Instr.run, Context.ofCpu]
  have hrdi : s.cpu.gpr .rdi = BitVec.ofNat 64 from_co := by
    simp [s, Amd64.Instr.run]
  have hrsi : s.cpu.gpr .rsi = BitVec.ofNat 64 to_co := by
    simp [s, Amd64.Instr.run]
  have hspec := Mzswap.mzswap_plain hrdi hrsi hfrom hto
  rw [hleft, hmem] at hspec
  exact hspec

end Swap

/-! ## Where the objects are -/

namespace Thread

variable [DecidableEq Stk] {L : Layout Stk} {img : Image L} {s t : State Stk} {c : CoId}

/-- The objects and the stack of the main coroutine are apart from each other, from the share
stacks and from the save buffers. -/
structure Placed (img : Image L) (s : State Stk) : Prop where
  main_co : s.cos img.main_co = none
  bound : ∀ c, Object img s c → c + 72 ≤ 2 ^ 64
  share_stacks : ∀ c, Object img s c → ∀ k, Apart c 72 (L.stack k).ptr (L.stack k).sz
  objects : ∀ c d, Object img s c → Object img s d → c ≠ d → Apart c 72 d 72
  main_stack : ∀ c, Object img s c → Apart c 72 img.main_stack img.main_stack_sz
  /-- no save buffer meets any of them -/
  buffers : ∀ d co, s.cos d = some co → Clear img s co.save_stack.ptr co.save_stack.sz

omit [DecidableEq Stk] in
theorem placed_init (mem : Memory) : Placed img (State.init.withMem mem) := by
  have hmain : ∀ c, Object img (State.init.withMem mem) c → c = img.main_co := by
    rintro c (rfl | ⟨co, hco⟩)
    · rfl
    · simp [State.withMem, State.init] at hco
  refine
    { main_co := rfl
      bound := ?_
      share_stacks := ?_
      objects := ?_
      main_stack := ?_
      buffers := ?_ }
  · intro c hc
    rw [hmain c hc]
    exact img.main_co_bound
  · intro c hc
    rw [hmain c hc]
    exact img.main_co_apart
  · intro c d hc hd hne
    exact absurd ((hmain c hc).trans (hmain d hd).symm) hne
  · intro c hc
    rw [hmain c hc]
    exact img.main_apart
  · intro d co hco
    simp [State.withMem, State.init] at hco

omit [DecidableEq Stk] in
theorem Placed.withMem (hs : Placed img s) (mem : Memory) : Placed img (s.withMem mem) :=
  { main_co := hs.main_co
    bound := hs.bound
    share_stacks := hs.share_stacks
    objects := hs.objects
    main_stack := hs.main_stack
    buffers := hs.buffers }

omit [DecidableEq Stk] in
/-- A step that makes no object and gives no buffer but a clear one. -/
theorem Placed.mono (hs : Placed img s)
    (h : ∀ d co', t.cos d = some co' → ∃ co, s.cos d = some co ∧
      ((co'.save_stack.ptr = co.save_stack.ptr ∧ co'.save_stack.sz = co.save_stack.sz) ∨
        Clear img s co'.save_stack.ptr co'.save_stack.sz)) : Placed img t := by
  have hobject : ∀ d, Object img t d → Object img s d := by
    rintro d (rfl | ⟨co', hco'⟩)
    · exact Or.inl rfl
    · obtain ⟨co, hco, _⟩ := h d co' hco'
      exact Or.inr ⟨co, hco⟩
  refine
    { main_co := ?_
      bound := fun c hc => hs.bound c (hobject c hc)
      share_stacks := fun c hc => hs.share_stacks c (hobject c hc)
      objects := fun c d hc hd => hs.objects c d (hobject c hc) (hobject d hd)
      main_stack := fun c hc => hs.main_stack c (hobject c hc)
      buffers := ?_ }
  · by_contra hne
    obtain ⟨co', hco'⟩ := Option.ne_none_iff_exists'.1 hne
    obtain ⟨co, hco, _⟩ := h _ co' hco'
    rw [hs.main_co] at hco
    cases hco
  · intro d co' hco'
    obtain ⟨co, hco, ⟨hptr, hsz⟩ | hclear⟩ := h d co' hco'
    · rw [hptr, hsz]
      exact ⟨(hs.buffers d co hco).1, fun c hc => (hs.buffers d co hco).2 c (hobject c hc)⟩
    · exact ⟨hclear.1, fun c hc => hclear.2 c (hobject c hc)⟩

/-- A block does not meet itself. -/
theorem ne_of_apart {a b : Nat} (h : Apart a 72 b 72) : a ≠ b := by
  unfold Apart at h
  omega

omit [DecidableEq Stk] in
theorem placed_create {k : Stk} {save_stack_sz ptr : Nat} (hs : Placed img s)
    (hroom : Room img s c) (hclear : Clear img s ptr (saveSize save_stack_sz))
    (hapart : Apart ptr (saveSize save_stack_sz) c 72) :
    Placed img (s.mz_create L c k save_stack_sz ptr) := by
  obtain ⟨hbound, ⟨hmain, hobjects⟩, hstacks, hbuffers⟩ := hroom
  have hold : ∀ d, Object img (s.mz_create L c k save_stack_sz ptr) d →
      d = c ∨ Object img s d := by
    rintro d (rfl | ⟨co, hco⟩)
    · exact Or.inr (Or.inl rfl)
    · by_cases hdc : d = c
      · exact Or.inl hdc
      · exact Or.inr (Or.inr ⟨co, by simpa [State.mz_create, hdc] using hco⟩)
  refine
    { main_co := ?_
      bound := ?_
      share_stacks := ?_
      objects := ?_
      main_stack := ?_
      buffers := ?_ }
  · have hne : img.main_co ≠ c := (ne_of_apart (hobjects img.main_co (Or.inl rfl))).symm
    simpa [State.mz_create, hne] using hs.main_co
  · intro d hd
    rcases hold d hd with rfl | hd
    · exact hbound
    · exact hs.bound d hd
  · intro d hd
    rcases hold d hd with rfl | hd
    · exact hstacks
    · exact hs.share_stacks d hd
  · intro d e hd he hne
    rcases hold d hd with rfl | hd'
    · rcases hold e he with rfl | he'
      · exact absurd rfl hne
      · exact hobjects e he'
    · rcases hold e he with rfl | he'
      · exact (hobjects d hd').symm
      · exact hs.objects d e hd' he' hne
  · intro d hd
    rcases hold d hd with rfl | hd
    · exact hmain
    · exact hs.main_stack d hd
  · intro d co hco
    by_cases hdc : d = c
    · subst hdc
      have hblock : co.save_stack.ptr = ptr ∧ co.save_stack.sz = saveSize save_stack_sz := by
        simp only [State.mz_create, Function.update_self, Option.some.injEq] at hco
        subst hco
        exact ⟨rfl, rfl⟩
      rw [hblock.1, hblock.2]
      refine ⟨hclear.1, fun e he => ?_⟩
      rcases hold e he with rfl | he
      · exact hapart
      · exact hclear.2 e he
    · have hco' : s.cos d = some co := by simpa [State.mz_create, hdc] using hco
      refine ⟨(hs.buffers d co hco').1, fun e he => ?_⟩
      rcases hold e he with rfl | he
      · exact (hbuffers d co hco').symm
      · exact (hs.buffers d co hco').2 e he

/-! ## What the library does to buffers and memory -/

/-- The buffers after the owner has been saved: one may be the block of the allocator. -/
theorem saveOwner_blocks {k : Stk} {ptr : Nat} (h : s.saveOwner L k ptr = some t) (d : CoId)
    (co' : Co Stk) (hd : t.cos d = some co') : ∃ co, s.cos d = some co ∧
      ((co'.save_stack.ptr = co.save_stack.ptr ∧ co'.save_stack.sz = co.save_stack.sz) ∨
        (s.owner k = some d ∧ co'.save_stack.ptr = ptr ∧
          co.save_stack.sz < (L.stack co.share_stack).align_retptr - co.reg_sp ∧
          SaveStack.double ((L.stack co.share_stack).align_retptr - co.reg_sp) 65
            co.save_stack.sz = some co'.save_stack.sz)) := by
  unfold State.saveOwner at h
  cases howner : s.owner k with
  | none =>
      simp only [howner] at h
      cases h
      exact ⟨co', hd, Or.inl ⟨rfl, rfl⟩⟩
  | some o =>
      cases hco : s.cos o with
      | none =>
          simp [howner, hco] at h
      | some co =>
          simp only [howner, hco] at h
          split_ifs at h with hrange
          rcases Option.map_eq_some_iff.1 h with ⟨save, hgrow, rfl⟩
          obtain ⟨_, _, hblock⟩ := State.grow_spec hgrow
          by_cases hne : d = o
          · subst hne
            have heq : co' = { co with save_stack := save.noteSave } := by simpa using hd.symm
            subst heq
            refine ⟨co, hco, ?_⟩
            rcases hblock with ⟨hptr, hsz⟩ | ⟨hsmall, hptr, hdouble⟩
            · exact Or.inl ⟨by simpa using hptr, by simpa using hsz⟩
            · exact Or.inr ⟨rfl, by simpa using hptr, hsmall, by simpa using hdouble⟩
          · exact ⟨co', by simpa [hne] using hd, Or.inl ⟨rfl, rfl⟩⟩

theorem restore_blocks (h : s.restore L c = some t) (d : CoId) (co' : Co Stk)
    (hd : t.cos d = some co') : ∃ co, s.cos d = some co ∧
      co'.save_stack.ptr = co.save_stack.ptr ∧ co'.save_stack.sz = co.save_stack.sz := by
  unfold State.restore at h
  cases hc : s.cos c with
  | none =>
      simp [hc] at h
  | some co =>
      simp only [hc, Option.ite_none_right_eq_some] at h
      obtain ⟨_, heq⟩ := h
      cases heq
      by_cases hne : d = c
      · subst hne
        have heq : co' = { co with save_stack := co.save_stack.noteRestore } := by
          simpa using hd.symm
        subst heq
        exact ⟨co, hc, by simp, by simp⟩
      · exact ⟨co', by simpa [hne] using hd, rfl, rfl⟩

/-- The resume with its allocator keeps everything in its place. -/
theorem placed_resume {ptr : Nat} (hs : Placed img s)
    (hclear : ∀ co o owner_co sz, s.cos c = some co → s.owner co.share_stack = some o →
      s.cos o = some owner_co →
      owner_co.save_stack.sz < (L.stack owner_co.share_stack).align_retptr - owner_co.reg_sp →
      SaveStack.double ((L.stack owner_co.share_stack).align_retptr - owner_co.reg_sp) 65
        owner_co.save_stack.sz = some sz →
      Clear img s ptr sz)
    (h : s.mz_resume L c ptr = some t) : Placed img t := by
  refine hs.mono ?_
  obtain ⟨co, hc, _, ⟨_, rfl⟩ | ⟨_, s₁, s₂, hsave, hrestore, rfl⟩⟩ := State.resume_spec h
  · exact fun d co' hd => ⟨co', hd, Or.inl ⟨rfl, rfl⟩⟩
  · intro d co₂ hd
    obtain ⟨co₁, hd₁, hptr₁, hsz₁⟩ := restore_blocks hrestore d co₂ hd
    obtain ⟨co₀, hd₀, ⟨hptr, hsz⟩ | ⟨howner, hptr, hsmall, hdouble⟩⟩ :=
      saveOwner_blocks hsave d co₁ hd₁
    · exact ⟨co₀, hd₀, Or.inl ⟨hptr₁.trans hptr, hsz₁.trans hsz⟩⟩
    · refine ⟨co₀, hd₀, Or.inr ?_⟩
      rw [hptr₁, hptr, hsz₁]
      exact hclear co d co₀ co₁.save_stack.sz hc howner hd₀ hsmall hdouble

/-- The copies of a resume stay on the share stacks and in the save buffers. -/
theorem resume_memory {ptr x : Nat} (hs : State.Wf L s) (hmain : s.gtls_co = none)
    (hcontract : s.Contract L (.mz_resume c ptr)) (h : s.mz_resume L c ptr = some t)
    (hstack : ∀ k, x < (L.stack k).lowptr ∨ (L.stack k).align_retptr ≤ x)
    (hbuffer : ∀ d co, t.cos d = some co →
      x < co.save_stack.ptr ∨ co.save_stack.ptr + co.save_stack.sz ≤ x) :
    t.mem x = s.mem x := by
  obtain ⟨co, hc, hlive, ⟨_, rfl⟩ | ⟨hown, s₁, s₂, hsave, hrestore, rfl⟩⟩ := State.resume_spec h
  · rfl
  · obtain ⟨hs₁, hrestored, _⟩ :=
      State.take_stack hs hmain hcontract hc hlive hown hsave hrestore
    -- The restore writes the live region of the stack.
    have hsp := hs₁.sp_range c co hrestored.cos_eq hlive
    have hvalid := hs₁.saved c co hrestored.cos_eq hlive (by simp [hrestored.owner_none])
    have hrestore_mem : s₂.mem x = s₁.mem x := by
      rw [hrestored.mem_store]
      refine Memory.store_outside ?_
      rw [Memory.length_load]
      have := hstack co.share_stack
      omega
    -- The save writes the buffer of the owner.
    have hsave_mem : s₁.mem x = s.mem x := by
      rcases State.saveOwner_spec hs (fun o oco sz => hcontract co o oco sz hc) hsave with
        ⟨_, rfl⟩ | ⟨o, oco, save, hsaved⟩
      · rfl
      · have hne : o ≠ c := by
          rintro rfl
          exact hown hsaved.owner_eq
        have ho : s₂.cos o = some { oco with save_stack := save.noteSave } := by
          rw [hrestored.cos_update, hsaved.cos_update]
          simp [hne]
        rw [hsaved.mem_store]
        refine Memory.store_outside ?_
        rw [Memory.length_load]
        have hroom := hsaved.room
        have hblock := hbuffer o _ ho
        simp only [SaveStack.noteSave_ptr, SaveStack.noteSave_sz] at hblock
        omega
    exact hrestore_mem.trans hsave_mem

end Thread

end Coroutine
end Mozi
