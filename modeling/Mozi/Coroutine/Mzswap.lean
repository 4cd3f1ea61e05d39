import Mozi.Foundation.Amd64

/-!
# Mzswap — the context switch

`core/coroutine/detail/mzswap.S` for x86-64.  `mzswap(from_co, to_co)` saves what the System V
calling convention keeps for a caller in `from_co->reg`, loads `to_co->reg` and jumps to its return
address.

The control words are left out under a macro.  The saving side tests
`ACO_CONFIG_SHARE_FPU_MXCSR_ENV`, the loading side and the size of `reg` in `mzco.h` test
`MZ_CONFIG_SHARE_FPU_MXCSR_ENV`.
-/

namespace Mozi
namespace Coroutine

open Foundation Foundation.Amd64

/-! ## The code -/

/-- The macros, `true` when defined. -/
structure Config where
  aco_share_fpu_mxcsr_env : Bool
  mz_share_fpu_mxcsr_env : Bool
  deriving DecidableEq, Repr

/-- Neither macro is defined. -/
def Config.plain : Config :=
  ⟨false, false⟩

/-- The entries of `reg` in `mz_s`. -/
def Config.reg (cfg : Config) : Nat :=
  if cfg.mz_share_fpu_mxcsr_env then 8 else 9

namespace Mzswap

def saveBlock : List Instr :=
  [.load .rdx .rsp 0,
   .lea .rcx .rsp 0x8,
   .store .rdi 0x0 .r12,
   .store .rdi 0x8 .r13,
   .store .rdi 0x10 .r14,
   .store .rdi 0x18 .r15,
   .store .rdi 0x20 .rdx,
   .store .rdi 0x28 .rcx,
   .store .rdi 0x30 .rbx,
   .store .rdi 0x38 .rbp]

def saveControl (cfg : Config) : List Instr :=
  if cfg.aco_share_fpu_mxcsr_env then [] else [.fnstcw .rdi 0x40, .stmxcsr .rdi 0x44]

def loadBlock : List Instr :=
  [.load .r12 .rsi 0x0,
   .load .r13 .rsi 0x8,
   .load .r14 .rsi 0x10,
   .load .r15 .rsi 0x18,
   .load .rax .rsi 0x20,
   .load .rcx .rsi 0x28,
   .load .rbx .rsi 0x30,
   .load .rbp .rsi 0x38]

def loadControl (cfg : Config) : List Instr :=
  if cfg.mz_share_fpu_mxcsr_env then [] else [.fldcw .rsi 0x40, .ldmxcsr .rsi 0x44]

end Mzswap

open Mzswap in
def mzswap (cfg : Config) : List Instr :=
  saveBlock ++ (saveControl cfg ++ (loadBlock ++ (loadControl cfg ++
    [.mov .rsp .rcx, .jmp .rax])))

def mz_save_fpucw_mxcsr : List Instr :=
  [.fnstcw .rdi 0, .stmxcsr .rdi 0x4, .ret]

/-- Where a body that returns comes to; `abort` is called if `mz_funcp_protector` returns. -/
def mz_funcp_protector_asm (mz_funcp_protector : BitVec 64) : List Instr :=
  [.and .rsp 0xfffffffffffffff0, .call mz_funcp_protector]

/-! ## Contexts -/

/-- What a call keeps for its caller, with the address it returns to. -/
structure Context where
  r12 : BitVec 64
  r13 : BitVec 64
  r14 : BitVec 64
  r15 : BitVec 64
  retaddr : BitVec 64
  rsp : BitVec 64
  rbx : BitVec 64
  rbp : BitVec 64
  fpucw : BitVec 16
  mxcsr : BitVec 32
  deriving DecidableEq

namespace Context

/-- The context of code that goes on at `rip`. -/
def ofCpu (cpu : Cpu) : Context :=
  { r12 := cpu.gpr .r12
    r13 := cpu.gpr .r13
    r14 := cpu.gpr .r14
    r15 := cpu.gpr .r15
    retaddr := cpu.rip
    rsp := cpu.gpr .rsp
    rbx := cpu.gpr .rbx
    rbp := cpu.gpr .rbp
    fpucw := cpu.fpucw
    mxcsr := cpu.mxcsr }

/-- The context in the `reg` array of the object at `co`. -/
def ofReg (mem : Memory) (co : Nat) : Context :=
  { r12 := mem.readWord 64 co
    r13 := mem.readWord 64 (co + 0x8)
    r14 := mem.readWord 64 (co + 0x10)
    r15 := mem.readWord 64 (co + 0x18)
    retaddr := mem.readWord 64 (co + 0x20)
    rsp := mem.readWord 64 (co + 0x28)
    rbx := mem.readWord 64 (co + 0x30)
    rbp := mem.readWord 64 (co + 0x38)
    fpucw := mem.readWord 16 (co + 0x40)
    mxcsr := mem.readWord 32 (co + 0x44) }

/-- The eight words of a context, written to the object at `co`. -/
def storeWords (ctx : Context) (mem : Memory) (co : Nat) : Memory :=
  (((((((mem.writeWord co ctx.r12).writeWord (co + 0x8) ctx.r13).writeWord (co + 0x10)
    ctx.r14).writeWord (co + 0x18) ctx.r15).writeWord (co + 0x20) ctx.retaddr).writeWord
    (co + 0x28) ctx.rsp).writeWord (co + 0x30) ctx.rbx).writeWord (co + 0x38) ctx.rbp

/-- The control words of a context, written to the object at `co`. -/
def storeControl (ctx : Context) (mem : Memory) (co : Nat) : Memory :=
  (mem.writeWord (co + 0x40) ctx.fpucw).writeWord (co + 0x44) ctx.mxcsr

def store (ctx : Context) (mem : Memory) (co : Nat) : Memory :=
  ctx.storeControl (ctx.storeWords mem co) co

variable {ctx : Context} {mem mem' : Memory} {co x : Nat}

theorem storeWords_outside (h : x < co ∨ co + 0x40 ≤ x) : ctx.storeWords mem co x = mem x := by
  unfold storeWords
  simp (disch := omega) only [Memory.writeWord_outside]

theorem storeControl_outside (h : x < co + 0x40 ∨ co + 0x48 ≤ x) :
    ctx.storeControl mem co x = mem x := by
  unfold storeControl
  simp (disch := omega) only [Memory.writeWord_outside]

theorem store_outside (h : x < co ∨ co + 72 ≤ x) : ctx.store mem co x = mem x := by
  rw [store, storeControl_outside (by omega), storeWords_outside (by omega)]

/-- The array is 72 bytes long. -/
theorem ofReg_congr (h : ∀ x, co ≤ x → x < co + 72 → mem x = mem' x) :
    ofReg mem co = ofReg mem' co := by
  have hword : ∀ w d, d + w / 8 ≤ 72 → mem.readWord w (co + d) = mem'.readWord w (co + d) :=
    fun w d hd => Memory.readWord_congr (Memory.load_congr fun i hi => h _ (by omega) (by omega))
  have hfirst := hword 64 0 (by decide)
  unfold ofReg
  simp only [Nat.add_zero] at hfirst ⊢
  simp (disch := decide) only [hfirst, hword]

theorem ofReg_store (ctx : Context) (mem : Memory) (co : Nat) :
    ofReg (ctx.store mem co) co = ctx := by
  unfold ofReg store storeControl storeWords
  simp (disch := omega) only [Memory.readWord_writeWord_same, Memory.readWord_writeWord_apart]

end Context

/-! ## What the code does -/

namespace Mzswap

variable {s : State} {from_co to_co : Nat} {cfg : Config}

/-- An operand in the object a register points to. -/
theorem ea_eq {cpu : Cpu} {r : Reg} {co : Nat} (hr : cpu.gpr r = BitVec.ofNat 64 co)
    (hco : co + 72 ≤ 2 ^ 64) {d : Nat} (hd : d < 72) : cpu.ea r (BitVec.ofNat 64 d) = co + d := by
  rw [Cpu.ea, hr, BitVec.toNat_add, BitVec.toNat_ofNat, BitVec.toNat_ofNat]
  omega

/-- The context the caller of `mzswap` leaves: its return address is on top of its stack. -/
def left (s : State) : Context :=
  { Context.ofCpu s.cpu with
    retaddr := s.mem.readWord 64 (s.cpu.gpr .rsp).toNat
    rsp := s.cpu.gpr .rsp + 8 }

theorem exec_saveBlock (hrdi : s.cpu.gpr .rdi = BitVec.ofNat 64 from_co)
    (hfrom : from_co + 72 ≤ 2 ^ 64) :
    exec saveBlock s =
      { cpu := (s.cpu.set .rdx (left s).retaddr).set .rcx (left s).rsp
        mem := (left s).storeWords s.mem from_co } := by
  have hea := fun d hd => ea_eq hrdi hfrom (d := d) hd
  simp (disch := decide) [saveBlock, exec, Instr.run, Instr.transfers, left, Context.ofCpu,
    Context.storeWords, hea, Cpu.ea_zero s.cpu .rsp]

theorem exec_saveControl (hrdi : s.cpu.gpr .rdi = BitVec.ofNat 64 from_co)
    (hfrom : from_co + 72 ≤ 2 ^ 64) {ctx : Context} (hfpucw : ctx.fpucw = s.cpu.fpucw)
    (hmxcsr : ctx.mxcsr = s.cpu.mxcsr) :
    exec (saveControl cfg) s =
      { s with mem :=
          if cfg.aco_share_fpu_mxcsr_env then s.mem else ctx.storeControl s.mem from_co } := by
  have hea := fun d hd => ea_eq hrdi hfrom (d := d) hd
  unfold saveControl
  split
  · rfl
  · simp (disch := decide) [exec, Instr.run, Instr.transfers, Context.storeControl, hea, hfpucw,
      hmxcsr]

/-- `to_co->reg` in the registers, its stack pointer and return address still in scratch ones. -/
theorem exec_loadBlock (hrsi : s.cpu.gpr .rsi = BitVec.ofNat 64 to_co)
    (hto : to_co + 72 ≤ 2 ^ 64) :
    exec loadBlock s =
      let new := Context.ofReg s.mem to_co
      { s with cpu :=
          (((((((s.cpu.set .r12 new.r12).set .r13 new.r13).set .r14 new.r14).set .r15
            new.r15).set .rax new.retaddr).set .rcx new.rsp).set .rbx new.rbx).set .rbp new.rbp } := by
  have hea := fun d hd => ea_eq hrsi hto (d := d) hd
  simp (disch := decide) [loadBlock, exec, Instr.run, Instr.transfers, Context.ofReg, hea]

theorem exec_loadControl (hrsi : s.cpu.gpr .rsi = BitVec.ofNat 64 to_co)
    (hto : to_co + 72 ≤ 2 ^ 64) :
    exec (loadControl cfg) s =
      if cfg.mz_share_fpu_mxcsr_env then s
      else
        { s with cpu :=
            { s.cpu with
              fpucw := (Context.ofReg s.mem to_co).fpucw
              mxcsr := (Context.ofReg s.mem to_co).mxcsr } } := by
  have hea := fun d hd => ea_eq hrsi hto (d := d) hd
  unfold loadControl
  split
  · rfl
  · simp (disch := decide) [exec, Instr.run, Instr.transfers, Context.ofReg, hea]

theorem transfers_blocks (cfg : Config) :
    (∀ i ∈ saveBlock, i.transfers = false) ∧ (∀ i ∈ saveControl cfg, i.transfers = false) ∧
      (∀ i ∈ loadBlock, i.transfers = false) ∧ ∀ i ∈ loadControl cfg, i.transfers = false := by
  rcases cfg with ⟨_ | _, _ | _⟩ <;> decide

/-- The memory after the saves. -/
def savedMem (cfg : Config) (s : State) (from_co : Nat) : Memory :=
  if cfg.aco_share_fpu_mxcsr_env then (left s).storeWords s.mem from_co
  else (left s).store s.mem from_co

/-- The context that is loaded. -/
def entered (cfg : Config) (s : State) (mem : Memory) (to_co : Nat) : Context :=
  if cfg.mz_share_fpu_mxcsr_env then
    { Context.ofReg mem to_co with fpucw := s.cpu.fpucw, mxcsr := s.cpu.mxcsr }
  else
    Context.ofReg mem to_co

/-- `mzswap` writes the context it leaves to one object and goes on with the context of the
other. -/
theorem mzswap_spec (hrdi : s.cpu.gpr .rdi = BitVec.ofNat 64 from_co)
    (hrsi : s.cpu.gpr .rsi = BitVec.ofNat 64 to_co) (hfrom : from_co + 72 ≤ 2 ^ 64)
    (hto : to_co + 72 ≤ 2 ^ 64) :
    (exec (mzswap cfg) s).mem = savedMem cfg s from_co ∧
      Context.ofCpu (exec (mzswap cfg) s).cpu =
        entered cfg s (savedMem cfg s from_co) to_co := by
  obtain ⟨hsave, hsavec, hload, hloadc⟩ := transfers_blocks cfg
  let s₁ : State :=
    { cpu := (s.cpu.set .rdx (left s).retaddr).set .rcx (left s).rsp
      mem := (left s).storeWords s.mem from_co }
  let s₂ : State := { s₁ with mem := savedMem cfg s from_co }
  let new := Context.ofReg s₂.mem to_co
  let s₃ : State :=
    { s₂ with cpu :=
        (((((((s₁.cpu.set .r12 new.r12).set .r13 new.r13).set .r14 new.r14).set .r15
          new.r15).set .rax new.retaddr).set .rcx new.rsp).set .rbx new.rbx).set .rbp new.rbp }
  have h₁ : exec saveBlock s = s₁ := exec_saveBlock hrdi hfrom
  have h₂ : exec (saveControl cfg) s₁ = s₂ := by
    have hfpucw : (left s).fpucw = s₁.cpu.fpucw := rfl
    rw [exec_saveControl (by simpa [s₁] using hrdi) hfrom hfpucw rfl]
    simp only [s₂, s₁, savedMem, Context.store]
  have h₃ : exec loadBlock s₂ = s₃ := exec_loadBlock (by simpa [s₂, s₁] using hrsi) hto
  have hrsi₃ : s₃.cpu.gpr .rsi = BitVec.ofNat 64 to_co := by simpa [s₃, s₂, s₁] using hrsi
  rw [mzswap, exec_append hsave, exec_append hsavec, exec_append hload, exec_append hloadc, h₁, h₂,
    h₃, exec_loadControl hrsi₃ hto]
  unfold entered
  split <;> simp [exec, Instr.run, Instr.transfers, Context.ofCpu, s₃, s₂, s₁, new]

theorem mzswap_plain (hrdi : s.cpu.gpr .rdi = BitVec.ofNat 64 from_co)
    (hrsi : s.cpu.gpr .rsi = BitVec.ofNat 64 to_co) (hfrom : from_co + 72 ≤ 2 ^ 64)
    (hto : to_co + 72 ≤ 2 ^ 64) :
    (exec (mzswap .plain) s).mem = (left s).store s.mem from_co ∧
      Context.ofCpu (exec (mzswap .plain) s).cpu =
        Context.ofReg ((left s).store s.mem from_co) to_co :=
  mzswap_spec hrdi hrsi hfrom hto

/-! ## The macros -/

/-- The arguments of a call. -/
structure Called (s : State) (from_co to_co : Nat) : Prop where
  rdi : s.cpu.gpr .rdi = BitVec.ofNat 64 from_co
  rsi : s.cpu.gpr .rsi = BitVec.ofNat 64 to_co
  from_bound : from_co + 72 ≤ 2 ^ 64
  to_bound : to_co + 72 ≤ 2 ^ 64

/-- Every call leaves the memory outside `from_co->reg` alone. -/
def WithinReg (cfg : Config) : Prop :=
  ∀ s from_co to_co, Called s from_co to_co →
    ∀ x, x < from_co ∨ from_co + 8 * cfg.reg ≤ x → (exec (mzswap cfg) s).mem x = s.mem x

/-- The control words where they are saved, also when the array ends before them. -/
theorem saved_control (h : Called s from_co to_co) (haco : cfg.aco_share_fpu_mxcsr_env = false) :
    (exec (mzswap cfg) s).mem.readWord 16 (from_co + 0x40) = s.cpu.fpucw ∧
      (exec (mzswap cfg) s).mem.readWord 32 (from_co + 0x44) = s.cpu.mxcsr := by
  have hmem : (exec (mzswap cfg) s).mem = (left s).store s.mem from_co := by
    rw [(mzswap_spec h.rdi h.rsi h.from_bound h.to_bound).1, savedMem, haco]
    rfl
  have hreg := Context.ofReg_store (left s) s.mem from_co
  rw [hmem]
  exact ⟨congrArg Context.fpucw hreg, congrArg Context.mxcsr hreg⟩

/-- A call with both objects at address 0 and the control word of a fresh process. -/
def zeroCall : State :=
  { cpu := { gpr := fun _ => 0, fpucw := 0x37f, mxcsr := 0x1f80, rip := 0 }
    mem := fun _ => 0 }

theorem called_zeroCall : Called zeroCall 0 0 :=
  { rdi := rfl
    rsi := rfl
    from_bound := by decide
    to_bound := by decide }

/-- `reg` has room for what a switch saves in every configuration but the one where only
`MZ_CONFIG_SHARE_FPU_MXCSR_ENV` is defined; there every switch puts the control words over the
field behind the array, `main_co`. -/
theorem within_reg_iff (cfg : Config) :
    (WithinReg cfg ↔
        ¬ (cfg.mz_share_fpu_mxcsr_env = true ∧ cfg.aco_share_fpu_mxcsr_env = false)) ∧
      (cfg.mz_share_fpu_mxcsr_env = true → cfg.aco_share_fpu_mxcsr_env = false →
        ∀ s from_co to_co, Called s from_co to_co →
          (exec (mzswap cfg) s).mem.readWord 16 (from_co + 8 * cfg.reg) = s.cpu.fpucw ∧
            (exec (mzswap cfg) s).mem.readWord 32 (from_co + 8 * cfg.reg + 4) = s.cpu.mxcsr) := by
  have hover : cfg.mz_share_fpu_mxcsr_env = true → cfg.aco_share_fpu_mxcsr_env = false →
      ∀ s from_co to_co, Called s from_co to_co →
        (exec (mzswap cfg) s).mem.readWord 16 (from_co + 8 * cfg.reg) = s.cpu.fpucw ∧
          (exec (mzswap cfg) s).mem.readWord 32 (from_co + 8 * cfg.reg + 4) = s.cpu.mxcsr := by
    intro hmz haco s from_co to_co h
    have hreg : 8 * cfg.reg = 0x40 := by rw [Config.reg, if_pos hmz]
    rw [hreg]
    exact saved_control h haco
  refine ⟨⟨?_, ?_⟩, hover⟩
  · rintro hwithin ⟨hmz, haco⟩
    -- The control word of the call is not 0, the memory it is written to was.
    have hsaved := (hover hmz haco zeroCall 0 0 called_zeroCall).1
    have hkept : (exec (mzswap cfg) zeroCall).mem.readWord 16 (0 + 8 * cfg.reg) =
        zeroCall.mem.readWord 16 (0 + 8 * cfg.reg) :=
      Memory.readWord_congr (Memory.load_congr fun i _ =>
        hwithin zeroCall 0 0 called_zeroCall _ (Or.inr (Nat.le_add_right _ i)))
    have hzero : zeroCall.mem.readWord 16 (0 + 8 * cfg.reg) = 0 := by
      change BitVec.ofNat 16 (leValue (Memory.load (fun _ => 0) _ (16 / 8))) = 0
      rw [Memory.load_zeros, leValue_zeros, BitVec.ofNat_eq_ofNat]
    rw [hkept, hzero] at hsaved
    exact absurd hsaved (by decide)
  · intro hcfg s from_co to_co h x hx
    rw [(mzswap_spec h.rdi h.rsi h.from_bound h.to_bound).1, savedMem]
    rw [Config.reg] at hx
    split_ifs with haco
    · exact Context.storeWords_outside (by split_ifs at hx <;> omega)
    · have hmz : cfg.mz_share_fpu_mxcsr_env = false := by
        by_contra hmz
        exact hcfg ⟨by simpa using hmz, by simpa using haco⟩
      rw [hmz] at hx
      exact Context.store_outside hx

end Mzswap

end Coroutine
end Mozi
