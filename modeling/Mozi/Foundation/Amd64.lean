import Mozi.Foundation.ByteMemory

/-!
# Amd64 — straight-line code of the processor

A fragment of x86-64 that is large enough for code that saves and loads registers: moves between
registers and memory, the control words of the x87 unit and of SSE, and the transfers of control
that such code ends with.  Words lie in memory with the lowest byte first.

The module provides

* `Memory.readWord` and `Memory.writeWord`, and what a write keeps of other words;
* `Instr`, its meaning `Instr.run`, and `exec` for a block of instructions.
-/

namespace Mozi
namespace Foundation

/-! ## Words in memory -/

/-- The number that bytes spell, the lowest byte first. -/
def leValue : List UInt8 → Nat
  | [] => 0
  | b :: bs => b.toNat + 256 * leValue bs

/-- The `n` lowest bytes of a number. -/
def leBytes : Nat → Nat → List UInt8
  | 0, _ => []
  | n + 1, v => UInt8.ofNat v :: leBytes n (v / 256)

@[simp] theorem length_leBytes (n v : Nat) : (leBytes n v).length = n := by
  induction n generalizing v with
  | zero => rfl
  | succ n ih => simp [leBytes, ih]

theorem leValue_leBytes (n v : Nat) : leValue (leBytes n v) = v % 256 ^ n := by
  induction n generalizing v with
  | zero => simp [leBytes, leValue, Nat.mod_one]
  | succ n ih =>
      have hsplit : v % 256 ^ (n + 1) = v % 256 + 256 * (v / 256 % 256 ^ n) := by
        rw [Nat.pow_succ, Nat.mul_comm, Nat.mod_mul]
      simp only [leBytes, leValue, ih, hsplit, UInt8.toNat_ofNat']

theorem leValue_zeros (n : Nat) : leValue (List.replicate n 0) = 0 := by
  induction n with
  | zero => rfl
  | succ n ih => simp [List.replicate_succ, leValue, ih]

namespace Memory

variable {mem mem' : Memory} {addr b w w' : Nat}

/-- The word of `w` bits at an address. -/
def readWord (mem : Memory) (w addr : Nat) : BitVec w :=
  BitVec.ofNat w (leValue (mem.load addr (w / 8)))

def writeWord (mem : Memory) (addr : Nat) (v : BitVec w) : Memory :=
  mem.store addr (leBytes (w / 8) v.toNat)

theorem readWord_congr (h : mem.load addr (w / 8) = mem'.load addr (w / 8)) :
    mem.readWord w addr = mem'.readWord w addr := by
  rw [readWord, readWord, h]

theorem load_writeWord_same (mem : Memory) (addr : Nat) (v : BitVec w) :
    (mem.writeWord addr v).load addr (w / 8) = leBytes (w / 8) v.toNat := by
  have h := mem.load_store_same addr (leBytes (w / 8) v.toNat)
  rwa [length_leBytes] at h

theorem readWord_writeWord_same (hw : 8 ∣ w) (mem : Memory) (addr : Nat) (v : BitVec w) :
    (mem.writeWord addr v).readWord w addr = v := by
  obtain ⟨k, rfl⟩ := hw
  have hpow : 256 ^ (8 * k / 8) = 2 ^ (8 * k) := by
    rw [Nat.mul_div_cancel_left k (by decide), Nat.pow_mul]
  rw [readWord, load_writeWord_same, leValue_leBytes, hpow]
  simp

theorem load_writeWord_apart {n : Nat} {v : BitVec w} (h : Apart b n addr (w / 8)) :
    (mem.writeWord addr v).load b n = mem.load b n :=
  load_store_apart (by rwa [length_leBytes])

theorem readWord_writeWord_apart {v : BitVec w'}
    (h : b + w / 8 ≤ addr ∨ addr + w' / 8 ≤ b) :
    (mem.writeWord addr v).readWord w b = mem.readWord w b :=
  readWord_congr (load_writeWord_apart h)

theorem writeWord_outside {v : BitVec w} {x : Nat} (h : x < addr ∨ addr + w / 8 ≤ x) :
    mem.writeWord addr v x = mem x :=
  store_outside (by rwa [length_leBytes])

/-- A word in a range that has been cleared. -/
theorem readWord_store_zeros {a n : Nat} (hle : a ≤ addr) (hend : addr + w / 8 ≤ a + n) :
    (mem.store a (List.replicate n 0)).readWord w addr = 0 := by
  have hzero : (mem.store a (List.replicate n 0)).load addr (w / 8) =
      load (fun _ => 0) addr (w / 8) := by
    refine load_congr fun i hi => ?_
    have hin : addr + i - a < (List.replicate n (0 : UInt8)).length := by
      rw [List.length_replicate]
      omega
    have hat : mem.store a (List.replicate n 0) (a + (addr + i - a)) = _ := store_inside hin
    rw [show a + (addr + i - a) = addr + i by omega] at hat
    rw [hat, List.getElem_replicate]
  rw [readWord, hzero, load_zeros, leValue_zeros, BitVec.ofNat_eq_ofNat]

/-- A change inside a range is a store to the range. -/
theorem store_load_of_outside {n : Nat} (h : ∀ x, x < addr ∨ addr + n ≤ x → mem' x = mem x) :
    mem.store addr (mem'.load addr n) = mem' := by
  funext x
  by_cases hin : addr ≤ x ∧ x < addr + n
  · have hlen : x - addr < (mem'.load addr n).length := by
      rw [length_load]
      omega
    have hat : mem.store addr (mem'.load addr n) (addr + (x - addr)) = _ := store_inside hlen
    rw [show addr + (x - addr) = x by omega] at hat
    rw [hat]
    simp only [load, List.getElem_map, List.getElem_range]
    rw [show addr + (x - addr) = x by omega]
  · rw [store_outside (by rw [length_load]; omega), h x (by omega)]

end Memory

namespace Amd64

/-! ## The machine -/

inductive Reg
  | rax | rbx | rcx | rdx | rsi | rdi | rbp | rsp
  | r8 | r9 | r10 | r11 | r12 | r13 | r14 | r15
  deriving DecidableEq, Repr

structure Cpu where
  gpr : Reg → BitVec 64
  /-- the control word of the x87 unit -/
  fpucw : BitVec 16
  mxcsr : BitVec 32
  /-- While a block runs, the address behind the instruction it leaves with. -/
  rip : BitVec 64

structure State where
  cpu : Cpu
  mem : Memory

/-- Memory operands are `[base + disp]`. -/
inductive Instr
  | mov (dst src : Reg)
  | load (dst base : Reg) (disp : BitVec 64)
  | store (base : Reg) (disp : BitVec 64) (src : Reg)
  | lea (dst base : Reg) (disp : BitVec 64)
  | and (dst : Reg) (mask : BitVec 64)
  | fnstcw (base : Reg) (disp : BitVec 64)
  | stmxcsr (base : Reg) (disp : BitVec 64)
  | fldcw (base : Reg) (disp : BitVec 64)
  | ldmxcsr (base : Reg) (disp : BitVec 64)
  | jmp (target : Reg)
  | call (target : BitVec 64)
  | ret

namespace Cpu

def set (cpu : Cpu) (r : Reg) (v : BitVec 64) : Cpu :=
  { cpu with gpr := fun q => if q = r then v else cpu.gpr q }

/-- The address of a memory operand. -/
def ea (cpu : Cpu) (base : Reg) (disp : BitVec 64) : Nat :=
  (cpu.gpr base + disp).toNat

variable {cpu : Cpu} {r q : Reg} {v : BitVec 64}

@[simp] theorem set_same : (cpu.set r v).gpr r = v := by
  simp [set]

@[simp] theorem set_ne (h : q ≠ r) : (cpu.set r v).gpr q = cpu.gpr q := by
  simp [set, h]

@[simp] theorem ea_set_ne {disp : BitVec 64} (h : q ≠ r) :
    (cpu.set r v).ea q disp = cpu.ea q disp := by
  rw [ea, set_ne h, ea]

theorem ea_zero (cpu : Cpu) (r : Reg) : cpu.ea r 0#64 = (cpu.gpr r).toNat := by
  simp [ea]

/-- Operands depend on the general registers only. -/
@[simp] theorem ea_mk {fpucw : BitVec 16} {mxcsr : BitVec 32} {rip disp : BitVec 64} :
    ea ⟨cpu.gpr, fpucw, mxcsr, rip⟩ r disp = cpu.ea r disp := rfl

@[simp] theorem set_fpucw : (cpu.set r v).fpucw = cpu.fpucw := rfl
@[simp] theorem set_mxcsr : (cpu.set r v).mxcsr = cpu.mxcsr := rfl
@[simp] theorem set_rip : (cpu.set r v).rip = cpu.rip := rfl

end Cpu

namespace Instr

/-- The instruction leaves the block. -/
def transfers : Instr → Bool
  | jmp _ | call _ | ret => true
  | _ => false

def run (s : State) : Instr → State
  | mov dst src => { s with cpu := s.cpu.set dst (s.cpu.gpr src) }
  | load dst base disp => { s with cpu := s.cpu.set dst (s.mem.readWord 64 (s.cpu.ea base disp)) }
  | store base disp src =>
      { s with mem := s.mem.writeWord (s.cpu.ea base disp) (s.cpu.gpr src) }
  | lea dst base disp => { s with cpu := s.cpu.set dst (s.cpu.gpr base + disp) }
  | and dst mask => { s with cpu := s.cpu.set dst (s.cpu.gpr dst &&& mask) }
  | fnstcw base disp => { s with mem := s.mem.writeWord (s.cpu.ea base disp) s.cpu.fpucw }
  | stmxcsr base disp => { s with mem := s.mem.writeWord (s.cpu.ea base disp) s.cpu.mxcsr }
  | fldcw base disp =>
      { s with cpu := { s.cpu with fpucw := s.mem.readWord 16 (s.cpu.ea base disp) } }
  | ldmxcsr base disp =>
      { s with cpu := { s.cpu with mxcsr := s.mem.readWord 32 (s.cpu.ea base disp) } }
  | jmp target => { s with cpu := { s.cpu with rip := s.cpu.gpr target } }
  | call target =>
      { cpu := { s.cpu.set .rsp (s.cpu.gpr .rsp - 8) with rip := target }
        mem := s.mem.writeWord (s.cpu.gpr .rsp - 8).toNat s.cpu.rip }
  | ret =>
      { s with cpu :=
          { s.cpu.set .rsp (s.cpu.gpr .rsp + 8) with
            rip := s.mem.readWord 64 (s.cpu.gpr .rsp).toNat } }

end Instr

/-- A block up to the instruction it leaves with. -/
def exec : List Instr → State → State
  | [], s => s
  | i :: is, s => if i.transfers then i.run s else exec is (i.run s)

/-- A block that begins with instructions that do not leave it. -/
theorem exec_append {is js : List Instr} {s : State} (h : ∀ i ∈ is, i.transfers = false) :
    exec (is ++ js) s = exec js (exec is s) := by
  induction is generalizing s with
  | nil => rfl
  | cons i is ih =>
      have hi : i.transfers = false := h i List.mem_cons_self
      have htail : ∀ j ∈ is, j.transfers = false := fun j hj => h j (List.mem_cons_of_mem i hj)
      simp only [List.cons_append, exec, hi, Bool.false_eq_true, if_false, ih htail]

end Amd64
end Foundation
end Mozi
