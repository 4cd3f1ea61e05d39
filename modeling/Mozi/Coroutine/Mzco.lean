import Mozi.Coroutine.Memcpy
import Mozi.Foundation.Machine

/-!
# Mzco — coroutines on copied share stacks

`core/coroutine/detail/mzco.cc` and `mzco.h` for the non-main coroutines of one thread.  Several
coroutines share one stack.  The bytes of a suspended coroutine stay where they are until another
coroutine of the same stack is resumed, and only then move to its save buffer.

Pointers to coroutines are numbers, share stacks are the indices of a `Layout`.  The machine runs
the calls of the library and the memory writes of everybody else; `Contract` is what the library
assumes of its callers, of the bodies and of the allocator.
-/

namespace Mozi
namespace Coroutine

open Foundation

abbrev CoId := Nat

/-! ## Share stacks -/

/-- A stack as `mz_share_stack_new2` returns it: the usable part `[ptr, ptr + sz)`, with the size
its last assertion accepts. -/
structure ShareStack where
  ptr : Nat
  sz : Nat
  large : 16 + 8 * 2 + 8 < sz
  bound : ptr + sz ≤ 2 ^ 64

namespace ShareStack

/-- `u_p`: two words below the end, rounded down to 16. -/
def align_highptr (stk : ShareStack) : Nat :=
  (stk.sz - 8 * 2 + stk.ptr) / 16 * 16

def align_retptr (stk : ShareStack) : Nat :=
  stk.align_highptr - 8

def align_limit (stk : ShareStack) : Nat :=
  stk.sz - 16 - 8 * 2

/-- The lowest stack pointer `mz_resume` accepts. -/
def lowptr (stk : ShareStack) : Nat :=
  stk.align_highptr - stk.align_limit

theorem ptr_le_lowptr (stk : ShareStack) : stk.ptr ≤ stk.lowptr := by
  have h := stk.large
  unfold lowptr align_limit align_highptr
  omega

theorem lowptr_le_retptr (stk : ShareStack) : stk.lowptr ≤ stk.align_retptr := by
  have h := stk.large
  unfold lowptr align_retptr align_limit align_highptr
  omega

theorem retptr_le (stk : ShareStack) : stk.align_retptr ≤ stk.ptr + stk.sz := by
  have h := stk.large
  unfold align_retptr align_highptr
  omega

end ShareStack

/-- The share stacks in use, in separate memory. -/
structure Layout (Stk : Type) where
  stack : Stk → ShareStack
  apart : ∀ i j, i ≠ j →
    Apart (stack i).ptr (stack i).sz (stack j).ptr (stack j).sz

/-! ## Coroutines -/

/-- `mz_save_stack_t`. -/
structure SaveStack where
  ptr : Nat
  sz : Nat
  valid_sz : Nat
  max_cpsz : Nat
  ct_save : Nat
  ct_restore : Nat
  deriving DecidableEq, Repr

/-- `mz_s`; of the registers only the stack pointer matters here. -/
structure Co (Stk : Type) where
  reg_sp : Nat
  is_end : Bool
  save_stack : SaveStack
  share_stack : Stk

structure State (Stk : Type) where
  mem : Memory
  /-- the live `mz_t` objects -/
  cos : CoId → Option (Co Stk)
  owner : Stk → Option CoId
  align_validsz : Stk → Nat
  /-- `mz_gtls_co`, `none` while the main coroutine runs -/
  gtls_co : Option CoId

inductive Action (Stk : Type)
  /-- the allocator answers with a save buffer at `ptr` -/
  | mz_create (c : CoId) (share_stack : Stk) (save_stack_sz ptr : Nat)
  /-- the allocator answers with `ptr` if the owner's save buffer has to grow -/
  | mz_resume (c : CoId) (ptr : Nat)
  | mz_yield (sp : Nat)
  | mz_exit (sp : Nat)
  | mz_destory (c : CoId)
  /-- a byte written by the running body, by the main coroutine or to the heap -/
  | write (addr : Nat) (byte : UInt8)

namespace SaveStack

/-- The loop that doubles `sz`, in `size_t`, until it holds `valid_sz`; `none` is the assertion
`sz > 0`.  The 64th shift leaves 0, so 65 rounds are enough. -/
def double (valid_sz : Nat) : Nat → Nat → Option Nat
  | 0, _ => none
  | fuel + 1, sz =>
      let sz := (sz * 2) % 2 ^ 64
      if 0 < sz then
        if valid_sz ≤ sz then some sz else double valid_sz fuel sz
      else
        none

/-- The buffer with room for `valid_sz` bytes, reallocated if it has to be. -/
def grow (save : SaveStack) (valid_sz ptr : Nat) : Option SaveStack :=
  if save.sz < valid_sz then
    (double valid_sz 65 save.sz).map fun sz =>
      { save with valid_sz := valid_sz, sz := sz, ptr := ptr }
  else
    some { save with valid_sz := valid_sz }

/-- The statistics after a save. -/
def noteSave (save : SaveStack) : SaveStack :=
  { save with
    ct_save := if 0 < save.valid_sz then (save.ct_save + 1) % 2 ^ 64 else save.ct_save
    max_cpsz := if save.max_cpsz < save.valid_sz then save.valid_sz else save.max_cpsz }

/-- The statistics after a restore. -/
def noteRestore (save : SaveStack) : SaveStack :=
  { save with
    ct_restore := if 0 < save.valid_sz then (save.ct_restore + 1) % 2 ^ 64 else save.ct_restore
    max_cpsz := if save.max_cpsz < save.valid_sz then save.valid_sz else save.max_cpsz }

@[simp] theorem noteSave_ptr (save : SaveStack) : save.noteSave.ptr = save.ptr := rfl
@[simp] theorem noteSave_sz (save : SaveStack) : save.noteSave.sz = save.sz := rfl
@[simp] theorem noteSave_valid_sz (save : SaveStack) :
    save.noteSave.valid_sz = save.valid_sz := rfl
@[simp] theorem noteRestore_ptr (save : SaveStack) : save.noteRestore.ptr = save.ptr := rfl
@[simp] theorem noteRestore_sz (save : SaveStack) : save.noteRestore.sz = save.sz := rfl
@[simp] theorem noteRestore_valid_sz (save : SaveStack) :
    save.noteRestore.valid_sz = save.valid_sz := rfl

end SaveStack

/-! ## The library -/

/-- The save buffer `mz_create` asks for. -/
def saveSize (save_stack_sz : Nat) : Nat :=
  if save_stack_sz = 0 then 64 else save_stack_sz

namespace State

variable {Stk : Type} [DecidableEq Stk] (L : Layout Stk)

def init : State Stk :=
  { mem := fun _ => 0
    cos := fun _ => none
    owner := fun _ => none
    align_validsz := fun _ => 0
    gtls_co := none }

def mz_create (s : State Stk) (c : CoId) (share_stack : Stk) (save_stack_sz ptr : Nat) :
    State Stk :=
  { s with
    cos := Function.update s.cos c (some
      { reg_sp := (L.stack share_stack).align_retptr
        is_end := false
        save_stack :=
          { ptr := ptr
            sz := saveSize save_stack_sz
            valid_sz := 0
            max_cpsz := 0
            ct_save := 0
            ct_restore := 0 }
        share_stack := share_stack }) }

/-- The part of `mz_resume` that saves the owner of the stack; `none` is a failed assertion or a
dangling owner. -/
def saveOwner (s : State Stk) (share_stack : Stk) (ptr : Nat) : Option (State Stk) :=
  match s.owner share_stack with
  | none => some s
  | some o =>
      match s.cos o with
      | none => none
      | some owner_co =>
          let stk := L.stack owner_co.share_stack
          -- The assertions before the copy.
          if owner_co.share_stack = share_stack ∧ owner_co.reg_sp ≤ stk.align_retptr ∧
              stk.lowptr ≤ owner_co.reg_sp then
            (owner_co.save_stack.grow (stk.align_retptr - owner_co.reg_sp) ptr).map fun save =>
              { s with
                mem :=
                  if 0 < save.valid_sz then
                    optimized_memcpy_drop_in s.mem save.ptr owner_co.reg_sp save.valid_sz
                  else
                    s.mem
                cos := Function.update s.cos o
                  (some { owner_co with save_stack := save.noteSave })
                owner := Function.update s.owner share_stack none
                align_validsz := Function.update s.align_validsz share_stack 0 }
          else
            none

/-- The part of `mz_resume` that puts the saved bytes back and takes the stack. -/
def restore (s : State Stk) (c : CoId) : Option (State Stk) :=
  match s.cos c with
  | none => none
  | some co =>
      let stk := L.stack co.share_stack
      let save := co.save_stack
      if s.owner co.share_stack = none ∧ save.valid_sz ≤ stk.align_limit - 8 then
        some
          { s with
            mem :=
              if 0 < save.valid_sz then
                optimized_memcpy_drop_in s.mem (stk.align_retptr - save.valid_sz) save.ptr
                  save.valid_sz
              else
                s.mem
            cos := Function.update s.cos c (some { co with save_stack := save.noteRestore })
            owner := Function.update s.owner co.share_stack (some c)
            align_validsz :=
              Function.update s.align_validsz co.share_stack (save.valid_sz + 8) }
      else
        none

/-- `mz_resume` up to the switch into the coroutine. -/
def mz_resume (s : State Stk) (c : CoId) (ptr : Nat) : Option (State Stk) :=
  match s.cos c with
  | none => none
  | some resume_co =>
      if resume_co.is_end then
        none
      -- The coroutine has kept its stack, and nothing is copied.
      else if s.owner resume_co.share_stack = some c then
        some { s with gtls_co := some c }
      else
        (s.saveOwner L resume_co.share_stack ptr).bind fun s =>
          (s.restore L c).map fun s => { s with gtls_co := some c }

/-- `mz_yield1` on the running coroutine, and the return of its `mz_resume`. -/
def mz_yield (s : State Stk) (sp : Nat) : Option (State Stk) :=
  match s.gtls_co with
  | none => none
  | some c =>
      (s.cos c).map fun co =>
        { s with
          cos := Function.update s.cos c (some { co with reg_sp := sp })
          gtls_co := none }

/-- `mz_exit1` on the running coroutine. -/
def mz_exit (s : State Stk) (sp : Nat) : Option (State Stk) :=
  match s.gtls_co with
  | none => none
  | some c =>
      match s.cos c with
      | none => none
      | some co =>
          if s.owner co.share_stack = some c then
            mz_yield
              { s with
                cos := Function.update s.cos c (some { co with is_end := true })
                owner := Function.update s.owner co.share_stack none
                align_validsz := Function.update s.align_validsz co.share_stack 0 } sp
          else
            none

def mz_destory (s : State Stk) (c : CoId) : Option (State Stk) :=
  (s.cos c).map fun co =>
    -- A destroyed owner gives its stack back, so that nobody saves it later.
    if s.owner co.share_stack = some c then
      { s with
        cos := Function.update s.cos c none
        owner := Function.update s.owner co.share_stack none
        align_validsz := Function.update s.align_validsz co.share_stack 0 }
    else
      { s with cos := Function.update s.cos c none }

/-! ## The machine -/

/-- `mz_resume` is called from the main coroutine. -/
def step (s : State Stk) : Action Stk → Option (State Stk)
  | .mz_create c share_stack save_stack_sz ptr =>
      some (s.mz_create L c share_stack save_stack_sz ptr)
  | .mz_resume c ptr => if s.gtls_co = none then s.mz_resume L c ptr else none
  | .mz_yield sp => s.mz_yield sp
  | .mz_exit sp => s.mz_exit sp
  | .mz_destory c => s.mz_destory c
  | .write addr byte => some { s with mem := s.mem.store addr [byte] }

/-- A block for `c` that meets no share stack and no save buffer of another coroutine. -/
def Fresh (s : State Stk) (c : CoId) (ptr sz : Nat) : Prop :=
  (∀ k, Apart ptr sz (L.stack k).ptr (L.stack k).sz) ∧
    ∀ d co, d ≠ c → s.cos d = some co → Apart ptr sz co.save_stack.ptr co.save_stack.sz

/-- What the library assumes: allocated objects are fresh, a body suspends with its stack pointer
in range and is not destroyed while it runs, and a write is in the live region of the running
coroutine or outside the share stacks and the save buffers. -/
def Contract (s : State Stk) : Action Stk → Prop
  | .mz_create c _ save_stack_sz ptr =>
      s.cos c = none ∧ s.Fresh L c ptr (saveSize save_stack_sz)
  | .mz_resume c ptr =>
      ∀ co o owner_co sz, s.cos c = some co → s.owner co.share_stack = some o →
        s.cos o = some owner_co →
        owner_co.save_stack.sz <
          (L.stack owner_co.share_stack).align_retptr - owner_co.reg_sp →
        SaveStack.double ((L.stack owner_co.share_stack).align_retptr - owner_co.reg_sp) 65
          owner_co.save_stack.sz = some sz →
        s.Fresh L o ptr sz
  | .mz_yield sp =>
      ∀ c co, s.gtls_co = some c → s.cos c = some co →
        (L.stack co.share_stack).lowptr ≤ sp ∧ sp ≤ (L.stack co.share_stack).align_retptr
  | .mz_exit _ => True
  | .mz_destory c => s.gtls_co ≠ some c
  | .write addr _ =>
      (∃ c co, s.gtls_co = some c ∧ s.cos c = some co ∧
          (L.stack co.share_stack).lowptr ≤ addr ∧ addr < (L.stack co.share_stack).align_retptr) ∨
        ((∀ k, Apart addr 1 (L.stack k).ptr (L.stack k).sz) ∧
          ∀ c co, s.cos c = some co → Apart addr 1 co.save_stack.ptr co.save_stack.sz)

end State

section Machine

variable {Stk : Type} [DecidableEq Stk] (L : Layout Stk)

/-- The coroutines of a thread as a machine over the calls of the library. -/
def coroutines : Machine (State Stk) (Action Stk) :=
  { step := State.step L }

@[simp] theorem coroutines_step (s : State Stk) (a : Action Stk) :
    (coroutines L).step s a = s.step L a := rfl

end Machine

end Coroutine
end Mozi
