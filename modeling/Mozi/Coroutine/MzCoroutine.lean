import Mathlib.Tactic.Common
import Mozi.Foundation.Machine

/-!
# MzCoroutine — one coroutine and the calls that reach it

`core/coroutine/mz_coroutine.h` and `mz_coroutine.cc`.  `Resume` switches into the body, the body
switches back when it suspends, and `Resume` then reads `state_` and returns.  The other calls
from outside may come at any time, also while the body runs; each is one step.

`mzswap` is taken to switch as its callers expect, and a body that returns jumps to the address
stored at `align_retptr` of its share stack.

`resumed`, `isOver`, `notified` and `protector` record what has happened and are read by no step.
-/

namespace Mozi
namespace Coroutine
namespace MzCoroutine

open Foundation

inductive CoState
  | READY
  | FINISHED
  | SLEEP
  | IO_WAIT
  | DATA_WAIT
  deriving DecidableEq, Repr

/-- What the word at `align_retptr` points to. -/
inductive CodePtr
  | null
  | mz_funcp_protector_asm
  deriving DecidableEq, Repr

/-- Who runs. -/
inductive Control
  /-- the thread that calls `Resume` -/
  | caller
  | body
  /-- the body has switched back, before `Resume` reads `state_` -/
  | switched
  /-- the process has aborted -/
  | aborted
  deriving DecidableEq, Repr

/-- A tick count of `std::chrono::steady_clock`. -/
abbrev Time := Int

/-- The calls with which a body suspends. -/
inductive Suspension
  | Yield
  | YieldState (state : CoState)
  | HangUp
  | Sleep (now sleep_duration : Time)
  deriving DecidableEq, Repr

structure State where
  state_ : CoState
  force_stop_ : Bool
  updated_ : Bool
  wake_time_ : Time
  /-- the word at `align_retptr` of the share stack -/
  retptr : CodePtr
  control : Control
  /-- what the last `Resume` returned -/
  resumed : Option CoState
  /-- `Stop` has been called or `Resume` has returned `FINISHED` -/
  isOver : Bool
  /-- `SetUpdateFlag` has been called since the last `UpdateState` -/
  notified : Bool
  /-- `mz_funcp_protector` has been entered -/
  protector : Bool
  deriving DecidableEq, Repr

inductive Action
  | Resume
  /-- `Resume` goes on behind `mz_resume` -/
  | resumeReturn
  | Wake
  | SetUpdateFlag
  | Stop
  | UpdateState (now : Time)
  | suspend (how : Suspension)
  /-- the body returns -/
  | bodyReturn
  deriving DecidableEq, Repr

namespace State

/-- The constructor; `mz_share_stack_new2` plants the return address. -/
def new (now : Time) : State :=
  { state_ := .READY
    force_stop_ := false
    updated_ := false
    wake_time_ := now
    retptr := .mz_funcp_protector_asm
    control := .caller
    resumed := none
    isOver := false
    notified := false
    protector := false }

/-! ## Calls from outside -/

/-- `return state_` of `Resume`. -/
def returnState (s : State) : State :=
  { s with
    control := .caller
    resumed := some s.state_
    isOver := s.isOver || s.state_ = .FINISHED }

def Resume (s : State) : State :=
  let s := if s.force_stop_ then { s with state_ := .FINISHED } else s
  if s.state_ ≠ .READY then s.returnState else { s with control := .body }

def Wake (s : State) : State :=
  { s with state_ := .READY }

/-- `updated_.test_and_set()`, its answer unused. -/
def SetUpdateFlag (s : State) : State :=
  { s with updated_ := true, notified := true }

def Stop (s : State) : State :=
  { s with force_stop_ := false, isOver := true }

/-- What `UpdateState` returns, and the state it leaves. -/
def UpdateState (s : State) (now : Time) : CoState × State :=
  let s := { s with notified := false }
  if s.state_ = .SLEEP ∧ now > s.wake_time_ then
    (.READY, { s with state_ := .READY })
  else
    let waiting := s.state_ = .DATA_WAIT ∨ s.state_ = .IO_WAIT
    let s := { s with
      updated_ := true
      state_ := if !s.updated_ ∧ waiting then .READY else s.state_ }
    (s.state_, s)

/-! ## The body -/

/-- `mz_yield`. -/
def mz_yield (s : State) : State :=
  { s with control := .switched }

def YieldState (s : State) (state : CoState) : State :=
  { s with state_ := state }.mz_yield

def suspend (s : State) : Suspension → State
  | .Yield => s.mz_yield
  | .YieldState state => s.YieldState state
  | .HangUp => s.YieldState .DATA_WAIT
  | .Sleep now sleep_duration => { s with wake_time_ := now + sleep_duration }.YieldState .SLEEP

/-- `mz_funcp_protector`: the last word and its `assert(0)`. -/
def mz_funcp_protector (s : State) : State :=
  { s with control := .aborted, protector := true }

/-- The function `coEntry` returns from the bottom frame, into whatever the slot holds. -/
def coEntryReturn (s : State) : State :=
  match s.retptr with
  | .null => { s with control := .aborted }
  | .mz_funcp_protector_asm => s.mz_funcp_protector

/-! ## The machine -/

def step (s : State) : Action → Option State
  | .Resume => if s.control = .caller then some s.Resume else none
  | .resumeReturn => if s.control = .switched then some s.returnState else none
  | .Wake => if s.control ≠ .aborted then some s.Wake else none
  | .SetUpdateFlag => if s.control ≠ .aborted then some s.SetUpdateFlag else none
  | .Stop => if s.control ≠ .aborted then some s.Stop else none
  | .UpdateState now => if s.control ≠ .aborted then some (s.UpdateState now).2 else none
  | .suspend how => if s.control = .body then some (s.suspend how) else none
  | .bodyReturn => if s.control = .body then some s.coEntryReturn else none

end State

/-- One `MzCoroutine` as a machine over the calls that reach it. -/
def coroutine : Machine State Action :=
  { step := State.step }

@[simp] theorem coroutine_step (s : State) (a : Action) : coroutine.step s a = s.step a := rfl

/-! ## What one call can do -/

variable {s t : State} {a : Action}

/-- The relational form of `State.step`, with the guards as premises. -/
inductive Step : State → Action → State → Prop
  | Resume {s : State} (hpc : s.control = .caller) : Step s .Resume s.Resume
  | resumeReturn {s : State} (hpc : s.control = .switched) : Step s .resumeReturn s.returnState
  | Wake {s : State} (hpc : s.control ≠ .aborted) : Step s .Wake s.Wake
  | SetUpdateFlag {s : State} (hpc : s.control ≠ .aborted) :
      Step s .SetUpdateFlag s.SetUpdateFlag
  | Stop {s : State} (hpc : s.control ≠ .aborted) : Step s .Stop s.Stop
  | UpdateState {s : State} {now : Time} (hpc : s.control ≠ .aborted) :
      Step s (.UpdateState now) (s.UpdateState now).2
  | suspend {s : State} {how : Suspension} (hpc : s.control = .body) :
      Step s (.suspend how) (s.suspend how)
  | bodyReturn {s : State} (hpc : s.control = .body) : Step s .bodyReturn s.coEntryReturn

theorem Step.of_step (h : s.step a = some t) : Step s a t := by
  cases a with
  | Resume =>
      obtain ⟨hpc, rfl⟩ : s.control = .caller ∧ s.Resume = t := by simpa [State.step] using h
      exact .Resume hpc
  | resumeReturn =>
      obtain ⟨hpc, rfl⟩ : s.control = .switched ∧ s.returnState = t := by
        simpa [State.step] using h
      exact .resumeReturn hpc
  | Wake =>
      obtain ⟨hpc, rfl⟩ : ¬ s.control = .aborted ∧ s.Wake = t := by simpa [State.step] using h
      exact .Wake hpc
  | SetUpdateFlag =>
      obtain ⟨hpc, rfl⟩ : ¬ s.control = .aborted ∧ s.SetUpdateFlag = t := by
        simpa [State.step] using h
      exact .SetUpdateFlag hpc
  | Stop =>
      obtain ⟨hpc, rfl⟩ : ¬ s.control = .aborted ∧ s.Stop = t := by simpa [State.step] using h
      exact .Stop hpc
  | UpdateState now =>
      obtain ⟨hpc, rfl⟩ : ¬ s.control = .aborted ∧ (s.UpdateState now).2 = t := by
        simpa [State.step] using h
      exact .UpdateState hpc
  | suspend how =>
      obtain ⟨hpc, rfl⟩ : s.control = .body ∧ s.suspend how = t := by simpa [State.step] using h
      exact .suspend hpc
  | bodyReturn =>
      obtain ⟨hpc, rfl⟩ : s.control = .body ∧ s.coEntryReturn = t := by
        simpa [State.step] using h
      exact .bodyReturn hpc

namespace State

theorem Resume_spec (hstop : s.force_stop_ = false) :
    (s.state_ ≠ .READY ∧ s.Resume = s.returnState) ∨
      (s.state_ = .READY ∧ s.Resume = { s with control := .body }) := by
  by_cases hready : s.state_ = .READY
  · exact Or.inr ⟨hready, by simp [Resume, hstop, hready]⟩
  · exact Or.inl ⟨hready, by simp [Resume, hstop, hready]⟩

/-- `Resume` touches no flag. -/
theorem Resume_frame (s : State) :
    s.Resume.force_stop_ = s.force_stop_ ∧ s.Resume.updated_ = s.updated_ ∧
      s.Resume.retptr = s.retptr ∧ s.Resume.notified = s.notified ∧
      s.Resume.protector = s.protector := by
  unfold Resume
  cases hstop : s.force_stop_ <;> by_cases hready : s.state_ = .READY <;>
    simp [returnState, hstop, hready]

/-- A suspension leaves everything but `state_` and the wake time alone. -/
theorem suspend_frame (s : State) (how : Suspension) :
    (s.suspend how).control = .switched ∧ (s.suspend how).force_stop_ = s.force_stop_ ∧
      (s.suspend how).updated_ = s.updated_ ∧ (s.suspend how).retptr = s.retptr ∧
      (s.suspend how).isOver = s.isOver ∧ (s.suspend how).notified = s.notified ∧
      (s.suspend how).protector = s.protector := by
  cases how <;> exact ⟨rfl, rfl, rfl, rfl, rfl, rfl, rfl⟩

theorem UpdateState_frame (s : State) (now : Time) :
    (s.UpdateState now).2.control = s.control ∧
      (s.UpdateState now).2.force_stop_ = s.force_stop_ ∧
      (s.UpdateState now).2.retptr = s.retptr ∧ (s.UpdateState now).2.isOver = s.isOver ∧
      (s.UpdateState now).2.notified = false := by
  unfold UpdateState
  by_cases hsleep : s.state_ = .SLEEP ∧ now > s.wake_time_ <;> simp [hsleep]

/-- `UpdateState` changes the state of a sleeping or waiting coroutine only. -/
theorem UpdateState_state (s : State) (now : Time) :
    (s.UpdateState now).2.state_ = s.state_ ∨
      (s.UpdateState now).2.state_ = .READY ∧
        (s.state_ = .SLEEP ∨ s.state_ = .DATA_WAIT ∨ s.state_ = .IO_WAIT) := by
  unfold UpdateState
  by_cases hsleep : s.state_ = .SLEEP ∧ now > s.wake_time_
  · exact Or.inr ⟨by simp [hsleep], Or.inl hsleep.1⟩
  · by_cases hwait : !s.updated_ ∧ (s.state_ = .DATA_WAIT ∨ s.state_ = .IO_WAIT)
    · exact Or.inr ⟨by simp [hsleep, hwait], Or.inr hwait.2⟩
    · refine Or.inl ?_
      simp only [hsleep, if_false]
      exact if_neg hwait

end State

end MzCoroutine
end Coroutine
end Mozi
