import Mozi.Coroutine.MzCoroutine

/-!
# Ending — what happens to a coroutine that is stopped or done

`Stop` clears `force_stop_` where it would have to set it, so it stops nothing, and `Wake` makes
even a finished coroutine ready again.  `stopped_stays_stopped` states which runs keep the law
"over is over" all the same.

`coEntry` returns when the body does, without a last `Yield(FINISHED)`, and the bottom frame of a
share stack returns into `mz_funcp_protector_asm`.  So no body that returns ends cleanly, whatever
its suspensions and whatever the schedule (`body_return_aborts`).
-/

namespace Mozi
namespace Coroutine
namespace MzCoroutine

open Foundation

variable {s t : State} {a : Action}

/-! ## What every run keeps -/

structure Running (s : State) : Prop where
  stop : s.force_stop_ = false
  retptr : s.retptr = .mz_funcp_protector_asm
  /-- the body runs with the coroutine ready -/
  body : s.control = .body → s.state_ = .READY

theorem running_new (now : Time) : Running (.new now) :=
  { stop := rfl
    retptr := rfl
    body := by simp [State.new] }

theorem running_step (h : Step s a t) (hs : Running s) : Running t := by
  cases h with
  | Resume hpc =>
      have hframe := s.Resume_frame
      refine ⟨hframe.1.trans hs.stop, hframe.2.2.1.trans hs.retptr, ?_⟩
      intro hbody
      rcases State.Resume_spec hs.stop with ⟨_, heq⟩ | ⟨hready, heq⟩
      · simp [heq, State.returnState] at hbody
      · simp [heq, hready]
  | resumeReturn hpc =>
      exact ⟨hs.stop, hs.retptr, by simp [State.returnState]⟩
  | Wake hpc =>
      exact ⟨hs.stop, hs.retptr, fun _ => rfl⟩
  | SetUpdateFlag hpc =>
      exact ⟨hs.stop, hs.retptr, hs.body⟩
  | Stop hpc =>
      exact ⟨rfl, hs.retptr, hs.body⟩
  | UpdateState hpc =>
      rename_i now
      have hframe := s.UpdateState_frame now
      refine ⟨hframe.2.1.trans hs.stop, hframe.2.2.1.trans hs.retptr, ?_⟩
      intro hbody
      -- Where `UpdateState` writes the state at all, it writes `READY`.
      rcases s.UpdateState_state now with heq | ⟨heq, _⟩
      · rw [heq]
        exact hs.body (hframe.1 ▸ hbody)
      · exact heq
  | suspend hpc =>
      rename_i how
      have hframe := s.suspend_frame how
      exact ⟨hframe.2.1.trans hs.stop, hframe.2.2.2.1.trans hs.retptr, by simp [hframe.1]⟩
  | bodyReturn hpc =>
      simp only [State.coEntryReturn, hs.retptr]
      exact ⟨hs.stop, hs.retptr, by simp [State.mz_funcp_protector]⟩

theorem running_run {now : Time} {tr : List Action}
    (hrun : coroutine.exec (.new now) tr = some s) : Running s :=
  Machine.Reachable.invariant ⟨tr, hrun⟩ (running_new now)
    fun _ _ _ hs ht => running_step (Step.of_step ht) hs

/-! ## Stopping -/

/-- The condition on a step: `Stop` reaches a finished coroutine only, and nothing wakes a
coroutine that is over. -/
def Keeps (s : State) : Action → Prop
  | .Stop => s.state_ = .FINISHED
  | .Wake => s.isOver = false
  | _ => True

/-- A coroutine that is over is finished. -/
def OverFinished (s : State) : Prop :=
  s.isOver = true → s.state_ = .FINISHED

theorem OverFinished.returnState (hs : OverFinished s) : OverFinished s.returnState := by
  intro hover
  have hcases : s.isOver = true ∨ s.state_ = .FINISHED := by
    simpa [State.returnState] using hover
  rcases hcases with h | h
  · exact hs h
  · exact h

theorem overFinished_step (h : Step s a t) (hr : Running s) (hk : Keeps s a)
    (hs : OverFinished s) : OverFinished t := by
  cases h with
  | Resume hpc =>
      rcases State.Resume_spec hr.stop with ⟨_, heq⟩ | ⟨_, heq⟩
      · rw [heq]
        exact hs.returnState
      · rw [heq]
        exact hs
  | resumeReturn hpc =>
      exact hs.returnState
  | Wake hpc =>
      have hover : s.isOver = false := hk
      simp [OverFinished, State.Wake, hover]
  | SetUpdateFlag hpc =>
      exact hs
  | Stop hpc =>
      exact fun _ => hk
  | UpdateState hpc =>
      rename_i now
      have hframe := s.UpdateState_frame now
      intro hover
      have hfinished : s.state_ = .FINISHED := hs (hframe.2.2.2.1 ▸ hover)
      rcases s.UpdateState_state now with heq | ⟨_, hwaits⟩
      · rw [heq, hfinished]
      · simp [hfinished] at hwaits
  | suspend hpc =>
      rename_i how
      have hframe := s.suspend_frame how
      intro hover
      -- The body of a coroutine that is over does not run.
      have hfinished : s.state_ = .FINISHED := hs (hframe.2.2.2.2.1 ▸ hover)
      simp [hr.body hpc] at hfinished
  | bodyReturn hpc =>
      simp only [State.coEntryReturn, hr.retptr]
      exact hs

theorem overFinished_run {tr : List Action} (hr : Running s) (hs : OverFinished s)
    (halong : coroutine.Along Keeps s tr) (hrun : coroutine.exec s tr = some t) :
    OverFinished t :=
  (coroutine.exec_invariant (I := fun s => Running s ∧ OverFinished s) (P := Keeps)
    (fun _ _ _ hs hk ht =>
      ⟨running_step (Step.of_step ht) hs.1, overFinished_step (Step.of_step ht) hs.1 hk hs.2⟩)
    ⟨hr, hs⟩ halong hrun).2

/-- Once the coroutine is over, `Resume` returns `FINISHED` and does not switch. -/
def StaysOver (s : State) : Prop :=
  s.isOver = true → ∀ t, s.step .Resume = some t →
    t.resumed = some .FINISHED ∧ t.control = .caller

theorem OverFinished.staysOver (hr : Running s) (hs : OverFinished s) : StaysOver s := by
  intro hover t ht
  have hfinished : s.state_ = .FINISHED := hs hover
  cases Step.of_step ht with
  | Resume hpc =>
      rcases State.Resume_spec hr.stop with ⟨_, heq⟩ | ⟨hready, _⟩
      · simp [heq, State.returnState, hfinished]
      · simp [hfinished] at hready

/-- A `Resume` of a coroutine that is over and not finished runs it or returns something else. -/
theorem not_staysOver (hr : Running s) (hpc : s.control = .caller) (hover : s.isOver = true)
    (hstate : s.state_ ≠ .FINISHED) : ¬ StaysOver s := by
  intro hstays
  have hkept := hstays hover s.Resume (by simp [State.step, hpc])
  rcases State.Resume_spec hr.stop with ⟨_, heq⟩ | ⟨_, heq⟩
  · rw [heq] at hkept
    exact hstate (Option.some.inj hkept.1)
  · simp [heq] at hkept

/-- Up to the next `Resume`: the body suspends, if it runs, and the `Resume` under way returns. -/
def untilResume (control : Control) : List Action :=
  match control with
  | .body => [.suspend .HangUp, .resumeReturn]
  | .switched => [.resumeReturn]
  | _ => []

/-- From a coroutine that is over and not finished some run leads to such a `Resume`. -/
theorem exists_not_staysOver (hr : Running s) (hpc : s.control ≠ .aborted)
    (hover : s.isOver = true) (hstate : s.state_ ≠ .FINISHED) :
    ∃ t, coroutine.Along Keeps s (untilResume s.control) ∧
      coroutine.exec s (untilResume s.control) = some t ∧ ¬ StaysOver t := by
  have hstop := hr.stop
  cases hcontrol : s.control with
  | caller =>
      exact ⟨s, trivial, rfl, not_staysOver hr hcontrol hover hstate⟩
  | body =>
      refine ⟨(s.suspend .HangUp).returnState, ?_, ?_, ?_⟩
      · exact ⟨trivial, fun _ _ => ⟨trivial, fun _ _ => trivial⟩⟩
      · simp [untilResume, Machine.exec, State.step, hcontrol, (s.suspend_frame .HangUp).1]
      · have hrun : Running (s.suspend .HangUp).returnState :=
          running_step (.resumeReturn (s.suspend_frame .HangUp).1)
            (running_step (.suspend hcontrol) hr)
        apply not_staysOver hrun rfl
        · simp [State.returnState, (s.suspend_frame .HangUp).2.2.2.2.1, hover]
        · simp [State.returnState, State.suspend, State.YieldState, State.mz_yield]
  | switched =>
      refine ⟨s.returnState, ⟨trivial, fun _ _ => trivial⟩, ?_, ?_⟩
      · simp [untilResume, Machine.exec, State.step, hcontrol]
      · apply not_staysOver (running_step (.resumeReturn hcontrol) hr) rfl
        · simp [State.returnState, hover]
        · exact hstate
  | aborted =>
      exact absurd hcontrol hpc

/-- A step that does not meet the condition leaves a coroutine that is over and not finished. -/
theorem step_of_not_keeps (h : Step s a t) (hk : ¬ Keeps s a) :
    t.isOver = true ∧ t.state_ ≠ .FINISHED ∧ t.control ≠ .aborted := by
  cases h with
  | Wake hpc =>
      have hover : s.isOver = true := by simpa [Keeps] using hk
      exact ⟨hover, by simp [State.Wake], hpc⟩
  | Stop hpc =>
      exact ⟨rfl, hk, hpc⟩
  | _ =>
      exact absurd trivial hk

/-- In every run whose steps meet the condition, a `Resume` after `Stop` or after a `Resume` that
returned `FINISHED` returns `FINISHED` and does not switch; and the condition is exact at every
step, since otherwise some continuation that meets it leads to a `Resume` that does not. -/
theorem stopped_stays_stopped {now : Time} {tr : List Action}
    (halong : coroutine.Along Keeps (.new now) tr)
    (hrun : coroutine.exec (.new now) tr = some s) :
    StaysOver s ∧
      ∀ a t, s.step a = some t →
        ((∀ tr' u, coroutine.Along Keeps t tr' → coroutine.exec t tr' = some u → StaysOver u) ↔
          Keeps s a) := by
  have hr : Running s := running_run hrun
  have hs : OverFinished s :=
    overFinished_run (running_new now) (by simp [OverFinished, State.new]) halong hrun
  refine ⟨hs.staysOver hr, ?_⟩
  intro a t ht
  have hstep : Step s a t := Step.of_step ht
  have hrt : Running t := running_step hstep hr
  constructor
  · intro hall
    by_contra hk
    rcases step_of_not_keeps hstep hk with ⟨hover, hstate, hpc⟩
    rcases exists_not_staysOver hrt hpc hover hstate with ⟨u, halong', hrun', hnot⟩
    exact hnot (hall _ u halong' hrun')
  · intro hk tr' u halong' hrun'
    have hru : Running u := coroutine.exec_invariant (P := Keeps)
      (fun _ _ _ hs _ ht => running_step (Step.of_step ht) hs) hrt halong' hrun'
    exact (overFinished_run hrt (overFinished_step hstep hr hk hs) halong' hrun').staysOver hru

/-- A body that yields `FINISHED`, and a `Stop` after it. -/
def finishes : List Action :=
  [.Resume, .suspend (.YieldState .FINISHED), .resumeReturn, .UpdateState 1, .Stop]

theorem stopped_stays_stopped_finishes :
    ∃ s, coroutine.exec (.new 0) finishes = some s ∧ s.isOver = true ∧
      ∀ t, s.step .Resume = some t → t.resumed = some .FINISHED ∧ t.control = .caller := by
  have hrun : coroutine.exec (.new 0) finishes = some _ := rfl
  have halong : coroutine.Along Keeps (.new 0) finishes := by
    apply Machine.Along.cons _ rfl trivial
    apply Machine.Along.cons _ rfl trivial
    apply Machine.Along.cons _ rfl trivial
    apply Machine.Along.cons _ rfl trivial
    exact Machine.Along.cons _ rfl rfl (coroutine.along_nil _ _)
  exact ⟨_, hrun, rfl, (stopped_stays_stopped halong hrun).1 rfl⟩

/-- `Stop` on a new coroutine, and `Wake` on a finished one: the next `Resume` runs the body. -/
theorem stopped_runs_again :
    (∃ s t, coroutine.exec (.new 0) [.Stop] = some s ∧ s.step .Resume = some t ∧
        t.control = .body) ∧
      ∃ s t, coroutine.exec (.new 0)
          [.Resume, .suspend (.YieldState .FINISHED), .resumeReturn] = some s ∧
        s.resumed = some .FINISHED ∧
        coroutine.exec s [.Wake, .Resume] = some t ∧ t.control = .body := by
  exact ⟨⟨_, _, rfl, rfl, rfl⟩, ⟨_, _, rfl, rfl, rfl, rfl⟩⟩

/-! ## A body that returns -/

/-- The suspensions of the body in a schedule, and its return as `none`. -/
def bodyCalls (tr : List Action) : List (Option Suspension) :=
  tr.filterMap fun
    | .suspend how => some (some how)
    | .bodyReturn => some none
    | _ => none

/-- The schedule drives a body with these suspensions to its end. -/
def Drives (body : List Suspension) (tr : List Action) : Prop :=
  bodyCalls tr = body.map some ++ [none]

/-- The coroutine has ended cleanly: the `Resume` that ran the last part has returned or is about
to return `FINISHED`, a later `Resume` does so without running anything, and the protector was not
reached. -/
structure EndedCleanly (s : State) : Prop where
  protector : s.protector = false
  resumed : ∃ t, (s.control = .caller ∧ t = s ∨ s.step .resumeReturn = some t) ∧
    t.resumed = some .FINISHED ∧
    ∀ u, t.step .Resume = some u → u.resumed = some .FINISHED ∧ u.control = .caller

/-- The return of a body takes the process into the protector. -/
theorem bodyReturn_aborts (hr : Running s) (h : s.step .bodyReturn = some t) :
    t.protector = true ∧ t.control = .aborted := by
  cases Step.of_step h with
  | bodyReturn hpc =>
      simp [State.coEntryReturn, hr.retptr, State.mz_funcp_protector]

/-- Nothing happens in an aborted process. -/
theorem step_aborted (hpc : s.control = .aborted) (a : Action) : s.step a = none := by
  cases a <;> simp [State.step, hpc]

theorem exec_aborted {tr : List Action} (hpc : s.control = .aborted)
    (hrun : coroutine.exec s tr = some t) : t = s := by
  cases tr with
  | nil =>
      cases hrun
      rfl
  | cons a tr =>
      rcases (Machine.exec_cons _).1 hrun with ⟨u, hu, _⟩
      simp [step_aborted hpc] at hu

/-- A schedule in which the body returns ends in the protector. -/
theorem aborts_of_drives {now : Time} {body : List Suspension} {tr : List Action}
    (hdrives : Drives body tr) (hrun : coroutine.exec (.new now) tr = some t) :
    t.protector = true ∧ t.control = .aborted := by
  have hmem : Action.bodyReturn ∈ tr := by
    have hnone : none ∈ bodyCalls tr := by simp [show bodyCalls tr = _ from hdrives]
    rcases List.mem_filterMap.1 hnone with ⟨a, ha, hcall⟩
    cases a <;> simp at hcall
    exact ha
  rcases List.append_of_mem hmem with ⟨tr₁, tr₂, rfl⟩
  rcases (Machine.exec_append _).1 hrun with ⟨s, hs, hrest⟩
  rcases (Machine.exec_cons _).1 hrest with ⟨u, hu, hlast⟩
  have hend := bodyReturn_aborts (running_run hs) hu
  rw [exec_aborted hend.2 hlast]
  exact hend

/-- One round of the caller for each suspension. -/
def rounds (body : List Suspension) : List Action :=
  body.flatMap fun how => [.suspend how, .resumeReturn, .Wake, .Resume]

/-- A schedule that drives a body to its end. -/
def driving (body : List Suspension) : List Action :=
  .Resume :: (rounds body ++ [.bodyReturn])

theorem drives_driving (body : List Suspension) : Drives body (driving body) := by
  have hrounds : bodyCalls (rounds body) = body.map some := by
    induction body with
    | nil =>
        rfl
    | cons how body ih =>
        simpa [rounds, bodyCalls] using ih
  simpa [Drives, driving, bodyCalls] using hrounds

/-- Each round brings the body back. -/
theorem exec_rounds (hr : Running s) (hpc : s.control = .body) (body : List Suspension) :
    ∃ t, coroutine.exec s (rounds body) = some t ∧ Running t ∧ t.control = .body := by
  induction body generalizing s with
  | nil =>
      exact ⟨s, rfl, hr, hpc⟩
  | cons how body ih =>
      have hframe := s.suspend_frame how
      have hw : Running (s.suspend how).returnState.Wake :=
        running_step (.Wake (by simp [State.returnState]))
          (running_step (.resumeReturn hframe.1) (running_step (.suspend hpc) hr))
      rcases State.Resume_spec hw.stop with ⟨hno, _⟩ | ⟨_, heq⟩
      · exact absurd rfl hno
      · have hresume : Running (s.suspend how).returnState.Wake.Resume :=
          running_step (.Resume rfl) hw
        rcases ih hresume (by rw [heq]) with ⟨t, ht, hrt, hpct⟩
        refine ⟨t, ?_, hrt, hpct⟩
        have hround : coroutine.exec s [.suspend how, .resumeReturn, .Wake, .Resume] =
            some (s.suspend how).returnState.Wake.Resume := by
          simp [Machine.exec, State.step, hpc, hframe.1, State.returnState, State.Wake]
        exact (Machine.exec_append _).2 ⟨_, hround, ht⟩

theorem exec_driving (now : Time) (body : List Suspension) :
    ∃ t, coroutine.exec (.new now) (driving body) = some t := by
  have hstart : (State.new now).step .Resume = some { State.new now with control := .body } := rfl
  have hr := running_step (Step.of_step hstart) (running_new now)
  rcases exec_rounds hr rfl body with ⟨t, ht, _, hpc⟩
  refine ⟨t.coEntryReturn, (Machine.exec_cons _).2 ⟨_, hstart, ?_⟩⟩
  refine (Machine.exec_append _).2 ⟨t, ht, (Machine.exec_singleton _).2 ?_⟩
  simp [State.step, hpc]

/-- Every body that returns can be driven to its end, and no schedule that does so ends cleanly:
each reaches the protector and aborts the process. -/
theorem body_return_aborts (now : Time) (body : List Suspension) :
    (∃ tr t, Drives body tr ∧ coroutine.exec (.new now) tr = some t) ∧
      ∀ tr t, Drives body tr → coroutine.exec (.new now) tr = some t →
        ¬ EndedCleanly t ∧ t.protector = true ∧ t.control = .aborted := by
  constructor
  · rcases exec_driving now body with ⟨t, ht⟩
    exact ⟨driving body, t, drives_driving body, ht⟩
  · intro tr t hdrives hrun
    have hend := aborts_of_drives hdrives hrun
    refine ⟨?_, hend⟩
    intro hclean
    simp [hclean.protector] at hend

/-- A body without suspensions: the first `Resume` never returns. -/
theorem empty_body_aborts :
    ∃ t, coroutine.exec (.new 0) [.Resume, .bodyReturn] = some t ∧ t.control = .aborted ∧
      t.protector = true ∧ t.resumed = none ∧ ¬ EndedCleanly t := by
  refine ⟨_, rfl, rfl, rfl, rfl, ?_⟩
  intro hclean
  cases hclean.protector

end MzCoroutine
end Coroutine
end Mozi
