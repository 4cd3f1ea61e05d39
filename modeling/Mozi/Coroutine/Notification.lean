import Mozi.Coroutine.MzCoroutine

/-!
# Notification — what `UpdateState` makes of a data notification

`UpdateState` takes a clear `updated_` for a notification, and `SetUpdateFlag` sets the flag where
it would have to clear it.  The flag starts clear and nothing ever clears it, so a notified
coroutine keeps waiting, and the first `UpdateState` wakes a coroutine nobody has notified.
-/

namespace Mozi
namespace Coroutine
namespace MzCoroutine

open Foundation

variable {s t : State} {a : Action}

/-- The coroutine waits for data. -/
def CoState.Waits (state : CoState) : Prop :=
  state = .DATA_WAIT ∨ state = .IO_WAIT

/-- What `UpdateState` does to a waiting coroutine. -/
theorem UpdateState_waits (hwait : s.state_.Waits) (now : Time) :
    (s.UpdateState now).1 = (if s.updated_ then s.state_ else .READY) ∧
      (s.UpdateState now).2.state_ = (s.UpdateState now).1 := by
  have hsleep : s.state_ ≠ .SLEEP := by
    rcases hwait with h | h <;> simp [h]
  have hwait' : s.state_ = .DATA_WAIT ∨ s.state_ = .IO_WAIT := hwait
  cases hflag : s.updated_ <;> simp [State.UpdateState, hsleep, hwait', hflag]

/-- A notification leaves its trace in the flag. -/
def Flagged (s : State) : Prop :=
  s.notified = true → s.updated_ = true

theorem flagged_step (h : Step s a t) (hs : Flagged s) : Flagged t := by
  cases h with
  | Resume hpc =>
      have hframe := s.Resume_frame
      intro hnotified
      rw [hframe.2.1]
      exact hs (hframe.2.2.2.1 ▸ hnotified)
  | SetUpdateFlag hpc =>
      exact fun _ => rfl
  | UpdateState hpc =>
      intro hnotified
      simp [State.UpdateState_frame] at hnotified
  | suspend hpc =>
      rename_i how
      have hframe := s.suspend_frame how
      intro hnotified
      rw [hframe.2.2.1]
      exact hs (hframe.2.2.2.2.2.1 ▸ hnotified)
  | bodyReturn hpc =>
      unfold State.coEntryReturn
      split <;> exact hs
  | _ =>
      exact hs

theorem flagged_reachable {now : Time} (h : coroutine.Reachable (.new now) s) : Flagged s :=
  h.invariant (by simp [Flagged, State.new])
    fun _ _ _ hs ht => flagged_step (Step.of_step ht) hs

/-- A notification that has arrived is delivered by the next `UpdateState`. -/
def NotLost (s : State) : Prop :=
  s.notified = true → ∀ now, (s.UpdateState now).1 = .READY

/-- Without a notification `UpdateState` leaves the coroutine waiting. -/
def NotInvented (s : State) : Prop :=
  s.notified = false → ∀ now,
    (s.UpdateState now).1 = s.state_ ∧ (s.UpdateState now).2.state_ = s.state_

/-- In every reachable state in which the coroutine waits for data, the next `UpdateState` treats
it as the notifications ask exactly if there was none since the last `UpdateState` and the flag
has been set by some earlier call. -/
theorem notification_exact {now : Time} (h : coroutine.Reachable (.new now) s)
    (hwait : s.state_.Waits) :
    (NotLost s ∧ NotInvented s) ↔ (s.notified = false ∧ s.updated_ = true) := by
  have hready : s.state_ ≠ .READY := by
    rcases hwait with h | h <;> simp [h]
  have hupdate := fun now => UpdateState_waits hwait now
  cases hnotified : s.notified with
  | true =>
      -- The notification has set the flag, and `UpdateState` takes it for no notification.
      have hflag : s.updated_ = true := flagged_reachable h hnotified
      simp [NotLost, hnotified, hupdate, hflag, hready]
  | false =>
      cases hflag : s.updated_ with
      | true =>
          simp [NotLost, NotInvented, hnotified, hupdate, hflag]
      | false =>
          simp [NotLost, NotInvented, hnotified, hupdate, hflag, hready.symm]

/-- The body starts and waits for data. -/
def hangs : List Action :=
  [.Resume, .suspend .HangUp, .resumeReturn]

/-- A coroutine that was not notified goes on waiting at its second `UpdateState`, if it hangs up
again after the first. -/
theorem notification_exact_second_update :
    ∃ s, coroutine.exec (.new 0) (hangs ++ .UpdateState 1 :: hangs) = some s ∧
      NotLost s ∧ NotInvented s := by
  have hrun : coroutine.exec (.new 0) (hangs ++ .UpdateState 1 :: hangs) = some _ := rfl
  exact ⟨_, hrun, (notification_exact ⟨_, hrun⟩ (Or.inl rfl)).2 ⟨rfl, rfl⟩⟩

/-- A notification is lost, and another one is invented. -/
theorem notification_lost_and_invented :
    (∃ s, coroutine.exec (.new 0) (hangs ++ [.SetUpdateFlag]) = some s ∧ s.state_ = .DATA_WAIT ∧
        s.notified = true ∧ (s.UpdateState 1).1 = .DATA_WAIT) ∧
      ∃ s, coroutine.exec (.new 0) hangs = some s ∧ s.state_ = .DATA_WAIT ∧
        s.notified = false ∧ (s.UpdateState 1).1 = .READY := by
  exact ⟨⟨_, rfl, rfl, rfl, rfl⟩, ⟨_, rfl, rfl, rfl, rfl⟩⟩

end MzCoroutine
end Coroutine
end Mozi
