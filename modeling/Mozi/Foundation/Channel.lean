import Mathlib.Data.List.Basic

/-!
# Channel — the abstract first-in first-out channel

The specification a queueing component is compared with: a history of what was sent, a history
of what was received, and the items under way.  A component refines the channel when each of its
steps is a channel step of its abstraction; conservation then gives first-in first-out delivery
with no loss, duplication or reordering.
-/

namespace Mozi
namespace Foundation

universe u

structure Channel (α : Type u) where
  sent : List α
  received : List α
  queued : List α

namespace Channel

variable {α : Type u} {c d : Channel α}

def empty : Channel α :=
  { sent := []
    received := []
    queued := [] }

inductive Step : Channel α → Channel α → Prop
  | stutter (c : Channel α) : Step c c
  | send (c : Channel α) (x : α) :
      Step c { c with sent := c.sent ++ [x], queued := c.queued ++ [x] }
  | receive (c : Channel α) (x : α) (rest : List α) (hqueued : c.queued = x :: rest) :
      Step c { c with received := c.received ++ [x], queued := rest }

/-- What was sent is what was received followed by what is under way, in order. -/
def Conserved (c : Channel α) : Prop :=
  c.sent = c.received ++ c.queued

theorem conserved_empty : (empty : Channel α).Conserved := rfl

theorem Step.conserved (h : Step c d) (hc : c.Conserved) : d.Conserved := by
  cases h with
  | stutter =>
      exact hc
  | send x =>
      calc
        c.sent ++ [x] = (c.received ++ c.queued) ++ [x] := by rw [hc]
        _ = c.received ++ (c.queued ++ [x]) := List.append_assoc _ _ _
  | receive x rest hqueued =>
      calc
        c.sent = c.received ++ x :: rest := by rw [hc, hqueued]
        _ = (c.received ++ [x]) ++ rest := by simp

namespace Conserved

theorem received_prefix (hc : c.Conserved) : c.received <+: c.sent :=
  ⟨c.queued, hc.symm⟩

theorem mem_sent (hc : c.Conserved) {x : α} : x ∈ c.sent ↔ x ∈ c.received ∨ x ∈ c.queued := by
  rw [hc, List.mem_append]

end Conserved

end Channel

end Foundation
end Mozi
