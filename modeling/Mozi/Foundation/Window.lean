import Mathlib.Data.Set.Basic

/-!
# Window — sets that lie in an interval

A window between two bounds and the members in it.  The operations take any set and keep what lies
in the window.
-/

namespace Mozi
namespace Foundation

universe u

structure Window (α : Type u) [LE α] where
  low : α
  high : α
  members : Set α
  inside : ∀ v ∈ members, low ≤ v ∧ v ≤ high

namespace Window

variable {α : Type u} [LE α]

/-- The empty window. -/
def opened (low high : α) : Window α :=
  ⟨low, high, ∅, fun _ h => h.elim⟩

/-- The members are those of `A`. -/
def load (w : Window α) (A : Set α) : Window α :=
  ⟨w.low, w.high, { v | v ∈ A ∧ w.low ≤ v ∧ v ≤ w.high }, fun _ h => h.2⟩

/-- The members are the old ones and those of `A`. -/
def fill (w : Window α) (A : Set α) : Window α :=
  w.load (w.members ∪ A)

/-- `x` is no member any more. -/
def drop (w : Window α) (x : α) : Window α :=
  w.load (w.members \ {x})

/-- The members that lie in another window. -/
def moveTo (w : Window α) (low high : α) : Window α :=
  (opened low high).load w.members

variable {w : Window α} {A : Set α} {low high v x : α}

@[simp] theorem opened_low : (opened low high).low = low := rfl

@[simp] theorem opened_high : (opened low high).high = high := rfl

@[simp] theorem mem_opened : ¬ v ∈ (opened low high).members :=
  id

@[simp] theorem load_low : (w.load A).low = w.low := rfl

@[simp] theorem load_high : (w.load A).high = w.high := rfl

@[simp] theorem mem_load : v ∈ (w.load A).members ↔ v ∈ A ∧ w.low ≤ v ∧ v ≤ w.high := Iff.rfl

@[simp] theorem fill_low : (w.fill A).low = w.low := rfl

@[simp] theorem fill_high : (w.fill A).high = w.high := rfl

theorem mem_fill : v ∈ (w.fill A).members ↔ v ∈ w.members ∨ v ∈ A ∧ w.low ≤ v ∧ v ≤ w.high := by
  constructor
  · rintro ⟨hmem | hA, hin⟩
    · exact Or.inl hmem
    · exact Or.inr ⟨hA, hin⟩
  · rintro (hmem | ⟨hA, hin⟩)
    · exact ⟨Or.inl hmem, w.inside v hmem⟩
    · exact ⟨Or.inr hA, hin⟩

@[simp] theorem drop_low : (w.drop x).low = w.low := rfl

@[simp] theorem drop_high : (w.drop x).high = w.high := rfl

theorem mem_drop : v ∈ (w.drop x).members ↔ v ∈ w.members ∧ v ≠ x := by
  constructor
  · rintro ⟨hmem, _⟩
    exact hmem
  · intro hmem
    exact ⟨hmem, w.inside v hmem.1⟩

@[simp] theorem moveTo_low : (w.moveTo low high).low = low := rfl

@[simp] theorem moveTo_high : (w.moveTo low high).high = high := rfl

@[simp] theorem mem_moveTo :
    v ∈ (w.moveTo low high).members ↔ v ∈ w.members ∧ low ≤ v ∧ v ≤ high := Iff.rfl

end Window

end Foundation
end Mozi
