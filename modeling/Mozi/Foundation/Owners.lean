import Mozi.Foundation.Heap

/-!
# Owners — who holds which block of a heap

A family of owners, each of which holds one block or none, on a heap that was there before them.
`Books` says that every block is held by one owner, was there before, or has been left behind.  The
rules are one for each thing an owner can do: `Books.moves` for a call that frees the block it gives
up, `Books.leaves` for one that does not.
-/

namespace Mozi
namespace Foundation

universe u

variable {ι : Type u} [DecidableEq ι]

/-- `h₀` is the heap before, and `lost` are the blocks that were left behind. -/
structure Books (h₀ h : Heap) (holds : ι → Option Nat) (lost : List Nat) : Prop where
  live : ∀ a, h a ≠ none ↔ h₀ a ≠ none ∨ (∃ i, holds i = some a) ∨ a ∈ lost
  before : ∀ a, h₀ a ≠ none → h a = h₀ a ∧ (∀ i, holds i ≠ some a) ∧ a ∉ lost
  apart : ∀ i j a, holds i = some a → holds j = some a → i = j
  not_lost : ∀ i a, holds i = some a → a ∉ lost

namespace Books

variable {h₀ h h' : Heap} {holds : ι → Option Nat} {lost : List Nat} {i : ι} {d' : Option Nat}

omit [DecidableEq ι] in
theorem init (h₀ : Heap) : Books h₀ h₀ (fun _ : ι => none) [] where
  live a := by simp
  before a _ := by simp
  apart := by simp
  not_lost := by simp

omit [DecidableEq ι] in
theorem live_of_holds (hb : Books h₀ h holds lost) {a : Nat} (hi : holds i = some a) : h a ≠ none :=
  (hb.live a).2 (Or.inr (Or.inl ⟨i, hi⟩))

/-- Who holds a block after owner `i` has changed its own. -/
theorem update_eq_some {j : ι} {a : Nat} :
    Function.update holds i d' j = some a ↔ j = i ∧ d' = some a ∨ j ≠ i ∧ holds j = some a := by
  by_cases hj : j = i
  · subst hj
    simp
  · simp [hj]

omit [DecidableEq ι] in
/-- A live block that is not the old block of owner `i` is not its new one either. -/
theorem untouched (hfresh : ∀ a, d' = some a → holds i = some a ∨ h a = none) {a : Nat}
    (hlive : h a ≠ none) (hi : holds i ≠ some a) : d' ≠ some a := by
  intro hd
  rcases hfresh a hd with hold | hfree
  · exact hi hold
  · exact hlive hfree

/-- Owner `i` gives its block up for another one and frees it. -/
theorem moves (hb : Books h₀ h holds lost) (hm : Heap.Moves h h' (holds i) d')
    (hlive : ∀ a, d' = some a → h' a ≠ none) :
    Books h₀ h' (Function.update holds i d') lost where
  live a := by
    constructor
    · intro ha
      by_cases hd : d' = some a
      · exact Or.inr (Or.inl ⟨i, update_eq_some.2 (Or.inl ⟨rfl, hd⟩)⟩)
      · have hi : holds i ≠ some a := fun hi => ha ((hm.freed a hi).resolve_left hd)
        rw [hm.frame a hi hd] at ha
        rcases (hb.live a).1 ha with hold | ⟨j, hj⟩ | hlost
        · exact Or.inl hold
        · refine Or.inr (Or.inl ⟨j, update_eq_some.2 (Or.inr ⟨?_, hj⟩)⟩)
          rintro rfl
          exact hi hj
        · exact Or.inr (Or.inr hlost)
    · have hother : h a ≠ none → holds i ≠ some a → h' a ≠ none := by
        intro ha hi
        rwa [hm.frame a hi (untouched hm.fresh ha hi)]
      rintro (hold | ⟨j, hj⟩ | hlost)
      · exact hother ((hb.live a).2 (Or.inl hold)) ((hb.before a hold).2.1 i)
      · rcases update_eq_some.1 hj with ⟨rfl, hd⟩ | ⟨hne, hj⟩
        · exact hlive a hd
        · exact hother (hb.live_of_holds hj) fun hi => hne (hb.apart j i a hj hi)
      · exact hother ((hb.live a).2 (Or.inr (Or.inr hlost))) fun hi => hb.not_lost i a hi hlost
  before a hold := by
    obtain ⟨heq, hnone, hlost⟩ := hb.before a hold
    have hd := untouched hm.fresh ((hb.live a).2 (Or.inl hold)) (hnone i)
    refine ⟨(hm.frame a (hnone i) hd).trans heq, ?_, hlost⟩
    intro j hj
    rcases update_eq_some.1 hj with ⟨-, hd'⟩ | ⟨-, hj⟩
    · exact hd hd'
    · exact hnone j hj
  apart j k a hj hk := by
    -- The new block of `i` is not one that another owner holds.
    have hnew : ∀ j, j ≠ i → holds j = some a → d' ≠ some a := by
      intro j hne hj
      exact untouched hm.fresh (hb.live_of_holds hj) fun hi => hne (hb.apart j i a hj hi)
    rcases update_eq_some.1 hj with ⟨rfl, hd⟩ | ⟨hne, hj'⟩
    · rcases update_eq_some.1 hk with ⟨rfl, -⟩ | ⟨hne, hk'⟩
      · rfl
      · exact absurd hd (hnew k hne hk')
    · rcases update_eq_some.1 hk with ⟨rfl, hd⟩ | ⟨-, hk'⟩
      · exact absurd hd (hnew j hne hj')
      · exact hb.apart j k a hj' hk'
  not_lost j a hj := by
    rcases update_eq_some.1 hj with ⟨rfl, hd⟩ | ⟨-, hj⟩
    · intro hlost
      exact untouched hm.fresh ((hb.live a).2 (Or.inr (Or.inr hlost)))
        (fun hi => hb.not_lost _ a hi hlost) hd
    · exact hb.not_lost j a hj

/-- Owner `i` gives up its block without freeing it. -/
theorem abandon (hb : Books h₀ h holds lost) {d : Nat} (hi : holds i = some d) :
    Books h₀ h (Function.update holds i none) (lost ++ [d]) where
  live a := by
    rw [hb.live a]
    constructor
    · rintro (hold | ⟨j, hj⟩ | hlost)
      · exact Or.inl hold
      · by_cases hji : j = i
        · subst hji
          rw [hi] at hj
          cases hj
          exact Or.inr (Or.inr (by simp))
        · exact Or.inr (Or.inl ⟨j, update_eq_some.2 (Or.inr ⟨hji, hj⟩)⟩)
      · exact Or.inr (Or.inr (by simp [hlost]))
    · rintro (hold | ⟨j, hj⟩ | hlost)
      · exact Or.inl hold
      · rcases update_eq_some.1 hj with ⟨-, hd⟩ | ⟨-, hj⟩
        · cases hd
        · exact Or.inr (Or.inl ⟨j, hj⟩)
      · rcases List.mem_append.1 hlost with hlost | hlost
        · exact Or.inr (Or.inr hlost)
        · obtain rfl := List.mem_singleton.1 hlost
          exact Or.inr (Or.inl ⟨i, hi⟩)
  before a hold := by
    obtain ⟨heq, hnone, hlost⟩ := hb.before a hold
    refine ⟨heq, ?_, ?_⟩
    · intro j hj
      rcases update_eq_some.1 hj with ⟨-, hd⟩ | ⟨-, hj⟩
      · cases hd
      · exact hnone j hj
    · intro hmem
      rcases List.mem_append.1 hmem with hmem | hmem
      · exact hlost hmem
      · exact hnone i (by rw [hi, List.mem_singleton.1 hmem])
  apart j k a hj hk := by
    rcases update_eq_some.1 hj with ⟨-, hd⟩ | ⟨-, hj⟩
    · cases hd
    · rcases update_eq_some.1 hk with ⟨-, hd⟩ | ⟨-, hk⟩
      · cases hd
      · exact hb.apart j k a hj hk
  not_lost j a hj := by
    rcases update_eq_some.1 hj with ⟨-, hd⟩ | ⟨hne, hj⟩
    · cases hd
    · intro hmem
      rcases List.mem_append.1 hmem with hmem | hmem
      · exact hb.not_lost j a hj hmem
      · rw [List.mem_singleton.1 hmem] at hj
        exact hne (hb.apart j i d hj hi)

/-- Owner `i` takes a new block and leaves its old one, if it has one, behind. -/
theorem leaves (hb : Books h₀ h holds lost) (hm : Heap.Moves h h' none d')
    (hlive : ∀ a, d' = some a → h' a ≠ none) :
    Books h₀ h' (Function.update holds i d') (lost ++ (holds i).toList) := by
  cases hi : holds i with
  | none =>
      rw [Option.toList_none, List.append_nil]
      exact hb.moves (by rwa [hi]) hlive
  | some d =>
      have hgiven := hb.abandon hi
      have hnone : Function.update holds i none i = none := Function.update_self ..
      have hend := hgiven.moves (i := i) (by rwa [hnone]) hlive
      rwa [Function.update_idem] at hend

omit [DecidableEq ι] in
/-- When nobody holds a block any more, the heap is what it was exactly if none was left behind. -/
theorem restored_iff (hb : Books h₀ h holds lost) (hnone : ∀ i, holds i = none) :
    h = h₀ ↔ lost = [] := by
  constructor
  · rintro rfl
    rw [List.eq_nil_iff_forall_not_mem]
    intro a hlost
    exact (hb.before a ((hb.live a).2 (Or.inr (Or.inr hlost)))).2.2 hlost
  · rintro rfl
    funext a
    by_cases hold : h₀ a = none
    · rw [hold]
      by_contra hlive
      rcases (hb.live a).1 hlive with hne | ⟨i, hi⟩ | hlost
      · exact hne hold
      · rw [hnone i] at hi
        cases hi
      · cases hlost
    · exact (hb.before a hold).1

end Books

end Foundation
end Mozi
