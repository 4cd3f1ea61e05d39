import Mathlib.Data.List.Basic

/-!
# RemoveIf — `std::remove_if` on a sequence of cells

The algorithm moves the elements that stay to the front, in order, and returns the new end.  The
cells behind it keep whatever they held (`removeIf_eq`), so they are the removed elements only if
nothing that stays comes after something that goes (`drop_eq_filter`).
-/

namespace Mozi
namespace Foundation

universe u

variable {α : Type u} (pred : α → Bool)

/-- The elements that stay. -/
def keptBy (cells : List α) : List α :=
  cells.filter fun x => !pred x

/-- The loop of `std::remove_if`: `first` reads the cells one after another, `result` is where the
next element that stays is moved to. -/
def removeIfLoop : Nat → Nat → Nat → List α → List α × Nat
  | 0, _, result, cells => (cells, result)
  | rounds + 1, first, result, cells =>
      match cells[first]? with
      | none => (cells, result)
      | some x =>
          if pred x then
            removeIfLoop rounds (first + 1) result cells
          else
            removeIfLoop rounds (first + 1) (result + 1) (cells.set result x)

/-- The cells afterwards, and the new end. -/
def removeIf (cells : List α) : List α × Nat :=
  removeIfLoop pred cells.length 0 0 cells

variable {pred}

theorem keptBy_cons_of_pos {x : α} {cells : List α} (hx : pred x = true) :
    keptBy pred (x :: cells) = keptBy pred cells := by
  simp [keptBy, hx]

theorem keptBy_append_singleton {x : α} {cells : List α} (hx : pred x = false) :
    keptBy pred (cells ++ [x]) = keptBy pred cells ++ [x] := by
  simp [keptBy, hx]

theorem length_keptBy_le (pred : α → Bool) (cells : List α) :
    (keptBy pred cells).length ≤ cells.length :=
  List.length_filter_le _ _

/-- The loop from the cells `rest` on: the ones before are read, and their kept elements moved. -/
theorem removeIfLoop_eq (pred : α → Bool) (before rest : List α) :
    removeIfLoop pred rest.length before.length (keptBy pred before).length
        (keptBy pred before ++ (before ++ rest).drop (keptBy pred before).length) =
      (keptBy pred (before ++ rest) ++ (before ++ rest).drop (keptBy pred (before ++ rest)).length,
        (keptBy pred (before ++ rest)).length) := by
  induction rest generalizing before with
  | nil =>
      simp [removeIfLoop]
  | cons x rest ih =>
      have hle := length_keptBy_le pred before
      -- The cell that is read has not been written yet.
      have hread : (keptBy pred before ++
          (before ++ x :: rest).drop (keptBy pred before).length)[before.length]? = some x := by
        rw [List.getElem?_append_right hle, List.getElem?_drop, Nat.add_sub_of_le hle]
        simp
      have hassoc : before ++ x :: rest = before ++ [x] ++ rest := by simp
      have hnext := ih (before ++ [x])
      rw [← hassoc, List.length_append, List.length_singleton] at hnext
      simp only [List.length_cons, removeIfLoop, hread]
      split_ifs with hx
      · have hsame : keptBy pred (before ++ [x]) = keptBy pred before := by
          simp [keptBy, hx]
        rw [hsame] at hnext
        exact hnext
      · rw [keptBy_append_singleton (by simpa using hx), List.length_append,
          List.length_singleton] at hnext
        rw [← hnext]
        congr 1
        -- Moving `x` to the result overwrites the first cell behind the kept ones.
        have hlt : (keptBy pred before).length < (before ++ x :: rest).length := by
          simp only [List.length_append, List.length_cons]
          omega
        rw [List.drop_eq_getElem_cons hlt, List.set_append_right _ _ (Nat.le_refl _), Nat.sub_self,
          List.set_cons_zero, List.append_assoc, List.singleton_append]

theorem removeIf_eq (cells : List α) :
    removeIf pred cells =
      (keptBy pred cells ++ cells.drop (keptBy pred cells).length,
        (keptBy pred cells).length) := by
  have h := removeIfLoop_eq pred [] cells
  simpa [removeIf, keptBy] using h

/-! ## When the tail is what was removed -/

/-- Where nothing that stays comes after something that goes, the cells behind the new end are the
elements that go. -/
theorem drop_eq_filter {cells : List α}
    (h : cells.Pairwise fun x y => pred x = true → pred y = true) :
    cells.drop (keptBy pred cells).length = cells.filter pred := by
  induction cells with
  | nil =>
      rfl
  | cons x cells ih =>
      rcases List.pairwise_cons.1 h with ⟨hx, hrest⟩
      cases hpred : pred x with
      | true =>
          have hall : ∀ y ∈ cells, pred y = true := fun y hy => hx y hy hpred
          have hkept : keptBy pred (x :: cells) = [] := by
            rw [keptBy_cons_of_pos hpred]
            exact List.filter_eq_nil_iff.2 fun y hy => by simp [hall y hy]
          rw [hkept, List.length_nil, List.drop_zero, List.filter_cons_of_pos hpred,
            List.filter_eq_self.2 hall]
      | false =>
          have hkept : keptBy pred (x :: cells) = x :: keptBy pred cells := by
            simp [keptBy, hpred]
          rw [hkept, List.length_cons, List.drop_succ_cons, ih hrest,
            List.filter_cons_of_neg (by simp [hpred])]

/-- Among distinct elements, a tail of elements that go, which are all of them, comes after
everything that stays. -/
theorem pairwise_of_drop {cells : List α} {k : Nat} (hnodup : cells.Nodup)
    (htail : ∀ x ∈ cells, (x ∈ cells.drop k ↔ pred x = true)) :
    cells.Pairwise fun x y => pred x = true → pred y = true := by
  have hsplit := List.take_append_drop k cells
  have hdisjoint : ∀ x ∈ cells.take k, x ∉ cells.drop k := by
    rw [← hsplit] at hnodup
    intro x hx hx'
    exact (List.nodup_append.1 hnodup).2.2 x hx x hx' rfl
  rw [← hsplit, List.pairwise_append]
  refine ⟨?_, ?_, ?_⟩
  · -- Nothing in the front part goes.
    refine List.pairwise_of_forall_mem_list ?_
    intro x hx y _ hpred
    exact absurd ((htail x (List.mem_of_mem_take hx)).2 hpred) (hdisjoint x hx)
  · refine List.pairwise_of_forall_mem_list ?_
    intro x _ y hy _
    exact (htail y (List.mem_of_mem_drop hy)).1 hy
  · intro x _ y hy _
    exact (htail y (List.mem_of_mem_drop hy)).1 hy

end Foundation
end Mozi
