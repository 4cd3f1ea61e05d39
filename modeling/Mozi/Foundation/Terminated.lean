import Mathlib.Data.List.Basic
import Mathlib.Tactic.Common

/-!
# Terminated — texts written one after another, each followed by a mark
-/

namespace Mozi
namespace Foundation

variable {α : Type*} {mark : α} {xs ys : List α} {texts texts' : List (List α)}

def terminated (mark : α) (texts : List (List α)) : List α :=
  texts.flatMap (· ++ [mark])

@[simp] theorem terminated_nil : terminated mark [] = [] := rfl

theorem terminated_cons {text : List α} :
    terminated mark (text :: texts) = text ++ mark :: terminated mark texts := by
  simp [terminated]

theorem terminated_eq_nil : terminated mark texts = [] ↔ texts = [] := by
  cases texts <;> simp [terminated]

theorem mem_terminated {x : α} :
    x ∈ terminated mark texts ↔ ∃ text ∈ texts, x ∈ text ∨ x = mark := by
  simp [terminated]

/-- Texts with marks between them, and the mark that the last one lacks. -/
theorem intersperse_mark (hne : texts ≠ []) :
    (texts.intersperse [mark]).flatten ++ [mark] = terminated mark texts := by
  induction texts with
  | nil => exact absurd rfl hne
  | cons text texts ih =>
      rcases texts with _ | ⟨text', texts⟩
      · simp [terminated]
      · rw [terminated_cons, ← ih (List.cons_ne_nil text' texts)]
        simp

/-- Where the mark occurs in neither text, it ends both at one place. -/
theorem append_mark_inj {rest rest' : List α} (hx : mark ∉ xs) (hy : mark ∉ ys)
    (h : xs ++ mark :: rest = ys ++ mark :: rest') : xs = ys ∧ rest = rest' := by
  induction xs generalizing ys with
  | nil =>
      rcases ys with _ | ⟨y, ys⟩
      · exact ⟨rfl, by simpa using h⟩
      · have hhead : mark = y := by simpa using (List.cons.inj h).1
        exact absurd (hhead ▸ List.mem_cons_self) hy
  | cons x xs ih =>
      rcases ys with _ | ⟨y, ys⟩
      · have hhead : x = mark := by simpa using (List.cons.inj h).1
        exact absurd (hhead ▸ List.mem_cons_self) hx
      · obtain ⟨hhead, htail⟩ := List.cons.inj h
        obtain ⟨hxs, hrest⟩ := ih (fun hm => hx (List.mem_cons_of_mem x hm))
          (fun hm => hy (List.mem_cons_of_mem y hm)) htail
        exact ⟨by rw [hhead, hxs], hrest⟩

/-- The texts can be told from what is written of them. -/
theorem terminated_inj (hx : ∀ text ∈ texts, mark ∉ text) (hy : ∀ text ∈ texts', mark ∉ text)
    (h : terminated mark texts = terminated mark texts') : texts = texts' := by
  induction texts generalizing texts' with
  | nil => exact (terminated_eq_nil.1 h.symm).symm
  | cons text texts ih =>
      rcases texts' with _ | ⟨text', texts'⟩
      · exact terminated_eq_nil.1 h
      · rw [terminated_cons, terminated_cons] at h
        obtain ⟨hhead, htail⟩ := append_mark_inj (hx text List.mem_cons_self)
          (hy text' List.mem_cons_self) h
        rw [hhead, ih (fun t ht => hx t (List.mem_cons_of_mem text ht))
          (fun t ht => hy t (List.mem_cons_of_mem text' ht)) htail]

end Foundation
end Mozi
