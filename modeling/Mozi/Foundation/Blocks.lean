import Mathlib.Data.List.Infix
import Mathlib.Data.List.Lex

/-!
# Blocks — what stands together in a sorted list

A property that holds between any two elements that have it holds on one block of every sorted list.
In the lexicographic order the lists with a common beginning are such a property.
-/

namespace Mozi
namespace Foundation

universe u

variable {α : Type u} {lt : α → α → Prop} {p : α → Bool} {l : List α}

/-- Between two elements with the property there are only elements with it. -/
def Convex (lt : α → α → Prop) (p : α → Bool) : Prop :=
  ∀ a b c, lt a b → lt b c → p a = true → p c = true → p b = true

/-- Elements that come before all others of the list stand at its beginning. -/
theorem filter_front (h : l.Pairwise fun a b => p b = true → p a = true) : l.filter p <+: l := by
  induction l with
  | nil =>
      simp
  | cons a l ih =>
      obtain ⟨ha, hl⟩ := List.pairwise_cons.1 h
      cases hp : p a with
      | true =>
          rw [List.filter_cons_of_pos hp, List.prefix_cons_inj]
          exact ih hl
      | false =>
          have hnone : l.filter p = [] := by
            rw [List.filter_eq_nil_iff]
            intro b hb hpb
            rw [ha b hb hpb] at hp
            cases hp
          rw [List.filter_cons_of_neg (by simp [hp]), hnone]
          exact List.nil_prefix

/-- A convex property holds on one block of a sorted list. -/
theorem filter_block (hconvex : Convex lt p) (hsorted : l.Pairwise lt) : l.filter p <:+: l := by
  induction l with
  | nil =>
      simp
  | cons a l ih =>
      obtain ⟨ha, hl⟩ := List.pairwise_cons.1 hsorted
      cases hp : p a with
      | true =>
          -- From here on the property ends once only.
          have hdown : l.Pairwise fun b c => p c = true → p b = true := by
            refine List.Pairwise.imp_of_mem ?_ hl
            intro b c hb _ hbc hpc
            exact hconvex a b c (ha b hb) hbc hp hpc
          rw [List.filter_cons_of_pos hp]
          exact ((List.prefix_cons_inj a).2 (filter_front hdown)).isInfix
      | false =>
          rw [List.filter_cons_of_neg (by simp [hp])]
          exact (ih hl).trans (List.suffix_cons a l).isInfix

/-- Elements with the stronger property are found among those with the weaker one. -/
theorem filter_inside {q : α → Bool} (l : List α) (h : ∀ a, p a = true → q a = true) :
    l.filter p = (l.filter q).filter p := by
  rw [List.filter_filter]
  refine List.filter_congr fun a _ => ?_
  rw [Bool.eq_iff_iff, Bool.and_eq_true]
  exact ⟨fun hp => ⟨hp, h a hp⟩, fun hpq => hpq.1⟩

/-- A list that is neither before nor behind two lists with a common beginning has that beginning,
too. -/
theorem take_eq_of_between [LT α] (hconnex : ∀ x y : α, ¬ x < y → ¬ y < x → x = y) {n : Nat}
    {as bs cs : List α} (hab : ¬ bs < as) (hbc : ¬ cs < bs) (hsame : as.take n = cs.take n) :
    bs.take n = as.take n := by
  induction n generalizing as bs cs with
  | zero =>
      simp
  | succ n ih =>
      rcases as with _ | ⟨a, as⟩
      · rcases cs with _ | ⟨c, cs⟩
        · rcases bs with _ | ⟨b, bs⟩
          · rfl
          · simp at hbc
        · simp at hsame
      rcases cs with _ | ⟨c, cs⟩
      · simp at hsame
      rcases bs with _ | ⟨b, bs⟩
      · simp at hab
      simp only [List.take_succ_cons, List.cons.injEq] at hsame ⊢
      obtain ⟨rfl, hsame⟩ := hsame
      rw [List.cons_lt_cons_iff] at hab hbc
      have heq : b = a := hconnex b a (fun hlt => hab (Or.inl hlt)) fun hgt => hbc (Or.inl hgt)
      subst heq
      have hrest := ih (fun hlt => hab (Or.inr ⟨rfl, hlt⟩)) (fun hgt => hbc (Or.inr ⟨rfl, hgt⟩)) hsame
      exact ⟨rfl, hrest⟩

end Foundation
end Mozi
