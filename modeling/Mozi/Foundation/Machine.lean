import Mathlib.Data.List.Basic

/-!
# Machine — partial labelled transition functions

A machine is a partial step function on states, driven by labels.  The module provides

* `Machine.exec`, the run of a list of labels (a schedule);
* `Machine.Along`, the predicate that every step of a run meets a condition on the state
  before the step and the label;
* the invariant rules `exec_invariant`, `exec_preserves`, `along_iff_invariant`, `along_congr`,
  `exec_total` and `Reachable.invariant`, which package the induction over runs once;
* the simulation rules `exec_refines`, for an abstract step that is a function, `exec_map`, for a
  machine that reads less of the states, and `stays_iff_along`, for two machines that stay together
  while a condition holds.
-/

namespace Mozi
namespace Foundation

universe u v

/-- A labelled transition system given by its partial step function: `none` says that the step
with this label cannot be taken in this state. -/
structure Machine (σ : Type u) (α : Type v) where
  step : σ → α → Option σ

namespace Machine

variable {σ : Type u} {α : Type v} (M : Machine σ α)

/-! ## Runs -/

/-- The state reached by taking the steps of a schedule one after another. -/
def exec : σ → List α → Option σ
  | s, [] => some s
  | s, a :: tr => (M.step s a).bind fun t => exec t tr

@[simp] theorem exec_nil (s : σ) : M.exec s [] = some s := rfl

theorem exec_cons {s u : σ} {a : α} {tr : List α} :
    M.exec s (a :: tr) = some u ↔ ∃ t, M.step s a = some t ∧ M.exec t tr = some u := by
  simp [exec, Option.bind_eq_some_iff]

theorem exec_append {s u : σ} {tr₁ tr₂ : List α} :
    M.exec s (tr₁ ++ tr₂) = some u ↔
      ∃ t, M.exec s tr₁ = some t ∧ M.exec t tr₂ = some u := by
  induction tr₁ generalizing s with
  | nil =>
      simp
  | cons a tr₁ ih =>
      constructor
      · intro h
        rcases (M.exec_cons).1 h with ⟨t, ht, hrest⟩
        rcases ih.1 hrest with ⟨t', ht', hu⟩
        exact ⟨t', (M.exec_cons).2 ⟨t, ht, ht'⟩, hu⟩
      · rintro ⟨t', ht', hu⟩
        rcases (M.exec_cons).1 ht' with ⟨t, ht, hrest⟩
        exact (M.exec_cons).2 ⟨t, ht, ih.2 ⟨t', hrest, hu⟩⟩

theorem exec_singleton {s t : σ} {a : α} : M.exec s [a] = some t ↔ M.step s a = some t := by
  simp [exec]

/-! ## Conditions along a run -/

/-- Every step of the run from `s` meets `P`, read on the state before the step. -/
def Along (P : σ → α → Prop) : σ → List α → Prop
  | _, [] => True
  | s, a :: tr => P s a ∧ ∀ t, M.step s a = some t → Along P t tr

@[simp] theorem along_nil (P : σ → α → Prop) (s : σ) : M.Along P s [] := trivial

theorem Along.cons {P : σ → α → Prop} {s t : σ} {a : α} {tr : List α} (ht : M.step s a = some t)
    (ha : P s a) (hrest : M.Along P t tr) : M.Along P s (a :: tr) := by
  refine ⟨ha, ?_⟩
  intro u hu
  rw [ht] at hu
  cases hu
  exact hrest

/-- A condition that only reads the labels holds along a run of labels that meet it. -/
theorem along_of_forall_mem {Q : α → Prop} {s : σ} {tr : List α} (h : ∀ a ∈ tr, Q a) :
    M.Along (fun _ a => Q a) s tr := by
  induction tr generalizing s with
  | nil =>
      exact M.along_nil _ s
  | cons a tr ih =>
      refine ⟨h a (by simp), ?_⟩
      intro t _
      exact ih (fun b hb => h b (List.mem_cons_of_mem a hb))

theorem Along.and {P Q : σ → α → Prop} {s : σ} {tr : List α}
    (hP : M.Along P s tr) (hQ : M.Along Q s tr) :
    M.Along (fun s a => P s a ∧ Q s a) s tr := by
  induction tr generalizing s with
  | nil =>
      exact M.along_nil _ s
  | cons a tr ih =>
      rcases hP with ⟨hPa, hPt⟩
      rcases hQ with ⟨hQa, hQt⟩
      exact ⟨⟨hPa, hQa⟩, fun t ht => ih (hPt t ht) (hQt t ht)⟩

theorem along_append {P : σ → α → Prop} {s : σ} {tr₁ tr₂ : List α} :
    M.Along P s (tr₁ ++ tr₂) ↔
      M.Along P s tr₁ ∧ ∀ t, M.exec s tr₁ = some t → M.Along P t tr₂ := by
  induction tr₁ generalizing s with
  | nil =>
      simp
  | cons a tr₁ ih =>
      constructor
      · rintro ⟨ha, hrest⟩
        refine ⟨⟨ha, fun t ht => (ih.1 (hrest t ht)).1⟩, ?_⟩
        intro u hu
        rcases (M.exec_cons).1 hu with ⟨t, ht, htu⟩
        exact (ih.1 (hrest t ht)).2 u htu
      · rintro ⟨⟨ha, hfirst⟩, hlast⟩
        refine ⟨ha, fun t ht => ih.2 ⟨hfirst t ht, ?_⟩⟩
        intro u hu
        exact hlast u ((M.exec_cons).2 ⟨t, ht, hu⟩)

/-! ## Invariant rules -/

/-- A property that every permitted step preserves is preserved by every permitted run. -/
theorem exec_invariant {I : σ → Prop} {P : σ → α → Prop}
    (hstep : ∀ s a t, I s → P s a → M.step s a = some t → I t) :
    ∀ {tr : List α} {s t : σ}, I s → M.Along P s tr → M.exec s tr = some t → I t := by
  intro tr
  induction tr with
  | nil =>
      intro s t hs _ hexec
      cases hexec
      exact hs
  | cons a tr ih =>
      intro s t hs halong hexec
      rcases (M.exec_cons).1 hexec with ⟨s', hs', hrest⟩
      exact ih (hstep s a s' hs halong.1 hs') (halong.2 s' hs') hrest

/-- What every step preserves holds at the end of every run. -/
theorem exec_preserves {I : σ → Prop} (hstep : ∀ s a t, I s → M.step s a = some t → I t)
    {tr : List α} {s t : σ} (hs : I s) (hexec : M.exec s tr = some t) : I t := by
  have halong : M.Along (fun _ _ => True) s tr :=
    M.along_of_forall_mem (Q := fun _ => True) (fun _ _ => trivial)
  exact M.exec_invariant (P := fun _ _ => True) (fun s a t hs _ ht => hstep s a t hs ht)
    hs halong hexec

/-- Where a step from a state with the property keeps it exactly if it meets the condition, a run
has the property in every state it passes exactly if all its steps meet the condition. -/
theorem along_iff_invariant {I : σ → Prop} {P : σ → α → Prop} {Q : α → Prop}
    (hstep : ∀ s a t, I s → Q a → M.step s a = some t → (I t ↔ P s a)) :
    ∀ {tr : List α} {s u : σ}, I s → (∀ a ∈ tr, Q a) → M.exec s tr = some u →
      ((∀ tr₁ t, tr₁ <+: tr → M.exec s tr₁ = some t → I t) ↔ M.Along P s tr) := by
  intro tr
  induction tr with
  | nil =>
      intro s u hs _ _
      refine ⟨fun _ => M.along_nil P s, ?_⟩
      intro _ tr₁ t hpre ht
      rw [List.prefix_nil.1 hpre] at ht
      cases ht
      exact hs
  | cons a tr ih =>
      intro s u hs hQ hexec
      rcases (M.exec_cons).1 hexec with ⟨s', hs', hrest⟩
      have hQa : Q a := hQ a (by simp)
      have hQtr : ∀ b ∈ tr, Q b := fun b hb => hQ b (List.mem_cons_of_mem a hb)
      constructor
      · intro hall
        have hI : I s' := by
          refine hall [a] s' ?_ ((M.exec_singleton).2 hs')
          exact (List.prefix_cons_inj a).2 List.nil_prefix
        refine Along.cons M hs' ((hstep s a s' hs hQa hs').1 hI) ?_
        refine (ih hI hQtr hrest).1 ?_
        intro tr₁ t hpre ht
        exact hall (a :: tr₁) t ((List.prefix_cons_inj a).2 hpre) ((M.exec_cons).2 ⟨s', hs', ht⟩)
      · rintro ⟨ha, hrest'⟩ tr₁ t hpre ht
        have hI : I s' := (hstep s a s' hs hQa hs').2 ha
        cases tr₁ with
        | nil =>
            cases ht
            exact hs
        | cons b tr₁ =>
            rcases List.cons_prefix_cons.1 hpre with ⟨rfl, hpre'⟩
            rcases (M.exec_cons).1 ht with ⟨t', ht', htt⟩
            rw [hs'] at ht'
            cases ht'
            exact (ih hI hQtr hrest).2 (hrest' s' hs') tr₁ t hpre' htt

/-- Conditions that are the same for every step from a state with the property are the same along
every run. -/
theorem along_congr {I : σ → Prop} {P Q : σ → α → Prop}
    (hstep : ∀ s a t, I s → M.step s a = some t → I t ∧ (P s a ↔ Q s a)) :
    ∀ {tr : List α} {s u : σ}, I s → M.exec s tr = some u →
      (M.Along P s tr ↔ M.Along Q s tr) := by
  intro tr
  induction tr with
  | nil =>
      intro s u _ _
      exact Iff.rfl
  | cons a tr ih =>
      intro s u hs hexec
      rcases (M.exec_cons).1 hexec with ⟨s', hs', hrest⟩
      obtain ⟨hI, hiff⟩ := hstep s a s' hs hs'
      have hlater := ih hI hrest
      constructor
      · rintro ⟨ha, hall⟩
        exact Along.cons M hs' (hiff.1 ha) (hlater.1 (hall s' hs'))
      · rintro ⟨ha, hall⟩
        exact Along.cons M hs' (hiff.2 ha) (hlater.2 (hall s' hs'))

/-- If every permitted step can be taken and preserves a property, every permitted run can be
taken and preserves it. -/
theorem exec_total {I : σ → Prop} {P : σ → α → Prop}
    (hstep : ∀ s a, I s → P s a → ∃ t, M.step s a = some t ∧ I t) :
    ∀ {tr : List α} {s : σ}, I s → M.Along P s tr → ∃ t, M.exec s tr = some t ∧ I t := by
  intro tr
  induction tr with
  | nil =>
      intro s hs _
      exact ⟨s, rfl, hs⟩
  | cons a tr ih =>
      intro s hs halong
      rcases hstep s a hs halong.1 with ⟨s', hs', hinv⟩
      rcases ih hinv (halong.2 s' hs') with ⟨t, ht, hend⟩
      exact ⟨t, (M.exec_cons).2 ⟨s', hs', ht⟩, hend⟩

/-- If every permitted step from a state that represents `w` can be taken and represents what the
abstract step makes of `w`, a permitted run represents the abstract run. -/
theorem exec_refines {τ : Type*} {R : σ → τ → Prop} {P : σ → α → Prop} {f : τ → α → τ}
    (hstep : ∀ s w a, R s w → P s a → ∃ t, M.step s a = some t ∧ R t (f w a)) :
    ∀ {tr : List α} {s : σ} {w : τ}, R s w → M.Along P s tr →
      ∃ t, M.exec s tr = some t ∧ R t (tr.foldl f w) := by
  intro tr
  induction tr with
  | nil =>
      intro s w hs _
      exact ⟨s, rfl, hs⟩
  | cons a tr ih =>
      intro s w hs halong
      obtain ⟨s', hs', hrel⟩ := hstep s w a hs halong.1
      obtain ⟨t, ht, hend⟩ := ih hrel (halong.2 s' hs')
      exact ⟨t, (M.exec_cons).2 ⟨s', hs', ht⟩, hend⟩

/-- If every step is one of another machine on what `f` reads of the states, so is every run. -/
theorem exec_map {τ : Type*} {β : Type*} {N : Machine τ β} {f : σ → τ} {g : α → β}
    (hstep : ∀ {s a t}, M.step s a = some t → N.step (f s) (g a) = some (f t)) :
    ∀ {tr : List α} {s t : σ}, M.exec s tr = some t → N.exec (f s) (tr.map g) = some (f t) := by
  intro tr
  induction tr with
  | nil =>
      intro s t hexec
      cases hexec
      rfl
  | cons a tr ih =>
      intro s t hexec
      obtain ⟨s', hs', hrest⟩ := (M.exec_cons).1 hexec
      exact (N.exec_cons).2 ⟨f s', hstep hs', ih hrest⟩

/-- Where a step stays with that of another machine exactly if it meets the condition, a run does so
all the way exactly if all its steps meet the condition. -/
theorem stays_iff_along {τ : Type*} {N : Machine τ α} {R : σ → τ → Prop} {P : τ → α → Prop}
    (hstep : ∀ s w a w', R s w → N.step w a = some w' →
      ((∃ t, M.step s a = some t ∧ R t w') ↔ P w a)) :
    ∀ {tr : List α} {s : σ} {w w' : τ}, R s w → N.exec w tr = some w' →
      ((∀ tr₁ u, tr₁ <+: tr → N.exec w tr₁ = some u → ∃ t, M.exec s tr₁ = some t ∧ R t u) ↔
        N.Along P w tr) := by
  intro tr
  induction tr with
  | nil =>
      intro s w w' hR _
      refine ⟨fun _ => N.along_nil P w, ?_⟩
      intro _ tr₁ u hpre hu
      rw [List.prefix_nil.1 hpre] at hu ⊢
      cases hu
      exact ⟨s, rfl, hR⟩
  | cons a tr ih =>
      intro s w w' hR hexec
      obtain ⟨w₁, hw₁, hrest⟩ := (N.exec_cons).1 hexec
      constructor
      · intro hall
        obtain ⟨t, ht, hRt⟩ := hall [a] w₁ ((List.prefix_cons_inj a).2 List.nil_prefix)
          ((N.exec_singleton).2 hw₁)
        have hfirst := (M.exec_singleton).1 ht
        refine Along.cons N hw₁ ((hstep s w a w₁ hR hw₁).1 ⟨t, hfirst, hRt⟩) ((ih hRt hrest).1 ?_)
        intro tr₁ u hpre hu
        obtain ⟨t', ht', hRt'⟩ := hall (a :: tr₁) u ((List.prefix_cons_inj a).2 hpre)
          ((N.exec_cons).2 ⟨w₁, hw₁, hu⟩)
        obtain ⟨t₁, ht₁, hend⟩ := (M.exec_cons).1 ht'
        rw [hfirst] at ht₁
        cases ht₁
        exact ⟨t', hend, hRt'⟩
      · rintro ⟨ha, hlater⟩ tr₁ u hpre hu
        obtain ⟨t, ht, hRt⟩ := (hstep s w a w₁ hR hw₁).2 ha
        cases tr₁ with
        | nil =>
            cases hu
            exact ⟨s, rfl, hR⟩
        | cons b tr₁ =>
            obtain ⟨rfl, hpre'⟩ := List.cons_prefix_cons.1 hpre
            obtain ⟨w₂, hw₂, hu'⟩ := (N.exec_cons).1 hu
            rw [hw₁] at hw₂
            cases hw₂
            obtain ⟨t', ht', hRt'⟩ := (ih hRt hrest).2 (hlater w₁ hw₁) tr₁ u hpre' hu'
            exact ⟨t', (M.exec_cons).2 ⟨t, ht, ht'⟩, hRt'⟩

/-- The states some schedule leads to from an initial state. -/
def Reachable (init s : σ) : Prop :=
  ∃ tr, M.exec init tr = some s

namespace Reachable

variable {M} {init s t : σ}

theorem exec (h : M.Reachable init s) {tr : List α} (ht : M.exec s tr = some t) :
    M.Reachable init t := by
  rcases h with ⟨tr₀, h₀⟩
  exact ⟨tr₀ ++ tr, (M.exec_append).2 ⟨s, h₀, ht⟩⟩

theorem step (h : M.Reachable init s) {a : α} (ht : M.step s a = some t) :
    M.Reachable init t :=
  h.exec ((M.exec_singleton).2 ht)

/-- What holds initially and is preserved by every step holds in every reachable state. -/
theorem invariant {I : σ → Prop} (h : M.Reachable init s) (hinit : I init)
    (hstep : ∀ s a t, I s → M.step s a = some t → I t) : I s := by
  rcases h with ⟨tr, htr⟩
  exact M.exec_preserves hstep hinit htr

end Reachable

end Machine

end Foundation
end Mozi
