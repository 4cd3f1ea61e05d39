import Mozi.Foundation.Machine

/-!
# Slicing — the steps of a run that an observer can leave out

A machine whose states are families of cells.  A step changes only the cells that its label may
write, and what it makes of a cell depends on that cell and on the control cells alone.  Then an
observer of some cells, the control cells among them, sees at the end of a run what the steps that
may write to these cells make of them (`CellWise.exec_slice`).
-/

namespace Mozi
namespace Foundation

universe u v

variable {σ : Type u} {α : Type v} {F V : Type} {M : Machine σ α} {value : F → σ → V}
  {writes : α → F → Bool} {control observed : F → Prop}

/-- The states have the same values in these cells. -/
def Agree (value : F → σ → V) (observed : F → Prop) (s t : σ) : Prop :=
  ∀ f, observed f → value f s = value f t

namespace Agree

theorem refl (s : σ) : Agree value observed s s :=
  fun _ _ => rfl

theorem symm {s t : σ} (h : Agree value observed s t) : Agree value observed t s :=
  fun f hf => (h f hf).symm

theorem mono {fewer : F → Prop} {s t : σ} (h : Agree value observed s t)
    (hsub : ∀ f, fewer f → observed f) : Agree value fewer s t :=
  fun f hf => h f (hsub f hf)

end Agree

/-- What a partial function makes of each cell. -/
structure CellWise (value : F → σ → V) (control : F → Prop) (writes : F → Bool)
    (g : σ → Option σ) : Prop where
  /-- the other cells stay -/
  frame : ∀ {s s' f}, g s = some s' → writes f = false → value f s' = value f s
  /-- equal cells stay equal, where the control cells are equal -/
  cong : ∀ {s t s'}, Agree value control s t → g s = some s' →
    ∃ t', g t = some t' ∧ ∀ f, value f s = value f t → value f s' = value f t'

namespace CellWise

theorem agree {written : F → Bool} {g : σ → Option σ} (h : CellWise value control written g)
    (hcontrol : ∀ f, control f → observed f) {s t s' : σ} (hagree : Agree value observed s t)
    (hs : g s = some s') : ∃ t', g t = some t' ∧ Agree value observed s' t' := by
  obtain ⟨t', ht, hcells⟩ := h.cong (hagree.mono hcontrol) hs
  exact ⟨t', ht, fun f hf => hcells f (hagree f hf)⟩

/-- The control cells decide whether the function is defined. -/
theorem eq_none_iff {written : F → Bool} {g : σ → Option σ} (h : CellWise value control written g)
    {s t : σ} (hagree : Agree value control s t) : g s = none ↔ g t = none := by
  constructor
  · intro hs
    by_contra hne
    obtain ⟨t', ht'⟩ := Option.ne_none_iff_exists'.1 hne
    obtain ⟨s', hs', -⟩ := h.cong hagree.symm ht'
    rw [hs] at hs'
    cases hs'
  · intro ht
    by_contra hne
    obtain ⟨s', hs'⟩ := Option.ne_none_iff_exists'.1 hne
    obtain ⟨t', ht', -⟩ := h.cong hagree hs'
    rw [ht] at ht'
    cases ht'

/-- The steps that may not write to what is observed can be left out of a run. -/
theorem exec_slice (hstep : ∀ a, CellWise value control (writes a) fun s => M.step s a)
    (hcontrol : ∀ f, control f → observed f) {touches : α → Bool}
    (htouches : ∀ a f, writes a f = true → observed f → touches a = true)
    {tr : List α} {s t s' : σ} (hagree : Agree value observed s t) (hexec : M.exec s tr = some s') :
    ∃ t', M.exec t (tr.filter touches) = some t' ∧ Agree value observed s' t' := by
  induction tr generalizing s t with
  | nil =>
      cases hexec
      exact ⟨t, rfl, hagree⟩
  | cons a tr ih =>
      obtain ⟨s₁, hs₁, hrest⟩ := (M.exec_cons).1 hexec
      cases ha : touches a with
      | true =>
          obtain ⟨t₁, ht₁, hagree₁⟩ := (hstep a).agree hcontrol hagree hs₁
          obtain ⟨t', ht', hend⟩ := ih hagree₁ hrest
          rw [List.filter_cons_of_pos ha]
          exact ⟨t', (M.exec_cons).2 ⟨t₁, ht₁, ht'⟩, hend⟩
      | false =>
          have hagree₁ : Agree value observed s₁ t := by
            intro f hf
            have hkept : writes a f = false := by
              cases hw : writes a f with
              | false => rfl
              | true => exact absurd (htouches a f hw hf) (by simp [ha])
            rw [(hstep a).frame hs₁ hkept]
            exact hagree f hf
          rw [List.filter_cons_of_neg (by simp [ha])]
          exact ih hagree₁ hrest

/-! ## Building them -/

variable {w : F → Bool} {g g₁ g₂ : σ → Option σ}

/-- A function that leaves each cell alone or stores a fixed value in it. -/
theorem of_cells {g : σ → σ}
    (h : ∀ f, (∀ s, value f (g s) = value f s) ∨ w f = true ∧ ∃ v, ∀ s, value f (g s) = v) :
    CellWise value control w fun s => some (g s) where
  frame := by
    intro s s' f hs hf
    cases hs
    rcases h f with hkept | ⟨hwritten, -⟩
    · exact hkept s
    · rw [hf] at hwritten
      cases hwritten
  cong := by
    intro s t s' _ hs
    cases hs
    refine ⟨g t, rfl, fun f hf => ?_⟩
    rcases h f with hkept | ⟨-, v, hv⟩
    · rw [hkept s, hkept t, hf]
    · rw [hv s, hv t]

theorem keep : CellWise value control w fun s => some s :=
  of_cells fun _ => Or.inl fun _ => rfl

theorem undefined : CellWise value control w fun _ => none where
  frame := by
    intro s s' f hs _
    cases hs
  cong := by
    intro s t s' _ hs
    cases hs

theorem mono {w' : F → Bool} (h : CellWise value control w g)
    (hsub : ∀ f, w f = true → w' f = true) : CellWise value control w' g where
  frame := by
    intro s s' f hs hf
    refine h.frame hs ?_
    cases hw : w f with
    | false => rfl
    | true => rw [hsub f hw] at hf; cases hf
  cong := h.cong

theorem bind (h₁ : CellWise value control w g₁) (h₂ : CellWise value control w g₂) :
    CellWise value control w fun s => (g₁ s).bind g₂ where
  frame := by
    intro s s' f hs hf
    obtain ⟨s₁, hs₁, hs'⟩ := Option.bind_eq_some_iff.1 hs
    rw [h₂.frame hs' hf, h₁.frame hs₁ hf]
  cong := by
    intro s t s' hagree hs
    obtain ⟨s₁, hs₁, hs'⟩ := Option.bind_eq_some_iff.1 hs
    obtain ⟨t₁, ht₁, hcells₁⟩ := h₁.cong hagree hs₁
    have hagree₁ : Agree value control s₁ t₁ := fun f hf => hcells₁ f (hagree f hf)
    obtain ⟨t', ht', hcells⟩ := h₂.cong hagree₁ hs'
    exact ⟨t', Option.bind_eq_some_iff.2 ⟨t₁, ht₁, ht'⟩, fun f hf => hcells f (hcells₁ f hf)⟩

/-- The control cells may choose the function. -/
theorem piecewise (h : ∀ s, ∃ g', CellWise value control w g' ∧
    ∀ t, Agree value control s t → g t = g' t) : CellWise value control w g where
  frame := by
    intro s s' f hs hf
    obtain ⟨g', hg', heq⟩ := h s
    rw [heq s (Agree.refl s)] at hs
    exact hg'.frame hs hf
  cong := by
    intro s t s' hagree hs
    obtain ⟨g', hg', heq⟩ := h s
    rw [heq s (Agree.refl s)] at hs
    rw [heq t hagree]
    exact hg'.cong hagree hs

end CellWise

end Foundation
end Mozi
