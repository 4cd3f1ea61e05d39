import Mozi.Foundation.Loop
import Mozi.Foundation.Machine

/-!
# Lockstep — two partial computations that stay related

`Option.Rel R` relates two results: both computations fail, or both return and `R` relates what they
return.  The rules carry the relation through sequencing, loops and runs of machines.
-/

namespace Mozi
namespace Foundation

universe u v w

variable {σ τ : Type u} {σ' τ' : Type v} {R : σ → τ → Prop} {S : σ' → τ' → Prop}

namespace Lockstep

/-! ## Sequencing -/

theorem bind {x : Option σ} {y : Option τ} {f : σ → Option σ'} {g : τ → Option τ'}
    (h : Option.Rel R x y) (hnext : ∀ s t, R s t → Option.Rel S (f s) (g t)) :
    Option.Rel S (x.bind f) (y.bind g) := by
  cases h with
  | none => exact Option.Rel.none
  | some hst => exact hnext _ _ hst

theorem map {x : Option σ} {y : Option τ} {f : σ → σ'} {g : τ → τ'} (h : Option.Rel R x y)
    (hnext : ∀ s t, R s t → S (f s) (g t)) : Option.Rel S (x.map f) (y.map g) := by
  cases h with
  | none => exact Option.Rel.none
  | some hst => exact Option.Rel.some (hnext _ _ hst)

theorem outcomes {x : Option σ} {y : Option τ} (h : Option.Rel R x y) :
    (x = none ∧ y = none) ∨ ∃ s t, x = some s ∧ y = some t ∧ R s t := by
  cases h with
  | none => exact Or.inl ⟨rfl, rfl⟩
  | some hst => exact Or.inr ⟨_, _, rfl, rfl, hst⟩

/-- What one side returns the other side returns related. -/
theorem left {x : Option σ} {y : Option τ} {s : σ} (h : Option.Rel R x y) (hx : x = some s) :
    ∃ t, y = some t ∧ R s t := by
  subst hx
  cases h with
  | some hst => exact ⟨_, rfl, hst⟩

theorem right {x : Option σ} {y : Option τ} {t : τ} (h : Option.Rel R x y) (hy : y = some t) :
    ∃ s, x = some s ∧ R s t := by
  subst hy
  cases h with
  | some hst => exact ⟨_, rfl, hst⟩

/-! ## Loops and runs -/

theorem whileM {c : σ → Bool} {c' : τ → Bool} {b : σ → Option σ} {b' : τ → Option τ}
    (hcond : ∀ s t, R s t → c s = c' t)
    (hbody : ∀ s t, R s t → c s = true → Option.Rel R (b s) (b' t)) (fuel : Nat) {s : σ} {t : τ}
    (h : R s t) : Option.Rel R (Foundation.whileM c b fuel s) (Foundation.whileM c' b' fuel t) := by
  induction fuel generalizing s t with
  | zero => exact Option.Rel.none
  | succ fuel ih =>
      simp only [Foundation.whileM, ← hcond s t h]
      split_ifs with hc
      · exact bind (hbody s t h hc) fun _ _ => ih
      · exact Option.Rel.some h

theorem exec {α : Type w} {M : Machine σ α} {N : Machine τ α}
    (hstep : ∀ s t a, R s t → Option.Rel R (M.step s a) (N.step t a)) (tr : List α) {s : σ} {t : τ}
    (h : R s t) : Option.Rel R (M.exec s tr) (N.exec t tr) := by
  induction tr generalizing s t with
  | nil => exact Option.Rel.some h
  | cons a tr ih => exact bind (hstep s t a h) fun _ _ => ih

end Lockstep

end Foundation
end Mozi
