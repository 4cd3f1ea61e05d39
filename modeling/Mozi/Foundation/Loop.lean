import Mathlib.Tactic.Common

/-!
# Loop — `while` loops whose body can fail

`whileM cond body` iterates `body` while `cond` holds.  The first argument counts the rounds that
may be taken; a loop returns if some number of rounds is enough, and then every larger number gives
the same state.  `none` also stands for a body that cannot run.
-/

namespace Mozi
namespace Foundation

universe u

variable {σ : Type u} {c : σ → Bool} {b : σ → Option σ} {fuel fuel' : Nat} {s t r : σ}

/-! ## The loop -/

def whileM (cond : σ → Bool) (body : σ → Option σ) : Nat → σ → Option σ
  | 0, _ => none
  | fuel + 1, s => if cond s then (body s).bind (whileM cond body fuel) else some s

theorem whileM_stop (h : c s = false) : whileM c b (fuel + 1) s = some s := by
  simp [whileM, h]

theorem whileM_step (h : c s = true) (hb : b s = some t) :
    whileM c b (fuel + 1) s = whileM c b fuel t := by
  simp [whileM, h, hb]

/-- More rounds, for the loop or inside its body, do not change the result. -/
theorem whileM_mono {b' : σ → Option σ} (hbody : ∀ s t, b s = some t → b' s = some t)
    (hle : fuel ≤ fuel') (h : whileM c b fuel s = some r) :
    whileM c b' fuel' s = some r := by
  induction fuel generalizing fuel' s with
  | zero =>
      simp [whileM] at h
  | succ fuel ih =>
      obtain ⟨k, rfl⟩ : ∃ k, fuel' = k + 1 := ⟨fuel' - 1, by omega⟩
      simp only [whileM] at h ⊢
      split_ifs at h ⊢ with hc
      · rcases Option.bind_eq_some_iff.1 h with ⟨t, ht, hrest⟩
        exact Option.bind_eq_some_iff.2 ⟨t, hbody s t ht, ih (by omega) hrest⟩
      · exact h

/-! ## Rules -/

/-- What the body keeps holds at the end, where the condition fails. -/
theorem whileM_invariant {I : σ → Prop}
    (hbody : ∀ s t, I s → c s = true → b s = some t → I t) (hs : I s)
    (h : whileM c b fuel s = some r) : I r ∧ c r = false := by
  induction fuel generalizing s with
  | zero =>
      simp [whileM] at h
  | succ fuel ih =>
      simp only [whileM] at h
      split_ifs at h with hc
      · rcases Option.bind_eq_some_iff.1 h with ⟨t, ht, hrest⟩
        exact ih (hbody s t hs hc ht) hrest
      · cases h
        exact ⟨hs, by simpa using hc⟩

/-- A body that never fails, keeps an invariant and lowers a measure makes the loop return. -/
theorem whileM_returns {I : σ → Prop} (measure : σ → Nat)
    (hbody : ∀ s, I s → c s = true → ∃ t, b s = some t ∧ I t ∧ measure t < measure s) :
    ∀ {s : σ}, I s →
      ∃ r, whileM c b (measure s + 1) s = some r ∧ I r ∧ c r = false := by
  intro s
  induction hm : measure s using Nat.strongRecOn generalizing s with
  | _ m ih =>
      intro hs
      cases hc : c s with
      | false =>
          exact ⟨s, whileM_stop hc, hs, hc⟩
      | true =>
          -- One round, and then the rounds that the smaller measure needs.
          obtain ⟨t, ht, hinv, hlt⟩ := hbody s hs hc
          obtain ⟨r, hr, hend⟩ := ih (measure t) (by omega) rfl hinv
          refine ⟨r, ?_, hend⟩
          rw [whileM_step hc ht]
          exact whileM_mono (fun _ _ h => h) (by omega) hr

/-- A set of states the loop cannot leave has no end. -/
theorem whileM_diverges {J : σ → Prop} (hcond : ∀ s, J s → c s = true)
    (hbody : ∀ s t, J s → b s = some t → J t) (hs : J s) (fuel : Nat) :
    whileM c b fuel s = none := by
  cases h : whileM c b fuel s with
  | none =>
      rfl
  | some r =>
      obtain ⟨hr, hend⟩ := whileM_invariant (fun s t hs _ ht => hbody s t hs ht) hs h
      rw [hcond r hr] at hend
      cases hend

end Foundation
end Mozi
