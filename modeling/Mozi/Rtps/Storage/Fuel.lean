import Mozi.Rtps.Storage.CacheChange

/-!
# Fuel — the number of rounds is not part of a result

Every function of the module before returns the same value for every number of rounds that is
enough, so the state reached by a sequence of calls is well defined (`Session.run_unique`).
-/

namespace Mozi
namespace Rtps

open Foundation

namespace CacheChange

variable {fuel fuel' : Nat} {ch : CacheChange}

theorem linkFragments_mono {r : CacheChange} (hle : fuel ≤ fuel')
    (h : ch.linkFragments fuel = some r) : ch.linkFragments fuel' = some r := by
  unfold linkFragments at h ⊢
  rcases Option.map_eq_some_iff.1 h with ⟨p, hp, rfl⟩
  rw [whileM_mono (fun _ _ h => h) hle hp]
  rfl

theorem setFragmentSize_mono {fragment_size : Nat} {create : Bool} {r : CacheChange}
    (hle : fuel ≤ fuel') (h : ch.setFragmentSize fuel fragment_size create = some r) :
    ch.setFragmentSize fuel' fragment_size create = some r := by
  unfold setFragmentSize at h ⊢
  simp only at h ⊢
  split_ifs at h ⊢
  · exact linkFragments_mono hle h
  · exact h
  · exact h

theorem skipReceived_mono {index last : Nat} {changed : Bool} {r : Nat × Bool}
    (hle : fuel ≤ fuel') (h : ch.skipReceived fuel index last changed = some r) :
    ch.skipReceived fuel' index last changed = some r :=
  whileM_mono (fun _ _ h => h) hle h

theorem searchStep_mono {initial last : Nat} {p q : Search} (hle : fuel ≤ fuel')
    (h : searchStep fuel initial last p = some q) : searchStep fuel' initial last p = some q := by
  unfold searchStep at h ⊢
  rcases Option.bind_eq_some_iff.1 h with ⟨next, hnext, hrest⟩
  refine Option.bind_eq_some_iff.2 ⟨next, hnext, ?_⟩
  split_ifs at hrest ⊢
  · rcases Option.bind_eq_some_iff.1 hrest with ⟨r, hr, hset⟩
    exact Option.bind_eq_some_iff.2 ⟨r, skipReceived_mono hle hr, hset⟩
  · exact hrest

theorem receivedFragments_mono {initial num : Nat} {r : Bool × CacheChange} (hle : fuel ≤ fuel')
    (h : ch.receivedFragments fuel initial num = some r) :
    ch.receivedFragments fuel' initial num = some r := by
  unfold receivedFragments at h ⊢
  simp only at h ⊢
  split_ifs at h ⊢
  -- No loop, the loop at the head of the list, or the search in the list.
  all_goals first
    | exact h
    | rcases Option.map_eq_some_iff.1 h with ⟨q, hq, rfl⟩
      first
      | rw [skipReceived_mono hle hq]
        rfl
      | rw [whileM_mono (fun _ _ h => searchStep_mono hle h) hle hq]
        rfl

theorem addFragments_mono {call : Call} {r : Bool × CacheChange} (hle : fuel ≤ fuel')
    (h : ch.addFragments fuel call = some r) : ch.addFragments fuel' call = some r := by
  unfold addFragments at h ⊢
  split at h
  · exact h
  · rcases Option.bind_eq_some_iff.1 h with ⟨q, hq, hrest⟩
    rw [receivedFragments_mono hle hq]
    exact hrest

end CacheChange

namespace Session

variable {fuel fuel' : Nat} {payload : SerializedPayload} {fragment_size : Nat}
  {calls : List Call}

theorem step_mono {σ τ : Session} {call : Call} (hle : fuel ≤ fuel')
    (h : step fuel σ call = some τ) : step fuel' σ call = some τ := by
  unfold step at h ⊢
  rcases Option.map_eq_some_iff.1 h with ⟨r, hr, rfl⟩
  rw [CacheChange.addFragments_mono hle hr]
  rfl

theorem exec_mono {σ τ : Session} (hle : fuel ≤ fuel')
    (h : (receiver fuel).exec σ calls = some τ) : (receiver fuel').exec σ calls = some τ := by
  induction calls generalizing σ with
  | nil =>
      simpa using h
  | cons call calls ih =>
      rcases ((receiver fuel).exec_cons).1 h with ⟨σ', hσ', hrest⟩
      rw [receiver_step] at hσ'
      refine ((receiver fuel').exec_cons).2 ⟨σ', ?_, ih hrest⟩
      rw [receiver_step]
      exact step_mono hle hσ'

theorem exec_unique {σ τ τ' : Session} (h : (receiver fuel).exec σ calls = some τ)
    (h' : (receiver fuel').exec σ calls = some τ') : τ = τ' := by
  apply Option.some.inj
  calc
    some τ = (receiver (max fuel fuel')).exec σ calls :=
      (exec_mono (Nat.le_max_left fuel fuel') h).symm
    _ = some τ' := exec_mono (Nat.le_max_right fuel fuel') h'

theorem start_mono {σ : Session} (hle : fuel ≤ fuel')
    (h : start fuel payload fragment_size = some σ) :
    start fuel' payload fragment_size = some σ := by
  unfold start at h ⊢
  rcases Option.map_eq_some_iff.1 h with ⟨ch, hch, rfl⟩
  rw [CacheChange.setFragmentSize_mono hle hch]
  rfl

theorem start_unique {σ τ : Session} (h : start fuel payload fragment_size = some σ)
    (h' : start fuel' payload fragment_size = some τ) : σ = τ := by
  apply Option.some.inj
  calc
    some σ = start (max fuel fuel') payload fragment_size :=
      (start_mono (Nat.le_max_left fuel fuel') h).symm
    _ = some τ := start_mono (Nat.le_max_right fuel fuel') h'

/-- A run is an execution from the state `setFragmentSize` leaves. -/
theorem exec_of_run {σ τ : Session} (hstart : start fuel payload fragment_size = some σ)
    (hrun : run fuel' payload fragment_size calls = some τ) :
    (receiver fuel').exec σ calls = some τ := by
  rcases Option.bind_eq_some_iff.1 hrun with ⟨σ', hσ', hexec⟩
  rw [start_unique hstart hσ']
  exact hexec

theorem run_mono {σ : Session} (hle : fuel ≤ fuel')
    (h : run fuel payload fragment_size calls = some σ) :
    run fuel' payload fragment_size calls = some σ := by
  rcases Option.bind_eq_some_iff.1 h with ⟨τ, hτ, hrest⟩
  exact Option.bind_eq_some_iff.2 ⟨τ, start_mono hle hτ, exec_mono hle hrest⟩

/-- The state reached by a sequence of calls does not depend on the number of rounds. -/
theorem run_unique {σ τ : Session} (h : run fuel payload fragment_size calls = some σ)
    (h' : run fuel' payload fragment_size calls = some τ) : σ = τ := by
  apply Option.some.inj
  calc
    some σ = run (max fuel fuel') payload fragment_size calls :=
      (run_mono (Nat.le_max_left fuel fuel') h).symm
    _ = some τ := run_mono (Nat.le_max_right fuel fuel') h'

end Session

end Rtps
end Mozi
