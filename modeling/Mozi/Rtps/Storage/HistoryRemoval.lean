import Mozi.Rtps.Storage.History
import Mathlib.Data.List.Nodup

/-!
# HistoryRemoval — what removing changes leaves and releases

`removeChangesWithPred` releases what `std::remove_if` left behind the new end, which is what it
removed only if no change that stays comes after one that goes.  `removeChange` finds the change
and does nothing with it.  `removeAllChanges` locks the null pointer it has just assigned.
-/

namespace Mozi
namespace Rtps

open DataStructure Foundation

/-! ## Removing by a predicate -/

namespace ReaderHistory

variable {fuel fuel' : Nat} {h t t' : ReaderHistory} {pred : ChangePtr → Bool}

theorem removeChangesWithPred_mono (hle : fuel ≤ fuel')
    (hrun : h.removeChangesWithPred fuel pred = some t) :
    h.removeChangesWithPred fuel' pred = some t := by
  unfold removeChangesWithPred at hrun ⊢
  split_ifs at hrun ⊢
  simp only [Option.bind_eq_bind, Option.bind_eq_some_iff] at hrun ⊢
  rcases hrun with ⟨u, hlock, r, hloop, hr⟩
  exact ⟨u, hlock, r, whileM_mono (fun _ _ hb => hb) hle hloop, hr⟩

theorem removeChangesWithPred_unique (h₁ : h.removeChangesWithPred fuel pred = some t)
    (h₂ : h.removeChangesWithPred fuel' pred = some t') : t = t' := by
  have h₁' := removeChangesWithPred_mono (Nat.le_max_left fuel fuel') h₁
  have h₂' := removeChangesWithPred_mono (Nat.le_max_right fuel fuel') h₂
  rw [h₁'] at h₂'
  exact Option.some.inj h₂'

/-- One round erases the first cell behind the new end, and releases what it holds. -/
theorem removeTail_cons {s : History} {front tail : List ChangePtr} {c : ChangePtr}
    (hmtx : s.mp_mtx_ ≠ none) (hcells : s.changes_ = front ++ c :: tail) :
    removeTail (front.length, s) =
      some (front.length,
        { s with
          changes_ := front ++ tail
          is_history_full_ := false
          released := s.released ++ [c] }) := by
  have hread : s.changes_[front.length]? = some c := by
    rw [hcells, List.getElem?_append_right (Nat.le_refl _), Nat.sub_self]
    rfl
  have hinside : front.length ≠ s.changes_.length := by
    simp [hcells]
  have herase : s.changes_.eraseIdx front.length = front ++ tail := by
    rw [hcells, List.eraseIdx_append_of_length_le (Nat.le_refl _), Nat.sub_self,
      List.eraseIdx_cons_zero]
  simp only [removeTail, History.removeChangeNts, if_neg hmtx, if_neg hinside, hread]
  simp [History.doReleaseCache, herase]

/-- The loop releases the cells behind the new end, in order. -/
theorem removeTail_loop {s : History} {front tail : List ChangePtr} (hmtx : s.mp_mtx_ ≠ none)
    (hcells : s.changes_ = front ++ tail) :
    ∃ r, whileM (fun p : Nat × History => p.1 != p.2.changes_.length) removeTail
        (tail.length + 1) (front.length, s) = some (front.length, r) ∧
      r.changes_ = front ∧ r.released = s.released ++ tail := by
  induction tail generalizing s with
  | nil =>
      have hend : s.changes_ = front := by
        simpa using hcells
      refine ⟨s, whileM_stop ?_, hend, by simp⟩
      simp [hend]
  | cons c tail ih =>
      obtain ⟨r, hloop, hchanges, hreleased⟩ :=
        ih (s := { s with
          changes_ := front ++ tail
          is_history_full_ := false
          released := s.released ++ [c] }) hmtx rfl
      refine ⟨r, ?_, hchanges, by simpa using hreleased⟩
      rw [List.length_cons, whileM_step (by simp [hcells]) (removeTail_cons hmtx hcells)]
      exact hloop

/-- The changes that stay are kept in order, and the cells behind them are released. -/
theorem removeChangesWithPred_eq (pred : ChangePtr → Bool) (hreader : h.mp_reader_ ≠ none)
    (hmtx : h.mp_mtx_ ≠ none) :
    ∃ fuel t, h.removeChangesWithPred fuel pred = some t ∧
      t.changes_ = keptBy pred h.changes_ ∧
      t.released = h.released ++ h.changes_.drop (keptBy pred h.changes_).length := by
  have hcells : (removeIf pred h.changes_).1 =
      keptBy pred h.changes_ ++ h.changes_.drop (keptBy pred h.changes_).length := by
    rw [removeIf_eq]
  have hnew_end : (removeIf pred h.changes_).2 = (keptBy pred h.changes_).length := by
    rw [removeIf_eq]
  obtain ⟨r, hloop, hchanges, hreleased⟩ :=
    removeTail_loop (s := { h.toHistory with changes_ := (removeIf pred h.changes_).1 }) hmtx hcells
  have hlock : h.lock = some () := by
    obtain ⟨m, hm⟩ := Option.ne_none_iff_exists'.1 hmtx
    simp [History.lock, hm]
  refine ⟨(h.changes_.drop (keptBy pred h.changes_).length).length + 1,
    { h with toHistory := r }, ?_, hchanges, hreleased⟩
  simp only [removeChangesWithPred, hreader, hmtx, or_self, if_false, hlock, Option.bind_eq_bind,
    Option.bind_some, hnew_end]
  rw [hloop, Option.bind_some]

/-- The call keeps the changes that do not satisfy `pred`, in order, releases each of the others
once, and none of those it keeps. -/
def RemovesMatching (h : ReaderHistory) (pred : ChangePtr → Bool) : Prop :=
  ∃ fuel t newly, h.removeChangesWithPred fuel pred = some t ∧
    t.changes_ = h.changes_.filter (fun c => !pred c) ∧
    t.released = h.released ++ newly ∧
    (∀ c ∈ h.changes_, pred c = true → newly.count c = 1) ∧
    ∀ c ∈ t.changes_, newly.count c = 0

/-- It does so exactly when no change that stays comes after one that goes. -/
theorem removeChangesWithPred_exact_iff (h : ReaderHistory) (pred : ChangePtr → Bool)
    (hreader : h.mp_reader_ ≠ none) (hmtx : h.mp_mtx_ ≠ none) (hnodup : h.changes_.Nodup) :
    RemovesMatching h pred ↔
      h.changes_.Pairwise fun c c' => pred c = true → pred c' = true := by
  obtain ⟨fuel, t, hrun, hchanges, hreleased⟩ :=
    removeChangesWithPred_eq pred hreader hmtx
  constructor
  · rintro ⟨fuel', t', newly, hrun', hchanges', hreleased', honce, hnever⟩
    obtain rfl := removeChangesWithPred_unique hrun hrun'
    have hnewly : newly = h.changes_.drop (keptBy pred h.changes_).length := by
      rw [hreleased] at hreleased'
      exact (List.append_cancel_left hreleased').symm
    refine pairwise_of_drop (k := (keptBy pred h.changes_).length) hnodup ?_
    intro c hc
    rw [← hnewly]
    constructor
    · intro hmem
      by_contra hpred
      -- A change that stays would be in the history and released.
      have hstays : c ∈ t.changes_ := by
        rw [hchanges']
        exact List.mem_filter.2 ⟨hc, by simpa using hpred⟩
      exact List.count_eq_zero.1 (hnever c hstays) hmem
    · intro hpred
      exact List.count_pos_iff.1 (by rw [honce c hc hpred]; exact Nat.one_pos)
  · intro hordered
    have htail := drop_eq_filter hordered
    refine ⟨fuel, t, h.changes_.filter pred, hrun, hchanges, ?_, ?_, ?_⟩
    · rw [hreleased, htail]
    · intro c hc hpred
      exact List.count_eq_one_of_mem (hnodup.filter pred) (List.mem_filter.2 ⟨hc, hpred⟩)
    · intro c hc
      rw [hchanges] at hc
      have hpred := (List.mem_filter.1 hc).2
      refine List.count_eq_zero.2 fun hmem => ?_
      have hpred' := (List.mem_filter.1 hmem).2
      rw [hpred'] at hpred
      cases hpred

/-- A history of the changes `0`, `1`, …, as many as asked for. -/
def numbered (count : Nat) : ReaderHistory where
  mp_mtx_ := some 0
  changes_ := List.range count
  is_history_full_ := true
  released := []
  mp_reader_ := some 0

theorem removeChangesWithPred_exact_numbered :
    RemovesMatching (numbered 4) (fun c => decide (2 ≤ c)) ↔
      (numbered 4).changes_.Pairwise fun c c' => decide (2 ≤ c) = true → decide (2 ≤ c') = true :=
  removeChangesWithPred_exact_iff (numbered 4) (fun c => decide (2 ≤ c)) (by decide) (by decide)
    (by decide)

/-- Of the changes `0` and `1`, where the first is to go, `1` is kept and released. -/
theorem removeChangesWithPred_releases_kept :
    ((numbered 2).removeChangesWithPred 3 (fun c => decide (c = 0))).map
        (fun t => (t.changes_, t.released)) = some ([1], [1]) ∧
      ¬ RemovesMatching (numbered 2) (fun c => decide (c = 0)) := by
  refine ⟨by decide, ?_⟩
  rintro ⟨fuel, t, newly, hrun, hchanges, hreleased, -, hnever⟩
  have hrun' : (numbered 2).removeChangesWithPred 3 (fun c => decide (c = 0)) =
      some { numbered 2 with changes_ := [1], is_history_full_ := false, released := [1] } := by
    decide
  obtain rfl := removeChangesWithPred_unique hrun' hrun
  have hone : newly = [1] := by
    simpa [numbered] using hreleased.symm
  have hcount := hnever 1 (by decide)
  rw [hone] at hcount
  cases hcount

end ReaderHistory

/-! ## Removing one change -/

namespace History

variable {deref : ChangePtr → CacheChange.Key} {h t : History} {change : ChangePtr}

theorem findChangeNts_eq (hmtx : h.mp_mtx_ ≠ none) :
    h.findChangeNts deref change =
      some (h.changes_.findIdx fun c => matchesChange deref c change) := by
  simp [findChangeNts, hmtx]

/-- The history stays as it is, whether the change is found or not. -/
theorem removeChange_eq (deref : ChangePtr → CacheChange.Key) (change : ChangePtr)
    (hmtx : h.mp_mtx_ ≠ none) :
    h.removeChange deref change =
      some (if ∃ c ∈ h.changes_, (deref c).sequence_number = (deref change).sequence_number then
        none else some false, h) := by
  obtain ⟨m, hm⟩ := Option.ne_none_iff_exists'.1 hmtx
  have hfound : (h.changes_.findIdx fun c => matchesChange deref c change) = h.changes_.length ↔
      ¬ ∃ c ∈ h.changes_, (deref c).sequence_number = (deref change).sequence_number := by
    simp [List.findIdx_eq_length, matchesChange]
  simp only [removeChange, lock, hm, Option.map_some, Option.bind_eq_bind, Option.bind_some,
    findChangeNts_eq hmtx, hfound]
  split_ifs <;> rfl

/-- An entry with the change's sequence number is removed and released, and `true` returned;
without one, `false` is returned and the history stays as it is. -/
def RemovesNamed (deref : ChangePtr → CacheChange.Key) (h : History) (change : ChangePtr) : Prop :=
  ((∃ c ∈ h.changes_, (deref c).sequence_number = (deref change).sequence_number) →
    ∃ before c after, h.changes_ = before ++ c :: after ∧
      (deref c).sequence_number = (deref change).sequence_number ∧
      h.removeChange deref change = some (some true,
        { h with
          changes_ := before ++ after
          is_history_full_ := false
          released := h.released ++ [c] })) ∧
  ((∀ c ∈ h.changes_, (deref c).sequence_number ≠ (deref change).sequence_number) →
    h.removeChange deref change = some (some false, h))

/-- Only a change that is not in the history is handled. -/
theorem removeChange_exact_iff (deref : ChangePtr → CacheChange.Key) (h : History)
    (change : ChangePtr) (hmtx : h.mp_mtx_ ≠ none) :
    RemovesNamed deref h change ↔
      ∀ c ∈ h.changes_, (deref c).sequence_number ≠ (deref change).sequence_number := by
  have hrun := removeChange_eq deref change hmtx
  constructor
  · rintro ⟨hremoves, -⟩ c hc hsame
    have hfound : ∃ c ∈ h.changes_, (deref c).sequence_number = (deref change).sequence_number :=
      ⟨c, hc, hsame⟩
    obtain ⟨before, c', after, -, -, htrue⟩ := hremoves hfound
    rw [hrun, if_pos hfound] at htrue
    cases htrue
  · intro hnone
    have habsent :
        ¬ ∃ c ∈ h.changes_, (deref c).sequence_number = (deref change).sequence_number := by
      rintro ⟨c, hc, hsame⟩
      exact hnone c hc hsame
    refine ⟨fun hfound => absurd hfound habsent, fun _ => ?_⟩
    rw [hrun, if_neg habsent]

/-- The change at each address is numbered by the address. -/
def byAddress (c : ChangePtr) : CacheChange.Key where
  writer_guid := GUID.unknown
  sequence_number := ⟨0, c⟩

theorem removeChange_exact_absent :
    RemovesNamed byAddress (ReaderHistory.numbered 3).toHistory 5 ↔
      ∀ c ∈ (ReaderHistory.numbered 3).changes_,
        (byAddress c).sequence_number ≠ (byAddress 5).sequence_number :=
  removeChange_exact_iff byAddress (ReaderHistory.numbered 3).toHistory 5 (by decide)

/-- The change is found, stays where it is, and no value is returned. -/
theorem removeChange_keeps_named :
    (ReaderHistory.numbered 1).toHistory.removeChange byAddress 0 =
        some (none, (ReaderHistory.numbered 1).toHistory) ∧
      ¬ RemovesNamed byAddress (ReaderHistory.numbered 1).toHistory 0 := by
  refine ⟨by decide, ?_⟩
  rintro ⟨hremoves, -⟩
  obtain ⟨before, c, after, -, -, htrue⟩ := hremoves ⟨0, by decide, rfl⟩
  have hrun : (ReaderHistory.numbered 1).toHistory.removeChange byAddress 0 =
      some (none, (ReaderHistory.numbered 1).toHistory) := by
    decide
  rw [hrun] at htrue
  cases htrue

/-! ## Removing all changes -/

/-- The mutex that is locked is the null pointer assigned by the guard. -/
theorem removeAllChanges_eq (fuel : Nat) : removeAllChanges deref fuel h = none := by
  simp [removeAllChanges, lock]

/-- Without a mutex, `false` is returned and nothing changes.  With one, it stays attached, every
change is released once, the history ends empty and not full, and `true` tells that it was not
empty. -/
def EmptiesSafely (deref : ChangePtr → CacheChange.Key) (h : History) : Prop :=
  (h.mp_mtx_ = none → ∃ fuel, removeAllChanges deref fuel h = some (false, h)) ∧
  (h.mp_mtx_ ≠ none → ∃ fuel t newly,
    removeAllChanges deref fuel h = some (!h.changes_.isEmpty, t) ∧
    t.mp_mtx_ = h.mp_mtx_ ∧ t.released = h.released ++ newly ∧ newly.Perm h.changes_ ∧
    t.changes_ = [] ∧ t.is_history_full_ = false)

/-- It does so for no history. -/
theorem removeAllChanges_never_safe (deref : ChangePtr → CacheChange.Key) (h : History) :
    ¬ EmptiesSafely deref h := by
  rintro ⟨hnull, hattached⟩
  by_cases hmtx : h.mp_mtx_ = none
  · obtain ⟨fuel, hrun⟩ := hnull hmtx
    rw [removeAllChanges_eq] at hrun
    cases hrun
  · obtain ⟨fuel, t, newly, hrun, -⟩ := hattached hmtx
    rw [removeAllChanges_eq] at hrun
    cases hrun

/-- A history of one change with a mutex attached. -/
theorem removeAllChanges_unsafe_single :
    ¬ EmptiesSafely byAddress (ReaderHistory.numbered 1).toHistory := by
  rintro ⟨-, hattached⟩
  obtain ⟨fuel, t, newly, hrun, -⟩ := hattached (by decide)
  rw [removeAllChanges_eq] at hrun
  cases hrun

end History

end Rtps
end Mozi
