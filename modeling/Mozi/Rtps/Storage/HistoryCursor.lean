import Mathlib.Data.List.Perm.Basic
import Mozi.Foundation.Machine
import Mozi.Rtps.Storage.HistoryLookup

/-!
# HistoryCursor — searching a history while changes are removed from it

`getChangeNts` takes the iterator that the search before has returned.  While changes behind that
iterator are removed, by `removeChangeNts` at it or after it, a search for a number that is not
smaller goes on there and finds what a search from the beginning would find (`search_resumes`).
Meanwhile every change that was in the history is in it still, or has been given back once, or has
been taken out without being given back.
-/

namespace Mozi
namespace Rtps
namespace History

open DataStructure Foundation

variable {deref : ChangePtr → CacheChange.Key} {sn : SequenceNumber} {guid : GUID}
  {cells : List ChangePtr} {h : History} {it removal : Nat} {release : Bool}

/-! ## What a search has passed -/

/-- The changes of the writer in the list have smaller numbers. -/
def Passed (deref : ChangePtr → CacheChange.Key) (guid : GUID) (bound : SequenceNumber)
    (cells : List ChangePtr) : Prop :=
  ∀ c ∈ cells, (deref c).writer_guid = guid → (deref c).sequence_number.val < bound.val

theorem Passed.mono {bound : SequenceNumber} (h : Passed deref guid bound cells)
    (hle : bound.val ≤ sn.val) : Passed deref guid sn cells :=
  fun c hc hguid => Int.lt_of_lt_of_le (h c hc hguid) hle

theorem Passed.append {front : List ChangePtr} (hfront : Passed deref guid sn front)
    (hcells : Passed deref guid sn cells) : Passed deref guid sn (front ++ cells) := by
  intro c hc
  rcases List.mem_append.1 hc with hc | hc
  · exact hfront c hc
  · exact hcells c hc

theorem getChangeLoop_skip {front : List ChangePtr} (hfront : Passed deref guid sn front) :
    getChangeLoop deref sn guid (front ++ cells) it =
      getChangeLoop deref sn guid cells (it + front.length) := by
  induction front generalizing it with
  | nil =>
      rfl
  | cons c front ih =>
      rw [List.cons_append, getChangeLoop_pass (hfront c List.mem_cons_self),
        ih fun c' hc' => hfront c' (List.mem_cons_of_mem c hc'), List.length_cons,
        Nat.add_right_comm, Nat.add_assoc]

/-- The iterator that is returned is not behind the end, and nothing in front of it is left. -/
theorem getChangeLoop_passes (deref : ChangePtr → CacheChange.Key) (sn : SequenceNumber)
    (guid : GUID) (cells : List ChangePtr) (it : Nat) :
    ∃ n ≤ cells.length, (getChangeLoop deref sn guid cells it).2 = it + n ∧
      Passed deref guid sn (cells.take n) := by
  induction cells generalizing it with
  | nil =>
      exact ⟨0, Nat.le_refl 0, rfl, by simp [Passed]⟩
  | cons c cells ih =>
      rcases round_cases deref sn guid c with hnamed | ⟨hguid, hgt⟩ | hpass
      · exact ⟨0, Nat.zero_le _, by rw [getChangeLoop_named hnamed]; rfl, by simp [Passed]⟩
      · exact ⟨0, Nat.zero_le _, by rw [getChangeLoop_later hguid hgt]; rfl, by simp [Passed]⟩
      · obtain ⟨n, hn, hit, hpassed⟩ := ih (it + 1)
        refine ⟨n + 1, Nat.succ_le_succ hn, ?_, ?_⟩
        · rw [getChangeLoop_pass hpass, hit]
          omega
        · intro c' hc'
          rw [List.take_succ_cons] at hc'
          rcases List.mem_cons.1 hc' with rfl | hc'
          · exact hpass
          · exact hpassed c' hc'

/-- A search from an iterator that all smaller numbers are in front of. -/
theorem getChangeNts_resume (hit : it ≤ h.changes_.length)
    (hpassed : Passed deref guid sn (h.changes_.take it)) :
    h.getChangeNts deref sn guid it = h.getChangeNts deref sn guid 0 := by
  unfold getChangeNts
  have hskip : getChangeLoop deref sn guid (h.changes_.take it ++ h.changes_.drop it) 0 =
      getChangeLoop deref sn guid (h.changes_.drop it) (0 + (h.changes_.take it).length) :=
    getChangeLoop_skip hpassed
  rw [List.take_append_drop, List.length_take, Nat.min_eq_left hit, Nat.zero_add] at hskip
  rw [List.drop_zero, hskip]

/-- In a history where the numbers of each writer increase a search finds exactly what is there. -/
theorem getChangeNts_iff (hincrease : WritersIncrease deref h.changes_) {c : ChangePtr} :
    (h.getChangeNts deref sn guid 0).1 = some c ↔ c ∈ h.changes_ ∧ IsNamed deref sn guid c := by
  constructor
  · intro hfound
    by_cases hsome : ∃ c' ∈ h.changes_, IsNamed deref sn guid c'
    · obtain ⟨c', hc', hnamed⟩ := hsome
      have hfirst : (h.getChangeNts deref sn guid 0).1 = some c' :=
        getChangeLoop_some h.changes_ 0 hincrease hc' hnamed
      rw [hfirst] at hfound
      cases hfound
      exact ⟨hc', hnamed⟩
    · have hnull : (h.getChangeNts deref sn guid 0).1 = none :=
        getChangeLoop_none h.changes_ 0 fun c' hc' hnamed => hsome ⟨c', hc', hnamed⟩
      rw [hnull] at hfound
      cases hfound
  · rintro ⟨hc, hnamed⟩
    exact getChangeLoop_some h.changes_ 0 hincrease hc hnamed

/-- No change is there twice: its number would be greater than itself. -/
theorem WritersIncrease.nodup (h : WritersIncrease deref cells) : cells.Nodup := by
  refine List.Pairwise.imp ?_ h
  rintro c c' hgt rfl
  exact absurd ((SequenceNumber.gt_iff _ _).1 (hgt rfl)) (Int.lt_irrefl _)

/-! ## Removals -/

theorem take_eraseIdx (hle : it ≤ removal) : (cells.eraseIdx removal).take it = cells.take it := by
  rw [List.eraseIdx_eq_take_drop_succ]
  rcases Nat.le_total removal cells.length with hlen | hlen
  · rw [List.take_append_of_le_length (by rw [List.length_take]; omega), List.take_take,
      Nat.min_eq_left hle]
  · rw [List.drop_eq_nil_of_le (by omega), List.append_nil, List.take_take, Nat.min_eq_left hle]

/-- At the end nothing is removed, elsewhere the change at the iterator. -/
theorem removeChangeNts_cases (hmtx : h.mp_mtx_ ≠ none) (hle : removal ≤ h.changes_.length)
    (release : Bool) :
    h.removeChangeNts removal release = some (removal, h) ∨
      ∃ c, h.changes_[removal]? = some c ∧
        h.removeChangeNts removal release = some (removal,
          { h with
            is_history_full_ := false
            released := if release then h.released ++ [c] else h.released
            changes_ := h.changes_.eraseIdx removal }) := by
  unfold removeChangeNts
  rw [if_neg hmtx]
  by_cases hend : removal = h.changes_.length
  · rw [if_pos hend]
    exact Or.inl (by rw [hend])
  · rw [if_neg hend]
    obtain ⟨c, hc⟩ : ∃ c, h.changes_[removal]? = some c :=
      ⟨_, List.getElem?_eq_getElem (by omega)⟩
    refine Or.inr ⟨c, hc, ?_⟩
    rw [hc]
    cases release with
    | false => rfl
    | true => rfl

/-! ## Runs -/

/-- A caller that searches the changes of one writer: the iterator it goes on at, and the number
that it has looked for last. -/
structure Cursor where
  history : History
  it : Nat
  last : SequenceNumber

inductive Cursor.Action where
  /-- `getChangeNts(sn, guid, &change, it)` -/
  | find (sn : SequenceNumber)
  /-- `removeChangeNts(removal, release)` -/
  | erase (removal : Nat) (release : Bool)

/-- The iterator that is returned is the one to go on at. -/
def searches (deref : ChangePtr → CacheChange.Key) (guid : GUID) :
    Machine Cursor Cursor.Action where
  step s
    | .find sn => some { s with it := (s.history.getChangeNts deref sn guid s.it).2, last := sn }
    | .erase removal release =>
        (s.history.removeChangeNts removal release).map fun r =>
          { s with history := r.2, it := if removal = s.it then r.1 else s.it }

/-- The numbers do not decrease, and the iterator stays valid. -/
def Cursor.Permitted (s : Cursor) : Cursor.Action → Prop
  | .find sn => SequenceNumber.ge sn s.last = true
  | .erase removal _ => s.it ≤ removal ∧ removal ≤ s.history.changes_.length

/-- What holds along a run from the history `h`; `log` are the changes that have been taken out,
with the argument `release` of the call. -/
structure Cursor.Follows (deref : ChangePtr → CacheChange.Key) (guid : GUID) (h : History)
    (s : Cursor) (log : List (ChangePtr × Bool)) : Prop where
  mtx : s.history.mp_mtx_ ≠ none
  it : s.it ≤ s.history.changes_.length
  passed : Passed deref guid s.last (s.history.changes_.take s.it)
  order : s.history.changes_.Sublist h.changes_
  owned : List.Perm (s.history.changes_ ++ log.map Prod.fst) h.changes_
  released : s.history.released = h.released ++ (log.filter Prod.snd).map Prod.fst

namespace Cursor.Follows

variable {s : Cursor} {log : List (ChangePtr × Bool)}

theorem find (hs : Follows deref guid h s log) (hge : SequenceNumber.ge sn s.last = true) :
    Follows deref guid h
      { s with it := (s.history.getChangeNts deref sn guid s.it).2, last := sn } log := by
  have hpassed := hs.passed.mono ((SequenceNumber.ge_iff _ _).1 hge)
  obtain ⟨n, hn, hit, hnew⟩ :=
    getChangeLoop_passes deref sn guid (s.history.changes_.drop s.it) s.it
  rw [List.length_drop] at hn
  have hbound := hs.it
  refine { hs with it := ?_, passed := ?_ }
  · have hend : (s.history.getChangeNts deref sn guid s.it).2 ≤ s.history.changes_.length := by
      rw [getChangeNts, hit]
      omega
    exact hend
  · have hfront : s.history.changes_.take (s.history.getChangeNts deref sn guid s.it).2 =
        s.history.changes_.take s.it ++ (s.history.changes_.drop s.it).take n := by
      rw [getChangeNts, hit, List.take_add]
    exact hfront ▸ hpassed.append hnew

/-- The iterator is the same after a removal at it or behind it. -/
theorem step_erase {h' : History}
    (hremove : s.history.removeChangeNts removal release = some (removal, h')) :
    (searches deref guid).step s (.erase removal release) = some { s with history := h' } := by
  have hit : (if removal = s.it then removal else s.it) = s.it := by
    split_ifs with heq
    · exact heq
    · rfl
  simp only [searches, hremove, Option.map_some, hit]

theorem erase (hs : Follows deref guid h s log) (hle : s.it ≤ removal)
    (hlen : removal ≤ s.history.changes_.length) (release : Bool) :
    ∃ t log', (searches deref guid).step s (.erase removal release) = some t ∧
      Follows deref guid h t log' := by
  rcases removeChangeNts_cases hs.mtx hlen release with hremove | ⟨c, hc, hremove⟩
  · exact ⟨_, log, step_erase hremove, hs⟩
  · obtain ⟨hlt, rfl⟩ := List.getElem?_eq_some_iff.1 hc
    refine ⟨_, log ++ [(s.history.changes_[removal], release)], step_erase hremove,
      { mtx := hs.mtx, it := ?_, passed := ?_, order := ?_, owned := ?_, released := ?_ }⟩
    · show s.it ≤ (s.history.changes_.eraseIdx removal).length
      rw [List.length_eraseIdx_of_lt hlt]
      omega
    · show Passed deref guid s.last ((s.history.changes_.eraseIdx removal).take s.it)
      rw [take_eraseIdx hle]
      exact hs.passed
    · exact (List.eraseIdx_sublist _ _).trans hs.order
    · show List.Perm (s.history.changes_.eraseIdx removal ++ _) _
      rw [List.map_append, ← List.append_assoc]
      refine (List.perm_append_singleton _ _).trans (List.Perm.trans ?_ hs.owned)
      rw [← List.cons_append]
      exact (List.getElem_cons_eraseIdx_perm hlt).append_right _
    · show (if release then _ else _) = _
      rw [List.filter_append, List.map_append, ← List.append_assoc, ← hs.released]
      cases release with
      | false => simp
      | true => simp

end Cursor.Follows

/-- In every run of searches and removals from the beginning of a history, a search for a number
that is not smaller than the last goes on as one from the beginning would, finds exactly what is
there, and no change is given back twice or while it is there. -/
theorem search_resumes {h : History} {last : SequenceNumber} {tr : List Cursor.Action}
    (hmtx : h.mp_mtx_ ≠ none) (hincrease : WritersIncrease deref h.changes_)
    (hreleased : h.released = [])
    (hpermitted : (searches deref guid).Along Cursor.Permitted ⟨h, 0, last⟩ tr) :
    ∃ s, (searches deref guid).exec ⟨h, 0, last⟩ tr = some s ∧
      (∀ sn, SequenceNumber.ge sn s.last = true →
        s.history.getChangeNts deref sn guid s.it = s.history.getChangeNts deref sn guid 0 ∧
          ∀ c, (s.history.getChangeNts deref sn guid s.it).1 = some c ↔
            c ∈ s.history.changes_ ∧ IsNamed deref sn guid c) ∧
      (s.history.changes_ ++ s.history.released).Nodup ∧
      ∀ c ∈ s.history.changes_ ++ s.history.released, c ∈ h.changes_ := by
  have hstart : Cursor.Follows deref guid h ⟨h, 0, last⟩ [] :=
    { mtx := hmtx
      it := Nat.zero_le _
      passed := by simp [Passed]
      order := List.Sublist.refl _
      owned := by simp
      released := by simp }
  obtain ⟨s, hexec, log, hs⟩ := (searches deref guid).exec_total
    (I := fun s => ∃ log, Cursor.Follows deref guid h s log) (P := Cursor.Permitted)
    (by
      rintro s (sn | ⟨removal, release⟩) ⟨log, hs⟩ hpermitted
      · exact ⟨_, rfl, log, hs.find hpermitted⟩
      · obtain ⟨t, log', ht, hfollows⟩ := hs.erase hpermitted.1 hpermitted.2 release
        exact ⟨t, ht, log', hfollows⟩)
    ⟨[], hstart⟩ hpermitted
  have hlog : (s.history.changes_ ++ s.history.released).Sublist
      (s.history.changes_ ++ log.map Prod.fst) := by
    rw [hs.released, hreleased, List.nil_append]
    exact (List.Sublist.refl _).append (List.filter_sublist.map _)
  refine ⟨s, hexec, ?_, hlog.nodup (hs.owned.nodup_iff.2 hincrease.nodup), fun c hc => ?_⟩
  · intro sn hge
    have hresume : s.history.getChangeNts deref sn guid s.it =
        s.history.getChangeNts deref sn guid 0 :=
      getChangeNts_resume hs.it (hs.passed.mono ((SequenceNumber.ge_iff _ _).1 hge))
    refine ⟨hresume, fun c => ?_⟩
    rw [hresume]
    exact getChangeNts_iff (hincrease.sublist hs.order)
  · exact hs.owned.mem_iff.1 (hlog.subset hc)

/-- The changes 0 and 2 of the first writer are taken as they are found, change 1 of the second is
left, and change 4 is looked for behind them. -/
theorem search_resumes_interleaved :
    ∃ s, (searches interleaved GUID.unknown).exec ⟨interleavedHistory, 0, ⟨0, 0⟩⟩
        [.find ⟨0, 0⟩, .erase 0 true, .find ⟨0, 1⟩, .erase 1 true] = some s ∧
      (s.history.getChangeNts interleaved ⟨0, 2⟩ GUID.unknown s.it).1 = some 4 := by
  have hpermitted : (searches interleaved GUID.unknown).Along Cursor.Permitted
      ⟨interleavedHistory, 0, ⟨0, 0⟩⟩
      [.find ⟨0, 0⟩, .erase 0 true, .find ⟨0, 1⟩, .erase 1 true] :=
    .cons _ rfl rfl (.cons _ rfl ⟨by decide, by decide⟩ (.cons _ rfl rfl
      (.cons _ rfl ⟨by decide, by decide⟩ trivial)))
  obtain ⟨s, hexec, hfind, -, -⟩ := search_resumes (by decide)
    (by unfold WritersIncrease; decide) rfl hpermitted
  refine ⟨s, hexec, ?_⟩
  cases hexec
  exact ((hfind ⟨0, 2⟩ (by decide)).2 4).2 ⟨by decide, by decide, by decide⟩

end History
end Rtps
end Mozi
