import Mozi.Rtps.Storage.History

/-!
# HistoryLookup — searching the changes of a writer

The scan of `getChangeNts` stops at the first change of the writer that is not before the number
that is looked for.  Where each writer's numbers increase, no match lies behind that change, and a
later number is not found before it.
-/

namespace Mozi
namespace Rtps
namespace History

open DataStructure

variable {deref : ChangePtr → CacheChange.Key} {sn sn1 sn2 : SequenceNumber} {guid : GUID}
  {c : ChangePtr} {cells : List ChangePtr} {it : Nat}

/-! ## One round of the scan -/

/-- The change the scan looks for. -/
def IsNamed (deref : ChangePtr → CacheChange.Key) (sn : SequenceNumber) (guid : GUID)
    (c : ChangePtr) : Prop :=
  (deref c).writer_guid = guid ∧ (deref c).sequence_number = sn

theorem getChangeLoop_named (hc : IsNamed deref sn guid c) :
    getChangeLoop deref sn guid (c :: cells) it = (some c, it) := by
  simp [getChangeLoop, hc.1, hc.2]

/-- A change of the writer with a greater number ends the scan. -/
theorem getChangeLoop_later (hguid : (deref c).writer_guid = guid)
    (hgt : sn.val < (deref c).sequence_number.val) :
    getChangeLoop deref sn guid (c :: cells) it = (none, it) := by
  have hne : (deref c).sequence_number ≠ sn := by
    rintro heq
    rw [heq] at hgt
    omega
  simp [getChangeLoop, hguid, hne, (SequenceNumber.gt_iff _ _).2 hgt]

/-- A change of another writer, or one with a smaller number, is passed over. -/
theorem getChangeLoop_pass
    (hpass : (deref c).writer_guid = guid → (deref c).sequence_number.val < sn.val) :
    getChangeLoop deref sn guid (c :: cells) it = getChangeLoop deref sn guid cells (it + 1) := by
  by_cases hguid : (deref c).writer_guid = guid
  · have hlt := hpass hguid
    have hne : (deref c).sequence_number ≠ sn := by
      rintro heq
      rw [heq] at hlt
      omega
    have hgt : ¬ SequenceNumber.gt (deref c).sequence_number sn = true := by
      rw [SequenceNumber.gt_iff]
      omega
    simp [getChangeLoop, hguid, hne, hgt]
  · simp [getChangeLoop, hguid]

/-- The three cases of a round. -/
theorem round_cases (deref : ChangePtr → CacheChange.Key) (sn : SequenceNumber) (guid : GUID)
    (c : ChangePtr) :
    IsNamed deref sn guid c ∨
      ((deref c).writer_guid = guid ∧ sn.val < (deref c).sequence_number.val) ∨
      ((deref c).writer_guid = guid → (deref c).sequence_number.val < sn.val) := by
  by_cases hguid : (deref c).writer_guid = guid
  · rcases Int.lt_trichotomy (deref c).sequence_number.val sn.val with hlt | heq | hgt
    · exact Or.inr (Or.inr fun _ => hlt)
    · exact Or.inl ⟨hguid, SequenceNumber.val_injective heq⟩
    · exact Or.inr (Or.inl ⟨hguid, hgt⟩)
  · exact Or.inr (Or.inr fun h => absurd h hguid)

/-! ## The whole scan -/

theorem le_getChangeLoop (cells : List ChangePtr) (it : Nat) :
    it ≤ (getChangeLoop deref sn guid cells it).2 := by
  induction cells generalizing it with
  | nil =>
      exact Nat.le_refl it
  | cons c cells ih =>
      rcases round_cases deref sn guid c with hnamed | ⟨hguid, hgt⟩ | hpass
      · rw [getChangeLoop_named hnamed]
      · rw [getChangeLoop_later hguid hgt]
      · rw [getChangeLoop_pass hpass]
        exact Nat.le_trans (Nat.le_succ it) (ih (it + 1))

/-- Nothing is found where nothing matches. -/
theorem getChangeLoop_none (cells : List ChangePtr) (it : Nat)
    (hnone : ∀ c ∈ cells, ¬ IsNamed deref sn guid c) :
    (getChangeLoop deref sn guid cells it).1 = none := by
  induction cells generalizing it with
  | nil =>
      rfl
  | cons c cells ih =>
      rcases round_cases deref sn guid c with hnamed | ⟨hguid, hgt⟩ | hpass
      · exact absurd hnamed (hnone c List.mem_cons_self)
      · rw [getChangeLoop_later hguid hgt]
      · rw [getChangeLoop_pass hpass]
        exact ih (it + 1) fun c' hc' => hnone c' (List.mem_cons_of_mem c hc')

/-- The sequence numbers of every writer increase strictly along the history. -/
def WritersIncrease (deref : ChangePtr → CacheChange.Key) (cells : List ChangePtr) : Prop :=
  cells.Pairwise fun c c' => (deref c).writer_guid = (deref c').writer_guid →
    SequenceNumber.gt (deref c').sequence_number (deref c).sequence_number = true

/-- A match is found, wherever it is: what would end the scan before it has a greater number than
the match behind it. -/
theorem getChangeLoop_some (cells : List ChangePtr) (it : Nat)
    (hincrease : WritersIncrease deref cells) (hc : c ∈ cells) (hmatch : IsNamed deref sn guid c) :
    (getChangeLoop deref sn guid cells it).1 = some c := by
  induction cells generalizing it with
  | nil =>
      cases hc
  | cons c' cells ih =>
      rcases List.pairwise_cons.1 hincrease with ⟨hfirst, hrest⟩
      rcases List.mem_cons.1 hc with rfl | hbehind
      · rw [getChangeLoop_named hmatch]
      · -- A change of the writer before the match has a smaller number.
        have hpass : (deref c').writer_guid = guid → (deref c').sequence_number.val < sn.val := by
          intro hguid
          have hgt := hfirst c hbehind (hguid.trans hmatch.1.symm)
          rw [SequenceNumber.gt_iff, hmatch.2] at hgt
          exact hgt
        rw [getChangeLoop_pass hpass]
        exact ih (it + 1) hrest hbehind

/-- A search for a later number passes over what the search before it has passed over. -/
theorem getChangeLoop_resume (cells : List ChangePtr) (it : Nat) (hle : sn1.val ≤ sn2.val) :
    getChangeLoop deref sn2 guid
        (cells.drop ((getChangeLoop deref sn1 guid cells it).2 - it))
        (getChangeLoop deref sn1 guid cells it).2 =
      getChangeLoop deref sn2 guid cells it := by
  induction cells generalizing it with
  | nil =>
      simp [getChangeLoop]
  | cons c cells ih =>
      rcases round_cases deref sn1 guid c with hnamed | ⟨hguid, hgt⟩ | hpass
      · rw [getChangeLoop_named hnamed, Nat.sub_self, List.drop_zero]
      · rw [getChangeLoop_later hguid hgt, Nat.sub_self, List.drop_zero]
      · have hpass2 : (deref c).writer_guid = guid → (deref c).sequence_number.val < sn2.val :=
          fun hguid => Int.lt_of_lt_of_le (hpass hguid) hle
        rw [getChangeLoop_pass hpass, getChangeLoop_pass hpass2, ← ih (it + 1)]
        -- The iterator has passed `c`.
        have hle' : it + 1 ≤ (getChangeLoop deref sn1 guid cells (it + 1)).2 :=
          le_getChangeLoop cells (it + 1)
        obtain ⟨k, hk⟩ := Nat.exists_eq_add_of_le hle'
        rw [hk, show it + 1 + k - it = k + 1 by omega, show it + 1 + k - (it + 1) = k by omega,
          List.drop_succ_cons]

/-! ## `getChangeNts` and `getChange` -/

theorem getChangeNts_complete_and_resumable (deref : ChangePtr → CacheChange.Key) (h : History)
    (guid : GUID) (hincrease : WritersIncrease deref h.changes_) :
    (∀ sn, (∀ c ∈ h.changes_, IsNamed deref sn guid c →
        (h.getChangeNts deref sn guid 0).1 = some c) ∧
      ((∀ c ∈ h.changes_, ¬ IsNamed deref sn guid c) →
        (h.getChangeNts deref sn guid 0).1 = none)) ∧
    ∀ sn1 sn2, SequenceNumber.ge sn2 sn1 = true →
      h.getChangeNts deref sn2 guid (h.getChangeNts deref sn1 guid 0).2 =
        h.getChangeNts deref sn2 guid 0 := by
  refine ⟨fun sn => ⟨?_, ?_⟩, ?_⟩
  · intro c hc hmatch
    exact getChangeLoop_some h.changes_ 0 hincrease hc hmatch
  · intro hnone
    exact getChangeLoop_none h.changes_ 0 hnone
  · intro sn1 sn2 hge
    exact getChangeLoop_resume h.changes_ 0 ((SequenceNumber.ge_iff _ _).1 hge)

/-- Two writers take turns, each with the numbers 0, 1, 2. -/
def interleaved (c : ChangePtr) : CacheChange.Key where
  writer_guid := { GUID.unknown with entity_id := Vector.replicate 4 (UInt8.ofNat (c % 2)) }
  sequence_number := ⟨0, BitVec.ofNat 32 (c / 2)⟩

def interleavedHistory : History where
  mp_mtx_ := some 0
  changes_ := [0, 1, 2, 3, 4, 5]
  is_history_full_ := false
  released := []

theorem getChangeNts_complete_interleaved :
    (interleavedHistory.getChangeNts interleaved ⟨0, 2⟩ GUID.unknown 0).1 = some 4 ∧
      interleavedHistory.getChangeNts interleaved ⟨0, 2⟩ GUID.unknown
          (interleavedHistory.getChangeNts interleaved ⟨0, 1⟩ GUID.unknown 0).2 =
        interleavedHistory.getChangeNts interleaved ⟨0, 2⟩ GUID.unknown 0 := by
  have h := getChangeNts_complete_and_resumable interleaved interleavedHistory GUID.unknown
    (by unfold WritersIncrease; decide)
  exact ⟨(h.1 ⟨0, 2⟩).1 4 (by decide) ⟨by decide, by decide⟩, h.2 ⟨0, 1⟩ ⟨0, 2⟩ (by decide)⟩

/-- `getChange` tells whether the change is there. -/
theorem getChange_eq (h : History) (change₀ : Option ChangePtr) (hmtx : h.mp_mtx_ ≠ none)
    (hincrease : WritersIncrease deref h.changes_) :
    ∃ found change, h.getChange deref sn guid change₀ = some (found, change) ∧
      (found = true ↔ ∃ c ∈ h.changes_, IsNamed deref sn guid c) := by
  obtain ⟨m, hm⟩ := Option.ne_none_iff_exists'.1 hmtx
  refine ⟨(h.getChangeNts deref sn guid 0).1.isSome, (h.getChangeNts deref sn guid 0).1, ?_, ?_⟩
  · simp [getChange, lock, hm]
  · constructor
    · intro hfound
      by_contra hnone
      have habsent : ∀ c ∈ h.changes_, ¬ IsNamed deref sn guid c := by
        intro c hc hnamed
        exact hnone ⟨c, hc, hnamed⟩
      have hnull : (h.getChangeNts deref sn guid 0).1 = none :=
        getChangeLoop_none h.changes_ 0 habsent
      rw [hnull] at hfound
      cases hfound
    · rintro ⟨c, hc, hnamed⟩
      have hsome : (h.getChangeNts deref sn guid 0).1 = some c :=
        getChangeLoop_some h.changes_ 0 hincrease hc hnamed
      rw [hsome, Option.isSome_some]

end History
end Rtps
end Mozi
