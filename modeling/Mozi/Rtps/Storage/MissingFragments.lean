import Mozi.DataStructure.BitmapMutators
import Mozi.Rtps.Common.FragmentNumber
import Mozi.Rtps.Storage.FirstLink

/-!
# MissingFragments — listing the missing fragments

`getMissingFragments` of `cache_change.h` follows the links from `first_missing_fragment_` on and
adds the number of each fragment, its index and one, to a set.  `Walk` is the list of the indices
it visits; the call returns if and only if there is one.
-/

namespace Mozi
namespace Rtps

open Foundation DataStructure BitmapRange

namespace CacheChange

variable {ch : CacheChange} {fuel i j k : Nat} {l l' : List Nat}

/-! ## `getMissingFragments` -/

/-- The body of the loop, on the index `current_frag` and the set. -/
def listFragment (ch : CacheChange) (p : Nat × FragmentNumberSet) :
    Option (Nat × FragmentNumberSet) := do
  let r ← p.2.add (BitVec.ofNat 32 (p.1 + 1))
  let current_frag ← ch.getNextMissingFragment p.1
  some (current_frag, r.2)

def getMissingFragments (fuel : Nat) (ch : CacheChange) (frag_sns : FragmentNumberSet) :
    Option FragmentNumberSet := do
  let frag_sns ← frag_sns.base (BitVec.ofNat 32 (ch.first_missing_fragment_ + 1))
  let p ← whileM (fun p : Nat × FragmentNumberSet => decide (p.1 < ch.fragment_count_))
    (listFragment ch) fuel (ch.first_missing_fragment_, frag_sns)
  some p.2

/-! ## Walks -/

/-- The indices visited from an index on, to the end of the list. -/
inductive Walk (ch : CacheChange) : Nat → List Nat → Prop where
  | stop {i : Nat} : ch.fragment_count_ ≤ i → Walk ch i []
  | step {i j : Nat} {l : List Nat} :
      i < ch.fragment_count_ → ch.getNextMissingFragment i = some j → Walk ch j l →
        Walk ch i (i :: l)

theorem Walk.unique (h : Walk ch i l) (h' : Walk ch i l') : l = l' := by
  induction h generalizing l' with
  | stop hend =>
      cases h' with
      | stop _ =>
          rfl
      | step hlt _ _ =>
          omega
  | step hlt hnext _ ih =>
      cases h' with
      | stop hend =>
          omega
      | step _ hnext' hrest =>
          rw [hnext] at hnext'
          cases hnext'
          rw [ih hrest]

/-- A visited fragment starts a walk of its own. -/
theorem Walk.of_mem (h : Walk ch i l) (hj : j ∈ l) :
    ∃ k rest, ch.getNextMissingFragment j = some k ∧ Walk ch k rest ∧
      rest.length < l.length := by
  induction h with
  | stop _ =>
      cases hj
  | step hlt hnext hrest ih =>
      rcases List.mem_cons.1 hj with rfl | hmem
      · exact ⟨_, _, hnext, hrest, Nat.lt_succ_self _⟩
      · obtain ⟨k, rest, hk, hwalk, hshort⟩ := ih hmem
        exact ⟨k, rest, hk, hwalk, Nat.lt_succ_of_lt hshort⟩

theorem Walk.mem_lt (h : Walk ch i l) (hj : j ∈ l) : j < ch.fragment_count_ := by
  induction h with
  | stop _ =>
      cases hj
  | step hlt _ _ ih =>
      rcases List.mem_cons.1 hj with rfl | hmem
      · exact hlt
      · exact ih hmem

/-- In a list that ends, no later fragment has the link of the first one. -/
theorem Walk.eq_of_same_link (h : Walk ch i l) (hj : j ∈ l)
    (hsame : ch.getNextMissingFragment j = ch.getNextMissingFragment i) : j = i := by
  cases h with
  | stop _ =>
      cases hj
  | step hlt hnext hrest =>
      rcases List.mem_cons.1 hj with rfl | hmem
      · rfl
      · -- The rest behind `j` would be the whole rest.
        obtain ⟨k, rest, hk, hwalk, hshort⟩ := hrest.of_mem hmem
        rw [hsame, hnext] at hk
        cases hk
        rw [hwalk.unique hrest] at hshort
        omega

/-! ## Walks and the loop -/

/-- The loop returns where there is a walk, whatever the set. -/
theorem Walk.loop_returns (h : Walk ch i l) (s : FragmentNumberSet)
    (hmax : LawfulRangeItem.val s.range_max_ ≤ LawfulRangeItem.val s.base_ + 255) :
    ∃ r, whileM (fun p : Nat × FragmentNumberSet => decide (p.1 < ch.fragment_count_))
      (listFragment ch) (l.length + 1) (i, s) = some r := by
  induction h generalizing s with
  | stop hend =>
      exact ⟨_, whileM_stop (decide_eq_false (Nat.not_lt.2 hend))⟩
  | @step i j l hlt hnext _ ih =>
      obtain ⟨⟨b, t⟩, ht, hbase, hrange⟩ := add_returns hmax (BitVec.ofNat 32 (i + 1))
      obtain ⟨r, hr⟩ := ih t (by rw [hbase, hrange]; exact hmax)
      refine ⟨r, ?_⟩
      rw [List.length_cons, whileM_step (t := (j, t)) (decide_eq_true hlt)
        (by simp [listFragment, ht, hnext])]
      exact hr

/-- A loop that returns has taken a walk, and has added its fragments to the set. -/
theorem loop_walk {p r : Nat × FragmentNumberSet} (hwf : Wf p.2)
    (h : whileM (fun p : Nat × FragmentNumberSet => decide (p.1 < ch.fragment_count_))
      (listFragment ch) fuel p = some r) :
    ∃ l, Walk ch p.1 l ∧ Wf r.2 ∧
      ∀ x, Member r.2 x ↔ Member p.2 x ∨ ∃ i ∈ l, x = BitVec.ofNat 32 (i + 1) ∧
        LawfulRangeItem.val p.2.base_ ≤ LawfulRangeItem.val x ∧
        LawfulRangeItem.val x ≤ LawfulRangeItem.val p.2.range_max_ := by
  induction fuel generalizing p with
  | zero =>
      cases h
  | succ fuel ih =>
      by_cases hlt : p.1 < ch.fragment_count_
      · simp only [whileM, decide_eq_true hlt, if_true] at h
        rcases Option.bind_eq_some_iff.1 h with ⟨q, hq, hrest⟩
        obtain ⟨⟨b, s⟩, hs, hswf, hbase, hmax, hmember⟩ :=
          add_member hwf (BitVec.ofNat 32 (p.1 + 1))
        obtain ⟨next, hnext, rfl⟩ : ∃ next, ch.getNextMissingFragment p.1 = some next ∧
            q = (next, s) := by
          simp only [listFragment, hs, Option.bind_eq_bind, Option.bind_some,
            Option.bind_eq_some_iff] at hq
          rcases hq with ⟨next, hnext, hq⟩
          exact ⟨next, hnext, (Option.some.inj hq).symm⟩
        obtain ⟨l, hwalk, hrwf, hrmember⟩ := ih hswf hrest
        refine ⟨p.1 :: l, Walk.step hlt hnext hwalk, hrwf, fun x => ?_⟩
        simp only at hbase hmax
        simp only [hbase, hmax] at hrmember
        rw [hrmember, hmember, or_assoc]
        simp only [List.exists_mem_cons_iff]
      · rw [whileM_stop (by simpa using hlt)] at h
        cases h
        exact ⟨[], Walk.stop (by omega), hwf, fun x => by simp⟩

/-! ## The set -/

/-- The call returns where there is a walk. -/
theorem Walk.getMissingFragments_returns (h : Walk ch ch.first_missing_fragment_ l)
    (frag_sns : FragmentNumberSet) :
    ∃ t, ch.getMissingFragments (l.length + 1) frag_sns = some t := by
  obtain ⟨s, hs, hmax⟩ : ∃ s,
      frag_sns.base (BitVec.ofNat 32 (ch.first_missing_fragment_ + 1)) = some s ∧
        LawfulRangeItem.val s.range_max_ ≤ LawfulRangeItem.val s.base_ + 255 := by
    refine ⟨_, rfl, ?_⟩
    have hlast : (BitVec.ofNat 32 255).toNat = 255 := rfl
    simp only [LawfulRangeItem.val, BitVec.toNat_add, hlast]
    omega
  obtain ⟨r, hr⟩ := h.loop_returns s hmax
  exact ⟨r.2, by simp [getMissingFragments, hs, hr]⟩

/-- The set that is left has the fragments of the walk that lie in the window. -/
theorem getMissingFragments_walk {frag_sns t : FragmentNumberSet}
    (hwindow : ch.first_missing_fragment_ + 257 < 2 ^ 32)
    (h : ch.getMissingFragments fuel frag_sns = some t) :
    ∃ l, Walk ch ch.first_missing_fragment_ l ∧ ∀ x : FragmentNumber, t.isSet x = some true ↔
      ∃ i ∈ l, x = BitVec.ofNat 32 (i + 1) ∧ ch.first_missing_fragment_ + 1 ≤ x.toNat ∧
        x.toNat ≤ ch.first_missing_fragment_ + 256 := by
  obtain ⟨s, hs, hwf, hempty, hbase, hmax⟩ : ∃ s,
      frag_sns.base (BitVec.ofNat 32 (ch.first_missing_fragment_ + 1)) = some s ∧ Wf s ∧
        (∀ x, ¬ Member s x) ∧ s.base_.toNat = ch.first_missing_fragment_ + 1 ∧
        s.range_max_.toNat = ch.first_missing_fragment_ + 256 := by
    have hbase : (BitVec.ofNat 32 (ch.first_missing_fragment_ + 1)).toNat =
        ch.first_missing_fragment_ + 1 := by
      rw [BitVec.toNat_ofNat]
      omega
    have hlast : (BitVec.ofNat 32 255).toNat = 255 := rfl
    have hmax : (BitVec.ofNat 32 (ch.first_missing_fragment_ + 1) + BitVec.ofNat 32 255).toNat =
        ch.first_missing_fragment_ + 256 := by
      rw [BitVec.toNat_add, hbase, hlast]
      omega
    refine ⟨_, rfl, wf_empty 255 ?_ ?_, ?_, hbase, hmax⟩
    · simp only [LawfulRangeItem.val, LawfulRangeItem.limit, hbase]
      omega
    · simp only [LawfulRangeItem.val, hbase, Nat.min_self]
      omega
    · rintro x ⟨q, hq, -⟩
      rw [BitArray.EndsAt.zero.bit_eq_false (Nat.zero_le q)] at hq
      cases hq
  simp only [getMissingFragments, hs, Option.bind_eq_bind, Option.bind_some,
    Option.bind_eq_some_iff] at h
  rcases h with ⟨r, hloop, hr⟩
  cases hr
  obtain ⟨l, hwalk, hrwf, hmember⟩ := loop_walk hwf hloop
  refine ⟨l, hwalk, fun x => ?_⟩
  rw [hrwf.isSet_eq, hmember]
  simp only [hempty, false_or, LawfulRangeItem.val, Int.ofNat_le, hbase, hmax]

/-- Past the end the set is left empty. -/
theorem getMissingFragments_past (h : ch.fragment_count_ ≤ ch.first_missing_fragment_)
    (fuel : Nat) (frag_sns : FragmentNumberSet) :
    ∃ t, ch.getMissingFragments (fuel + 1) frag_sns = some t ∧ ∀ x, t.isSet x = some false := by
  obtain ⟨s, hs, hzero⟩ : ∃ s,
      frag_sns.base (BitVec.ofNat 32 (ch.first_missing_fragment_ + 1)) = some s ∧
        s.num_bits_ = 0 := ⟨_, rfl, rfl⟩
  refine ⟨s, ?_, fun x => ?_⟩
  · simp only [getMissingFragments, hs, Option.bind_eq_bind, Option.bind_some]
    rw [whileM_stop (by simpa using h), Option.bind_some]
  · simp [isSet, hzero, RangeItem.diff]

end CacheChange

end Rtps
end Mozi
