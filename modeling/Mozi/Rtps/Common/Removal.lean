import Mozi.DataStructure.BitmapRemove
import Mozi.Rtps.Common.NumberSets

/-!
# Removal — removing fragment numbers and sequence numbers

`max()` of an empty set is the base plus `2 ^ 32 - 1`.  For fragment numbers that is the number
before the base, except at base 0; for sequence numbers it is far above the window.
-/

namespace Mozi
namespace Rtps

open Foundation BitArray DataStructure BitmapRange LawfulRangeItem

/-! ## Sums that leave the items -/

theorem FragmentNumber.add_toNat (a : FragmentNumber) {n : Nat} (hn : n < 2 ^ 32) :
    (a + BitVec.ofNat 32 n).toNat =
      if a.toNat + n < 2 ^ 32 then a.toNat + n else a.toNat + n - 2 ^ 32 := by
  have ha := a.isLt
  rw [BitVec.toNat_add, BitVec.toNat_ofNat, Nat.mod_eq_of_lt hn]
  split_ifs with hlt
  · exact Nat.mod_eq_of_lt hlt
  · omega

instance : AddWraps FragmentNumber where
  add_cases a c n hn hc := by
    have hval : ∀ x : FragmentNumber, val x = (x.toNat : Int) := fun _ => rfl
    obtain rfl : a + BitVec.ofNat 32 n = c := Option.some.inj hc
    have ha := a.isLt
    rw [hval, hval, FragmentNumber.add_toNat a hn]
    split_ifs <;> omega

instance : AddWraps SequenceNumber where
  add_cases a c n hn hc := by
    left
    obtain ⟨hin, hout⟩ := SequenceNumber.add_spec a hn
    have hle : a.val + n ≤ 2 ^ 63 - 1 := by
      by_contra hlt
      have hnone : RangeItem.add a n = none := hout (by omega)
      rw [hnone] at hc
      cases hc
    obtain ⟨d, hd, hval⟩ := hin hle
    obtain rfl : c = d := Option.some.inj (hc.symm.trans hd)
    exact hval

/-! ## Fragment numbers -/

/-- Where the removal from a fragment set is right: an empty set does not have base 0, or the item
is in the bitmap; and the members do not reach past the largest number, or the item is none of
them. -/
def FragmentRemoved (s : FragmentNumberSet) (item : FragmentNumber) : Prop :=
  (s.num_bits_ = 0 → s.base_ ≠ 0 ∨ item.toNat < 256) ∧
    (0 < s.num_bits_ → s.base_.toNat + s.num_bits_ ≤ 2 ^ 32 ∨ ¬ Stored s item)

theorem fragment_max (s : FragmentNumberSet) (h256 : s.num_bits_ ≤ 256) :
    ∃ m, s.max = some m ∧ m.toNat =
      if s.num_bits_ = 0 then (if s.base_ = 0 then 2 ^ 32 - 1 else s.base_.toNat - 1)
      else if s.base_.toNat + s.num_bits_ ≤ 2 ^ 32 then s.base_.toNat + s.num_bits_ - 1
      else s.base_.toNat + s.num_bits_ - 1 - 2 ^ 32 := by
  have hbase := s.base_.isLt
  have hzero : s.base_ = 0 ↔ s.base_.toNat = 0 := by
    rw [← BitVec.toNat_inj]
    rfl
  refine ⟨_, rfl, ?_⟩
  rw [sub_one_eq h256, FragmentNumber.add_toNat _ (by split_ifs <;> omega)]
  simp only [hzero]
  split_ifs <;> omega

theorem fragment_removeExact_iff {s : FragmentNumberSet} (h : Bounded s) (item : FragmentNumber) :
    RemoveExact s item ↔ FragmentRemoved s item := by
  have hval : ∀ x : FragmentNumber, val x = (x.toNat : Int) := fun _ => rfl
  have hlimit : limit FragmentNumber = 2 ^ 32 - 1 := rfl
  have h256 : s.num_bits_ ≤ 256 := h.ends.le
  have hbase := s.base_.isLt
  have hitem := item.isLt
  have hstored := fun hfits => h.stored_bounds (x := item) hfits
  have hzero : s.base_ = 0 ↔ s.base_.toNat = 0 := by
    rw [← BitVec.toNat_inj]
    rfl
  obtain ⟨m, hm, hmax⟩ := fragment_max s h256
  rw [removeExact_of_max h hm]
  simp only [hval, hlimit] at hstored ⊢
  unfold FragmentRemoved
  by_cases hempty : s.num_bits_ = 0
  · -- An empty set: `max()` is the number before the base, or the largest one.
    have hnone := h.not_stored hempty item
    rw [if_pos hempty] at hmax
    constructor
    · rintro ⟨hnear, -⟩
      refine ⟨fun _ => ?_, fun hpos => absurd hempty (Nat.ne_of_gt hpos)⟩
      by_cases hb : s.base_ = 0
      · rw [if_pos hb] at hmax
        rw [hzero] at hb
        have := hnear (by omega) (by omega)
        exact Or.inr (by omega)
      · exact Or.inl hb
    · rintro ⟨hat, -⟩
      refine ⟨fun hge hle => ?_, fun _ => hnone⟩
      rcases hat hempty with hb | hlt
      · rw [if_neg hb] at hmax
        rw [ne_eq, hzero] at hb
        omega
      · omega
  · rw [if_neg hempty] at hmax
    by_cases hfits : s.base_.toNat + s.num_bits_ ≤ 2 ^ 32
    · -- All members lie below `max()`.
      rw [if_pos hfits] at hmax
      refine iff_of_true ⟨fun _ _ => by omega, fun hout hin => ?_⟩ ⟨fun h => absurd h hempty,
        fun _ => Or.inl hfits⟩
      have := hstored (by omega) hin
      exact hout (by omega)
    · -- `max()` is below the base, and nothing is removed.
      rw [if_neg hfits] at hmax
      constructor
      · rintro ⟨-, hnot⟩
        exact ⟨fun h => absurd h hempty, fun _ => Or.inr (hnot (by omega))⟩
      · rintro ⟨-, hnot⟩
        refine ⟨fun _ _ => by omega, fun _ => ?_⟩
        exact (hnot (by omega)).resolve_left hfits

/-! ## Sequence numbers -/

/-- Where the removal from a sequence number set is right: `max()` is a sequence number, and in an
empty set it is not taken for the end of the window. -/
def SequenceRemoved (s : SequenceNumberSet) (item : SequenceNumber) : Prop :=
  (s.num_bits_ = 0 → s.base_.val + (2 ^ 32 - 1) ≤ 2 ^ 63 - 1 ∧
    (item.val < s.base_.val + 256 ∨ s.base_.val + 2 ^ 32 ≤ item.val)) ∧
    (0 < s.num_bits_ → s.base_.val + s.num_bits_ ≤ 2 ^ 63)

theorem sequence_max (s : SequenceNumberSet) (h256 : s.num_bits_ ≤ 256) {k : Nat}
    (hk : (if s.num_bits_ = 0 then 2 ^ 32 - 1 else s.num_bits_ - 1) = k) :
    (s.base_.val + k ≤ 2 ^ 63 - 1 → ∃ m, s.max = some m ∧ m.val = s.base_.val + k) ∧
      (2 ^ 63 - 1 < s.base_.val + k → s.max = none) := by
  have hsub : sub32 s.num_bits_ 1 = k := by rw [sub_one_eq h256, hk]
  have hmax : s.max = SequenceNumber.add s.base_ k := by
    rw [← hsub]
    rfl
  rw [hmax]
  exact SequenceNumber.add_spec s.base_ (by split_ifs at hk <;> omega)

theorem sequence_removeExact_iff {s : SequenceNumberSet} (h : Bounded s) (item : SequenceNumber) :
    RemoveExact s item ↔ SequenceRemoved s item := by
  have hval : ∀ x : SequenceNumber, val x = x.val := fun _ => rfl
  have hlimit : limit SequenceNumber = 2 ^ 63 - 1 := rfl
  have h256 : s.num_bits_ ≤ 256 := h.ends.le
  have hstored := fun hfits => h.stored_bounds (x := item) hfits
  unfold SequenceRemoved
  obtain ⟨k, hk⟩ : ∃ k, (if s.num_bits_ = 0 then 2 ^ 32 - 1 else s.num_bits_ - 1) = k := ⟨_, rfl⟩
  by_cases hle : s.base_.val + k ≤ 2 ^ 63 - 1
  · obtain ⟨m, hm, hmval⟩ := (sequence_max s h256 hk).1 hle
    rw [removeExact_of_max h hm]
    simp only [hval, hlimit, hmval] at hstored ⊢
    by_cases hempty : s.num_bits_ = 0
    · have hnone := h.not_stored hempty item
      rw [if_pos hempty] at hk
      subst hk
      constructor
      · rintro ⟨hnear, -⟩
        refine ⟨fun _ => ⟨hle, ?_⟩, fun hpos => absurd hempty (Nat.ne_of_gt hpos)⟩
        by_contra hfar
        have := hnear (by omega) (by omega)
        omega
      · rintro ⟨hat, -⟩
        obtain ⟨-, hnear⟩ := hat hempty
        exact ⟨fun _ _ => by omega, fun _ => hnone⟩
    · rw [if_neg hempty] at hk
      refine iff_of_true ⟨fun _ _ => by omega, fun hout hin => ?_⟩
        ⟨fun h => absurd h hempty, fun _ => by omega⟩
      have := hstored (by omega) hin
      exact hout (by omega)
  · -- The assertion of the sum fails.
    have hnone := (sequence_max s h256 hk).2 (by omega)
    constructor
    · intro hexact
      obtain ⟨m, hm, -⟩ := (removeExact_iff h item).1 hexact
      rw [hnone] at hm
      cases hm
    · rintro ⟨hzero, hpos⟩
      by_cases hempty : s.num_bits_ = 0
      · have := hzero hempty
        rw [if_pos hempty] at hk
        omega
      · have := hpos (by omega)
        rw [if_neg hempty] at hk
        omega

/-! ## Both sets -/

/-- In every state the operations lead to while the base only moves up, and for every item, the
removal is exact just where `FragmentRemoved` and `SequenceRemoved` say. -/
theorem remove_exact_iff (s : FragmentNumberSet) (item : FragmentNumber) (hs : ReachedUpward s)
    (t : SequenceNumberSet) (number : SequenceNumber) (ht : ReachedUpward t) :
    (RemoveExact s item ↔ FragmentRemoved s item) ∧
      (RemoveExact t number ↔ SequenceRemoved t number) :=
  ⟨fragment_removeExact_iff hs.bounded item, sequence_removeExact_iff ht.bounded number⟩

/-- An empty set with base 1. -/
def noSequence : SequenceNumberSet :=
  ⟨⟨0#32, 1#32⟩, ⟨0#32, 256#32⟩, Vector.replicate 8 0#32, 0⟩

theorem oneFragment_reached : ReachedUpward oneFragment :=
  ⟨100#32, _, [.add 140#32], Or.inl rfl, ⟨trivial, fun _ _ => trivial⟩, rfl⟩

theorem noSequence_reached : ReachedUpward noSequence :=
  ⟨⟨0#32, 1#32⟩, _, [], Or.inl rfl, trivial, rfl⟩

theorem remove_exact_reached :
    (RemoveExact oneFragment 140#32 ↔ FragmentRemoved oneFragment 140#32) ∧
      (RemoveExact noSequence ⟨0#32, 300#32⟩ ↔ SequenceRemoved noSequence ⟨0#32, 300#32⟩) :=
  remove_exact_iff oneFragment 140#32 oneFragment_reached noSequence ⟨0#32, 300#32⟩
    noSequence_reached

/-- In an empty set with base 1, the number 300 lies below the wrapped `max()`, and its word is
past the bitmap. -/
theorem remove_outside_words : ReachedUpward noSequence ∧
    noSequence.remove ⟨0#32, 300#32⟩ = none ∧ ¬ RemoveExact noSequence ⟨0#32, 300#32⟩ := by
  have hnone : noSequence.remove ⟨0#32, 300#32⟩ = none := rfl
  refine ⟨noSequence_reached, hnone, ?_⟩
  rintro ⟨t, ht, -⟩
  rw [hnone] at ht
  cases ht

end Rtps
end Mozi
