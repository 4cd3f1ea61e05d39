import Mozi.DataStructure.BitmapMutators
import Mozi.DataStructure.SequenceNumber
import Mathlib.Data.Set.Basic

/-!
# SequenceNumberSet — moving the base of a set of sequence numbers up

`SequenceNumberDiff` returns the low half of the 64-bit distance, and `updateBase` shifts the bitmap
by it.  A jump of `2 ^ 32` or more shifts by its remainder only, so members can reappear above the
new base.
-/

namespace Mozi
namespace DataStructure

open Foundation BitArray BitmapRange LawfulRangeItem

namespace BitmapRange

variable {T : Type} [RangeItem T]

/-- The items that `isSet` accepts. -/
def members (s : BitmapRange T) : Set T :=
  {x | s.isSet x = some true}

variable [LawfulRangeItem T] {s t : BitmapRange T}

theorem mem_members (h : WellFormed s) {x : T} : x ∈ members s ↔ Member s x :=
  h.isSet_eq x

/-- Bits shifted down by the distance of the bases are the old members from the new base on. -/
theorem members_shift {n : Nat} (hs : WellFormed s) (ht : WellFormed t)
    (hdist : val t.base_ = val s.base_ + n)
    (hbits : ∀ p, bit t.bitmap_ p = bit s.bitmap_ (p + n)) (x : T) :
    x ∈ members t ↔ x ∈ members s ∧ val t.base_ ≤ val x := by
  rw [mem_members ht, mem_members hs]
  constructor
  · rintro ⟨p, hp, hx⟩
    exact ⟨⟨p + n, by rw [← hbits]; exact hp, by omega⟩, by omega⟩
  · rintro ⟨⟨p, hp, hx⟩, hge⟩
    -- An old member from the new base on has a position of at least `n`.
    refine ⟨p - n, ?_, by omega⟩
    rw [hbits, show p - n + n = p by omega]
    exact hp

end BitmapRange

namespace SequenceNumber

variable {s : SequenceNumberSet} {base : SequenceNumber}

/-- The jump succeeds: the members are the old ones from the new base on, and none is left after a
jump of the width of the window. -/
def JumpKeeps (s : SequenceNumberSet) (base : SequenceNumber) : Prop :=
  ∃ t, s.updateBase base = some t ∧
    members t = {x | x ∈ members s ∧ ge x base = true} ∧
    (s.base_.val + 256 ≤ base.val → members t = ∅ ∧ t.empty = true)

/-- A jump shifts by its length modulo `2 ^ 32`, if the end of the new window is a sequence
number. -/
theorem updateBase_jump (h : WellFormed s) (hup : s.base_.val < base.val) :
    (base.val + 255 ≤ 2 ^ 63 - 1 → ∃ t, s.updateBase base = some t ∧ WellFormed t ∧
      t.base_ = base ∧ t.num_bits_ = s.num_bits_ - distance32 base s.base_ ∧
      ∀ p, bit t.bitmap_ p = bit s.bitmap_ (p + distance32 base s.base_)) ∧
    (2 ^ 63 - 1 < base.val + 255 → s.updateBase base = none) := by
  obtain ⟨hin, hout⟩ := add_spec base (n := 255) (by decide)
  constructor
  · intro hle
    obtain ⟨r, hr, hval⟩ := hin hle
    obtain ⟨t, ht, hbase, hmax, hnum, hbits⟩ := updateBase_up h.ends hup hr
    refine ⟨t, ht, wellFormed_of_full (by rw [hbase, hmax]; exact hval) ?_, hbase, hnum, hbits⟩
    rw [hnum]
    exact h.ends.shift_down hbits
  · intro hlt
    have hne : base ≠ s.base_ := by
      rintro rfl
      omega
    have hgt : RangeItem.gt base s.base_ = true := (gt_iff base s.base_).2 hup
    have hnone : RangeItem.add base 255 = none := hout hlt
    have hdiff : RangeItem.diff base s.base_ = some (distance32 base s.base_) :=
      LawfulRangeItem.diff_val base s.base_ (Int.le_of_lt hup)
    simp [updateBase, hne, hgt, hdiff, hnone]

/-- After a jump of less than `2 ^ 32`, or one whose remainder reaches past the last bit, the
members are right. -/
theorem jumpKeeps_of (h : WellFormed s) (hup : s.base_.val < base.val)
    (hroom : base.val + 255 ≤ 2 ^ 63 - 1)
    (hshort : base.val - s.base_.val < 2 ^ 32 ∨ s.num_bits_ ≤ distance32 base s.base_) :
    JumpKeeps s base := by
  have h256 := h.num_bits_le_256
  obtain ⟨t, ht, hwf, hbase, hnum, hbits⟩ := (updateBase_jump h hup).1 hroom
  have hmod : (distance32 base s.base_ : Int) = (base.val - s.base_.val) % 2 ^ 32 :=
    Int.toNat_of_nonneg (Int.emod_nonneg _ (by decide))
  have hempty : s.num_bits_ ≤ distance32 base s.base_ → members t = ∅ ∧ t.empty = true := by
    intro hle
    constructor
    · rw [Set.eq_empty_iff_forall_notMem]
      intro x hx
      obtain ⟨p, hp, _⟩ := (mem_members hwf).1 hx
      have := h.ends.bits_lt _ (by rw [← hbits]; exact hp)
      omega
    · rw [BitmapRange.empty, hnum, beq_iff_eq]
      omega
  refine ⟨t, ht, ?_, ?_⟩
  · by_cases hnear : base.val - s.base_.val < 2 ^ 32
    · ext x
      show x ∈ members t ↔ x ∈ members s ∧ ge x base = true
      rw [ge_iff, members_shift h hwf (n := distance32 base s.base_) (by
        rw [hbase]
        show base.val = s.base_.val + (distance32 base s.base_ : Int)
        omega) hbits, hbase]
      exact Iff.rfl
    · -- A far jump: no old member reaches the new base, and none is left.
      rw [(hempty (by omega)).1, eq_comm, Set.eq_empty_iff_forall_notMem]
      rintro x ⟨hx, hge⟩
      obtain ⟨p, hp, hxVal⟩ := (mem_members h).1 hx
      have hlt := h.ends.bits_lt p hp
      rw [ge_iff] at hge
      have hxVal' : x.val = s.base_.val + p := hxVal
      omega
  · intro hfar
    exact hempty (by omega)

/-- A set survives a jump of its base exactly when the end of the new window is a sequence number,
and the jump is shorter than `2 ^ 32` or its remainder reaches past the last bit. -/
theorem jumpKeeps_iff (s : SequenceNumberSet) (base : SequenceNumber) (h : WellFormed s)
    (hup : s.base_.val < base.val) :
    JumpKeeps s base ↔ base.val + 255 ≤ 2 ^ 63 - 1 ∧
      (base.val - s.base_.val < 2 ^ 32 ∨
        (s.num_bits_ : Int) ≤ (base.val - s.base_.val) % 2 ^ 32) := by
  have hmod : (distance32 base s.base_ : Int) = (base.val - s.base_.val) % 2 ^ 32 :=
    Int.toNat_of_nonneg (Int.emod_nonneg _ (by decide))
  constructor
  · rintro ⟨t, ht, hmembers, hfar⟩
    have hroom : base.val + 255 ≤ 2 ^ 63 - 1 := by
      by_contra hlt
      rw [(updateBase_jump h hup).2 (by omega)] at ht
      cases ht
    refine ⟨hroom, ?_⟩
    -- A jump of `2 ^ 32` or more must leave nothing, but bits past the remainder stay.
    by_contra hbad
    obtain ⟨t', ht', hwf, hbase, hnum, _⟩ := (updateBase_jump h hup).1 hroom
    obtain rfl : t = t' := Option.some.inj (ht.symm.trans ht')
    have hempty := (hfar (by omega)).2
    rw [BitmapRange.empty, beq_iff_eq] at hempty
    omega
  · rintro ⟨hroom, hshort⟩
    refine jumpKeeps_of h hup hroom ?_
    omega

/-- The set with base 1 and member 1. -/
def oneMember : SequenceNumberSet :=
  ⟨⟨0#32, 1#32⟩, ⟨0#32, 256#32⟩, (Vector.replicate 8 0#32).set 0 (1#32 <<< 31), 1⟩

theorem oneMember_wellFormed : WellFormed oneMember :=
  wellFormed_of_full (by decide) (EndsAt.single (by decide : 0 < 8) (by decide : 0 < 32))

theorem jumpKeeps_iff_hundred : oneMember.base_.val < (⟨0#32, 101#32⟩ : SequenceNumber).val ∧
    JumpKeeps oneMember ⟨0#32, 101#32⟩ := by
  have hup : oneMember.base_.val < (⟨0#32, 101#32⟩ : SequenceNumber).val := by decide
  refine ⟨hup, (jumpKeeps_iff oneMember ⟨0#32, 101#32⟩ oneMember_wellFormed hup).2 ⟨by decide, ?_⟩⟩
  exact Or.inl (by decide)

/-- A jump by `2 ^ 32` shifts nothing: the new base is a member afterwards. -/
theorem member_after_far_jump : WellFormed oneMember ∧
    oneMember.base_.val + 2 ^ 32 = (⟨1#32, 1#32⟩ : SequenceNumber).val ∧
    ∃ t, oneMember.updateBase ⟨1#32, 1#32⟩ = some t ∧
      t.isSet ⟨1#32, 1#32⟩ = some true ∧ oneMember.isSet ⟨1#32, 1#32⟩ = some false ∧
      t.empty = false ∧ ¬ JumpKeeps oneMember ⟨1#32, 1#32⟩ := by
  refine ⟨oneMember_wellFormed, by decide, _, rfl, by decide, by decide, by decide, ?_⟩
  rintro ⟨t, ht, _, hfar⟩
  have hempty := (hfar (by decide)).2
  cases ht
  revert hempty
  decide

end SequenceNumber

end DataStructure
end Mozi
