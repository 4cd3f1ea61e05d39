import Mozi.DataStructure.BitmapAddRange
import Mozi.DataStructure.BitmapMoveUp
import Mozi.DataStructure.BitmapRuns
import Mozi.DataStructure.SequenceNumberSet
import Mozi.Rtps.Common.FragmentNumber

/-!
# NumberSets — the two instances of `BitmapRange`

The readers of a `FragmentNumberSet` and of a `SequenceNumberSet` agree after every run of
operations that stays away from the defects of `BitmapRuns`.  A `FragmentNumberSet` whose window
moves up keeps the members that stay in it.  In both, `addRange` is `add` of each item.
-/

namespace Mozi
namespace Rtps

open Foundation DataStructure BitmapRange

/-- In every run whose operations meet their conditions, every operation returns and the readers
agree in the state it leads to.  The items are fragment numbers, sequence numbers, or any others
that are integers up to a largest one. -/
theorem readers_agree_in_every_run {T : Type} [DecidableEq T] [RangeItem T] [LawfulRangeItem T]
    (s : BitmapRange T) (ops : List (Op T)) (hs : Constructed s)
    (hwindow : ∀ op ∈ ops, op.Windowed) (hkeeps : machine.Along (fun s op => op.Keeps s) s ops) :
    ∃ t, machine.exec s ops = some t ∧ ReadersAgree t := by
  rcases exec_wf hs.wf hwindow hkeeps with ⟨t, ht, hwf⟩
  exact ⟨t, ht, hwf.readersAgree⟩

/-- An item is added to a fragment set and the base moved past it; a sequence number is added and
removed. -/
theorem readers_agree_in_two_runs :
    (∃ s t : FragmentNumberSet, new 100#32 = some s ∧
      machine.exec s [.add 103#32, .updateBase 110#32] = some t ∧ ReadersAgree t) ∧
    (∃ s t : SequenceNumberSet, newCapped ⟨0#32, 1#32⟩ 10 = some s ∧
      machine.exec s [.add ⟨0#32, 5#32⟩, .remove ⟨0#32, 5#32⟩] = some t ∧ ReadersAgree t) := by
  constructor
  · obtain ⟨s, hs⟩ : ∃ s : FragmentNumberSet, new 100#32 = some s := ⟨_, rfl⟩
    have hconstructed : Constructed s := ⟨100#32, by decide, Or.inl hs⟩
    cases hs
    obtain ⟨t, ht, hagree⟩ := readers_agree_in_every_run _ [.add 103#32, .updateBase 110#32]
      hconstructed (by simp [Op.Windowed]; decide) (by
        refine ⟨trivial, ?_⟩
        intro u hu
        cases hu
        refine ⟨?_, fun _ _ => trivial⟩
        intro hlt
        revert hlt
        decide)
    exact ⟨_, t, rfl, ht, hagree⟩
  · obtain ⟨s, hs⟩ : ∃ s : SequenceNumberSet, newCapped ⟨0#32, 1#32⟩ 10 = some s := ⟨_, rfl⟩
    have hconstructed : Constructed s := ⟨⟨0#32, 1#32⟩, by decide, Or.inr ⟨10, hs⟩⟩
    cases hs
    obtain ⟨t, ht, hagree⟩ := readers_agree_in_every_run _
      [.add ⟨0#32, 5#32⟩, .remove ⟨0#32, 5#32⟩] hconstructed (by simp [Op.Windowed]) (by
        refine ⟨trivial, ?_⟩
        intro u hu
        cases hu
        refine ⟨?_, fun _ _ => trivial⟩
        intro hzero
        cases hzero)
    exact ⟨_, t, rfl, ht, hagree⟩

/-- The base of an empty fragment set moves from 100 down to 68: `empty()` is false and `for_each`
visits nothing. -/
theorem empty_set_moved_down :
    (∀ op ∈ [(.updateBase 68#32 : Op FragmentNumber)], op.Windowed) ∧
      ∃ s t : FragmentNumberSet, Constructed s ∧ new 100#32 = some s ∧
        machine.exec s [.updateBase 68#32] = some t ∧ t.empty = false ∧ t.forEach = some [] ∧
        ¬ ReadersAgree t := by
  refine ⟨by simp [Op.Windowed]; decide, ?_⟩
  obtain ⟨s, hs⟩ : ∃ s : FragmentNumberSet, new 100#32 = some s := ⟨_, rfl⟩
  have hconstructed : Constructed s := ⟨100#32, by decide, Or.inl hs⟩
  cases hs
  refine ⟨_, _, hconstructed, rfl, rfl, rfl, rfl, ?_⟩
  rintro ⟨visited, hvisited, _, _, hempty, _⟩
  cases hvisited
  cases hempty.2 rfl

/-! ## Moving up -/

/-- A fragment set whose window moves up has the old members from the new base on, and no others. -/
theorem fragments_moved_up (s : FragmentNumberSet) (base : FragmentNumber)
    (hends : BitArray.EndsAt s.bitmap_ s.num_bits_) (hup : s.base_.toNat < base.toNat)
    (hfits : base.toNat + 255 < 2 ^ 32) :
    ∃ t, s.updateBase base = some t ∧ MovedUp s t base ∧
      ∀ x, t.isSet x = some true ↔ HoldsAt s x.toNat ∧ base.toNat ≤ x.toNat := by
  have hval : ∀ x : FragmentNumber, LawfulRangeItem.val x = (x.toNat : Int) := fun _ => rfl
  have hlimit : LawfulRangeItem.limit FragmentNumber = 2 ^ 32 - 1 := rfl
  have hnear : distanceUp s base < 2 ^ 32 := by
    unfold distanceUp
    rw [hval, hval]
    omega
  obtain ⟨t, ht, hmoved, hmax⟩ := updateBase_up_moved hends
    (by rw [hval, hval]; omega) hnear (by rw [hval, hlimit]; omega)
  refine ⟨t, ht, hmoved, fun x => ?_⟩
  rw [hmoved.isSet_iff hmax x, hval, hval]
  exact and_congr_right fun _ => Int.ofNat_le

/-- The set with base 100 and the member 140. -/
def oneFragment : FragmentNumberSet :=
  ⟨100#32, 355#32, (Vector.replicate 8 0#32).set 1 (1#32 <<< 23), 41⟩

/-- The member stays when the base moves to 110. -/
theorem fragments_moved_up_ten :
    ∃ t, oneFragment.updateBase 110#32 = some t ∧ t.isSet 140#32 = some true := by
  obtain ⟨t, ht, _, hset⟩ := fragments_moved_up oneFragment 110#32
    (BitArray.EndsAt.single (w := 32) (i := 1) (d := 8) (by decide) (by decide)) (by decide)
    (by decide)
  have hbit : BitArray.bit oneFragment.bitmap_ 40 = true := by decide
  have hvalue : ((140#32 : FragmentNumber).toNat : Int) =
      LawfulRangeItem.val oneFragment.base_ + (40 : Nat) := by decide
  exact ⟨t, ht, (hset 140#32).2 ⟨⟨40, hbit, hvalue⟩, by decide⟩⟩

/-! ## Ranges -/

/-- In a set of fragment numbers and in a set of sequence numbers whose window has its full width,
`addRange` leaves the state that `add` of the items of the range leaves, one after another. -/
theorem addRange_is_repeated_add :
    (∀ (s : FragmentNumberSet) (from_ to_ : FragmentNumber),
      s.range_max_.toNat = s.base_.toNat + 255 → s.base_.toNat + 256 < 2 ^ 32 →
      (∃ items, Lists items from_ to_) ∧ ∀ items, Lists items from_ to_ →
        ∃ t, s.addRange from_ to_ = some t ∧ addEach s items = some t) ∧
    (∀ (s : SequenceNumberSet) (from_ to_ : SequenceNumber),
      s.range_max_.val = s.base_.val + 255 → s.base_.val + 256 ≤ 2 ^ 63 - 1 →
      (∃ items, Lists items from_ to_) ∧ ∀ items, Lists items from_ to_ →
        ∃ t, s.addRange from_ to_ = some t ∧ addEach s items = some t) := by
  constructor
  · intro s from_ to_ hmax hwindow
    have hval : ∀ x : FragmentNumber, LawfulRangeItem.val x = (x.toNat : Int) := fun _ => rfl
    have hlimit : LawfulRangeItem.limit FragmentNumber = 2 ^ 32 - 1 := rfl
    refine addRange_eq_addEach s ⟨?_, ?_⟩ from_ to_
    · rw [hval, hval]
      omega
    · rw [hval, hlimit]
      omega
  · intro s from_ to_ hmax hwindow
    exact addRange_eq_addEach s ⟨hmax, hwindow⟩ from_ to_

/-- Three fragments are added to the set with the member 140, and two sequence numbers to the set
with the member 1. -/
theorem addRange_is_repeated_add_two :
    (∃ t, oneFragment.addRange 139#32 142#32 = some t ∧
      addEach oneFragment [139#32, 140#32, 141#32] = some t) ∧
    (∃ t, SequenceNumber.oneMember.addRange ⟨0#32, 32#32⟩ ⟨0#32, 34#32⟩ = some t ∧
      addEach SequenceNumber.oneMember [⟨0#32, 32#32⟩, ⟨0#32, 33#32⟩] = some t) :=
  ⟨(addRange_is_repeated_add.1 oneFragment 139#32 142#32 (by decide) (by decide)).2 _ rfl,
    (addRange_is_repeated_add.2 SequenceNumber.oneMember ⟨0#32, 32#32⟩ ⟨0#32, 34#32⟩
      (by decide) (by decide)).2 _ rfl⟩

end Rtps
end Mozi
