import Mozi.DataStructure.BitmapMoveDown

/-!
# BitmapMoveUp — which members survive a move of the window up

`updateBase` with a base above the old one.  `MovedUp` says what the move is for: the members from
the new base on stay, the words that become free are zero, and `num_bits_` ends the members.
`updateBase_up_moved` is that every move by less than `2 ^ 32` does it.
-/

namespace Mozi
namespace DataStructure

open Foundation BitArray

namespace BitmapRange

open LawfulRangeItem

variable {T : Type} [RangeItem T] [LawfulRangeItem T] {s t : BitmapRange T} {base : T}

/-- The distance of a move up. -/
def distanceUp (s : BitmapRange T) (base : T) : Nat :=
  (val base - val s.base_).toNat

/-- What a move of the window up to `base` is for. -/
structure MovedUp (s t : BitmapRange T) (base : T) : Prop where
  base_eq : t.base_ = base
  members : ∀ v, HoldsAt t v ↔ HoldsAt s v ∧ val base ≤ v
  /-- the words vacated at the end -/
  vacated : ∀ i, 8 ≤ i + distanceUp s base / 32 → word t.bitmap_ i = 0#32
  ends : EndsAt t.bitmap_ t.num_bits_

/-- What `isSet` says after such a move. -/
theorem MovedUp.isSet_iff (h : MovedUp s t base) (hmax : val t.range_max_ = val t.base_ + 255)
    (x : T) : t.isSet x = some true ↔ HoldsAt s (val x) ∧ val base ≤ val x := by
  rw [(wellFormed_of_full hmax h.ends).isSet_eq, ← h.members]
  exact Iff.rfl

/-- Bits that have moved down by the distance of the bases are the members from the new base on. -/
theorem movedUp_of_bits (hends : EndsAt s.bitmap_ s.num_bits_) (hup : val s.base_ < val base)
    (hbase : t.base_ = base) (hnum : t.num_bits_ = s.num_bits_ - distanceUp s base)
    (hbits : ∀ p, bit t.bitmap_ p = bit s.bitmap_ (p + distanceUp s base)) : MovedUp s t base := by
  have hd : val base = val s.base_ + distanceUp s base := by
    unfold distanceUp
    omega
  have hval : val t.base_ = val base := by rw [hbase]
  refine ⟨hbase, ?_, ?_, ?_⟩
  · intro v
    constructor
    · rintro ⟨p, hp, rfl⟩
      rw [hbits] at hp
      exact ⟨⟨p + distanceUp s base, hp, by omega⟩, by omega⟩
    · rintro ⟨⟨q, hq, rfl⟩, hle⟩
      refine ⟨q - distanceUp s base, ?_, by omega⟩
      rw [hbits, Nat.sub_add_cancel (by omega)]
      exact hq
  · -- A bit of a vacated word would come from past the end.
    intro i hi
    by_contra hword
    obtain ⟨p, rfl, hp⟩ := word_ne_zero.1 hword
    rw [hbits] at hp
    have hlt := bit_lt hp
    omega
  · rw [hnum]
    exact hends.shift_down hbits

theorem updateBase_up_moved [DecidableEq T] (hends : EndsAt s.bitmap_ s.num_bits_)
    (hup : val s.base_ < val base) (hnear : distanceUp s base < 2 ^ 32)
    (hfits : val base + 255 ≤ limit T) :
    ∃ t, s.updateBase base = some t ∧ MovedUp s t base ∧
      val t.range_max_ = val t.base_ + 255 := by
  have hdistance : distance32 base s.base_ = distanceUp s base := by
    unfold distance32
    unfold distanceUp at hnear ⊢
    omega
  obtain ⟨r, hr, hval⟩ := add_val base 255 (by omega) hfits
  obtain ⟨t, ht, hbase, hmax, hnum, hbits⟩ := updateBase_up hends hup hr
  rw [hdistance] at hnum hbits
  refine ⟨t, ht, movedUp_of_bits hends hup hbase hnum hbits, ?_⟩
  rw [hmax, hbase]
  exact hval

end BitmapRange

end DataStructure
end Mozi
