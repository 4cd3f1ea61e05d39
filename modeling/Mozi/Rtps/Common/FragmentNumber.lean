import Mozi.DataStructure.BitmapWindow

/-!
# FragmentNumber — items of 32 bits

`core/communication/transport/dds/rtps/common/fragment_number.h`: a `uint32_t`, whose sums and
differences wrap.
-/

namespace Mozi
namespace Rtps

open DataStructure

abbrev FragmentNumber :=
  BitVec 32

namespace FragmentNumber

instance : RangeItem FragmentNumber where
  ge a b := decide (a ≥ b)
  gt a b := decide (a > b)
  add a n := some (a + BitVec.ofNat 32 n)
  diff a b := some (a - b).toNat

theorem add_val {a : FragmentNumber} {n : Nat} (hle : (a.toNat : Int) + n ≤ 2 ^ 32 - 1) :
    ((a + BitVec.ofNat 32 n).toNat : Int) = a.toNat + n := by
  rw [BitVec.toNat_add, BitVec.toNat_ofNat]
  omega

theorem diff_val (a b : FragmentNumber) :
    (a - b).toNat = (((a.toNat : Int) - b.toNat) % 2 ^ 32).toNat := by
  have ha := a.isLt
  rw [BitVec.toNat_sub]
  omega

instance : LawfulRangeItem FragmentNumber where
  val a := a.toNat
  limit := 2 ^ 32 - 1
  val_injective a b h := BitVec.eq_of_toNat_eq (Int.ofNat_inj.1 h)
  val_le_limit a := by
    have := a.isLt
    omega
  ge_iff a b := by
    simp [RangeItem.ge, BitVec.le_def]
  gt_iff a b := by
    simp [RangeItem.gt, BitVec.lt_def]
  add_val a n _ hle := ⟨_, rfl, add_val hle⟩
  diff_val a b _ := congrArg some (diff_val a b)

end FragmentNumber

abbrev FragmentNumberSet :=
  BitmapRange FragmentNumber

end Rtps
end Mozi
