import Mozi.DataStructure.BitmapWindow

/-!
# SequenceNumber — 64-bit numbers in two halves

`core/common/data_structure/sequence_number.h`: a signed high and an unsigned low half.  `none` is a
failed assertion.  The body of the subtraction of two sequence numbers is incomplete in the source;
`sub` is the exact difference in 64 bits.
-/

namespace Mozi
namespace DataStructure

structure SequenceNumber where
  high : BitVec 32
  low : BitVec 32
deriving DecidableEq

namespace SequenceNumber

/-! ## Operators -/

/-- `high * 2^32 + low` -/
def val (sn : SequenceNumber) : Int :=
  sn.high.toInt * 2 ^ 32 + sn.low.toNat

/-- The two halves of a 64-bit value. -/
def ofInt (i : Int) : SequenceNumber :=
  ⟨BitVec.ofInt 32 (i / 2 ^ 32), BitVec.ofInt 32 i⟩

def gt (sn1 sn2 : SequenceNumber) : Bool :=
  if sn1.high = sn2.high then decide (sn1.low > sn2.low) else sn2.high.slt sn1.high

def ge (sn1 sn2 : SequenceNumber) : Bool :=
  if sn1.high = sn2.high then decide (sn1.low ≥ sn2.low) else sn2.high.sle sn1.high

/-- `sn + inc` -/
def add (sn : SequenceNumber) (inc : Nat) : Option SequenceNumber :=
  let res : SequenceNumber := ⟨sn.high, sn.low + BitVec.ofNat 32 inc⟩
  if res.low < sn.low then
    -- The carry goes into the high half, which must not be the largest one.
    if res.high.slt (BitVec.intMax 32) then some { res with high := res.high + 1#32 } else none
  else
    some res

/-- `minuend - subtrahend` -/
def sub (minuend subtrahend : SequenceNumber) : Option SequenceNumber :=
  if ge minuend subtrahend then some (ofInt (minuend.val - subtrahend.val)) else none

/-- `SequenceNumberDiff` -/
def diff (sn1 sn2 : SequenceNumber) : Option Nat := do
  let diff ← sub sn1 sn2
  some diff.low.toNat

instance : RangeItem SequenceNumber where
  ge := ge
  gt := gt
  add := add
  diff := diff

/-! ## The operators on values -/

variable {a b : SequenceNumber}

theorem val_bounds (a : SequenceNumber) : -2 ^ 63 ≤ a.val ∧ a.val ≤ 2 ^ 63 - 1 := by
  have hlo := BitVec.le_toInt a.high
  have hhi := BitVec.toInt_lt (x := a.high)
  have hlow := a.low.isLt
  unfold val
  omega

theorem val_injective : Function.Injective val := by
  intro a b h
  have ha := a.low.isLt
  have hb := b.low.isLt
  unfold val at h
  have hhigh : a.high.toInt = b.high.toInt := by omega
  have hlow : a.low.toNat = b.low.toNat := by omega
  cases a
  cases b
  cases BitVec.eq_of_toInt_eq hhigh
  cases BitVec.eq_of_toNat_eq hlow
  rfl

theorem high_eq_iff : a.high = b.high ↔ a.high.toInt = b.high.toInt :=
  BitVec.toInt_inj.symm

theorem ge_iff (a b : SequenceNumber) : ge a b = true ↔ b.val ≤ a.val := by
  have ha := a.low.isLt
  have hb := b.low.isLt
  unfold ge val
  split_ifs with hhigh
  · rw [high_eq_iff] at hhigh
    rw [decide_eq_true_eq, ge_iff_le, BitVec.le_def]
    omega
  · rw [high_eq_iff] at hhigh
    rw [BitVec.sle_iff_toInt_le]
    omega

theorem gt_iff (a b : SequenceNumber) : gt a b = true ↔ b.val < a.val := by
  have ha := a.low.isLt
  have hb := b.low.isLt
  unfold gt val
  split_ifs with hhigh
  · rw [high_eq_iff] at hhigh
    rw [decide_eq_true_eq, gt_iff_lt, BitVec.lt_def]
    omega
  · rw [high_eq_iff] at hhigh
    rw [BitVec.slt_iff_toInt_lt]
    omega

/-- The sum with carry, and the assertion that fails exactly where it leaves the range. -/
theorem add_spec (a : SequenceNumber) {n : Nat} (hn : n < 2 ^ 32) :
    (a.val + n ≤ 2 ^ 63 - 1 → ∃ c, add a n = some c ∧ c.val = a.val + n) ∧
      (2 ^ 63 - 1 < a.val + n → add a n = none) := by
  have hlow := a.low.isLt
  have hhi := BitVec.toInt_lt (x := a.high)
  have hlo := BitVec.le_toInt a.high
  have hsum : (a.low + BitVec.ofNat 32 n).toNat = (a.low.toNat + n) % 2 ^ 32 := by
    rw [BitVec.toNat_add, BitVec.toNat_ofNat, Nat.mod_eq_of_lt hn]
  have hmax : (BitVec.intMax 32).toInt = 2 ^ 31 - 1 := by decide
  unfold add
  simp only [BitVec.lt_def, hsum, BitVec.slt_iff_toInt_lt, hmax]
  -- A carry with room for it, a carry without, and no carry.
  split_ifs with hcarry htop
  · have hsucc : (a.high + 1#32).toInt = a.high.toInt + 1 := by
      rw [BitVec.toInt_add, show (1#32).toInt = 1 by decide]
      exact Int.bmod_eq_of_le (by omega) (by omega)
    constructor
    · intro _
      refine ⟨_, rfl, ?_⟩
      simp only [val, hsum, hsucc]
      omega
    · intro hout
      unfold val at hout
      omega
  · constructor
    · intro hin
      unfold val at hin
      omega
    · intro _
      rfl
  · constructor
    · intro _
      refine ⟨_, rfl, ?_⟩
      simp only [val, hsum]
      omega
    · intro hout
      unfold val at hout
      omega

theorem diff_val (h : b.val ≤ a.val) : diff a b = some ((a.val - b.val) % 2 ^ 32).toNat := by
  simp [diff, sub, (ge_iff a b).2 h, ofInt, BitVec.toNat_ofInt]

instance : LawfulRangeItem SequenceNumber where
  val := val
  limit := 2 ^ 63 - 1
  val_injective := val_injective
  val_le_limit a := (val_bounds a).2
  ge_iff := ge_iff
  gt_iff := gt_iff
  add_val a _ hn hle := (add_spec a hn).1 hle
  diff_val _ _ h := diff_val h

end SequenceNumber

abbrev SequenceNumberSet :=
  BitmapRange SequenceNumber

end DataStructure
end Mozi
