import Mozi.DataStructure.SequenceNumber
import Mozi.Foundation.Digits

/-!
# SequenceNumberText — the 64-bit and text forms of a sequence number

`to64Long` returns a `uint32_t`, so the high half is lost in everything that goes through it: the
conversion itself, the text `operator<<` writes, and the order of the converted values.
`sixtyFour_exact` states for which numbers each of the forms is faithful all the same.
-/

namespace Mozi
namespace DataStructure

open Foundation

namespace SequenceNumber

/-! ## Conversions -/

/-- `SequenceNumber(uint64_t u)` -/
def ofUInt64 (u : BitVec 64) : SequenceNumber :=
  ⟨(u >>> 32).setWidth 32, u.setWidth 32⟩

/-- `to64Long`; the sum is a `uint64_t` and the result a `uint32_t`. -/
def to64Long (sn : SequenceNumber) : BitVec 32 :=
  ((sn.high.signExtend 64 <<< 32) + sn.low.setWidth 64).setWidth 32

/-- `SequenceNumber(sn.to64Long())`, the argument widened to `uint64_t`. -/
def again (sn : SequenceNumber) : SequenceNumber :=
  ofUInt64 (sn.to64Long.setWidth 64)

/-- `operator<` -/
def lt (sn1 sn2 : SequenceNumber) : Bool :=
  if sn1.high = sn2.high then decide (sn1.low < sn2.low) else sn1.high.slt sn2.high

/-- `operator<<` -/
def print (sn : SequenceNumber) : List Char :=
  Nat.toDigits 10 sn.to64Long.toNat

/-- `operator>>` -/
def extract (input : InputStream) (sn : SequenceNumber) : SequenceNumber × InputStream :=
  let (aux, input) := input.getUnsigned 64 10 none
  match aux, input.fail with
  | some aux, false => (ofUInt64 (BitVec.ofNat 64 aux), input)
  | _, _ => (sn, input)

/-! ## What is kept -/

/-- Nothing of the high half gets through `to64Long`. -/
theorem to64Long_eq (sn : SequenceNumber) : sn.to64Long = sn.low := by
  apply BitVec.eq_of_toNat_eq
  have hlow := sn.low.isLt
  simp only [to64Long, BitVec.toNat_setWidth, BitVec.toNat_add, BitVec.toNat_shiftLeft,
    Nat.shiftLeft_eq]
  omega

theorem ofUInt64_low (u : BitVec 64) : (ofUInt64 u).low.toNat = u.toNat % 2 ^ 32 := by
  simp [ofUInt64]

/-- A value below `2 ^ 32` has an empty high half. -/
theorem ofUInt64_small {n : Nat} (h : n < 2 ^ 32) :
    ofUInt64 (BitVec.ofNat 64 n) = ⟨0, BitVec.ofNat 32 n⟩ := by
  have hn : (BitVec.ofNat 64 n).toNat = n := by
    rw [BitVec.toNat_ofNat]
    omega
  have hhigh : (BitVec.ofNat 64 n >>> 32).setWidth 32 = (0 : BitVec 32) := by
    apply BitVec.eq_of_toNat_eq
    calc
      ((BitVec.ofNat 64 n >>> 32).setWidth 32).toNat = n / 2 ^ 32 % 2 ^ 32 := by
        rw [BitVec.toNat_setWidth, BitVec.toNat_ushiftRight, hn, Nat.shiftRight_eq_div_pow]
      _ = 0 := by omega
  have hlow : (BitVec.ofNat 64 n).setWidth 32 = BitVec.ofNat 32 n := by
    apply BitVec.eq_of_toNat_eq
    simp only [BitVec.toNat_setWidth, hn, BitVec.toNat_ofNat]
  simp only [ofUInt64, hhigh, hlow]

theorem again_eq (sn : SequenceNumber) : sn.again = ⟨0, sn.low⟩ := by
  have hwide : sn.to64Long.setWidth 64 = BitVec.ofNat 64 sn.low.toNat := by
    apply BitVec.eq_of_toNat_eq
    simp [to64Long_eq, BitVec.toNat_setWidth]
  calc
    sn.again = ofUInt64 (BitVec.ofNat 64 sn.low.toNat) := by rw [again, hwide]
    _ = ⟨0, BitVec.ofNat 32 sn.low.toNat⟩ := ofUInt64_small sn.low.isLt
    _ = ⟨0, sn.low⟩ := by simp

/-- The text is read back as the number without its high half. -/
theorem extract_print (sn sn₀ : SequenceNumber) :
    (extract (.ofText sn.print) sn₀).1 = ⟨0, sn.low⟩ := by
  have hlow := sn.low.isLt
  have hvalue : decValue sn.print = sn.low.toNat := by
    rw [print, decValue_toDigits, to64Long_eq]
  have hfits : decValue sn.print < 2 ^ 64 := by omega
  have hread : InputStream.getUnsigned 64 10 ⟨sn.print ++ [], false, false⟩ none =
      (some (decValue sn.print), ⟨[], true, false⟩) :=
    InputStream.getUnsigned_digits Nat.toDigits_ne_nil (isDecDigit_toDigits _) (by simp) hfits none
  rw [List.append_nil, hvalue] at hread
  simp only [extract, InputStream.ofText, hread]
  rw [ofUInt64_small hlow]
  simp

/-- Without a sign the order of the high halves is the one of the unsigned values. -/
theorem slt_iff_lt {x y : BitVec 32} (hx : 0 ≤ x.toInt) (hy : 0 ≤ y.toInt) :
    x.slt y = true ↔ x < y := by
  have hxlt := x.isLt
  have hylt := y.isLt
  rw [BitVec.slt_iff_toInt_lt, BitVec.lt_def]
  rw [BitVec.toInt_eq_toNat_cond] at hx hy ⊢
  rw [BitVec.toInt_eq_toNat_cond]
  split_ifs at hx hy ⊢ <;> omega

theorem eq_low_iff (sn : SequenceNumber) : (⟨0, sn.low⟩ : SequenceNumber) = sn ↔ sn.high = 0 := by
  constructor
  · intro h
    rw [← h]
  · intro h
    rw [← h]

/-! ## Exactness -/

/-- Which numbers the 64-bit form and the text keep: a `uint64_t` below `2 ^ 32`, a sequence
number with high half 0; and the converted values are ordered as the numbers are exactly if the
high halves agree or are ordered as the low halves are. -/
theorem sixtyFour_exact (u : BitVec 64) (sn sn₀ sn1 sn2 : SequenceNumber)
    (h1 : 0 ≤ sn1.high.toInt) (h2 : 0 ≤ sn2.high.toInt) :
    ((ofUInt64 u).to64Long.toNat = u.toNat ↔ u.toNat < 2 ^ 32) ∧
      (sn.again = sn ↔ sn.high = 0) ∧
      ((extract (.ofText sn.print) sn₀).1 = sn ↔ sn.high = 0) ∧
      ((sn1.lt sn2 = true ↔ sn1.to64Long < sn2.to64Long) ↔
        (sn1.high = sn2.high ∨ (sn1.low < sn2.low ↔ sn1.high < sn2.high))) := by
  refine ⟨?_, ?_, ?_, ?_⟩
  · have hlow := ofUInt64_low u
    rw [to64Long_eq, hlow]
    omega
  · rw [again_eq]
    exact eq_low_iff sn
  · rw [extract_print]
    exact eq_low_iff sn
  · rw [to64Long_eq, to64Long_eq]
    unfold lt
    split_ifs with hhigh
    · simp [hhigh]
    · rw [slt_iff_lt h1 h2]
      simp only [hhigh, false_or]
      exact ⟨fun h => h.symm, fun h => h.symm⟩

/-- The numbers 7 and `2 ^ 32 + 7`: only the first one comes back. -/
theorem sixtyFour_exact_seven :
    (ofUInt64 7).to64Long.toNat = 7 ∧ (⟨0, 7⟩ : SequenceNumber).again = ⟨0, 7⟩ ∧
      (extract (.ofText (⟨0, 7⟩ : SequenceNumber).print) ⟨1, 1⟩).1 = ⟨0, 7⟩ ∧
      ((⟨0, 7⟩ : SequenceNumber).lt ⟨1, 8⟩ = true ↔
        (⟨0, 7⟩ : SequenceNumber).to64Long < (⟨1, 8⟩ : SequenceNumber).to64Long) := by
  have h := sixtyFour_exact 7 ⟨0, 7⟩ ⟨1, 1⟩ ⟨0, 7⟩ ⟨1, 8⟩ (by decide) (by decide)
  exact ⟨h.1.2 (by decide), h.2.1.2 rfl, h.2.2.1.2 rfl, h.2.2.2.2 (Or.inr (by decide))⟩

/-- `2 ^ 32` comes back as 0 from every form, and `1 < 2 ^ 32` is turned round. -/
theorem high_half_lost :
    (ofUInt64 (BitVec.ofNat 64 (2 ^ 32))).to64Long.toNat = 0 ∧
      (⟨1, 0⟩ : SequenceNumber).again ≠ ⟨1, 0⟩ ∧
      (extract (.ofText (⟨1, 0⟩ : SequenceNumber).print) ⟨0, 0⟩).1 ≠ ⟨1, 0⟩ ∧
      (⟨0, 1⟩ : SequenceNumber).lt ⟨1, 0⟩ = true ∧
      ¬ (⟨0, 1⟩ : SequenceNumber).to64Long < (⟨1, 0⟩ : SequenceNumber).to64Long := by
  decide

end SequenceNumber

end DataStructure
end Mozi
