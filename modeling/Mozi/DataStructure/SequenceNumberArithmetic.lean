import Mozi.DataStructure.SequenceNumberText

/-!
# SequenceNumberArithmetic — the operators and the 64-bit value

`operator++`, `operator+=`, the difference with a `uint32_t` and the comparisons of
`sequence_number.h`.  Each looks for the carry or the borrow of the low half in its own way; all of
them compute with the value of both halves.  `none` is a failed assertion.
-/

namespace Mozi
namespace DataStructure

namespace SequenceNumber

/-! ## Operators -/

/-- `++sn` -/
def inc (sn : SequenceNumber) : Option SequenceNumber :=
  let sn : SequenceNumber := { sn with low := sn.low + 1#32 }
  if sn.low = 0#32 then
    if sn.high.slt (BitVec.intMax 32) then some { sn with high := sn.high + 1#32 } else none
  else
    some sn

/-- `++`, some times. -/
def incs : Nat → SequenceNumber → Option SequenceNumber
  | 0, sn => some sn
  | n + 1, sn => (inc sn).bind (incs n)

/-- `sn += inc`, with an `int` -/
def addAssign (sn : SequenceNumber) (inc : Int) : Option SequenceNumber :=
  if 0 ≤ inc then
    let aux_low := sn.low
    let sn : SequenceNumber := { sn with low := sn.low + BitVec.ofInt 32 inc }
    if sn.low < aux_low then
      if sn.high.slt (BitVec.intMax 32) then some { sn with high := sn.high + 1#32 } else none
    else
      some sn
  else
    none

/-- `sn - inc`, with a `uint32_t` -/
def subUInt (sn : SequenceNumber) (inc : Nat) : Option SequenceNumber :=
  let res : SequenceNumber := ⟨sn.high, sn.low - BitVec.ofNat 32 inc⟩
  if BitVec.ofNat 32 inc > sn.low then
    if (0#32).slt res.high then some { res with high := res.high - 1#32 } else none
  else
    some res

/-- `operator==` -/
def eq (sn1 sn2 : SequenceNumber) : Bool :=
  sn1.low == sn2.low && sn1.high == sn2.high

/-- `operator!=` -/
def ne (sn1 sn2 : SequenceNumber) : Bool :=
  sn1.low != sn2.low || sn1.high != sn2.high

/-- `operator<=` -/
def le (sn1 sn2 : SequenceNumber) : Bool :=
  if sn1.high = sn2.high then decide (sn1.low ≤ sn2.low) else sn1.high.sle sn2.high

/-! ## Sums -/

variable {sn : SequenceNumber}

/-- The low half wraps to 0 exactly where it gets smaller. -/
theorem inc_eq_add (sn : SequenceNumber) : inc sn = add sn 1 := by
  have hlow := sn.low.isLt
  have hwrap : sn.low + 1#32 = 0#32 ↔ sn.low + 1#32 < sn.low := by
    rw [← BitVec.toNat_inj, BitVec.lt_def, BitVec.toNat_add, BitVec.toNat_ofNat,
      BitVec.toNat_ofNat]
    omega
  simp only [inc, add, hwrap]

theorem addAssign_eq_add (sn : SequenceNumber) (n : Nat) : addAssign sn n = add sn n := by
  have hnonneg : (0 : Int) ≤ n := Int.natCast_nonneg n
  simp only [addAssign, add, if_pos hnonneg, BitVec.ofInt_natCast]

theorem add_eq_some {n : Nat} (hn : n < 2 ^ 32) {c : SequenceNumber} (hc : c.val = sn.val + n) :
    add sn n = some c := by
  have hbound := (val_bounds c).2
  obtain ⟨d, hd, hval⟩ := (add_spec sn hn).1 (by omega)
  rw [hd, val_injective (hval.trans hc.symm)]

/-- The increments one by one: each is a sum with 1. -/
theorem incs_spec (n : Nat) (hfits : sn.val + n ≤ 2 ^ 63 - 1) :
    ∃ c, incs n sn = some c ∧ c.val = sn.val + n := by
  induction n generalizing sn with
  | zero =>
      exact ⟨sn, rfl, by omega⟩
  | succ n ih =>
      obtain ⟨d, hd, hval⟩ := (add_spec sn (n := 1) (by decide)).1 (by omega)
      push_cast at hval
      have hmore : d.val + n ≤ 2 ^ 63 - 1 := by omega
      obtain ⟨c, hc, hend⟩ := ih hmore
      refine ⟨c, ?_, by omega⟩
      rw [incs, inc_eq_add, hd]
      exact hc

/-! ## Differences -/

/-- The difference with borrow, where the value does not become negative. -/
theorem subUInt_spec (hhigh : 0 ≤ sn.high.toInt) {n : Nat} (hn : n < 2 ^ 32)
    (hle : (n : Int) ≤ sn.val) : ∃ c, subUInt sn n = some c ∧ c.val = sn.val - n := by
  have hlow := sn.low.isLt
  have htop := BitVec.toInt_lt (x := sn.high)
  have hborrow : BitVec.ofNat 32 n > sn.low ↔ sn.low.toNat < n := by
    rw [gt_iff_lt, BitVec.lt_def, BitVec.toNat_ofNat, Nat.mod_eq_of_lt hn]
  have hsub : (sn.low - BitVec.ofNat 32 n).toNat = (2 ^ 32 - n + sn.low.toNat) % 2 ^ 32 := by
    rw [BitVec.toNat_sub, BitVec.toNat_ofNat, Nat.mod_eq_of_lt hn]
  have hpos : (0#32).slt sn.high = true ↔ 0 < sn.high.toInt := by
    rw [BitVec.slt_iff_toInt_lt, show (0#32).toInt = 0 by decide]
  unfold val at hle
  simp only [subUInt, hborrow]
  -- A borrow, which needs a high half of at least one, and none.
  split_ifs with hwrap htake
  · have hpred : (sn.high - 1#32).toInt = sn.high.toInt - 1 := by
      rw [BitVec.toInt_sub, show (1#32).toInt = 1 by decide]
      exact Int.bmod_eq_of_le (by omega) (by omega)
    refine ⟨_, rfl, ?_⟩
    simp only [val, hsub, hpred]
    omega
  · rw [hpos] at htake
    omega
  · refine ⟨_, rfl, ?_⟩
    simp only [val, hsub]
    omega

/-! ## Comparisons -/

theorem eq_iff (a b : SequenceNumber) : eq a b = true ↔ a.val = b.val := by
  rw [eq, Bool.and_eq_true, beq_iff_eq, beq_iff_eq, val_injective.eq_iff]
  cases a
  cases b
  simp [and_comm]

theorem ne_iff (a b : SequenceNumber) : ne a b = true ↔ a.val ≠ b.val := by
  have hne : ne a b = !eq a b := by simp [ne, eq, bne]
  rw [hne, Bool.not_eq_true', ← Bool.not_eq_true, eq_iff]

theorem lt_iff (a b : SequenceNumber) : lt a b = true ↔ a.val < b.val := by
  have hswap : lt a b = gt b a := by
    unfold lt gt
    by_cases hhigh : a.high = b.high
    · rw [if_pos hhigh, if_pos hhigh.symm]
    · rw [if_neg hhigh, if_neg (Ne.symm hhigh)]
  rw [hswap, gt_iff]

theorem le_iff (a b : SequenceNumber) : le a b = true ↔ a.val ≤ b.val := by
  have hswap : le a b = ge b a := by
    unfold le ge
    by_cases hhigh : a.high = b.high
    · rw [if_pos hhigh, if_pos hhigh.symm]
    · rw [if_neg hhigh, if_neg (Ne.symm hhigh)]
  rw [hswap, ge_iff]

/-! ## 64-bit arithmetic -/

/-- All operators compute with the value: the increments and both sums give the number `n` above,
which the difference takes back, the difference gives the number `n` below, and the comparisons
compare the values. -/
theorem arithmetic_exact (sn : SequenceNumber) (hhigh : 0 ≤ sn.high.toInt) :
    (∀ n : Nat, sn.val + n ≤ 2 ^ 63 - 1 → ∃ c, c.val = sn.val + n ∧ incs n sn = some c ∧
      (n < 2 ^ 31 → addAssign sn n = some c) ∧
      (n < 2 ^ 32 → add sn n = some c ∧ subUInt c n = some sn)) ∧
    (∀ n : Nat, n < 2 ^ 32 → (n : Int) ≤ sn.val →
      ∃ c, subUInt sn n = some c ∧ c.val = sn.val - n) ∧
    (∀ other : SequenceNumber,
      (eq sn other = true ↔ sn.val = other.val) ∧ (ne sn other = true ↔ sn.val ≠ other.val) ∧
      (gt sn other = true ↔ other.val < sn.val) ∧ (lt sn other = true ↔ sn.val < other.val) ∧
      (ge sn other = true ↔ other.val ≤ sn.val) ∧ (le sn other = true ↔ sn.val ≤ other.val)) := by
  refine ⟨?_, fun n hn hle => subUInt_spec hhigh hn hle, ?_⟩
  · intro n hfits
    obtain ⟨c, hc, hval⟩ := incs_spec n hfits
    have hsn := sn.low.isLt
    have hcl := c.low.isLt
    refine ⟨c, hval, hc, ?_, ?_⟩
    · intro hn
      rw [addAssign_eq_add]
      exact add_eq_some (by omega) hval
    · intro hn
      have hchigh : 0 ≤ c.high.toInt := by
        unfold val at hval
        omega
      obtain ⟨d, hd, hback⟩ := subUInt_spec hchigh hn (by unfold val at hval ⊢; omega)
      refine ⟨add_eq_some hn hval, ?_⟩
      rw [hd, val_injective (show d.val = sn.val by omega)]
  · intro other
    exact ⟨eq_iff sn other, ne_iff sn other, gt_iff sn other, lt_iff sn other, ge_iff sn other,
      le_iff sn other⟩

/-- Across the end of the low half. -/
theorem arithmetic_exact_carry :
    ∃ c : SequenceNumber, c.val = (⟨7#32, 4294967290#32⟩ : SequenceNumber).val + (20 : Nat) ∧
      incs 20 ⟨7#32, 4294967290#32⟩ = some c ∧ subUInt c 20 = some ⟨7#32, 4294967290#32⟩ := by
  obtain ⟨hsum, -, -⟩ := arithmetic_exact ⟨7#32, 4294967290#32⟩ (by decide)
  obtain ⟨c, hval, hc, -, hadd⟩ := hsum 20 (by decide)
  exact ⟨c, hval, hc, (hadd (by decide)).2⟩

end SequenceNumber

end DataStructure
end Mozi
