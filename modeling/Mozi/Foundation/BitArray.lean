import Mathlib.Algebra.Group.Nat.Defs
import Mathlib.Data.List.Basic
import Mathlib.Data.Nat.Find
import Mathlib.Tactic.Common

/-!
# BitArray — words of bits, most significant bit first

Position `p` of an array of `w`-bit words is bit `p % w` of word `p / w`, counted from the most
significant bit.  The module provides

* the words with one bit set, and the search for the first and the last set bit of a word;
* `bit`, the bit at a position of an array, and the effect of a write on it;
* `setPositions`, the increasing list of the positions that are set.
-/

namespace Mozi
namespace Foundation
namespace BitArray

variable {w n : Nat}

/-! ## One word -/

theorem getMsbD_one_shiftLeft {d i : Nat} (hd : d < w) :
    (1#w <<< (w - 1 - d)).getMsbD i = decide (i = d) := by
  rw [BitVec.getMsbD_shiftLeft, BitVec.getMsbD_one]
  have hw : 0 < w := by omega
  simp only [hw, decide_true, Bool.and_true, decide_eq_decide]
  omega

theorem exists_getMsbD_of_ne_zero {x : BitVec w} (hx : x ≠ 0#w) : ∃ i, x.getMsbD i = true := by
  by_contra h
  refine hx (BitVec.eq_of_getMsbD_eq ?_)
  intro i _
  have hi : ¬ x.getMsbD i = true := fun hi => h ⟨i, hi⟩
  simpa using hi

theorem lt_of_getMsbD {x : BitVec w} {i : Nat} (h : x.getMsbD i = true) : i < w := by
  by_contra hi
  rw [BitVec.getMsbD_of_ge x i (by omega)] at h
  cases h

/-- A mask of one bit tests that bit. -/
theorem and_one_shiftLeft_ne_zero {x : BitVec w} {d : Nat} (hd : d < w) :
    x &&& (1#w <<< (w - 1 - d)) ≠ 0#w ↔ x.getMsbD d = true := by
  constructor
  · intro h
    obtain ⟨i, hi⟩ := exists_getMsbD_of_ne_zero h
    rw [BitVec.getMsbD_and, getMsbD_one_shiftLeft hd, Bool.and_eq_true, decide_eq_true_eq] at hi
    rw [← hi.2]
    exact hi.1
  · intro h hzero
    have hd' := congrArg (fun y => y.getMsbD d) hzero
    simp [BitVec.getMsbD_and, getMsbD_one_shiftLeft hd, h] at hd'

theorem clz_lt {x : BitVec w} (hx : x ≠ 0#w) : x.clz.toNat < w := by
  have h := BitVec.clz_lt_iff_ne_zero.2 hx
  -- `clz` is itself a word, and the width fits into it.
  have hw : w < 2 ^ w := Nat.lt_pow_self (by omega)
  simpa [BitVec.lt_def, Nat.mod_eq_of_lt hw] using h

theorem getMsbD_clz {x : BitVec w} (hx : x ≠ 0#w) : x.getMsbD x.clz.toNat = true := by
  have hlt := clz_lt hx
  rw [BitVec.getMsbD_eq_getLsbD]
  simpa [hlt] using BitVec.getLsbD_true_clz_of_ne_zero (by omega) hx

theorem getMsbD_of_lt_clz {x : BitVec w} {i : Nat} (hi : i < x.clz.toNat) :
    x.getMsbD i = false := by
  rw [BitVec.getMsbD_eq_getLsbD]
  by_cases hw : i < w
  · -- A word with `clz` leading zeros is less than `2 ^ (w - clz)`.
    have hlt : x.toNat < 2 ^ (w - 1 - i) :=
      Nat.lt_of_lt_of_le BitVec.toNat_lt_two_pow_sub_clz
        (Nat.pow_le_pow_right (by omega) (by omega))
    have hbit : x.getLsbD (w - 1 - i) = false := Nat.testBit_lt_two_pow hlt
    simp [hbit]
  · simp [hw]

/-- Counting leading zeros finds the first set bit. -/
theorem clz_eq {x : BitVec w} {d : Nat} (hd : x.getMsbD d = true)
    (hfirst : ∀ i, i < d → x.getMsbD i = false) : x.clz.toNat = d := by
  have hx : x ≠ 0#w := by
    rintro rfl
    simp at hd
  -- An earlier or a later count contradicts one of the two hypotheses.
  rcases Nat.lt_trichotomy x.clz.toNat d with h | h | h
  · have := getMsbD_clz hx
    rw [hfirst _ h] at this
    cases this
  · exact h
  · rw [getMsbD_of_lt_clz h] at hd
    cases hd

/-- `x & ~(x - 1)` keeps the last set bit only. -/
theorem getMsbD_and_not_sub_one {x : BitVec w} {i : Nat} :
    (x &&& ~~~(x - 1#w)).getMsbD i = true ↔
      x.getMsbD i = true ∧ ∀ j, i < j → x.getMsbD j = false := by
  -- `~(x - 1)` is `-x`, and negation flips the bits above the last set one.
  rw [BitVec.not_sub_one_eq_not_add_one, ← BitVec.neg_eq_not_add, BitVec.getMsbD_and,
    BitVec.getMsbD_neg, Bool.and_eq_true]
  constructor
  · rintro ⟨hi, hneg⟩
    refine ⟨hi, ?_⟩
    intro j hj
    by_cases hw : j < w
    · by_contra hset
      simp only [hi, Bool.true_xor, Bool.not_eq_true', decide_eq_false_iff_not] at hneg
      exact hneg ⟨j, by omega, hj, by simpa using hset⟩
    · exact BitVec.getMsbD_of_ge x j (by omega)
  · rintro ⟨hi, hlast⟩
    refine ⟨hi, ?_⟩
    simp only [hi, Bool.true_xor, Bool.not_eq_true', decide_eq_false_iff_not]
    rintro ⟨j, _, hj, hset⟩
    rw [hlast j hj] at hset
    cases hset

theorem exists_last {x : BitVec w} (hx : x ≠ 0#w) :
    ∃ d, x.getMsbD d = true ∧ ∀ j, d < j → x.getMsbD j = false := by
  obtain ⟨i, hi⟩ := exists_getMsbD_of_ne_zero hx
  have hmax := Nat.findGreatest_spec (P := fun d => x.getMsbD d = true)
    (Nat.le_of_lt (lt_of_getMsbD hi)) hi
  refine ⟨_, hmax, ?_⟩
  intro j hj
  by_cases hw : j ≤ w
  · simpa using Nat.findGreatest_is_greatest hj hw
  · exact BitVec.getMsbD_of_ge x j (by omega)

theorem getMsbD_lastBit_clz {x : BitVec w} (hx : x ≠ 0#w) :
    x.getMsbD (x &&& ~~~(x - 1#w)).clz.toNat = true ∧
      ∀ j, (x &&& ~~~(x - 1#w)).clz.toNat < j → x.getMsbD j = false := by
  obtain ⟨d, hd, hlast⟩ := exists_last hx
  have hbit := getMsbD_and_not_sub_one.2 ⟨hd, hlast⟩
  -- The masked word has the last set bit of `x` as its only bit.
  have hclz : (x &&& ~~~(x - 1#w)).clz.toNat = d := by
    refine clz_eq hbit ?_
    intro i hi
    by_contra hset
    have hset' := (getMsbD_and_not_sub_one (i := i)).1 (by simpa using hset)
    rw [hset'.2 d hi] at hd
    cases hd
  rw [hclz]
  exact ⟨hd, hlast⟩

/-- Clearing the first set bit removes the head of the list of set bits. -/
theorem filter_getMsbD_eq_cons {x : BitVec w} (hx : x ≠ 0#w) :
    (List.range w).filter x.getMsbD =
      x.clz.toNat :: (List.range w).filter
        (x &&& ~~~(1#w <<< (w - 1 - x.clz.toNat))).getMsbD := by
  have hlt := clz_lt hx
  obtain ⟨k, hk⟩ : ∃ k, w = x.clz.toNat + (k + 1) := ⟨w - x.clz.toNat - 1, by omega⟩
  have hclear : ∀ i, (x &&& ~~~(1#w <<< (w - 1 - x.clz.toNat))).getMsbD i =
      (x.getMsbD i && decide (i ≠ x.clz.toNat)) := by
    intro i
    rw [BitVec.getMsbD_and, BitVec.getMsbD_not, getMsbD_one_shiftLeft hlt]
    by_cases hi : i < w
    · simp [hi]
    · rw [BitVec.getMsbD_of_ge x i (by omega)]
      simp
  -- The positions before the first set bit, that bit, and the positions after it.
  have hrange : List.range w =
      List.range x.clz.toNat ++ x.clz.toNat ::
        (List.range k).map (fun i => x.clz.toNat + (i + 1)) := by
    conv_lhs => rw [hk, List.range_add, List.range_succ_eq_map]
    simp [Function.comp_def]
  have hbefore : ∀ p : Nat → Bool, (∀ i, i < x.clz.toNat → p i = false) →
      (List.range x.clz.toNat).filter p = [] := by
    intro p hp
    rw [List.filter_eq_nil_iff]
    intro i hi
    simpa using hp i (List.mem_range.1 hi)
  rw [hrange, List.filter_append, List.filter_append, List.filter_cons, List.filter_cons,
    hbefore _ (fun i hi => getMsbD_of_lt_clz hi),
    hbefore _ (fun i hi => by rw [hclear, getMsbD_of_lt_clz hi, Bool.false_and]),
    getMsbD_clz hx, hclear]
  simp only [ne_eq, not_true_eq_false, decide_false, Bool.and_false, Bool.false_eq_true,
    ↓reduceIte, List.nil_append, List.cons.injEq, true_and]
  refine List.filter_congr ?_
  intro i hi
  obtain ⟨j, _, rfl⟩ := List.mem_map.1 hi
  rw [hclear]
  simp

/-! ## Arrays of words -/

/-- The word at an index; the index outside the array reads as the zero word. -/
def word (b : Vector (BitVec w) n) (i : Nat) : BitVec w :=
  b[i]?.getD 0#w

/-- The bit at a position of the array. -/
def bit (b : Vector (BitVec w) n) (p : Nat) : Bool :=
  (word b (p / w)).getMsbD (p % w)

/-- A checked write of one word. -/
def write (b : Vector (BitVec w) n) (i : Nat) (x : BitVec w) : Option (Vector (BitVec w) n) :=
  if h : i < n then some (b.set i x h) else none

theorem getElem?_eq_word {b : Vector (BitVec w) n} {i : Nat} (hi : i < n) :
    b[i]? = some (word b i) := by
  simp [word, hi]

theorem word_of_ge {b : Vector (BitVec w) n} {i : Nat} (hi : n ≤ i) : word b i = 0#w := by
  simp [word, hi]

theorem word_set {b : Vector (BitVec w) n} {i j : Nat} {x : BitVec w} (hi : i < n) :
    word (b.set i x) j = if i = j then x else word b j := by
  by_cases hij : i = j
  · subst hij
    simp [word, hi]
  · simp [word, hij, Vector.getElem?_set_ne]

theorem write_eq_some {b : Vector (BitVec w) n} {i : Nat} {x : BitVec w} (hi : i < n) :
    write b i x = some (b.set i x) :=
  dif_pos hi

@[simp] theorem word_replicate {i : Nat} : word (Vector.replicate n 0#w) i = 0#w := by
  unfold word
  by_cases hi : i < n
  · simp [hi]
  · simp [hi]

@[simp] theorem bit_replicate {p : Nat} : bit (Vector.replicate n 0#w) p = false := by
  simp [bit]

theorem word_ofFn {f : Fin n → BitVec w} {i : Nat} :
    word (Vector.ofFn f) i = if h : i < n then f ⟨i, h⟩ else 0#w := by
  by_cases hi : i < n
  · simp [word, hi]
  · simp [word, hi]

theorem bit_set {b : Vector (BitVec w) n} {i p : Nat} {x : BitVec w} (hi : i < n) :
    bit (b.set i x) p = if i = p / w then x.getMsbD (p % w) else bit b p := by
  unfold bit
  rw [word_set hi]
  split_ifs <;> rfl

/-- Bits added to one word. -/
theorem bit_set_or {b : Vector (BitVec w) n} {i p : Nat} {x : BitVec w} (hi : i < n) :
    bit (b.set i (word b i ||| x)) p = (bit b p || (decide (p / w = i) && x.getMsbD (p % w))) := by
  rw [bit_set hi]
  split_ifs with hp
  · subst hp
    simp [bit]
  · simp [Ne.symm hp]

/-- Bits cleared in one word. -/
theorem bit_set_and {b : Vector (BitVec w) n} {i p : Nat} {x : BitVec w} (hi : i < n) :
    bit (b.set i (word b i &&& x)) p = (bit b p && (decide (p / w ≠ i) || x.getMsbD (p % w))) := by
  rw [bit_set hi]
  split_ifs with hp
  · subst hp
    simp [bit]
  · simp [Ne.symm hp]

theorem bit_lt {b : Vector (BitVec w) n} {p : Nat} (h : bit b p = true) : p < w * n := by
  -- A position past the end lies in a word that reads as zero.
  by_contra hp
  have hn : n ≤ p / w := by
    rcases Nat.eq_zero_or_pos w with rfl | hw
    · simp [bit, BitVec.getMsbD_of_ge] at h
    · exact (Nat.le_div_iff_mul_le hw).2 (by rw [Nat.mul_comm]; omega)
  simp [bit, word_of_ge hn] at h

/-- Bit `d` of word `i` is the bit at position `w * i + d`. -/
theorem bit_mul_add {b : Vector (BitVec w) n} {i d : Nat} (hd : d < w) :
    bit b (w * i + d) = (word b i).getMsbD d := by
  unfold bit
  rw [Nat.mul_add_div (by omega), Nat.div_eq_of_lt hd, Nat.add_zero, Nat.mul_add_mod,
    Nat.mod_eq_of_lt hd]

theorem word_ext {a b : Vector (BitVec w) n} (h : ∀ i, i < n → word a i = word b i) : a = b := by
  ext1 i hi
  simpa [word, hi] using h i hi

theorem bit_ext {a b : Vector (BitVec w) n} (h : ∀ p, bit a p = bit b p) : a = b := by
  refine word_ext fun i _ => BitVec.eq_of_getMsbD_eq ?_
  intro d hd
  rw [← bit_mul_add hd, ← bit_mul_add hd]
  exact h _

theorem word_ne_zero {b : Vector (BitVec w) n} {i : Nat} :
    word b i ≠ 0#w ↔ ∃ p, p / w = i ∧ bit b p = true := by
  constructor
  · intro h
    obtain ⟨d, hd⟩ := exists_getMsbD_of_ne_zero h
    have hlt := lt_of_getMsbD hd
    refine ⟨w * i + d, ?_, by rw [bit_mul_add hlt]; exact hd⟩
    rw [Nat.mul_add_div (by omega), Nat.div_eq_of_lt hlt, Nat.add_zero]
  · rintro ⟨p, rfl, hp⟩ hzero
    simp [bit, hzero] at hp

/-! ## The set positions -/

/-- The set positions of the first `k` words, in increasing order. -/
def setPositions (b : Vector (BitVec w) n) (k : Nat) : List Nat :=
  (List.range (w * k)).filter (bit b)

theorem mem_setPositions {b : Vector (BitVec w) n} {k p : Nat} :
    p ∈ setPositions b k ↔ p < w * k ∧ bit b p = true := by
  simp [setPositions]

theorem setPositions_sorted {b : Vector (BitVec w) n} {k : Nat} :
    (setPositions b k).Pairwise (· < ·) :=
  List.Pairwise.filter _ List.pairwise_lt_range

/-- One more word adds its set bits. -/
theorem setPositions_succ {b : Vector (BitVec w) n} {k : Nat} :
    setPositions b (k + 1) =
      setPositions b k ++ ((List.range w).filter (word b k).getMsbD).map (w * k + ·) := by
  unfold setPositions
  rw [Nat.mul_succ, List.range_add, List.filter_append, List.filter_map]
  congr 2
  refine List.filter_congr ?_
  intro d hd
  exact bit_mul_add (List.mem_range.1 hd)

/-! ## The end of the set positions -/

/-- `m` is the last set position plus one, 0 if no bit is set. -/
structure EndsAt (b : Vector (BitVec w) n) (m : Nat) : Prop where
  bits_lt : ∀ p, bit b p = true → p < m
  top : 0 < m → bit b (m - 1) = true

namespace EndsAt

variable {b : Vector (BitVec w) n} {m : Nat}

theorem zero : EndsAt (Vector.replicate n 0#w) 0 :=
  ⟨fun p hp => by simp at hp, fun h => absurd h (Nat.lt_irrefl 0)⟩

/-- One set bit. -/
theorem single {i d : Nat} (hi : i < n) (hd : d < w) :
    EndsAt ((Vector.replicate n 0#w).set i (1#w <<< (w - 1 - d))) (w * i + d + 1) where
  bits_lt p hp := by
    rw [bit_set hi, bit_replicate] at hp
    split_ifs at hp with hword
    rw [getMsbD_one_shiftLeft hd, decide_eq_true_eq] at hp
    have := Nat.div_add_mod p w
    rw [← hword, hp] at this
    omega
  top _ := by
    rw [Nat.add_sub_cancel, bit_mul_add hd, word_set hi, if_pos rfl, getMsbD_one_shiftLeft hd]
    simp

theorem le (h : EndsAt b m) : m ≤ w * n := by
  rcases Nat.eq_zero_or_pos m with rfl | hm
  · exact Nat.zero_le _
  · have := bit_lt (h.top hm)
    omega

/-- Arrays with the same bits end at the same position. -/
theorem unique (h : EndsAt b m) {c : Vector (BitVec w) n} {k : Nat} (hc : EndsAt c k)
    (hbits : ∀ p, bit b p = true ↔ bit c p = true) : m = k := by
  by_contra hne
  rcases Nat.lt_or_gt_of_ne hne with hlt | hgt
  · have hlast := h.bits_lt (k - 1) ((hbits _).2 (hc.top (by omega)))
    omega
  · have hlast := hc.bits_lt (m - 1) ((hbits _).1 (h.top (by omega)))
    omega

theorem bit_eq_false (h : EndsAt b m) {p : Nat} (hp : m ≤ p) : bit b p = false := by
  by_contra hset
  have := h.bits_lt p (by simpa using hset)
  omega

/-- Shifting the positions down shifts the end down. -/
theorem shift_down (h : EndsAt b m) {c : Vector (BitVec w) n} {k : Nat}
    (hc : ∀ p, bit c p = bit b (p + k)) : EndsAt c (m - k) where
  bits_lt p hp := by
    have := h.bits_lt (p + k) (by rw [← hc]; exact hp)
    omega
  top hm := by
    rw [hc, show m - k - 1 + k = m - 1 by omega]
    exact h.top (by omega)

/-- Setting the positions of an interval. -/
theorem union (h : EndsAt b m) {c : Vector (BitVec w) n} {lo hi : Nat} (hlo : lo < hi)
    (hc : ∀ p, bit c p = (bit b p || decide (lo ≤ p ∧ p < hi))) : EndsAt c (max m hi) where
  bits_lt p hp := by
    rw [hc, Bool.or_eq_true, decide_eq_true_eq] at hp
    rcases hp with hp | hp
    · have := h.bits_lt p hp
      omega
    · omega
  top _ := by
    rw [hc, Bool.or_eq_true, decide_eq_true_eq]
    -- The new end is the old one or the end of the interval.
    rcases Nat.lt_or_ge hi m with hm | hm
    · left
      rw [Nat.max_eq_left (Nat.le_of_lt hm)]
      exact h.top (by omega)
    · right
      rw [Nat.max_eq_right hm]
      omega

/-- Clearing a position below the last one. -/
theorem clear (h : EndsAt b m) {c : Vector (BitVec w) n} {k : Nat} (hk : k + 1 ≠ m)
    (hc : ∀ p, bit c p = (bit b p && decide (p ≠ k))) : EndsAt c m where
  bits_lt p hp := by
    rw [hc, Bool.and_eq_true] at hp
    exact h.bits_lt p hp.1
  top hm := by
    rw [hc, h.top hm, Bool.true_and, decide_eq_true_eq]
    omega

end EndsAt

end BitArray
end Foundation
end Mozi
