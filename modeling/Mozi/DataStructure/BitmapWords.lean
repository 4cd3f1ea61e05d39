import Mozi.DataStructure.FixedSizeBitmap

/-!
# BitmapWords — what the loops of the bitmap do to its bits

One lemma for each loop over the words: `fill_n`, `copy`, the two shift loops and the search for
the largest set bit.  `shiftMapLeft_spec` and `shiftMapRight_eq` put them together.
-/

namespace Mozi
namespace DataStructure

open Foundation BitArray

namespace BitmapRange

variable {T : Type}

@[simp] theorem shiftRight_five (n : Nat) : n >>> 5 = n / 32 :=
  Nat.shiftRight_eq_div_pow n 5

@[simp] theorem and_thirtyOne (n : Nat) : n &&& 31 = n % 32 :=
  Nat.and_two_pow_sub_one_eq_mod n 5

@[simp] theorem shiftLeft_five (n : Nat) : n <<< 5 = 32 * n := by
  rw [Nat.shiftLeft_eq, Nat.mul_comm]

/-! ## Fill and copy -/

theorem fillN_spec (idx : Nat → Nat) (k : Nat) (b : Vector (BitVec 32) 8)
    (hidx : ∀ j, j < k → idx j < 8) :
    ∃ c, fillN idx k b = some c ∧ (∀ j, j < k → word c (idx j) = 0#32) ∧
      ∀ i, (∀ j, j < k → idx j ≠ i) → word c i = word b i := by
  induction k with
  | zero =>
      exact ⟨b, rfl, fun j hj => absurd hj (Nat.not_lt_zero j), fun i _ => rfl⟩
  | succ k ih =>
      obtain ⟨c, hc, hzero, hsame⟩ := ih (fun j hj => hidx j (by omega))
      refine ⟨c.set (idx k) 0#32 (hidx k (by omega)), ?_, ?_, ?_⟩
      · simp [fillN, hc, write_eq_some (hidx k (by omega))]
      · intro j hj
        rw [word_set]
        -- The word of this round, or one of an earlier round.
        split_ifs with heq
        · rfl
        · refine hzero j ?_
          rcases Nat.lt_succ_iff_lt_or_eq.1 hj with h | rfl
          · exact h
          · exact absurd rfl heq
      · intro i hi
        rw [word_set, if_neg (hi k (by omega))]
        exact hsame i (fun j hj => hi j (by omega))

/-- A copy that never reads a word it has written moves the old words. -/
theorem copyN_spec (src dst : Nat → Nat) (k : Nat) (b : Vector (BitVec 32) 8)
    (hsrc : ∀ j, j < k → src j < 8) (hdst : ∀ j, j < k → dst j < 8)
    (hinj : ∀ j j', j < j' → j' < k → dst j ≠ dst j')
    (hahead : ∀ j j', j < j' → j' < k → dst j ≠ src j') :
    ∃ c, copyN src dst k b = some c ∧ (∀ j, j < k → word c (dst j) = word b (src j)) ∧
      ∀ i, (∀ j, j < k → dst j ≠ i) → word c i = word b i := by
  induction k with
  | zero =>
      exact ⟨b, rfl, fun j hj => absurd hj (Nat.not_lt_zero j), fun i _ => rfl⟩
  | succ k ih =>
      obtain ⟨c, hc, hmoved, hsame⟩ := ih (fun j hj => hsrc j (by omega))
        (fun j hj => hdst j (by omega)) (fun j j' h h' => hinj j j' h (by omega))
        (fun j j' h h' => hahead j j' h (by omega))
      -- No earlier round has written the word that is read now.
      have hread : word c (src k) = word b (src k) :=
        hsame _ (fun j hj => hahead j k hj (by omega))
      refine ⟨c.set (dst k) (word b (src k)) (hdst k (by omega)), ?_, ?_, ?_⟩
      · simp [copyN, hc, getElem?_eq_word (hsrc k (by omega)), hread,
          write_eq_some (hdst k (by omega))]
      · intro j hj
        rw [word_set]
        rcases Nat.lt_succ_iff_lt_or_eq.1 hj with h | rfl
        · rw [if_neg (fun heq => hinj j k h (by omega) heq.symm)]
          exact hmoved j h
        · rw [if_pos rfl]
      · intro i hi
        rw [word_set, if_neg (hi k (by omega))]
        exact hsame i (fun j hj => hi j (by omega))

/-- `fill_n` from `rbegin` clears the last words. -/
theorem fillN_rbegin {q : Nat} (hq : q ≤ 8) (b : Vector (BitVec 32) 8) :
    ∃ c, fillN rbegin q b = some c ∧
      ∀ i, word c i = if i + q < 8 then word b i else 0#32 := by
  obtain ⟨c, hc, hzero, hsame⟩ := fillN_spec rbegin q b
    (fun j hj => by unfold rbegin; split_ifs <;> omega)
  refine ⟨c, hc, fun i => ?_⟩
  split_ifs with hi
  · exact hsame i (fun j hj => by unfold rbegin; split_ifs <;> omega)
  · by_cases h8 : i < 8
    · have hidx : rbegin (7 - i) = i := by
        unfold rbegin
        split_ifs <;> omega
      rw [← hidx]
      exact hzero (7 - i) (by omega)
    · exact word_of_ge (by omega)

/-! ## Shift to the left -/

/-- The loop reads ahead of what it writes. -/
theorem shiftLeftLoop_spec {r i n : Nat} (rounds : Nat) (b : Vector (BitVec 32) 8) (hin : i ≤ n)
    (hn : n + rounds ≤ 7) :
    ∃ c, shiftLeftLoop r rounds i n b = some c ∧
      (∀ j, j < rounds →
        word c (i + j) = (word b (n + j) <<< r) ||| (word b (n + j + 1) >>> (32 - r))) ∧
      ∀ k, k < i ∨ i + rounds ≤ k → word c k = word b k := by
  induction rounds generalizing i n b with
  | zero =>
      exact ⟨b, rfl, fun j hj => absurd hj (Nat.not_lt_zero j), fun k _ => rfl⟩
  | succ rounds ih =>
      have hi : i < 8 := by omega
      obtain ⟨c, hc, hmoved, hsame⟩ :=
        ih (b.set i ((word b n <<< r) ||| (word b (n + 1) >>> (32 - r))) hi)
          (by omega : i + 1 ≤ n + 1) (by omega)
      refine ⟨c, ?_, ?_, ?_⟩
      · simp [shiftLeftLoop, getElem?_eq_word (show n < 8 by omega),
          getElem?_eq_word (show n + 1 < 8 by omega), write_eq_some hi, hc]
      · intro j hj
        rcases Nat.eq_zero_or_pos j with rfl | hpos
        · -- The first round; the later rounds write behind it.
          rw [Nat.add_zero, Nat.add_zero, hsame i (Or.inl (by omega)), word_set, if_pos rfl]
        · obtain ⟨j, rfl⟩ : ∃ j', j = j' + 1 := ⟨j - 1, by omega⟩
          have hround := hmoved j (by omega)
          -- The word this round writes lies before the words that the later rounds read.
          rw [word_set, word_set, if_neg (by omega), if_neg (by omega)] at hround
          rw [show i + (j + 1) = i + 1 + j by omega, show n + (j + 1) = n + 1 + j by omega]
          exact hround
      · intro k hk
        rw [hsame k (by omega), word_set, if_neg (by omega)]

/-- Two neighbouring words, shifted left by `r < 32` bits across their border. -/
theorem getMsbD_shift_pair {x y : BitVec 32} {r d : Nat} (hr : r < 32) (hd : d < 32) :
    ((x <<< r) ||| (y >>> (32 - r))).getMsbD d =
      if d + r < 32 then x.getMsbD (d + r) else y.getMsbD (d + r - 32) := by
  rw [BitVec.getMsbD_or, BitVec.getMsbD_shiftLeft, BitVec.getMsbD_ushiftRight]
  split_ifs with h
  · simp [show d < 32 - r by omega]
  · rw [BitVec.getMsbD_of_ge x _ (by omega), show d - (32 - r) = d + r - 32 by omega]
    simp [hd, show ¬ d < 32 - r by omega]

/-- An array whose words are the old ones moved by `q` words and `r` bits. -/
theorem bit_eq_of_words {b c : Vector (BitVec 32) 8} {q r : Nat} (hr : r < 32)
    (hc : ∀ i, word c i = (word b (q + i) <<< r) ||| (word b (q + i + 1) >>> (32 - r))) (p : Nat) :
    bit c p = bit b (p + (32 * q + r)) := by
  have hd : p % 32 < 32 := Nat.mod_lt _ (by decide)
  unfold bit
  rw [hc, getMsbD_shift_pair hr hd]
  split_ifs with h
  · rw [show (p + (32 * q + r)) / 32 = q + p / 32 by omega,
      show (p + (32 * q + r)) % 32 = p % 32 + r by omega]
  · rw [show (p + (32 * q + r)) / 32 = q + p / 32 + 1 by omega,
      show (p + (32 * q + r)) % 32 = p % 32 + r - 32 by omega]

/-- Whole words: a copy, and zeros behind it. -/
theorem shiftMapLeft_words {s : BitmapRange T} {n : Nat} (hn : n < s.num_bits_) (h256 : n < 256)
    (hr : n % 32 = 0) :
    ∃ c, shiftMapLeft s n = some { s with num_bits_ := s.num_bits_ - n, bitmap_ := c } ∧
      ∀ i, word c i = (word s.bitmap_ (n / 32 + i) <<< (n % 32)) |||
        (word s.bitmap_ (n / 32 + i + 1) >>> (32 - n % 32)) := by
  obtain ⟨b, hb, hmoved, _⟩ := copyN_spec (n / 32 + ·) id (8 - n / 32)
    s.bitmap_ (fun j hj => by omega) (fun j hj => by simp only [id]; omega)
    (fun j j' _ _ => by simp only [id]; omega) (fun j j' _ _ => by simp only [id]; omega)
  obtain ⟨c, hc, hwords⟩ := fillN_rbegin (show n / 32 ≤ 8 by omega) b
  refine ⟨c, ?_, fun i => ?_⟩
  · simp [shiftMapLeft, Nat.not_le.2 hn, hr, hb, hc]
  · rw [hr, BitVec.shiftLeft_zero, BitVec.ushiftRight_eq_zero (Nat.le_refl 32), BitVec.or_zero,
      hwords]
    split_ifs with hi
    · exact hmoved i (by omega)
    · exact (word_of_ge (by omega)).symm

/-- Words and bits: the last word that is kept has no neighbour to take bits from. -/
theorem shiftMapLeft_parts {s : BitmapRange T} {n : Nat} (hn : n < s.num_bits_) (h256 : n < 256)
    (hr : n % 32 ≠ 0) :
    ∃ c, shiftMapLeft s n = some { s with num_bits_ := s.num_bits_ - n, bitmap_ := c } ∧
      ∀ i, word c i = (word s.bitmap_ (n / 32 + i) <<< (n % 32)) |||
        (word s.bitmap_ (n / 32 + i + 1) >>> (32 - n % 32)) := by
  obtain ⟨b, hb, hmoved, hsame⟩ := shiftLeftLoop_spec (r := n % 32)
    (i := 0) (n := n / 32) (7 - n / 32) s.bitmap_ (by omega) (by omega)
  have hlast : word b 7 = word s.bitmap_ 7 := hsame 7 (Or.inr (by omega))
  obtain ⟨c, hc, hwords⟩ := fillN_rbegin (show n / 32 ≤ 8 by omega)
    (b.set (7 - n / 32) (word b 7 <<< (n % 32)) (by omega))
  refine ⟨c, ?_, fun i => ?_⟩
  · have hseven : b[7] = word b 7 := by simp [word]
    simp [shiftMapLeft, Nat.not_le.2 hn, hr, hb, hc, hseven,
      write_eq_some (show 7 - n / 32 < 8 by omega)]
  · rw [hwords, word_set]
    split_ifs with hi heq
    · have hseventh : n / 32 + i = 7 := by omega
      rw [hlast, word_of_ge (show 8 ≤ n / 32 + i + 1 by omega), BitVec.zero_ushiftRight,
        BitVec.or_zero, hseventh]
    · have := hmoved i (by omega)
      rwa [Nat.zero_add] at this
    · rw [word_of_ge (show 8 ≤ n / 32 + i by omega), word_of_ge (show 8 ≤ n / 32 + i + 1 by omega),
        BitVec.zero_shiftLeft, BitVec.zero_ushiftRight, BitVec.or_zero]

theorem shiftMapLeft_spec {s : BitmapRange T} (h : EndsAt s.bitmap_ s.num_bits_) (n : Nat) :
    ∃ t, shiftMapLeft s n = some t ∧ t.base_ = s.base_ ∧ t.range_max_ = s.range_max_ ∧
      t.num_bits_ = s.num_bits_ - n ∧ ∀ p, bit t.bitmap_ p = bit s.bitmap_ (p + n) := by
  -- All bits go, or some stay; then whole words and a remainder of bits are treated apart.
  by_cases hn : n ≥ s.num_bits_
  · refine ⟨{ s with num_bits_ := 0, bitmap_ := Vector.replicate 8 0#32 }, ?_, rfl, rfl, ?_, ?_⟩
    · simp [shiftMapLeft, hn]
    · exact (Nat.sub_eq_zero_of_le hn).symm
    · intro p
      rw [h.bit_eq_false (by omega)]
      exact bit_replicate
  · have hlt : n < s.num_bits_ := Nat.lt_of_not_le hn
    have h256 : n < 256 := Nat.lt_of_lt_of_le hlt h.le
    obtain ⟨c, hc, hwords⟩ :
        ∃ c, shiftMapLeft s n = some { s with num_bits_ := s.num_bits_ - n, bitmap_ := c } ∧
          ∀ i, word c i = (word s.bitmap_ (n / 32 + i) <<< (n % 32)) |||
            (word s.bitmap_ (n / 32 + i + 1) >>> (32 - n % 32)) := by
      by_cases hr : n % 32 = 0
      · exact shiftMapLeft_words hlt h256 hr
      · exact shiftMapLeft_parts hlt h256 hr
    refine ⟨_, hc, rfl, rfl, rfl, fun p => ?_⟩
    have hbit := bit_eq_of_words (Nat.mod_lt n (by decide)) hwords p
    rwa [Nat.div_add_mod n 32] at hbit

/-! ## Shift to the right -/

/-- Nothing is left of a window that moves down by its whole width. -/
theorem shiftMapRight_of_le {s : BitmapRange T} {n : Nat} (hn : 256 ≤ n) :
    shiftMapRight s n = some { s with num_bits_ := 0, bitmap_ := Vector.replicate 8 0#32 } := by
  simp [shiftMapRight, hn]

theorem shiftMapRight_zero {s : BitmapRange T} (h : s.num_bits_ ≤ 256) :
    shiftMapRight s 0 = some s := by
  obtain ⟨b, hb, hmoved, _⟩ := copyN_spec (7 - ·) (7 - ·) 8
    s.bitmap_ (fun j hj => by omega) (fun j hj => by omega)
    (fun j j' _ _ => by omega) (fun j j' _ _ => by omega)
  have hsame : b = s.bitmap_ := by
    refine word_ext fun i hi => ?_
    have := hmoved (7 - i) (by omega)
    rwa [show 7 - (7 - i) = i by omega] at this
  simp [shiftMapRight, hb, hsame, fillN, show ¬ s.num_bits_ > 256 by omega]

/-! ## The largest set bit -/

/-- The search from word `k` down to word `l`, when no other word has a set bit. -/
theorem maximumBitSet_spec {b : Vector (BitVec 32) 8} {l k : Nat} (hk : k ≤ 8)
    (hfirst : ∀ p, bit b p = true → 32 * l ≤ p) (hbits : ∀ p, bit b p = true → p < 32 * k) :
    ∃ m, maximumBitSet b l k = some m ∧ EndsAt b m := by
  induction k with
  | zero =>
      refine ⟨0, rfl, ?_, fun h => absurd h (Nat.lt_irrefl 0)⟩
      intro p hp
      have := hbits p hp
      omega
  | succ k ih =>
      by_cases hl : k + 1 ≤ l
      · -- No word is searched, and none has a set bit.
        have hnone : ∀ p, bit b p ≠ true := by
          intro p hp
          have hge := hfirst p hp
          have hlt := hbits p hp
          omega
        refine ⟨0, ?_, fun p hp => absurd hp (hnone p), fun h => absurd h (Nat.lt_irrefl 0)⟩
        simp [maximumBitSet, show ¬ k + 1 > l by omega]
      by_cases hzero : word b k = 0#32
      · -- Word `k` is zero, so that the bits end before it.
        obtain ⟨m, hm, hends⟩ := ih (by omega) (by
          intro p hp
          have hlt := hbits p hp
          by_contra hge
          refine word_ne_zero.2 ⟨p, ?_, hp⟩ hzero
          omega)
        refine ⟨m, ?_, hends⟩
        simp [maximumBitSet, getElem?_eq_word (show k < 8 by omega), hzero, hm,
          show k + 1 > l by omega]
      · -- The last bit of word `k` is the last bit of all.
        obtain ⟨hset, hlast⟩ := getMsbD_lastBit_clz hzero
        have hlt := lt_of_getMsbD hset
        refine ⟨_,
          by simp [maximumBitSet, getElem?_eq_word (show k < 8 by omega), hzero,
            show k + 1 > l by omega]; rfl, ?_, ?_⟩
        · intro p hp
          have hpk := hbits p hp
          by_contra hge
          have hword : p / 32 = k := by omega
          have hfalse := hlast (p % 32) (by omega)
          rw [← hword] at hfalse
          rw [bit, hfalse] at hp
          cases hp
        · intro _
          rw [← Nat.add_assoc, Nat.add_sub_cancel, bit_mul_add hlt]
          exact hset

/-- After a search above all set bits the bitmap ends at `num_bits_`. -/
theorem calcMaximumBitSet_spec {s : BitmapRange T} {l k : Nat} (hk : k ≤ 8)
    (hfirst : ∀ p, bit s.bitmap_ p = true → 32 * l ≤ p)
    (hbits : ∀ p, bit s.bitmap_ p = true → p < 32 * k) :
    ∃ t, calcMaximumBitSet s k l = some t ∧ t.base_ = s.base_ ∧ t.range_max_ = s.range_max_ ∧
      t.bitmap_ = s.bitmap_ ∧ EndsAt t.bitmap_ t.num_bits_ := by
  obtain ⟨m, hm, hends⟩ := maximumBitSet_spec hk hfirst hbits
  exact ⟨{ s with num_bits_ := m }, by simp [calcMaximumBitSet, hm], rfl, rfl, rfl, hends⟩

end BitmapRange

end DataStructure
end Mozi
