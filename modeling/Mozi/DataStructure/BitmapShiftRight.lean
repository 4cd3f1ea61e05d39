import Mozi.DataStructure.BitmapWords

/-!
# BitmapShiftRight — where `shift_map_right` leaves the bits

For a distance of `n` bits below 256, with `q = n / 32` and `r = n % 32`:

* `r = 0`: the words are copied, then the last `q` words are cleared instead of the first ones;
* `r ≠ 0` and `q = 0`: the loop reads `bitmap_[8]`;
* `r ≠ 0` otherwise: the carry of a word comes from the word after it, and the first word is
  shifted to the left, so that some bits end up `2 * r` positions too low.
-/

namespace Mozi
namespace DataStructure

open Foundation BitArray

namespace BitmapRange

variable {T : Type} {s : BitmapRange T} {n : Nat}

/-! ## Words -/

theorem shiftRightLoop_spec {r q : Nat} (rounds : Nat) (b : Vector (BitVec 32) 8) (hq : 0 < q)
    (hn : rounds + q ≤ 7) :
    ∃ c, shiftRightLoop r rounds (rounds + q) b = some c ∧
      (∀ j, q < j → j ≤ rounds + q →
        word c j = (word b (j - q) >>> r) ||| (word b (j - q + 1) >>> (32 - r))) ∧
      ∀ j, j ≤ q ∨ rounds + q < j → word c j = word b j := by
  induction rounds generalizing b with
  | zero =>
      exact ⟨b, rfl, fun j _ _ => by omega, fun j _ => rfl⟩
  | succ rounds ih =>
      have hi : rounds + 1 + q < 8 := by omega
      obtain ⟨c, hc, hmoved, hsame⟩ :=
        ih (b.set (rounds + 1 + q)
          ((word b (rounds + 1) >>> r) ||| (word b (rounds + 2) >>> (32 - r))) hi) (by omega)
      refine ⟨c, ?_, ?_, ?_⟩
      · simp only [shiftRightLoop, getElem?_eq_word (show rounds + 1 < 8 by omega),
          getElem?_eq_word (show rounds + 2 < 8 by omega), write_eq_some hi, Option.bind_eq_bind,
          Option.bind_some]
        rw [show rounds + 1 + q - 1 = rounds + q by omega]
        exact hc
      · intro j hqj hj
        rcases Nat.eq_or_lt_of_le hj with rfl | hlt
        · -- The first round; the later rounds write in front of it.
          rw [hsame _ (Or.inr (by omega)), word_set, if_pos rfl,
            show rounds + 1 + q - q = rounds + 1 by omega]
        · -- The word this round writes lies behind the words that the later rounds read.
          have hround := hmoved j hqj (by omega)
          rwa [word_set, word_set, if_neg (by omega), if_neg (by omega)] at hround
      · intro j hj
        rw [hsame j (by omega), word_set, if_neg (by omega)]

/-- A shift by less than a word reads behind the last word. -/
theorem shiftMapRight_small (hpos : 0 < n) (hn : n < 32) : shiftMapRight s n = none := by
  have hloop : ∀ b, shiftRightLoop n 7 7 b = none := by
    intro b
    simp [shiftRightLoop]
  have hq : n / 32 = 0 := by omega
  have hr : n % 32 = n := by omega
  simp [shiftMapRight, show ¬ n ≥ 256 by omega, hq, hr, hloop, show n ≠ 0 by omega]

/-! ## Bits -/

/-- The end of `shift_map_right`: the sum of the lengths, or the search above the first words. -/
def closeShift (s : BitmapRange T) (n : Nat) (b : Vector (BitVec 32) 8) :
    Option (BitmapRange T) :=
  if s.num_bits_ + n > 256 then
    calcMaximumBitSet { s with num_bits_ := s.num_bits_ + n, bitmap_ := b } 8 (n / 32)
  else
    some { s with num_bits_ := s.num_bits_ + n, bitmap_ := b }

/-- Whole words: the last `n` positions are clear, the first `n` ones keep their bits. -/
theorem shiftMapRight_words (hn : n < 256) (hr : n % 32 = 0) :
    ∃ c, shiftMapRight s n = closeShift s n c ∧
      ∀ p, bit c p =
        (decide (p + n < 256) && if p < n then bit s.bitmap_ p else bit s.bitmap_ (p - n)) := by
  obtain ⟨b, hb, hmoved, hsame⟩ := copyN_spec (fun k => 7 - n / 32 - k) (7 - ·) (8 - n / 32)
    s.bitmap_ (fun j _ => by omega) (fun j _ => by omega) (fun j j' _ _ => by omega)
    (fun j j' _ _ => by omega)
  obtain ⟨c, hc, hwords⟩ := fillN_rbegin (show n / 32 ≤ 8 by omega) b
  refine ⟨c, ?_, fun p => ?_⟩
  · simp [shiftMapRight, closeShift, show ¬ n ≥ 256 by omega, hr, hb, hc]
  · by_cases hp : p / 32 + n / 32 < 8
    · -- A word that is not cleared: copied, or left as it was.
      have hlt : p + n < 256 := by omega
      rw [decide_eq_true hlt, Bool.true_and, bit, hwords, if_pos hp]
      split_ifs with hpn
      · rw [hsame _ (fun j hj => by omega)]
        rfl
      · have hword := hmoved (7 - p / 32) (by omega)
        rw [show 7 - (7 - p / 32) = p / 32 by omega,
          show 7 - n / 32 - (7 - p / 32) = (p - n) / 32 by omega] at hword
        rw [hword, show p % 32 = (p - n) % 32 by omega]
        rfl
    · have hge : ¬ p + n < 256 := by omega
      rw [decide_eq_false hge, Bool.false_and, bit, hwords, if_neg hp]
      simp

/-- Two neighbouring words as the loop puts them together. -/
theorem getMsbD_carry_pair {x y : BitVec 32} {r d : Nat} (hr : r ≤ 32) (hd : d < 32) :
    ((x >>> r) ||| (y >>> (32 - r))).getMsbD d =
      ((decide (r ≤ d) && x.getMsbD (d - r)) ||
        (decide (32 ≤ d + r) && y.getMsbD (d + r - 32))) := by
  rw [BitVec.getMsbD_or, BitVec.getMsbD_ushiftRight, BitVec.getMsbD_ushiftRight,
    show d - (32 - r) = d + r - 32 by omega]
  have hleft : (!decide (d < r)) = decide (r ≤ d) := by
    rw [← decide_not, decide_eq_decide]
    omega
  have hright : (!decide (d < 32 - r)) = decide (32 ≤ d + r) := by
    rw [← decide_not, decide_eq_decide]
    omega
  simp [hd, hleft, hright]

/-- A bit that the loop moves by `n` positions. -/
def Kept (n P : Nat) : Prop :=
  32 ≤ P ∧ P % 32 + n % 32 < 32

/-- A bit that comes out `2 * (n % 32)` positions below its place: it is carried into the word
before, or lies in the first word. -/
def Strays (n P : Nat) : Prop :=
  (n % 32 ≤ P ∧ P < 32) ∨ (64 ≤ P ∧ P % 32 < n % 32 ∧ P / 32 + n / 32 ≤ 8)

/-- Where a bit that strays comes out. -/
theorem Strays.lands {P : Nat} (h : Strays n P) (hge : 32 ≤ n) (hn : n < 256) :
    2 * (n % 32) ≤ P + n ∧ P + n - 2 * (n % 32) < 256 := by
  rcases h with h | h
  · omega
  · omega

/-- The words after a shift by `q` words and `r` bits. -/
theorem shiftMapRight_parts_words (hge : 32 ≤ n) (hn : n < 256) (hr : n % 32 ≠ 0) :
    ∃ c, shiftMapRight s n = closeShift s n c ∧ (∀ j, j < n / 32 → word c j = 0#32) ∧
      word c (n / 32) = word s.bitmap_ 0 <<< (n % 32) ∧
      ∀ j, n / 32 < j → j < 8 → word c j =
        (word s.bitmap_ (j - n / 32) >>> (n % 32)) |||
          (word s.bitmap_ (j - n / 32 + 1) >>> (32 - n % 32)) := by
  have hq : 7 - n / 32 + n / 32 = 7 := by omega
  obtain ⟨b, hb, hmoved, hsame⟩ :=
    shiftRightLoop_spec (r := n % 32) (q := n / 32) (7 - n / 32) s.bitmap_ (by omega) (by omega)
  have hfirst : word b 0 = word s.bitmap_ 0 := hsame 0 (Or.inl (by omega))
  obtain ⟨c, hc, hzero, hrest⟩ :=
    fillN_spec id (n / 32) (b.set (n / 32) (word b 0 <<< (n % 32)) (by omega))
      (fun j hj => by simp only [id]; omega)
  rw [hq] at hb hmoved
  refine ⟨c, ?_, fun j hj => hzero j hj, ?_, ?_⟩
  · have hread : b[0] = word b 0 := by simp [word]
    simp [shiftMapRight, closeShift, show ¬ n ≥ 256 by omega, hr, hb, hread,
      write_eq_some (show n / 32 < 8 by omega), hc]
  · rw [hrest _ (fun j hj => by simp only [id]; omega), word_set, if_pos rfl, hfirst]
  · intro j hqj hj
    rw [hrest j (fun k hk => by simp only [id]; omega), word_set, if_neg (by omega)]
    exact hmoved j hqj (by omega)

/-- A position of the word that the first one is shifted into. -/
theorem bit_shifted_first {b c : Vector (BitVec 32) 8} {q r p : Nat} (hp : p / 32 = q)
    (hc : word c q = word b 0 <<< r) :
    bit c p = (decide (p % 32 + r < 32) && bit b (p + r - 32 * q)) := by
  have hd : p + r - 32 * q = p % 32 + r := by omega
  rw [hd, bit, hp, hc, BitVec.getMsbD_shiftLeft]
  by_cases hlow : p % 32 + r < 32
  · have hfirst := bit_mul_add (b := b) (i := 0) hlow
    rw [Nat.mul_zero, Nat.zero_add] at hfirst
    rw [decide_eq_true hlow, hfirst]
    simp
  · rw [decide_eq_false hlow, BitVec.getMsbD_of_ge _ _ (by omega)]
    simp

/-- A position of a later word: its place `32 * q + r` lower, and the carry from the word after
that one. -/
theorem bit_shifted_later {b c : Vector (BitVec 32) 8} {q r p : Nat} (hr : r < 32)
    (hp : q < p / 32)
    (hc : word c (p / 32) =
      (word b (p / 32 - q) >>> r) ||| (word b (p / 32 - q + 1) >>> (32 - r))) :
    bit c p = ((decide (r ≤ p % 32) && bit b (p - (32 * q + r))) ||
      (decide (32 ≤ p % 32 + r) && bit b (p + r - 32 * q))) := by
  have hd : p % 32 < 32 := Nat.mod_lt p (by decide)
  rw [bit, hc, getMsbD_carry_pair (Nat.le_of_lt hr) hd]
  congr 1
  · by_cases hle : r ≤ p % 32
    · have hplace : p - (32 * q + r) = 32 * (p / 32 - q) + (p % 32 - r) := by omega
      rw [hplace, bit_mul_add (by omega)]
    · rw [decide_eq_false hle, Bool.false_and, Bool.false_and]
  · by_cases hle : 32 ≤ p % 32 + r
    · have hplace : p + r - 32 * q = 32 * (p / 32 - q + 1) + (p % 32 + r - 32) := by omega
      rw [hplace, bit_mul_add (by omega)]
    · rw [decide_eq_false hle, Bool.false_and, Bool.false_and]

/-- `c` has the bits of `b` after a shift by words and bits: the kept ones at their place, and the
others below it. -/
def PartsMoved (b c : Vector (BitVec 32) 8) (n : Nat) : Prop :=
  ∀ p, bit c p = true ↔ p < 256 ∧
    ((n ≤ p ∧ Kept n (p - n) ∧ bit b (p - n) = true) ∨
      (n ≤ p + 2 * (n % 32) ∧ Strays n (p + 2 * (n % 32) - n) ∧
        bit b (p + 2 * (n % 32) - n) = true))

theorem shiftMapRight_parts (hge : 32 ≤ n) (hn : n < 256) (hr : n % 32 ≠ 0) :
    ∃ c, shiftMapRight s n = closeShift s n c ∧ PartsMoved s.bitmap_ c n := by
  obtain ⟨c, hc, hzero, hfirst, hrest⟩ := shiftMapRight_parts_words (s := s) hge hn hr
  refine ⟨c, hc, fun p => ?_⟩
  have hn' : 32 * (n / 32) + n % 32 = n := Nat.div_add_mod n 32
  have hstray : p + n % 32 - 32 * (n / 32) = p + 2 * (n % 32) - n := by omega
  unfold Kept Strays
  -- The words before the first one, the first one, the words behind it, and none.
  rcases Nat.lt_trichotomy (p / 32) (n / 32) with hlt | heq | hgt
  · have hfalse : ¬ bit c p = true := by simp [bit, hzero _ hlt]
    rw [iff_false_left hfalse]
    omega
  · rw [bit_shifted_first heq hfirst, hstray, Bool.and_eq_true, decide_eq_true_eq]
    constructor
    · rintro ⟨hlow, hset⟩
      exact ⟨by omega, Or.inr ⟨by omega, Or.inl ⟨by omega, by omega⟩, hset⟩⟩
    · rintro ⟨hp, h | h⟩
      · omega
      · exact ⟨by omega, h.2.2⟩
  · by_cases hp : p / 32 < 8
    · rw [bit_shifted_later (Nat.mod_lt n (by decide)) hgt (hrest _ hgt hp), hn', hstray,
        Bool.or_eq_true, Bool.and_eq_true, Bool.and_eq_true, decide_eq_true_eq,
        decide_eq_true_eq]
      constructor
      · rintro (⟨hle, hset⟩ | ⟨hle, hset⟩)
        · exact ⟨by omega, Or.inl ⟨by omega, by omega, hset⟩⟩
        · exact ⟨by omega, Or.inr ⟨by omega, Or.inr ⟨by omega, by omega, by omega⟩, hset⟩⟩
      · rintro ⟨_, ⟨_, hkept, hset⟩ | ⟨_, hstray', hset⟩⟩
        · exact Or.inl ⟨by omega, hset⟩
        · exact Or.inr ⟨by omega, hset⟩
    · have hfalse : ¬ bit c p = true := by simp [bit, word_of_ge (b := c) (Nat.not_lt.1 hp)]
      rw [iff_false_left hfalse]
      omega

end BitmapRange

end DataStructure
end Mozi
