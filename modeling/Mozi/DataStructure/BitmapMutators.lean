import Mozi.DataStructure.BitmapWindow

/-!
# BitmapMutators — what each operation does to a well-formed window

One lemma for each mutator: the bits afterwards, and that the bitmap again ends at `num_bits_`.
Three operations keep the window well formed only under a condition, which is a hypothesis here:
`addRange` and `setBitmap` do not look at `range_max_`, and `remove` reads `max()` of an empty set.
-/

namespace Mozi
namespace DataStructure

open Foundation BitArray

namespace BitmapRange

open LawfulRangeItem

variable {T : Type} [RangeItem T] [LawfulRangeItem T] {s : BitmapRange T}

/-! ## Empty windows -/

/-- An empty window with some bits. -/
theorem wf_empty {base range_max : T} (max_bits : Nat) (hwindow : val base + 256 ≤ limit T)
    (hmax : val range_max = val base + (Nat.min max_bits 255 : Nat)) :
    Wf (⟨base, range_max, Vector.replicate 8 0#32, 0⟩ : BitmapRange T) where
  range_max_le := by
    have : Nat.min max_bits 255 ≤ 255 := Nat.min_le_right _ _
    simp only
    omega
  num_bits_le := by
    simp only
    omega
  ends := EndsAt.zero
  window := hwindow

theorem newCapped_spec {base : T} (hwindow : val base + 256 ≤ limit T) (max_bits : Nat) :
    ∃ t, newCapped base max_bits = some t ∧ Wf t ∧ t.base_ = base := by
  have hle : Nat.min max_bits 255 ≤ 255 := Nat.min_le_right _ _
  obtain ⟨r, hr, hval⟩ := add_val base (Nat.min max_bits 255) (by omega) (by omega)
  refine ⟨_, ?_, wf_empty max_bits hwindow hval, rfl⟩
  simp only [newCapped, Option.bind_eq_bind]
  exact Option.bind_eq_some_iff.2 ⟨r, hr, rfl⟩

theorem baseCapped_spec {base : T} (hwindow : val base + 256 ≤ limit T) (max_bits : Nat) :
    ∃ t, s.baseCapped base max_bits = some t ∧ Wf t ∧ t.base_ = base :=
  newCapped_spec hwindow max_bits

theorem base_spec {base : T} (hwindow : val base + 256 ≤ limit T) :
    ∃ t, s.base base = some t ∧ Wf t ∧ t.base_ = base :=
  newCapped_spec hwindow 255

/-! ## `updateBase` -/

section UpdateBase

variable [DecidableEq T]

/-- Moving down shifts by the distance modulo `2 ^ 32`. -/
theorem updateBase_down {base : T} (hdown : val base < val s.base_) :
    s.updateBase base =
      (shiftMapRight s (distance32 s.base_ base)).bind fun u =>
        (RangeItem.add base 255).bind fun range_max =>
          some { u with base_ := base, range_max_ := range_max } := by
  have hne : base ≠ s.base_ := by
    rintro rfl
    omega
  have hgt : RangeItem.gt base s.base_ = false := by
    by_contra hgt
    have := (gt_iff base s.base_).1 (by simpa using hgt)
    omega
  simp [updateBase, hne, hgt, diff_eq_distance32 (Int.le_of_lt hdown)]

/-- Moving up shifts by the distance modulo `2 ^ 32`. -/
theorem updateBase_up {base r : T} (hends : EndsAt s.bitmap_ s.num_bits_)
    (hup : val s.base_ < val base) (hr : RangeItem.add base 255 = some r) :
    ∃ t, s.updateBase base = some t ∧ t.base_ = base ∧ t.range_max_ = r ∧
      t.num_bits_ = s.num_bits_ - distance32 base s.base_ ∧
      ∀ p, bit t.bitmap_ p = bit s.bitmap_ (p + distance32 base s.base_) := by
  have hne : base ≠ s.base_ := by
    rintro rfl
    omega
  obtain ⟨u, hu, _, _, hnum, hbits⟩ := shiftMapLeft_spec hends (distance32 base s.base_)
  refine ⟨{ u with base_ := base, range_max_ := r }, ?_, rfl, rfl, hnum, hbits⟩
  simp [updateBase, hne, (gt_iff base s.base_).2 hup,
    diff_eq_distance32 (Int.le_of_lt hup), hu, hr]

theorem updateBase_up_wf {base : T} (h : Wf s) (hup : val s.base_ < val base)
    (hwindow : val base + 256 ≤ limit T) : ∃ t, s.updateBase base = some t ∧ Wf t := by
  obtain ⟨r, hr, hval⟩ := add_val base 255 (by omega) (by omega)
  obtain ⟨t, ht, hbase, hmax, hnum, hbits⟩ := updateBase_up h.ends hup hr
  refine ⟨t, ht, wellFormed_of_full (by rw [hbase, hmax]; exact hval) ?_, ?_⟩
  · rw [hnum]
    exact h.ends.shift_down hbits
  · rw [hbase]
    exact hwindow

/-- Moving down leaves a well-formed window when nothing is shifted at all, or when the whole
width is shifted out. -/
theorem updateBase_down_wf {base : T} (h : Wf s) (hdown : val base < val s.base_)
    (hfar : distance32 s.base_ base = 0 ∨ 256 ≤ distance32 s.base_ base)
    (hwindow : val base + 256 ≤ limit T) : ∃ t, s.updateBase base = some t ∧ Wf t := by
  obtain ⟨r, hr, hval⟩ := add_val base 255 (by omega) (by omega)
  have h256 := h.num_bits_le_256
  rw [updateBase_down hdown, hr]
  -- A distance that is 0 modulo `2 ^ 32` shifts nothing; 256 and more empties the bitmap.
  rcases hfar with hzero | hfar
  · refine ⟨{ s with base_ := base, range_max_ := r }, ?_, wellFormed_of_full hval h.ends, hwindow⟩
    rw [hzero, shiftMapRight_zero h256]
    rfl
  · refine ⟨⟨base, r, Vector.replicate 8 0#32, 0⟩, ?_, wf_empty 255 hwindow hval⟩
    rw [shiftMapRight_of_le hfar]
    rfl

end UpdateBase

/-! ## `add` -/

theorem add_outside {item : T} (hout : ¬ (val s.base_ ≤ val item ∧ val item ≤ val s.range_max_)) :
    s.add item = some (false, s) := by
  unfold BitmapRange.add
  rw [if_neg]
  rwa [Bool.and_eq_true, ge_iff, ge_iff]

/-- An item of the window gets its bit, and `num_bits_` becomes the larger of its old value and the
position after it. -/
theorem add_set {item : T} {p : Nat} (hp : val item = val s.base_ + p) (hp256 : p < 256)
    (hin : val item ≤ val s.range_max_) :
    ∃ t, s.add item = some (true, t) ∧ t.base_ = s.base_ ∧ t.range_max_ = s.range_max_ ∧
      t.num_bits_ = Nat.max (p + 1) s.num_bits_ ∧
      ∀ q, bit t.bitmap_ q = (bit s.bitmap_ q || decide (q = p)) := by
  have hword : p / 32 < 8 := by omega
  obtain ⟨b, hb⟩ : ∃ b, b = s.bitmap_.set (p / 32)
    (word s.bitmap_ (p / 32) ||| (1#32 <<< (31 - p % 32))) hword := ⟨_, rfl⟩
  refine ⟨⟨s.base_, s.range_max_, b, Nat.max (p + 1) s.num_bits_⟩, ?_, rfl, rfl, rfl, ?_⟩
  · unfold BitmapRange.add
    rw [if_pos (by rw [Bool.and_eq_true, ge_iff, ge_iff]; omega), diff_eq hp (by omega)]
    simp [getElem?_eq_word hword, write_eq_some hword, u32_of_lt (show p + 1 < 2 ^ 32 by omega), hb]
  · intro q
    rw [hb, bit_set_or hword, getMsbD_one_shiftLeft (Nat.mod_lt p (by decide)), ← Bool.decide_and]
    congr 1
    rw [decide_eq_decide]
    omega

/-- One more bit, and the bitmap ends behind it or where it ended before. -/
theorem endsAt_add {b c : Vector (BitVec 32) 8} {m p : Nat} (h : EndsAt b m)
    (hbits : ∀ q, bit c q = (bit b q || decide (q = p))) : EndsAt c (Nat.max (p + 1) m) := by
  rw [show Nat.max (p + 1) m = Nat.max m (p + 1) from Nat.max_comm _ _]
  refine h.union (Nat.lt_succ_self p) ?_
  intro q
  rw [hbits]
  congr 1
  rw [decide_eq_decide]
  omega

theorem add_inside (h : Wf s) {item : T} {p : Nat} (hp : val item = val s.base_ + p)
    (hin : val item ≤ val s.range_max_) :
    ∃ t, s.add item = some (true, t) ∧ Wf t ∧ t.base_ = s.base_ ∧
      t.range_max_ = s.range_max_ ∧
      ∀ q, bit t.bitmap_ q = (bit s.bitmap_ q || decide (q = p)) := by
  have hmax := h.range_max_le
  obtain ⟨t, ht, hbase, hrange, hnum, hbits⟩ := add_set hp (by omega) hin
  refine ⟨t, ht, h.of_bits hbase hrange ?_ ?_, hbase, hrange, hbits⟩
  · rw [hnum]
    exact endsAt_add h.ends hbits
  · intro q hq
    rw [hbits, Bool.or_eq_true, decide_eq_true_eq] at hq
    rcases hq with hq | rfl
    · exact h.bit_le_range_max hq
    · omega

/-- A window of at most 256 items takes every item. -/
theorem add_returns (hmax : val s.range_max_ ≤ val s.base_ + 255) (item : T) :
    ∃ r, s.add item = some r ∧ r.2.base_ = s.base_ ∧ r.2.range_max_ = s.range_max_ := by
  by_cases hin : val s.base_ ≤ val item ∧ val item ≤ val s.range_max_
  · obtain ⟨p, hp⟩ : ∃ p : Nat, val item = val s.base_ + p :=
      Int.exists_add_of_le (by omega)
    have hword : p / 32 < 8 := by omega
    unfold BitmapRange.add
    rw [if_pos (by rw [Bool.and_eq_true, ge_iff, ge_iff]; exact hin), diff_eq hp (by omega)]
    simp [getElem?_eq_word hword, write_eq_some hword]
  · exact ⟨_, add_outside hin, rfl, rfl⟩

/-- The members afterwards are the old ones, and the item if it lies in the window. -/
theorem add_member (h : Wf s) (item : T) :
    ∃ r, s.add item = some r ∧ Wf r.2 ∧ r.2.base_ = s.base_ ∧ r.2.range_max_ = s.range_max_ ∧
      ∀ x, Member r.2 x ↔
        Member s x ∨ x = item ∧ val s.base_ ≤ val x ∧ val x ≤ val s.range_max_ := by
  by_cases hin : val s.base_ ≤ val item ∧ val item ≤ val s.range_max_
  · obtain ⟨p, hp⟩ : ∃ p : Nat, val item = val s.base_ + p :=
      Int.exists_add_of_le (by omega)
    obtain ⟨t, ht, hwf, hbase, hmax, hbits⟩ := add_inside h hp hin.2
    refine ⟨_, ht, hwf, hbase, hmax, fun x => ?_⟩
    constructor
    · rintro ⟨q, hq, hx⟩
      rw [hbase] at hx
      rw [hbits, Bool.or_eq_true, decide_eq_true_eq] at hq
      rcases hq with hq | rfl
      · exact Or.inl ⟨q, hq, hx⟩
      · obtain rfl : x = item := val_injective (hx.trans hp.symm)
        exact Or.inr ⟨rfl, hin⟩
    · rintro (⟨q, hq, hx⟩ | ⟨rfl, -⟩)
      · refine ⟨q, ?_, by rw [hbase]; exact hx⟩
        rw [hbits, hq, Bool.true_or]
      · refine ⟨p, ?_, by rw [hbase]; exact hp⟩
        rw [hbits, decide_eq_true rfl, Bool.or_true]
  · refine ⟨_, add_outside hin, h, rfl, rfl, fun x => ?_⟩
    constructor
    · exact Or.inl
    · rintro (hx | ⟨rfl, hx⟩)
      · exact hx
      · exact absurd hx hin

/-! ## `addRange` -/

/-- The loop of `addRange` over the words: the positions from `lo` on are set up to the first
position of the mask, and `n_bits` more are to be set. -/
structure RangeInv (b : Vector (BitVec 32) 8) (lo hi : Nat) (st : RangeLoop) : Prop where
  hi_le : hi ≤ 256
  rest : 32 * st.pos + 32 + st.n_bits = hi + st.bits_in_mask
  in_mask : 0 < st.bits_in_mask ∧ st.bits_in_mask ≤ 32
  mask : ∀ d, d < 32 → st.mask.getMsbD d = decide (32 ≤ d + st.bits_in_mask)
  lo_le : lo + st.bits_in_mask ≤ 32 * st.pos + 32
  bits : ∀ p, bit st.bitmap_ p =
    (bit b p || decide (lo ≤ p ∧ p + st.bits_in_mask < 32 * st.pos + 32))

namespace RangeInv

variable {b : Vector (BitVec 32) 8} {lo hi : Nat} {st : RangeLoop}

theorem addWord_eq {st : RangeLoop} (hpos : st.pos < 8) :
    BitmapRange.addWord st = some ⟨st.pos + 1, st.n_bits - st.bits_in_mask, BitVec.allOnes 32, 32,
      st.bitmap_.set st.pos (word st.bitmap_ st.pos ||| st.mask) hpos⟩ := by
  simp only [BitmapRange.addWord, getElem?_eq_word hpos, write_eq_some hpos, Option.bind_eq_bind,
    Option.bind_some]

theorem addWord (h : RangeInv b lo hi st) (hcond : st.bits_in_mask ≤ st.n_bits) :
    ∃ st', BitmapRange.addWord st = some st' ∧ RangeInv b lo hi st' ∧
      8 - st'.pos < 8 - st.pos := by
  have hhi := h.hi_le
  have hrest := h.rest
  have hmask := h.in_mask
  have hlo := h.lo_le
  have hpos : st.pos < 8 := by omega
  refine ⟨_, addWord_eq hpos, ?_, by simp only; omega⟩
  refine ⟨hhi, by simp only; omega, by simp, ?_, by simp only; omega, ?_⟩
  · intro d hd
    rw [BitVec.getMsbD_allOnes]
    simp [hd]
  · -- The bits of the mask in word `pos` are the positions up to the end of that word.
    intro p
    simp only
    rw [bit_set_or hpos, h.mask _ (Nat.mod_lt _ (by decide)), h.bits, Bool.or_assoc,
      ← Bool.decide_and, ← Bool.decide_or]
    congr 1
    rw [decide_eq_decide]
    omega

theorem addWords (h : RangeInv b lo hi st) :
    ∃ st', BitmapRange.addWords st = some st' ∧ RangeInv b lo hi st' ∧
      st'.n_bits < st'.bits_in_mask := by
  -- Every round moves to the next word, and `hi ≤ 256` stops it before the ninth.
  obtain ⟨st', hst', hinv, hend⟩ := whileM_returns (I := RangeInv b lo hi)
    (c := fun st => decide (st.n_bits ≥ st.bits_in_mask)) (b := BitmapRange.addWord)
    (fun st => 8 - st.pos)
    (fun st hst hcond => hst.addWord (by simpa using hcond)) h
  exact ⟨st', whileM_mono (fun _ _ h => h) (by omega) hst', hinv, by simpa using hend⟩

theorem addPart (h : RangeInv b lo hi st) (hlt : st.n_bits < st.bits_in_mask) :
    ∃ c, BitmapRange.addPart st = some c ∧
      ∀ p, bit c p = (bit b p || decide (lo ≤ p ∧ p < hi)) := by
  have hhi := h.hi_le
  have hrest := h.rest
  have hmask := h.in_mask
  have hlo := h.lo_le
  unfold BitmapRange.addPart
  split_ifs with hpart
  · have hpos : st.pos < 8 := by omega
    rw [getElem?_eq_word hpos]
    simp only [write_eq_some hpos, Option.bind_eq_bind, Option.bind_some]
    -- The mask loses its last bits, which are past `hi`.
    refine ⟨_, rfl, ?_⟩
    intro p
    rw [bit_set_or hpos, BitVec.getMsbD_and, h.mask _ (Nat.mod_lt _ (by decide)),
      BitVec.getMsbD_shiftLeft, BitVec.getMsbD_allOnes, h.bits, Bool.or_assoc, ← Bool.decide_and,
      ← Bool.decide_and, ← Bool.decide_or]
    congr 1
    rw [decide_eq_decide]
    omega
  · refine ⟨st.bitmap_, rfl, ?_⟩
    intro p
    rw [h.bits]
    congr 1
    rw [decide_eq_decide]
    omega

/-- Before the loop the mask starts at position `lo`. -/
theorem start {n : Nat} (hle : lo + n ≤ 256) : RangeInv b lo (lo + n)
    ⟨lo / 32, n, BitVec.allOnes 32 >>> (lo % 32), 32 - lo % 32, b⟩ where
  hi_le := hle
  rest := by
    simp only
    omega
  in_mask := by
    simp only
    omega
  mask d hd := by
    rw [BitVec.getMsbD_ushiftRight, BitVec.getMsbD_allOnes]
    simp only [hd, decide_true, Bool.true_and, show d - lo % 32 < 32 by omega, Bool.and_true,
      ← decide_not, decide_eq_decide]
    omega
  lo_le := by
    simp only
    omega
  bits p := by
    simp only
    rw [show decide (lo ≤ p ∧ p + (32 - lo % 32) < 32 * (lo / 32) + 32) = false by
      rw [decide_eq_false_iff_not]; omega, Bool.or_false]

end RangeInv

/-- The two ends of the interval that `addRange` sets. -/
theorem clip (base from_ to_ lim : T) (hlim : val lim = val base + 256) :
    val (if RangeItem.ge base from_ then base else from_) = Max.max (val base) (val from_) ∧
      val (if RangeItem.ge to_ lim then lim else to_) = Min.min (val base + 256) (val to_) := by
  constructor
  · split_ifs with hge
    · rw [ge_iff] at hge
      omega
    · rw [ge_iff] at hge
      omega
  · split_ifs with hge
    · rw [ge_iff] at hge
      omega
    · rw [ge_iff] at hge
      omega

/-- The position lies in a window of 256 items and its item between `lo` and `hi`. -/
def Clipped (base lo hi : Int) (p : Nat) : Prop :=
  lo ≤ base + p ∧ base + p < hi ∧ p < 256

instance (base lo hi : Int) (p : Nat) : Decidable (Clipped base lo hi p) :=
  inferInstanceAs (Decidable (_ ∧ _))

/-- Behind the last such position, 0 if there is none. -/
def clippedEnd (base lo hi : Int) : Nat :=
  if Max.max base lo < Min.min (base + 256) hi then (Min.min (base + 256) hi - base).toNat else 0

/-- `addRange` sets the positions of the window between `from_` and `to_`, wherever `range_max_`
is. -/
theorem addRange_set {lim : T} (hlim : RangeItem.add s.base_ 256 = some lim)
    (hval : val lim = val s.base_ + 256) (from_ to_ : T) :
    ∃ t, s.addRange from_ to_ = some t ∧ t.base_ = s.base_ ∧ t.range_max_ = s.range_max_ ∧
      t.num_bits_ = Nat.max s.num_bits_ (clippedEnd (val s.base_) (val from_) (val to_)) ∧
      (EndsAt s.bitmap_ s.num_bits_ → EndsAt t.bitmap_ t.num_bits_) ∧
      ∀ p : Nat, bit t.bitmap_ p =
        (bit s.bitmap_ p || decide (Clipped (val s.base_) (val from_) (val to_) p)) := by
  obtain ⟨hmin, hmax⟩ := clip s.base_ from_ to_ lim hval
  unfold addRange clippedEnd
  rw [hlim]
  simp only [Option.bind_eq_bind, Option.bind_some, shiftRight_five, and_thirtyOne]
  generalize (if RangeItem.ge s.base_ from_ then s.base_ else from_) = min at hmin ⊢
  generalize (if RangeItem.ge to_ lim then lim else to_) = max at hmax ⊢
  rw [← hmin, ← hmax]
  by_cases hnone : val max ≤ val min
  · -- The clipped interval is empty.
    rw [if_pos ((ge_iff min max).2 hnone), if_neg (Int.not_lt.2 hnone)]
    refine ⟨s, rfl, rfl, rfl, (Nat.max_zero _).symm, id, ?_⟩
    intro p
    have hout : ¬ Clipped (val s.base_) (val from_) (val to_) p := by
      unfold Clipped
      omega
    rw [decide_eq_false hout, Bool.or_false]
  · rw [if_neg (by rwa [ge_iff]), if_pos (Int.not_le.1 hnone)]
    obtain ⟨lo, hlo⟩ : ∃ lo : Nat, val min = val s.base_ + lo :=
      Int.exists_add_of_le (by omega)
    obtain ⟨n, hn⟩ : ∃ n : Nat, val max = val min + n := Int.exists_add_of_le (by omega)
    have hle : lo + n ≤ 256 := by omega
    have hend : (val max - val s.base_).toNat = lo + n := by omega
    obtain ⟨st, hst, hinv, hlt⟩ := (RangeInv.start (b := s.bitmap_) hle).addWords
    obtain ⟨c, hc, hbits⟩ := hinv.addPart hlt
    rw [diff_eq hlo (by omega), diff_eq hn (by omega), hend]
    simp only [Option.bind_some, hst, hc, u32_of_lt (show lo + n < 2 ^ 32 by omega)]
    refine ⟨_, rfl, rfl, rfl, rfl, fun h => h.union (by omega) hbits, ?_⟩
    intro p
    rw [hbits]
    congr 1
    rw [decide_eq_decide]
    unfold Clipped
    omega

/-- The bits of `addRange` in a well-formed window. -/
theorem addRange_bits (h : Wf s) (from_ to_ : T) :
    ∃ t, s.addRange from_ to_ = some t ∧ t.base_ = s.base_ ∧ t.range_max_ = s.range_max_ ∧
      EndsAt t.bitmap_ t.num_bits_ ∧
      ∀ p : Nat, bit t.bitmap_ p =
        (bit s.bitmap_ p || decide (Clipped (val s.base_) (val from_) (val to_) p)) := by
  obtain ⟨lim, hlim, hval⟩ := h.add_base (Nat.le_refl 256)
  obtain ⟨t, ht, hbase, hmax, -, hends, hbits⟩ := addRange_set hlim hval from_ to_
  exact ⟨t, ht, hbase, hmax, hends h.ends, hbits⟩

/-- The window stays well formed when nothing is set above `range_max_`. -/
theorem addRange_wf (h : Wf s) {from_ to_ : T}
    (hinside : ∀ x : Int, val s.base_ ≤ x → val from_ ≤ x → x < val to_ → x < val s.base_ + 256 →
      x ≤ val s.range_max_) : ∃ t, s.addRange from_ to_ = some t ∧ Wf t := by
  obtain ⟨t, ht, hbase, hmax, hends, hbits⟩ := addRange_bits h from_ to_
  refine ⟨t, ht, h.of_bits hbase hmax hends ?_⟩
  intro p hp
  rw [hbits, Bool.or_eq_true, decide_eq_true_eq] at hp
  rcases hp with hp | ⟨hfrom, hto, hp256⟩
  · exact h.bit_le_range_max hp
  · exact hinside _ (by omega) hfrom hto (by omega)

/-! ## `remove` -/

section Remove

variable [DecidableEq T]

theorem remove_outside {item m : T} (hm : s.max = some m)
    (hout : ¬ (val s.base_ ≤ val item ∧ val item ≤ val m)) : s.remove item = some s := by
  simp only [remove, hm, Option.bind_eq_bind, Option.bind_some]
  rw [if_neg]
  rwa [Bool.and_eq_true, ge_iff, ge_iff]

/-- Removing an item of the window clears its bit.  The item is `max()` exactly when it is the last
member, unless the set is empty. -/
theorem remove_inside {item m : T} {p : Nat} (hends : EndsAt s.bitmap_ s.num_bits_)
    (hm : s.max = some m) (hp : val item = val s.base_ + p) (hp256 : p < 256)
    (hle : val item ≤ val m) (hlast : s.num_bits_ ≠ 0 → (item = m ↔ p + 1 = s.num_bits_)) :
    ∃ t, s.remove item = some t ∧ t.base_ = s.base_ ∧ t.range_max_ = s.range_max_ ∧
      EndsAt t.bitmap_ t.num_bits_ ∧
      ∀ q, bit t.bitmap_ q = (bit s.bitmap_ q && decide (q ≠ p)) := by
  have hword : p / 32 < 8 := by omega
  obtain ⟨b, hb⟩ : ∃ b, b = s.bitmap_.set (p / 32)
    (word s.bitmap_ (p / 32) &&& ~~~(1#32 <<< (31 - p % 32))) hword := ⟨_, rfl⟩
  have hbits : ∀ q, bit b q = (bit s.bitmap_ q && decide (q ≠ p)) := by
    intro q
    have hd : q % 32 < 32 := Nat.mod_lt _ (by decide)
    rw [hb, bit_set_and hword, BitVec.getMsbD_not,
      getMsbD_one_shiftLeft (Nat.mod_lt p (by decide)), decide_eq_true hd, Bool.true_and,
      ← decide_not, ← Bool.decide_or]
    congr 1
    rw [decide_eq_decide]
    omega
  have hopen : s.remove item =
      if item = m then calcMaximumBitSet { s with bitmap_ := b } (p / 32 + 1) 0
      else some { s with bitmap_ := b } := by
    simp only [remove, hm, Option.bind_eq_bind, Option.bind_some]
    rw [if_pos (by rw [Bool.and_eq_true, ge_iff, ge_iff]; omega), diff_eq hp (by omega)]
    simp only [Option.bind_some, shiftRight_five, and_thirtyOne, getElem?_eq_word hword,
      write_eq_some hword, hb]
  rw [hopen]
  -- The last member: the search finds the new end.  Any other one leaves the end where it is.
  split_ifs with hmax
  · obtain ⟨t, ht, hbase, hrange, hbitmap, hends'⟩ :=
      calcMaximumBitSet_spec (s := { s with bitmap_ := b }) (l := 0) (k := p / 32 + 1) (by omega)
        (fun q _ => by omega) (by
        intro q hq
        simp only at hq
        rw [hbits, Bool.and_eq_true] at hq
        have hlt := hends.bits_lt q hq.1
        have := (hlast (by omega)).1 hmax
        omega)
    refine ⟨t, ht, hbase, hrange, hends', ?_⟩
    rw [hbitmap]
    exact hbits
  · refine ⟨_, rfl, rfl, rfl, ?_, hbits⟩
    refine hends.clear (k := p) ?_ hbits
    intro heq
    exact hmax ((hlast (by omega)).2 heq)

/-- `remove` keeps the window well formed unless the set is empty and the item is below the
wrapped `max()` but above the window. -/
theorem remove_wf (h : Wf s) {item : T}
    (hempty : s.num_bits_ = 0 → ∃ m, s.max = some m ∧
      (val s.base_ ≤ val item → val item ≤ val m → val item < val s.base_ + 256)) :
    ∃ t, s.remove item = some t ∧ Wf t := by
  have hmax := h.range_max_le
  have hnum := h.num_bits_le
  have h256 := h.num_bits_le_256
  -- What is known about `max()`, for an empty set by hypothesis.
  obtain ⟨m, hm, hnear, hlast⟩ : ∃ m, s.max = some m ∧
      (val s.base_ ≤ val item → val item ≤ val m → val item < val s.base_ + 256) ∧
      (s.num_bits_ ≠ 0 → val m = val s.base_ + (s.num_bits_ - 1 : Nat)) := by
    by_cases hzero : s.num_bits_ = 0
    · obtain ⟨m, hm, hnear⟩ := hempty hzero
      exact ⟨m, hm, hnear, fun hne => absurd hzero hne⟩
    · obtain ⟨m, hm, hval⟩ := h.max_eq (by omega)
      exact ⟨m, hm, fun _ _ => by omega, fun _ => hval⟩
  by_cases hin : val s.base_ ≤ val item ∧ val item ≤ val m
  · obtain ⟨p, hp⟩ : ∃ p : Nat, val item = val s.base_ + p :=
      Int.exists_add_of_le (by omega)
    have hlt := hnear hin.1 hin.2
    obtain ⟨t, ht, hbase, hrange, hends, hbits⟩ := remove_inside h.ends hm hp (by omega) hin.2 (by
      intro hne
      have hval := hlast hne
      constructor
      · rintro rfl
        omega
      · intro heq
        exact val_injective (by omega))
    refine ⟨t, ht, h.of_bits hbase hrange hends ?_⟩
    intro q hq
    rw [hbits, Bool.and_eq_true] at hq
    exact h.bit_le_range_max hq.1
  · exact ⟨s, remove_outside hm hin, h⟩

end Remove

/-! ## `setBitmap` -/

/-- The number of bits `setBitmap` loads: it cuts the last word by `num_bits & 31`, also where
`num_bits` is larger than the bitmap. -/
def loadedBits (num_bits : Nat) : Nat :=
  if num_bits % 32 = 0 then 32 * ((Nat.min num_bits 256 + 31) / 32)
  else 32 * ((Nat.min num_bits 256 + 31) / 32 - 1) + num_bits % 32

/-- The words that `setBitmap` uses: one at least, unless there is no bit. -/
theorem numItems_bounds (num_bits : Nat) : (Nat.min num_bits 256 + 31) / 32 ≤ 8 ∧
    (0 < num_bits → 0 < (Nat.min num_bits 256 + 31) / 32) := by
  rcases Nat.le_total num_bits 256 with hle | hle
  · rw [show Nat.min num_bits 256 = num_bits from Nat.min_eq_left hle]
    omega
  · rw [show Nat.min num_bits 256 = 256 from Nat.min_eq_right hle]
    omega

theorem bit_loadWords {k : Nat} (hk : k ≤ 8) (bitmap : Nat → BitVec 32) (p : Nat) :
    bit (loadWords k bitmap) p =
      (decide (p / 32 < k) && (bitmap (p / 32)).getMsbD (p % 32)) := by
  rw [loadWords, bit, word_ofFn]
  by_cases hp : p / 32 < k
  · simp [hp, show p / 32 < 8 by omega]
  · simp [hp]

theorem trimLastWord_spec {num_bits k : Nat} (hk : k ≤ 8) (hpos : 0 < num_bits → 0 < k)
    (b : Vector (BitVec 32) 8) (hb : ∀ p, bit b p = true → p / 32 < k) :
    ∃ c, trimLastWord num_bits k b = some c ∧ ∀ p, bit c p = (bit b p &&
      decide (p < if num_bits % 32 = 0 then 32 * k else 32 * (k - 1) + num_bits % 32)) := by
  unfold trimLastWord
  simp only [and_thirtyOne]
  split_ifs with hshift hmod
  · exact absurd hmod hshift.2
  · have hk0 := hpos hshift.1
    have hword : k - 1 < 8 := by omega
    rw [getElem?_eq_word hword]
    simp only [Option.bind_eq_bind, Option.bind_some, write_eq_some hword]
    refine ⟨_, rfl, ?_⟩
    intro p
    rw [bit_set_and hword]
    -- Only set bits matter, and these lie in the first `k` words.
    cases hp : bit b p with
    | false =>
        rfl
    | true =>
        have hlt := hb p hp
        rw [BitVec.getMsbD_not, BitVec.getMsbD_ushiftRight, BitVec.getMsbD_allOnes,
          decide_eq_true (show p % 32 < 32 by omega),
          decide_eq_true (show p % 32 - num_bits % 32 < 32 by omega)]
        simp only [Bool.true_and, Bool.and_true, Bool.not_not, ← Bool.decide_or]
        rw [decide_eq_decide]
        omega
  all_goals
    refine ⟨b, rfl, ?_⟩
    intro p
    cases hp : bit b p with
    | false =>
        rfl
    | true =>
        have hlt := hb p hp
        rw [Bool.true_and, eq_comm, decide_eq_true_eq]
        omega

omit [RangeItem T] [LawfulRangeItem T] in
theorem setBitmap_bits (s : BitmapRange T) (num_bits : Nat) (bitmap : Nat → BitVec 32) :
    ∃ t, s.setBitmap num_bits bitmap = some t ∧ t.base_ = s.base_ ∧
      t.range_max_ = s.range_max_ ∧ EndsAt t.bitmap_ t.num_bits_ ∧
      ∀ p, bit t.bitmap_ p =
        (decide (p < loadedBits num_bits) && (bitmap (p / 32)).getMsbD (p % 32)) := by
  obtain ⟨hk, hpos⟩ := numItems_bounds num_bits
  unfold setBitmap loadedBits
  generalize (Nat.min num_bits 256 + 31) / 32 = k at hk hpos ⊢
  have hload := bit_loadWords hk bitmap
  have hwords : ∀ p, bit (loadWords k bitmap) p = true → p / 32 < k := by
    intro p hp
    rw [hload, Bool.and_eq_true, decide_eq_true_eq] at hp
    exact hp.1
  obtain ⟨c, hc, hbits⟩ := trimLastWord_spec hk hpos _ hwords
  obtain ⟨t, ht, hbase, hrange, hbitmap, hends⟩ := calcMaximumBitSet_spec
    (s := { s with num_bits_ := Nat.min num_bits 256, bitmap_ := c }) (l := 0) hk
    (fun p _ => by omega) (by
      intro p hp
      simp only [hbits, Bool.and_eq_true] at hp
      have := hwords p hp.1
      omega)
  refine ⟨t, by simp [hc, ht], hbase, hrange, hends, ?_⟩
  intro p
  rw [hbitmap, hbits, hload, Bool.and_right_comm, ← Bool.decide_and]
  congr 1
  rw [decide_eq_decide]
  split_ifs with hmod
  · omega
  · have := hpos (by omega)
    omega

/-- The window stays well formed when no loaded bit lies above `range_max_`. -/
theorem setBitmap_wf (h : Wf s) {num_bits : Nat} {bitmap : Nat → BitVec 32}
    (hinside : ∀ p : Nat, p < loadedBits num_bits → (bitmap (p / 32)).getMsbD (p % 32) = true →
      val s.base_ + p ≤ val s.range_max_) : ∃ t, s.setBitmap num_bits bitmap = some t ∧ Wf t := by
  obtain ⟨t, ht, hbase, hmax, hends, hbits⟩ := setBitmap_bits s num_bits bitmap
  refine ⟨t, ht, h.of_bits hbase hmax hends ?_⟩
  intro p hp
  rw [hbits, Bool.and_eq_true, decide_eq_true_eq] at hp
  exact hinside p hp.1 hp.2

end BitmapRange

end DataStructure
end Mozi
