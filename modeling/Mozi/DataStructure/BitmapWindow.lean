import Mozi.DataStructure.BitmapWords

/-!
# BitmapWindow — well-formed windows and their readers

* `LawfulRangeItem`: the items are integers up to a largest one, and `Diff` is their difference
  modulo `2 ^ 32`.
* `BitmapRange.WellFormed`: the bitmap ends at `num_bits_`, inside the window
  `base_ .. range_max_`; `BitmapRange.Wf` also keeps the window below the largest item.
* `ReadersAgree`: what `for_each`, `isSet`, `empty`, `min` and `max` say about one another.
  `Wf.readersAgree` is the main result.
-/

namespace Mozi
namespace DataStructure

open Foundation BitArray

/-- The items as integers.  `add` is only described where the sum is an item. -/
class LawfulRangeItem (T : Type) [RangeItem T] where
  val : T → Int
  limit : Int
  val_injective : Function.Injective val
  val_le_limit : ∀ a, val a ≤ limit
  ge_iff : ∀ a b : T, RangeItem.ge a b = true ↔ val b ≤ val a
  gt_iff : ∀ a b : T, RangeItem.gt a b = true ↔ val b < val a
  add_val : ∀ (a : T) (n : Nat), n < 2 ^ 32 → val a + n ≤ limit →
    ∃ c, RangeItem.add a n = some c ∧ val c = val a + n
  diff_val : ∀ a b : T, val b ≤ val a →
    RangeItem.diff a b = some ((val a - val b) % 2 ^ 32).toNat

namespace BitmapRange

open LawfulRangeItem

variable {T : Type} [RangeItem T] [LawfulRangeItem T]

/-- What `Diff` returns: the distance of two items in 32 bits. -/
def distance32 (a b : T) : Nat :=
  ((val a - val b) % 2 ^ 32).toNat

theorem diff_eq_distance32 {a b : T} (h : val b ≤ val a) :
    RangeItem.diff a b = some (distance32 a b) :=
  diff_val a b h

/-- The difference of two items at most `2 ^ 32 - 1` apart. -/
theorem diff_eq {a b : T} {p : Nat} (h : val a = val b + p) (hp : p < 2 ^ 32) :
    RangeItem.diff a b = some p := by
  rw [diff_val a b (by omega)]
  congr 1
  omega

/-! ## Well-formed windows -/

/-- The bitmap ends at `num_bits_` and lies in the window. -/
structure WellFormed (s : BitmapRange T) : Prop where
  range_max_le : val s.range_max_ ≤ val s.base_ + 255
  num_bits_le : val s.base_ + s.num_bits_ ≤ val s.range_max_ + 1
  ends : EndsAt s.bitmap_ s.num_bits_

/-- A well-formed window whose items, and the one after them, stay below the largest item. -/
structure Wf (s : BitmapRange T) : Prop extends WellFormed s where
  window : val s.base_ + 256 ≤ limit T

/-- In a window of full width every bitmap has room. -/
theorem wellFormed_of_full {s : BitmapRange T} (hmax : val s.range_max_ = val s.base_ + 255)
    (hends : EndsAt s.bitmap_ s.num_bits_) : WellFormed s := by
  have h256 : s.num_bits_ ≤ 256 := hends.le
  exact ⟨by omega, by omega, hends⟩

/-- `x` is a member: its bit is set. -/
def Member (s : BitmapRange T) (x : T) : Prop :=
  ∃ p, bit s.bitmap_ p = true ∧ val x = val s.base_ + p

namespace WellFormed

variable {s : BitmapRange T}

theorem num_bits_le_256 (h : WellFormed s) : s.num_bits_ ≤ 256 :=
  h.ends.le

/-- Inside the window `isSet` reads the bit of the item. -/
theorem isSet_inside (h : WellFormed s) {x : T} {p : Nat} (hp : val x = val s.base_ + p)
    (hle : val x ≤ val s.range_max_) : s.isSet x = some (bit s.bitmap_ p) := by
  have hmax := h.range_max_le
  have hnum := h.num_bits_le
  have h256 := h.num_bits_le_256
  unfold isSet
  rw [if_pos (by rw [Bool.and_eq_true, ge_iff, ge_iff]; omega), diff_eq hp (by omega)]
  simp only [Option.bind_eq_bind, Option.bind_some]
  split_ifs with hlt
  · rw [shiftRight_five, and_thirtyOne, getElem?_eq_word (by omega), Option.bind_some,
      Option.some.injEq, Bool.eq_iff_iff, bne_iff_ne]
    exact and_one_shiftLeft_ne_zero (Nat.mod_lt p (by decide))
  · rw [h.ends.bit_eq_false (p := p) (by omega)]

theorem isSet_outside {x : T} (hout : ¬ (val s.base_ ≤ val x ∧ val x ≤ val s.range_max_)) :
    s.isSet x = some false := by
  unfold isSet
  rw [if_neg (by rwa [Bool.and_eq_true, ge_iff, ge_iff])]

/-- Every bit of the bitmap is readable through the mask of `isSet`. -/
theorem isSet_eq (h : WellFormed s) (x : T) : s.isSet x = some true ↔ Member s x := by
  have hmax := h.range_max_le
  have hnum := h.num_bits_le
  by_cases hin : val s.base_ ≤ val x ∧ val x ≤ val s.range_max_
  · obtain ⟨p, hp⟩ : ∃ p : Nat, val x = val s.base_ + p := Int.exists_add_of_le hin.1
    rw [h.isSet_inside hp hin.2, Option.some.injEq]
    -- Inside the window the item has one position.
    constructor
    · intro hset
      exact ⟨p, hset, hp⟩
    · rintro ⟨q, hq, hx⟩
      obtain rfl : q = p := by omega
      exact hq
  · -- Outside the window there is no set bit: `num_bits_` ends it.
    rw [isSet_outside hin]
    constructor
    · intro hfalse
      cases hfalse
    · rintro ⟨p, hp, hx⟩
      have := h.ends.bits_lt p hp
      exact absurd ⟨by omega, by omega⟩ hin

/-- `isSet` never fails. -/
theorem isSet_returns (h : WellFormed s) (x : T) : ∃ r, s.isSet x = some r := by
  by_cases hin : val s.base_ ≤ val x ∧ val x ≤ val s.range_max_
  · obtain ⟨p, hp⟩ : ∃ p : Nat, val x = val s.base_ + p := Int.exists_add_of_le hin.1
    exact ⟨_, h.isSet_inside hp hin.2⟩
  · exact ⟨_, isSet_outside hin⟩

end WellFormed

namespace Wf

variable {s : BitmapRange T}

theorem num_longs_le (h : Wf s) : (s.num_bits_ + 31) / 32 ≤ 8 := by
  have := h.num_bits_le_256
  omega

/-- No set bit lies above the window. -/
theorem bit_le_range_max (h : Wf s) {p : Nat} (hp : bit s.bitmap_ p = true) :
    val s.base_ + p ≤ val s.range_max_ := by
  have hnum := h.num_bits_le
  have hlt := h.ends.bits_lt p hp
  omega

/-- A change of bits inside the window. -/
theorem of_bits (h : Wf s) {t : BitmapRange T} (hbase : t.base_ = s.base_)
    (hmax : t.range_max_ = s.range_max_) (hends : EndsAt t.bitmap_ t.num_bits_)
    (hbits : ∀ p : Nat, bit t.bitmap_ p = true → val s.base_ + p ≤ val s.range_max_) : Wf t := by
  refine ⟨⟨?_, ?_, hends⟩, ?_⟩
  · rw [hbase, hmax]
    exact h.range_max_le
  · have hnum := h.num_bits_le
    rw [hbase, hmax]
    rcases Nat.eq_zero_or_pos t.num_bits_ with hzero | hpos
    · omega
    · have := hbits _ (hends.top hpos)
      omega
  · rw [hbase]
    exact h.window

/-- The item of a position of the window. -/
theorem add_base (h : Wf s) {p : Nat} (hp : p ≤ 256) :
    ∃ x, RangeItem.add s.base_ p = some x ∧ val x = val s.base_ + p := by
  have := h.window
  exact add_val s.base_ p (by omega) (by omega)

/-- Only the words that `num_bits_` reaches have set bits. -/
theorem bit_lt_num_longs (h : Wf s) {p : Nat} (hp : bit s.bitmap_ p = true) :
    p < 32 * ((s.num_bits_ + 31) / 32) := by
  have := h.ends.bits_lt p hp
  omega

/-! ## `max` and `min` -/

theorem max_eq (h : Wf s) (hpos : 0 < s.num_bits_) :
    ∃ x, s.max = some x ∧ val x = val s.base_ + (s.num_bits_ - 1 : Nat) := by
  have h256 := h.num_bits_le_256
  unfold BitmapRange.max
  rw [sub32_of_le hpos (by omega)]
  exact h.add_base (by omega)

/-- The loop of `min` from a word on, when all words before it are zero. -/
theorem minLoop_spec (h : Wf s) {p : Nat} (hp : bit s.bitmap_ p = true)
    (hfirst : ∀ q, q < p → bit s.bitmap_ q = false) {k i : Nat} {item : T}
    (hi : i ≤ p / 32) (hk : p / 32 < i + k) (hik : i + k ≤ 8)
    (hitem : val item = val s.base_ + (32 * i : Nat)) :
    ∃ x, s.minLoop k i item = some x ∧ val x = val s.base_ + p := by
  have hwindow := h.window
  induction k generalizing i item with
  | zero =>
      omega
  | succ k ih =>
      unfold minLoop
      rw [getElem?_eq_word (by omega)]
      simp only [Option.bind_eq_bind, Option.bind_some]
      -- The first word with a bit is the word of `p`; before it the item moves on by 32.
      split_ifs with hzero
      · have hword : p / 32 = i := by
          obtain ⟨q, hq, hset⟩ := word_ne_zero.1 hzero
          by_contra hne
          rw [hfirst q (by omega)] at hset
          cases hset
        have hclz : (word s.bitmap_ i).clz.toNat = p % 32 := by
          refine clz_eq (by rw [← hword]; exact hp) ?_
          intro d hd
          rw [← bit_mul_add (by omega)]
          exact hfirst _ (by omega)
        rw [hclz]
        obtain ⟨x, hx, hval⟩ := add_val item (p % 32) (by omega) (by omega)
        exact ⟨x, hx, by omega⟩
      · have hne : p / 32 ≠ i := by
          rintro rfl
          exact hzero (word_ne_zero.2 ⟨p, rfl, hp⟩)
        obtain ⟨item', hadd, hval⟩ := add_val item 32 (by omega) (by omega)
        rw [hadd]
        exact ih (by omega) (by omega) (by omega) (by omega)

theorem min_eq (h : Wf s) {p : Nat} (hp : bit s.bitmap_ p = true)
    (hfirst : ∀ q, q < p → bit s.bitmap_ q = false) :
    ∃ x, s.min = some x ∧ val x = val s.base_ + p := by
  have := h.bit_lt_num_longs hp
  have := h.num_longs_le
  exact h.minLoop_spec hp hfirst (Nat.zero_le _) (by omega) (by omega) (by simp)

end Wf

/-! ## `for_each` -/

/-- One round visits the first set bit and clears it. -/
theorem visitBit_eq {item : T} (hitem : val item + 31 ≤ limit T) {bits : BitVec 32}
    (hbits : bits ≠ 0#32) (visited : List T) :
    ∃ x, val x = val item + bits.clz.toNat ∧ visitBit item (bits, visited) =
      some (bits &&& ~~~(1#32 <<< (32 - 1 - bits.clz.toNat)), visited ++ [x]) := by
  have hclz := clz_lt hbits
  -- In five bits, `31 ^ x` is `31 - x`.
  have hxor : 31 ^^^ bits.clz.toNat = 32 - 1 - bits.clz.toNat := by
    generalize bits.clz.toNat = d at hclz
    revert d
    decide
  obtain ⟨x, hx, hval⟩ := add_val item bits.clz.toNat (by omega) (by omega)
  exact ⟨x, hval, by simp [visitBit, hx, hxor]⟩

/-- The loop over the bits of one word visits the set bits in order: the induction is on the
rounds, which bound the number of set bits. -/
theorem visitLoop_spec {item : T} (hitem : val item + 31 ≤ limit T) (fuel : Nat)
    (bits : BitVec 32) (visited : List T)
    (hfuel : ((List.range 32).filter bits.getMsbD).length < fuel) :
    ∃ l, whileM (fun st => st.1 != 0#32) (visitBit item) fuel (bits, visited) =
        some (0#32, visited ++ l) ∧
      l.map val = ((List.range 32).filter bits.getMsbD).map
        (fun p : Nat => val item + (p : Int)) := by
  induction fuel generalizing bits visited with
  | zero =>
      omega
  | succ fuel ih =>
      by_cases hzero : bits = 0#32
      · subst hzero
        exact ⟨[], by rw [whileM_stop (by simp)]; simp, by simp⟩
      · obtain ⟨x, hval, hstep⟩ := visitBit_eq hitem hzero visited
        -- The first set bit is the head of the list, and the cleared word gives the tail.
        rw [filter_getMsbD_eq_cons hzero] at hfuel ⊢
        obtain ⟨l, hl, hmap⟩ := ih _ (visited ++ [x]) (Nat.lt_of_succ_lt_succ hfuel)
        refine ⟨x :: l, ?_, ?_⟩
        · rw [whileM_step (by simpa using hzero) hstep, hl, List.append_assoc,
            List.singleton_append]
        · rw [List.map_cons, List.map_cons, hmap, hval]

theorem visitBits_spec (item : T) (hitem : val item + 31 ≤ limit T) (bits : BitVec 32)
    (visited : List T) :
    ∃ l, visitBits item bits visited = some (visited ++ l) ∧
      l.map val = ((List.range 32).filter bits.getMsbD).map
        (fun p : Nat => val item + (p : Int)) := by
  have hlen := List.length_filter_le bits.getMsbD (List.range 32)
  rw [List.length_range] at hlen
  obtain ⟨l, hl, hmap⟩ := visitLoop_spec hitem 33 bits visited (by omega)
  exact ⟨l, by simp [visitBits, hl], hmap⟩

namespace Wf

variable {s : BitmapRange T}

theorem forEachLoop_spec (h : Wf s) (k i : Nat) (item : T) (visited : List T) (hik : i + k ≤ 8)
    (hitem : val item = val s.base_ + (32 * i : Nat))
    (hvisited : visited.map val =
      (setPositions s.bitmap_ i).map (fun p : Nat => val s.base_ + (p : Int))) :
    ∃ l, forEachLoop s.bitmap_ k i item visited = some l ∧
      l.map val =
        (setPositions s.bitmap_ (i + k)).map (fun p : Nat => val s.base_ + (p : Int)) := by
  have hwindow := h.window
  induction k generalizing i item visited with
  | zero =>
      exact ⟨visited, rfl, hvisited⟩
  | succ k ih =>
      obtain ⟨l, hl, hmap⟩ := visitBits_spec item (by omega) (word s.bitmap_ i) visited
      obtain ⟨item', hadd, hval⟩ := add_val item 32 (by omega) (by omega)
      -- The items of word `i` follow those of the words before it.
      have hnext : (visited ++ l).map val =
          (setPositions s.bitmap_ (i + 1)).map (fun p : Nat => val s.base_ + (p : Int)) := by
        rw [List.map_append, hvisited, hmap, setPositions_succ, List.map_append, List.map_map]
        congr 1
        refine List.map_congr_left ?_
        intro p _
        rw [hitem, Function.comp_apply]
        push_cast
        omega
      obtain ⟨r, hr, hend⟩ := ih (i + 1) item' (visited ++ l) (by omega) (by omega) hnext
      refine ⟨r, ?_, ?_⟩
      · simp only [forEachLoop, getElem?_eq_word (show i < 8 by omega), hl, hadd, hr,
          Option.bind_eq_bind, Option.bind_some]
      · rw [hend]
        congr 2
        omega

/-- `for_each` visits the items of the set positions, in order. -/
theorem forEach_eq (h : Wf s) :
    ∃ l, s.forEach = some l ∧ l.map val =
      (setPositions s.bitmap_ ((s.num_bits_ + 31) / 32)).map
        (fun p : Nat => val s.base_ + (p : Int)) := by
  have := h.num_longs_le
  obtain ⟨l, hl, hmap⟩ := h.forEachLoop_spec ((s.num_bits_ + 31) / 32) 0 s.base_ []
    (by omega) (by simp) (by simp [setPositions])
  rw [Nat.zero_add] at hmap
  exact ⟨l, hl, hmap⟩

end Wf

/-! ## The readers agree -/

/-- `for_each` returns; it visits the items that `isSet` accepts, in increasing order; `empty()`
says that it visits nothing; otherwise `min()` and `max()` are its least and greatest item. -/
def ReadersAgree (s : BitmapRange T) : Prop :=
  ∃ visited, s.forEach = some visited ∧
    visited.Pairwise (fun x y => val x < val y) ∧
    (∀ x, ∃ r, s.isSet x = some r ∧ (r = true ↔ x ∈ visited)) ∧
    (s.empty = true ↔ visited = []) ∧
    (visited ≠ [] → ∃ least greatest, s.min = some least ∧ s.max = some greatest ∧
      least ∈ visited ∧ greatest ∈ visited ∧
      ∀ x, x ∈ visited → val least ≤ val x ∧ val x ≤ val greatest)

namespace Wf

variable {s : BitmapRange T}

/-- The items visited are the members. -/
theorem mem_forEach (h : Wf s) {visited : List T} (hv : visited.map val =
    (setPositions s.bitmap_ ((s.num_bits_ + 31) / 32)).map (fun p : Nat => val s.base_ + (p : Int)))
    (x : T) : x ∈ visited ↔ Member s x := by
  have hval : x ∈ visited ↔ val x ∈ visited.map val :=
    (List.mem_map_of_injective val_injective).symm
  rw [hval, hv, List.mem_map]
  constructor
  · rintro ⟨p, hp, hx⟩
    exact ⟨p, (mem_setPositions.1 hp).2, hx.symm⟩
  · rintro ⟨p, hp, hx⟩
    exact ⟨p, mem_setPositions.2 ⟨h.bit_lt_num_longs hp, hp⟩, hx.symm⟩

theorem empty_iff (h : Wf s) : s.empty = true ↔ ∀ p, bit s.bitmap_ p = false := by
  rw [BitmapRange.empty, beq_iff_eq]
  constructor
  · intro hzero p
    exact h.ends.bit_eq_false (by omega)
  · intro hnone
    by_contra hne
    have htop := h.ends.top (by omega)
    rw [hnone] at htop
    cases htop

/-- In a well-formed window all readers agree. -/
theorem readersAgree (h : Wf s) : ReadersAgree s := by
  obtain ⟨visited, hforEach, hv⟩ := h.forEach_eq
  have hmem := h.mem_forEach hv
  refine ⟨visited, hforEach, ?_, ?_, ?_, ?_⟩
  · -- Increasing: the positions are.
    rw [← List.pairwise_map (f := val) (R := (· < ·)), hv, List.pairwise_map]
    refine setPositions_sorted.imp ?_
    intro p q hpq
    omega
  · intro x
    obtain ⟨r, hr⟩ := h.isSet_returns x
    refine ⟨r, hr, ?_⟩
    rw [hmem, ← h.isSet_eq, hr, Option.some.injEq]
  · rw [h.empty_iff, List.eq_nil_iff_forall_not_mem]
    constructor
    · intro hnone x hx
      obtain ⟨p, hp, _⟩ := (hmem x).1 hx
      rw [hnone] at hp
      cases hp
    · intro hnone p
      by_contra hset
      have hset' : bit s.bitmap_ p = true := by simpa using hset
      obtain ⟨x, _, hx⟩ := h.add_base (Nat.le_of_lt (bit_lt hset'))
      exact hnone x ((hmem x).2 ⟨p, hset', hx⟩)
  · -- The least item is that of the first set position, and `num_bits_` is one past the last.
    intro hne
    obtain ⟨x, hx⟩ := List.exists_mem_of_ne_nil visited hne
    obtain ⟨p, hp, _⟩ := (hmem x).1 hx
    have hex : ∃ q, bit s.bitmap_ q = true := ⟨p, hp⟩
    obtain ⟨least, hleast, hleastVal⟩ := h.min_eq (Nat.find_spec hex)
      (fun q hq => by simpa using Nat.find_min hex hq)
    have hpos : 0 < s.num_bits_ := by
      have := h.ends.bits_lt p hp
      omega
    obtain ⟨greatest, hgreatest, hgreatestVal⟩ := h.max_eq hpos
    refine ⟨least, greatest, hleast, hgreatest, ?_, ?_, ?_⟩
    · exact (hmem least).2 ⟨_, Nat.find_spec hex, hleastVal⟩
    · exact (hmem greatest).2 ⟨_, h.ends.top hpos, hgreatestVal⟩
    · intro y hy
      obtain ⟨q, hq, hyVal⟩ := (hmem y).1 hy
      have hfirst : Nat.find hex ≤ q := Nat.find_min' hex hq
      have hlast := h.ends.bits_lt q hq
      omega

end Wf

end BitmapRange

end DataStructure
end Mozi
