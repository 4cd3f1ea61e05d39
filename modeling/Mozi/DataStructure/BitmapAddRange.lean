import Mozi.DataStructure.BitmapMutators

/-!
# BitmapAddRange — `addRange` is `add` of each item

`addRange` sets whole words through a mask.  In a window of full width it leaves the state that
`add` leaves when it is called with the items of the range one after another.
-/

namespace Mozi
namespace DataStructure

open Foundation BitArray

namespace BitmapRange

open LawfulRangeItem

variable {T : Type} [RangeItem T]

/-- `add` of each item of a list. -/
def addEach : BitmapRange T → List T → Option (BitmapRange T)
  | s, [] => some s
  | s, item :: items => (s.add item).bind fun r => addEach r.2 items

variable [LawfulRangeItem T]

/-- The items from `from_` up to `to_`, without the last one, in order. -/
def Lists (items : List T) (from_ to_ : T) : Prop :=
  items.map val = (List.range (val to_ - val from_).toNat).map fun i : Nat => val from_ + (i : Int)

/-- A window of 256 items, and one more item above it. -/
structure FullWidth (s : BitmapRange T) : Prop where
  range_max_eq : val s.range_max_ = val s.base_ + 255
  window : val s.base_ + 256 ≤ limit T

variable {s t : BitmapRange T}

/-! ## The items of a range -/

/-- There are `n` items from one on, as long as they are below the largest. -/
theorem exists_items (n : Nat) (x : T) (hfits : val x + n ≤ limit T) :
    ∃ items : List T, items.map val = (List.range n).map fun i : Nat => val x + (i : Int) := by
  induction n generalizing x with
  | zero =>
      exact ⟨[], rfl⟩
  | succ n ih =>
      obtain ⟨y, -, hy⟩ := add_val x 1 (by decide) (by omega)
      obtain ⟨items, hitems⟩ := ih y (by omega)
      refine ⟨x :: items, ?_⟩
      rw [List.map_cons, hitems, List.range_succ_eq_map, List.map_cons, List.map_map]
      congr 1
      · omega
      · refine List.map_congr_left ?_
        intro i _
        rw [hy, Function.comp_apply]
        push_cast
        omega

theorem exists_lists (from_ to_ : T) : ∃ items : List T, Lists items from_ to_ := by
  have hto := val_le_limit to_
  have hfrom := val_le_limit from_
  exact exists_items _ from_ (by omega)

/-! ## One item after another -/

/-- What `addEach` leaves after the items `lo .. lo + n`. -/
structure Extended (s t : BitmapRange T) (lo hi : Int) : Prop where
  base_eq : t.base_ = s.base_
  range_max_eq : t.range_max_ = s.range_max_
  num_bits_eq : t.num_bits_ = Nat.max s.num_bits_ (clippedEnd (val s.base_) lo hi)
  bits_eq : ∀ p, bit t.bitmap_ p = (bit s.bitmap_ p || decide (Clipped (val s.base_) lo hi p))

/-- What is left is determined. -/
theorem Extended.unique {u : BitmapRange T} {lo hi : Int} (ht : Extended s t lo hi)
    (hu : Extended s u lo hi) : t = u := by
  have hbitmap : t.bitmap_ = u.bitmap_ := bit_ext fun p => by rw [ht.bits_eq, hu.bits_eq]
  have hbase : t.base_ = u.base_ := ht.base_eq.trans hu.base_eq.symm
  have hmax : t.range_max_ = u.range_max_ := ht.range_max_eq.trans hu.range_max_eq.symm
  have hnum : t.num_bits_ = u.num_bits_ := ht.num_bits_eq.trans hu.num_bits_eq.symm
  cases t
  cases u
  simp only at hbitmap hbase hmax hnum
  rw [hbitmap, hbase, hmax, hnum]

/-- One item is added to the window if it lies in it. -/
theorem add_extended (h : FullWidth s) (item : T) :
    ∃ r, s.add item = some r ∧ Extended s r.2 (val item) (val item + 1) := by
  have hmax := h.range_max_eq
  by_cases hin : val s.base_ ≤ val item ∧ val item ≤ val s.range_max_
  · obtain ⟨p, hp⟩ : ∃ p : Nat, val item = val s.base_ + p :=
      Int.exists_add_of_le (by omega)
    obtain ⟨t, ht, hbase, hrange, hnum, hbits⟩ := add_set hp (by omega) hin.2
    refine ⟨_, ht, hbase, hrange, ?_, fun q => ?_⟩
    · have hend : clippedEnd (val s.base_) (val item) (val item + 1) = p + 1 := by
        unfold clippedEnd
        split_ifs <;> omega
      rw [hnum, hend]
      exact Nat.max_comm _ _
    · rw [hbits]
      congr 1
      rw [decide_eq_decide]
      unfold Clipped
      omega
  · refine ⟨_, add_outside hin, rfl, rfl, ?_, fun q => ?_⟩
    · have hend : clippedEnd (val s.base_) (val item) (val item + 1) = 0 := by
        unfold clippedEnd
        split_ifs <;> omega
      rw [hend]
      exact (Nat.max_zero _).symm
    · have hout : ¬ Clipped (val s.base_) (val item) (val item + 1) q := by
        unfold Clipped
        omega
      rw [decide_eq_false hout, Bool.or_false]

/-- Two ranges one behind the other. -/
theorem Extended.trans {u : BitmapRange T} {lo mid hi : Int} (ht : Extended s t lo mid)
    (hu : Extended t u mid hi) (hle : lo ≤ mid) (hle' : mid ≤ hi) : Extended s u lo hi := by
  have hbase : val t.base_ = val s.base_ := by rw [ht.base_eq]
  refine ⟨hu.base_eq.trans ht.base_eq, hu.range_max_eq.trans ht.range_max_eq, ?_, fun p => ?_⟩
  · rw [hu.num_bits_eq, ht.num_bits_eq, hbase]
    have hend : Nat.max (clippedEnd (val s.base_) lo mid) (clippedEnd (val s.base_) mid hi) =
        clippedEnd (val s.base_) lo hi := by
      unfold clippedEnd
      split_ifs <;> simp only [Nat.max_def] <;> split_ifs <;> omega
    rw [← hend]
    exact Nat.max_assoc _ _ _
  · rw [hu.bits_eq, ht.bits_eq, hbase, Bool.or_assoc, ← Bool.decide_or]
    congr 1
    rw [decide_eq_decide]
    unfold Clipped
    omega

/-- No item. -/
theorem extended_refl (s : BitmapRange T) (lo : Int) : Extended s s lo lo := by
  have hend : clippedEnd (val s.base_) lo lo = 0 := by
    unfold clippedEnd
    rw [if_neg (by omega)]
  refine ⟨rfl, rfl, by rw [hend]; exact (Nat.max_zero _).symm, fun p => ?_⟩
  have hout : ¬ Clipped (val s.base_) lo lo p := by
    unfold Clipped
    omega
  rw [decide_eq_false hout, Bool.or_false]

/-- The items one after another extend the set to the whole range: the induction is on the list, and
what one `add` leaves is the range of one item. -/
theorem addEach_extended (items : List T) (h : FullWidth s) {lo : Int}
    (hitems : items.map val = (List.range items.length).map fun i : Nat => lo + (i : Int)) :
    ∃ t, addEach s items = some t ∧ Extended s t lo (lo + items.length) := by
  induction items generalizing s lo with
  | nil =>
      refine ⟨s, rfl, ?_⟩
      rw [List.length_nil, Int.natCast_zero, Int.add_zero]
      exact extended_refl s lo
  | cons item items ih =>
      rw [List.map_cons, List.length_cons, List.range_succ_eq_map, List.map_cons, List.map_map,
        List.cons.injEq] at hitems
      obtain ⟨hitem, hrest⟩ := hitems
      have hfirst : val item = lo := by omega
      obtain ⟨r, hr, hone⟩ := add_extended h item
      rw [hfirst] at hone
      have hfull : FullWidth r.2 := by
        refine ⟨?_, ?_⟩
        · rw [hone.base_eq, hone.range_max_eq]
          exact h.range_max_eq
        · rw [hone.base_eq]
          exact h.window
      have hnext : items.map val =
          (List.range items.length).map fun i : Nat => lo + 1 + (i : Int) := by
        rw [hrest]
        refine List.map_congr_left ?_
        intro i _
        rw [Function.comp_apply]
        push_cast
        omega
      obtain ⟨t, ht, hmore⟩ := ih hfull hnext
      refine ⟨t, by rw [addEach, hr]; exact ht, ?_⟩
      have hend : lo + 1 + (items.length : Int) = lo + ((item :: items).length : Nat) := by
        rw [List.length_cons]
        push_cast
        omega
      rw [hend] at hmore
      refine hone.trans hmore (by omega) ?_
      rw [← hend]
      omega

/-- In a window of full width, `addRange` does what `add` does with the items of the range one after
another, and there is a list of them. -/
theorem addRange_eq_addEach (s : BitmapRange T) (h : FullWidth s) (from_ to_ : T) :
    (∃ items : List T, Lists items from_ to_) ∧
      ∀ items : List T, Lists items from_ to_ →
        ∃ t, s.addRange from_ to_ = some t ∧ addEach s items = some t := by
  refine ⟨exists_lists from_ to_, fun items hitems => ?_⟩
  obtain ⟨lim, hlim, hval⟩ := add_val s.base_ 256 (by decide) (by exact h.window)
  obtain ⟨t, ht, hbase, hmax, hnum, -, hbits⟩ := addRange_set hlim hval from_ to_
  have hlength : items.length = (val to_ - val from_).toNat := by
    have := congrArg List.length hitems
    simpa using this
  have hitems : items.map val =
      (List.range items.length).map fun i : Nat => val from_ + (i : Int) := by
    rw [hlength]
    exact hitems
  obtain ⟨u, hu, hextended⟩ := addEach_extended items h hitems
  -- A range that ends before it starts has no items.
  have hrange : Extended s t (val from_) (val from_ + items.length) := by
    have hend : clippedEnd (val s.base_) (val from_) (val from_ + items.length) =
        clippedEnd (val s.base_) (val from_) (val to_) := by
      unfold clippedEnd
      split_ifs <;> omega
    refine ⟨hbase, hmax, by rw [hend]; exact hnum, fun p => ?_⟩
    rw [hbits]
    congr 1
    rw [decide_eq_decide]
    unfold Clipped
    omega
  exact ⟨t, ht, by rw [hu, hrange.unique hextended]⟩

end BitmapRange

end DataStructure
end Mozi
