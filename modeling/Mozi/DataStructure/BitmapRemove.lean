import Mozi.DataStructure.BitmapRuns

/-!
# BitmapRemove — removing an item

`remove` compares the item with `max()`, which is computed from `num_bits_ - 1` in the arithmetic of
the items.  `RemoveExact` says what the removal is for; `removeExact_iff` says when it does it, in
every state that the operations lead to while the base only moves up.  Windows may reach past the
largest item here: then `range_max_` has wrapped, or the operation that set it has failed.
-/

namespace Mozi
namespace DataStructure

open Foundation BitArray

namespace BitmapRange

open LawfulRangeItem

/-- A sum that leaves the items fails or is less than its first operand. -/
class AddWraps (T : Type) [RangeItem T] [LawfulRangeItem T] : Prop where
  add_cases : ∀ (a c : T) (n : Nat), n < 2 ^ 32 → RangeItem.add a n = some c →
    val c = val a + n ∨ val c < val a

variable {T : Type} [RangeItem T]

/-! ## States and members -/

/-- The item of a set bit, as `for_each` adds it up. -/
def Stored (s : BitmapRange T) (x : T) : Prop :=
  ∃ p, bit s.bitmap_ p = true ∧ RangeItem.add s.base_ p = some x

/-- The removal returns, the members are the old ones without the item, and `num_bits_` ends
them. -/
def RemoveExact [DecidableEq T] (s : BitmapRange T) (item : T) : Prop :=
  ∃ t, s.remove item = some t ∧ (∀ x, Stored t x ↔ Stored s x ∧ x ≠ item) ∧
    EndsAt t.bitmap_ t.num_bits_

/-- What every operation keeps, wherever the window lies. -/
structure Bounded (s : BitmapRange T) : Prop where
  ends : EndsAt s.bitmap_ s.num_bits_
  range_max : ∃ c, c ≤ 255 ∧ RangeItem.add s.base_ c = some s.range_max_

variable {s t : BitmapRange T}

theorem bounded_empty {base r : T} {c : Nat} (hc : c ≤ 255) (hr : RangeItem.add base c = some r) :
    Bounded (⟨base, r, Vector.replicate 8 0#32, 0⟩ : BitmapRange T) :=
  ⟨EndsAt.zero, c, hc, hr⟩

theorem newCapped_bounded {base : T} {max_bits : Nat} (h : newCapped base max_bits = some s) :
    Bounded s := by
  simp only [newCapped, Option.bind_eq_bind, Option.bind_eq_some_iff, Option.some.injEq] at h
  obtain ⟨r, hr, rfl⟩ := h
  exact bounded_empty (Nat.min_le_right max_bits 255) hr

theorem Bounded.of_same (h : Bounded s) (hbase : t.base_ = s.base_)
    (hmax : t.range_max_ = s.range_max_) (hends : EndsAt t.bitmap_ t.num_bits_) : Bounded t := by
  refine ⟨hends, ?_⟩
  rw [hbase, hmax]
  exact h.range_max

variable [LawfulRangeItem T]

/-- `updateBase` does not move the base down. -/
def Op.Upward (s : BitmapRange T) : Op T → Prop
  | .updateBase b => val s.base_ ≤ val b
  | _ => True

/-- A state that operations lead to from a constructor, the base moving up only. -/
def ReachedUpward [DecidableEq T] (s : BitmapRange T) : Prop :=
  ∃ (base : T) (s₀ : BitmapRange T) (ops : List (Op T)),
    (new base = some s₀ ∨ ∃ max_bits, newCapped base max_bits = some s₀) ∧
      machine.Along (fun s op => op.Upward s) s₀ ops ∧ machine.exec s₀ ops = some s

variable {item m : T}

/-! ## `max()` and `range_max_` -/

/-- `num_bits_ - 1` in 32 bits. -/
theorem sub_one_eq {n : Nat} (h : n ≤ 256) :
    sub32 n 1 = if n = 0 then 2 ^ 32 - 1 else n - 1 := by
  split_ifs with hzero
  · rw [hzero]
    decide
  · exact sub32_of_le (by omega) (by omega)

/-- An item below a wrapped `max()` and past the bitmap is looked up outside the words. -/
theorem remove_far [DecidableEq T] {p : Nat} (hm : s.max = some m) (hp : val item = val s.base_ + p)
    (hle : val item ≤ val m) (hfar : 256 ≤ p) (hp32 : p < 2 ^ 32) : s.remove item = none := by
  have hnone : s.bitmap_[p / 32]? = none := by
    rw [Vector.getElem?_eq_none_iff]
    omega
  simp only [remove, hm, Option.bind_eq_bind, Option.bind_some]
  rw [if_pos (by rw [Bool.and_eq_true, ge_iff, ge_iff]; omega), diff_eq hp hp32]
  simp [hnone]

/-- Where the end of the window has wrapped, there is nothing to set. -/
theorem addRange_wrapped {lim : T} (hlim : RangeItem.add s.base_ 256 = some lim)
    (hwrap : val lim < val s.base_) (from_ to_ : T) : s.addRange from_ to_ = some s := by
  have hempty : RangeItem.ge (if RangeItem.ge s.base_ from_ then s.base_ else from_)
      (if RangeItem.ge to_ lim then lim else to_) = true := by
    rw [ge_iff]
    split_ifs with hto hfrom hfrom
    all_goals
      simp only [ge_iff] at hto hfrom
      omega
  simp only [addRange, hlim, Option.bind_eq_bind, Option.bind_some]
  rw [if_pos hempty]

/-- A base above the old one, if the end of the new window can be computed. -/
theorem updateBase_returned [DecidableEq T] {base : T} (hends : EndsAt s.bitmap_ s.num_bits_)
    (hup : val s.base_ < val base) (hrun : s.updateBase base = some t) :
    RangeItem.add base 255 = some t.range_max_ ∧ t.base_ = base ∧
      EndsAt t.bitmap_ t.num_bits_ := by
  cases hr : RangeItem.add base 255 with
  | none =>
      have hne : base ≠ s.base_ := by
        rintro rfl
        omega
      simp [updateBase, hne, (gt_iff base s.base_).2 hup, diff_eq_distance32 (Int.le_of_lt hup),
        hr] at hrun
  | some r =>
      obtain ⟨u, hu, hbase, hmax, hnum, hbits⟩ := updateBase_up hends hup hr
      obtain rfl : t = u := Option.some.inj (hrun.symm.trans hu)
      refine ⟨by rw [hmax], hbase, ?_⟩
      rw [hnum]
      exact hends.shift_down hbits

section Wraps

variable [AddWraps T]

/-- An item in the window is less than 256 above the base. -/
theorem Bounded.near (h : Bounded s) (hge : val s.base_ ≤ val item)
    (hle : val item ≤ val s.range_max_) :
    ∃ p : Nat, val item = val s.base_ + p ∧ p < 256 := by
  obtain ⟨c, hc, hmax⟩ := h.range_max
  rcases AddWraps.add_cases _ _ c (by omega) hmax with heq | hlt
  · exact ⟨(val item - val s.base_).toNat, by omega, by omega⟩
  · omega

/-- If an item lies between the base and `max()`, nothing has wrapped. -/
theorem Bounded.max_eq (h : Bounded s) (hm : s.max = some m) (hge : val s.base_ ≤ val m) :
    val m = val s.base_ + (if s.num_bits_ = 0 then 2 ^ 32 - 1 else s.num_bits_ - 1 : Nat) := by
  have h256 : s.num_bits_ ≤ 256 := h.ends.le
  rw [BitmapRange.max, sub_one_eq h256] at hm
  rcases AddWraps.add_cases _ _ _ (by split_ifs <;> omega) hm with heq | hlt
  · exact heq
  · omega

/-! ## What `remove` does -/

variable [DecidableEq T]

theorem remove_near {p : Nat} (h : Bounded s) (hm : s.max = some m)
    (hp : val item = val s.base_ + p) (hle : val item ≤ val m) (hp256 : p < 256) :
    ∃ t, s.remove item = some t ∧ t.base_ = s.base_ ∧ t.range_max_ = s.range_max_ ∧
      EndsAt t.bitmap_ t.num_bits_ ∧
      ∀ q, bit t.bitmap_ q = (bit s.bitmap_ q && decide (q ≠ p)) := by
  refine remove_inside h.ends hm hp hp256 hle ?_
  intro hne
  have hmax := h.max_eq hm (by omega)
  rw [if_neg hne] at hmax
  constructor
  · rintro rfl
    omega
  · intro heq
    exact val_injective (by omega)

/-- The three ends of `remove`. -/
theorem remove_cases (h : Bounded s) (item : T) :
    (s.max = none ∧ s.remove item = none) ∨ ∃ m, s.max = some m ∧
      ((¬ (val s.base_ ≤ val item ∧ val item ≤ val m) ∧ s.remove item = some s) ∨
      (val s.base_ + 256 ≤ val item ∧ val item ≤ val m ∧ s.remove item = none) ∨
      ∃ (p : Nat) (t : BitmapRange T), val item = val s.base_ + p ∧ val item ≤ val m ∧ p < 256 ∧
        s.remove item = some t ∧ t.base_ = s.base_ ∧ t.range_max_ = s.range_max_ ∧
        EndsAt t.bitmap_ t.num_bits_ ∧
        ∀ q, bit t.bitmap_ q = (bit s.bitmap_ q && decide (q ≠ p))) := by
  cases hm : s.max with
  | none =>
      exact Or.inl ⟨rfl, by simp [remove, hm]⟩
  | some m =>
      refine Or.inr ⟨m, rfl, ?_⟩
      by_cases hin : val s.base_ ≤ val item ∧ val item ≤ val m
      · have hmax := h.max_eq hm (by omega)
        have h256 : s.num_bits_ ≤ 256 := h.ends.le
        obtain ⟨p, hp⟩ : ∃ p : Nat, val item = val s.base_ + p :=
          Int.exists_add_of_le (by omega)
        have hp32 : p < 2 ^ 32 := by
          split_ifs at hmax <;> omega
        rcases Nat.lt_or_ge p 256 with hlt | hge
        · obtain ⟨t, ht⟩ := remove_near h hm hp hin.2 hlt
          exact Or.inr (Or.inr ⟨p, t, hp, hin.2, hlt, ht⟩)
        · exact Or.inr (Or.inl ⟨by omega, hin.2, remove_far hm hp hin.2 hge hp32⟩)
      · exact Or.inl ⟨hin, remove_outside hm hin⟩

/-! ## Every operation keeps the bounds -/

omit [AddWraps T] in
theorem updateBase_bounded (h : Bounded s) {base : T} (hup : val s.base_ ≤ val base)
    (hrun : s.updateBase base = some t) : Bounded t := by
  rcases Int.lt_or_eq_of_le hup with hlt | heq
  · obtain ⟨hr, hbase, hends⟩ := updateBase_returned h.ends hlt hrun
    exact ⟨hends, 255, Nat.le_refl _, by rw [hbase, hr]⟩
  · rw [updateBase, if_pos (val_injective heq.symm)] at hrun
    cases hrun
    exact h

omit [DecidableEq T] in
theorem add_bounded (h : Bounded s) {item : T} {inserted : Bool}
    (hrun : s.add item = some (inserted, t)) : Bounded t := by
  by_cases hin : val s.base_ ≤ val item ∧ val item ≤ val s.range_max_
  · obtain ⟨p, hp, hp256⟩ := h.near hin.1 hin.2
    obtain ⟨u, hu, hbase, hmax, hnum, hbits⟩ := add_set hp hp256 hin.2
    obtain ⟨-, rfl⟩ := Prod.mk.inj (Option.some.inj (hrun.symm.trans hu))
    refine h.of_same hbase hmax ?_
    rw [hnum]
    exact endsAt_add h.ends hbits
  · obtain ⟨-, rfl⟩ := Prod.mk.inj (Option.some.inj (hrun.symm.trans (add_outside hin)))
    exact h

omit [DecidableEq T] in
theorem addRange_bounded (h : Bounded s) {from_ to_ : T}
    (hrun : s.addRange from_ to_ = some t) : Bounded t := by
  cases hlim : RangeItem.add s.base_ 256 with
  | none =>
      simp [addRange, hlim] at hrun
  | some lim =>
      rcases AddWraps.add_cases _ _ 256 (by decide) hlim with heq | hlt
      · obtain ⟨u, hu, hbase, hmax, -, hends, -⟩ := addRange_set hlim heq from_ to_
        obtain rfl : t = u := Option.some.inj (hrun.symm.trans hu)
        exact h.of_same hbase hmax (hends h.ends)
      -- the limit lies below the base, and the guard leaves the range as it is
      · rw [addRange_wrapped hlim hlt] at hrun
        cases hrun
        exact h

theorem remove_bounded (h : Bounded s) {item : T} (hrun : s.remove item = some t) :
    Bounded t := by
  rcases remove_cases h item with ⟨-, hnone⟩ | ⟨m, -, ⟨-, hsame⟩ | ⟨-, -, hnone⟩ |
    ⟨p, u, -, -, -, hu, hbase, hmax, hends, -⟩⟩
  · rw [hnone] at hrun
    cases hrun
  · rw [hsame] at hrun
    cases hrun
    exact h
  · rw [hnone] at hrun
    cases hrun
  · obtain rfl : t = u := Option.some.inj (hrun.symm.trans hu)
    exact h.of_same hbase hmax hends

omit [LawfulRangeItem T] [AddWraps T] [DecidableEq T] in
theorem setBitmap_bounded (h : Bounded s) {num_bits : Nat} {bitmap : Nat → BitVec 32}
    (hrun : s.setBitmap num_bits bitmap = some t) : Bounded t := by
  obtain ⟨u, hu, hbase, hmax, hends, -⟩ := setBitmap_bits s num_bits bitmap
  obtain rfl : t = u := Option.some.inj (hrun.symm.trans hu)
  exact h.of_same hbase hmax hends

theorem step_bounded (h : Bounded s) {op : Op T} (hup : op.Upward s)
    (hrun : machine.step s op = some t) : Bounded t := by
  cases op with
  | base base =>
      have hnew : newCapped base 255 = some t := hrun
      exact newCapped_bounded hnew
  | baseCapped base max_bits =>
      have hnew : newCapped base max_bits = some t := hrun
      exact newCapped_bounded hnew
  | updateBase base =>
      exact updateBase_bounded h hup hrun
  | add item =>
      obtain ⟨⟨inserted, u⟩, hadd, rfl⟩ := Option.map_eq_some_iff.1 hrun
      exact add_bounded h hadd
  | addRange from_ to_ =>
      exact addRange_bounded h hrun
  | remove item =>
      exact remove_bounded h hrun
  | setBitmap num_bits bitmap =>
      exact setBitmap_bounded h hrun

theorem ReachedUpward.bounded (h : ReachedUpward s) : Bounded s := by
  obtain ⟨base, s₀, ops, hnew, halong, hexec⟩ := h
  have hinit : Bounded s₀ := by
    rcases hnew with hnew | ⟨max_bits, hnew⟩
    · exact newCapped_bounded hnew
    · exact newCapped_bounded hnew
  exact machine.exec_invariant (fun _ _ _ hs hup ht => step_bounded hs hup ht) hinit halong hexec

/-! ## When the removal is exact -/

omit [DecidableEq T] in
/-- A cleared bit takes its item out of the members. -/
theorem stored_clear {p : Nat} (hbase : t.base_ = s.base_)
    (hbits : ∀ q, bit t.bitmap_ q = (bit s.bitmap_ q && decide (q ≠ p)))
    (hp : val item = val s.base_ + p) (hp256 : p < 256) (x : T) :
    Stored t x ↔ Stored s x ∧ x ≠ item := by
  have hlimit := val_le_limit item
  obtain ⟨y, hy, hval⟩ := add_val s.base_ p (by omega) (by omega)
  obtain rfl : y = item := val_injective (by omega)
  constructor
  · rintro ⟨q, hq, hx⟩
    rw [hbits, Bool.and_eq_true, decide_eq_true_eq] at hq
    rw [hbase] at hx
    refine ⟨⟨q, hq.1, hx⟩, ?_⟩
    rintro rfl
    have hq256 : q < 32 * 8 := bit_lt hq.1
    rcases AddWraps.add_cases _ _ q (by omega) hx with heq | hlt
    · exact hq.2 (by omega)
    · omega
  · rintro ⟨⟨q, hq, hx⟩, hne⟩
    refine ⟨q, ?_, by rw [hbase]; exact hx⟩
    rw [hbits, hq, Bool.true_and, decide_eq_true_eq]
    rintro rfl
    exact hne (Option.some.inj (hx.symm.trans hy))

/-- The removal is exact if `max()` can be computed, an item that is compared as one of the window
has its bit in the bitmap, and any other item is none of the members. -/
theorem removeExact_iff (h : Bounded s) (item : T) :
    RemoveExact s item ↔ ∃ m, s.max = some m ∧
      (val s.base_ ≤ val item → val item ≤ val m → val item < val s.base_ + 256) ∧
      (¬ (val s.base_ ≤ val item ∧ val item ≤ val m) → ¬ Stored s item) := by
  rcases remove_cases h item with ⟨hmax, hnone⟩ | ⟨m, hmax, ⟨hout, hsame⟩ | ⟨hfar, hle, hnone⟩ |
    ⟨p, u, hp, hle, hp256, hu, hbase, -, hends, hbits⟩⟩
  · constructor
    · rintro ⟨t, ht, -⟩
      rw [hnone] at ht
      cases ht
    · rintro ⟨m, hm, -⟩
      rw [hmax] at hm
      cases hm
  · constructor
    · rintro ⟨t, ht, hstored, -⟩
      rw [hsame] at ht
      cases ht
      exact ⟨m, hmax, fun hge hle => absurd ⟨hge, hle⟩ hout,
        fun _ hin => ((hstored item).1 hin).2 rfl⟩
    · rintro ⟨m', hm', -, hnot⟩
      obtain rfl : m = m' := Option.some.inj (hmax.symm.trans hm')
      refine ⟨s, hsame, fun x => ?_, h.ends⟩
      refine ⟨fun hx => ⟨hx, ?_⟩, fun hx => hx.1⟩
      rintro rfl
      exact hnot hout hx
  · constructor
    · rintro ⟨t, ht, -⟩
      rw [hnone] at ht
      cases ht
    · rintro ⟨m', hm', hnear, -⟩
      obtain rfl : m = m' := Option.some.inj (hmax.symm.trans hm')
      have := hnear (by omega) hle
      omega
  · constructor
    · intro _
      exact ⟨m, hmax, fun _ _ => by omega, fun hout => absurd ⟨by omega, hle⟩ hout⟩
    · intro _
      exact ⟨u, hu, stored_clear hbase hbits hp hp256, hends⟩

theorem removeExact_of_max (h : Bounded s) (hm : s.max = some m) (item : T) :
    RemoveExact s item ↔
      (val s.base_ ≤ val item → val item ≤ val m → val item < val s.base_ + 256) ∧
      (¬ (val s.base_ ≤ val item ∧ val item ≤ val m) → ¬ Stored s item) := by
  rw [removeExact_iff h, hm]
  constructor
  · rintro ⟨m', hm', hexact⟩
    cases hm'
    exact hexact
  · intro hexact
    exact ⟨m, rfl, hexact⟩

end Wraps

/-! ## Members -/

omit [LawfulRangeItem T] in
theorem Bounded.not_stored (h : Bounded s) (hempty : s.num_bits_ = 0) (x : T) : ¬ Stored s x := by
  rintro ⟨p, hp, -⟩
  have := h.ends.bits_lt p hp
  omega

/-- Members that do not reach past the largest item lie between the base and `max()`. -/
theorem Bounded.stored_bounds (h : Bounded s)
    (hfits : val s.base_ + s.num_bits_ ≤ limit T + 1) {x : T} (hx : Stored s x) :
    val s.base_ ≤ val x ∧ val x < val s.base_ + s.num_bits_ := by
  obtain ⟨p, hp, hadd⟩ := hx
  have h256 : s.num_bits_ ≤ 256 := h.ends.le
  have hlt := h.ends.bits_lt p hp
  obtain ⟨y, hy, hval⟩ := add_val s.base_ p (by omega) (by omega)
  obtain rfl : y = x := Option.some.inj (hy.symm.trans hadd)
  omega

end BitmapRange

end DataStructure
end Mozi
