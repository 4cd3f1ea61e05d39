import Mathlib.Order.Bounds.Basic
import Mozi.DataStructure.BitmapMoveUp
import Mozi.DataStructure.BitmapRuns
import Mozi.DataStructure.BitmapTransfer
import Mozi.Foundation.Window

/-!
# BitmapRefinement — a bitmap is a set in a window

`Op.apply` says what each operation of a `BitmapRange` is for, on windows of integers.  `Op.Exact`
is the condition under which the code does it; the step lemma is `represents_step` and the result
over runs `refines_window`: every reader then says what the set says.
-/

namespace Mozi
namespace DataStructure

open Foundation BitArray

namespace BitmapRange

open LawfulRangeItem

variable {T : Type} [RangeItem T] [LawfulRangeItem T]

/-! ## The window and its operations -/

/-- The values of the bits that a bitmap of `num_bits` bits, but at most 256, declares. -/
def declared (low : Int) (num_bits : Nat) (bitmap : Nat → BitVec 32) : Set Int :=
  { v | ∃ p : Nat, p < Nat.min num_bits 256 ∧ (bitmap (p / 32)).getMsbD (p % 32) = true ∧
    v = low + p }

/-- What an operation is for. -/
def Op.apply (w : Window Int) : Op T → Window Int
  | .base b => Window.opened (val b) (val b + 255)
  | .baseCapped b max_bits => Window.opened (val b) (val b + (Nat.min max_bits 255 : Nat))
  | .updateBase b => if val b = w.low then w else w.moveTo (val b) (val b + 255)
  | .add item => w.fill {val item}
  | .addRange from_ to_ => w.fill { v | val from_ ≤ v ∧ v < val to_ }
  | .remove item => w.drop (val item)
  | .setBitmap num_bits bitmap => w.load (declared w.low num_bits bitmap)

/-- The operation does what it is for. -/
def Op.Exact (s : BitmapRange T) : Op T → Prop
  | .updateBase b =>
      (val s.base_ < val b → distanceUp s b < 2 ^ 32) ∧
        (val b < val s.base_ → SurvivesDown s (distanceDown s b))
  | .setBitmap num_bits bitmap =>
      Uncut num_bits bitmap ∧ Op.Keeps s (.setBitmap num_bits bitmap)
  | op => op.Keeps s

/-- The members of the window are the items of the set bits. -/
structure Represents (s : BitmapRange T) (w : Window Int) : Prop extends Wf s where
  low_eq : w.low = val s.base_
  high_eq : w.high = val s.range_max_
  mem_iff : ∀ v, v ∈ w.members ↔ HoldsAt s v

/-! ## What the readers say -/

/-- The readers of the bitmap describe the window. -/
structure Reads (s : BitmapRange T) (w : Window Int) : Prop where
  forEach : ∃ visited, s.forEach = some visited ∧ visited.Pairwise (fun x y => val x < val y) ∧
    ∀ x, x ∈ visited ↔ val x ∈ w.members
  isSet : ∀ x, ∃ r, s.isSet x = some r ∧ (r = true ↔ val x ∈ w.members)
  empty : s.empty = true ↔ w.members = ∅
  ends : w.members.Nonempty → ∃ least greatest, s.min = some least ∧ s.max = some greatest ∧
    IsLeast w.members (val least) ∧ IsGreatest w.members (val greatest)
  getBitmap : ∀ p : Nat, bit s.getBitmap.bitmap p = true ↔ w.low + p ∈ w.members
  /-- `add` says whether the item lies in the window. -/
  add : ∀ item, ∃ r, s.add item = some r ∧ (r.1 = true ↔ w.low ≤ val item ∧ val item ≤ w.high)

namespace Represents

variable {s t : BitmapRange T} {w : Window Int}

/-- Each member is the value of an item. -/
theorem exists_item (h : Represents s w) {v : Int} (hv : v ∈ w.members) :
    ∃ x : T, val x = v ∧ Member s x := by
  obtain ⟨p, hp, rfl⟩ := (h.mem_iff v).1 hv
  obtain ⟨x, -, hx⟩ := h.toWf.add_base (Nat.le_of_lt (bit_lt hp))
  exact ⟨x, hx, p, hp, hx⟩

theorem mem_val_iff (h : Represents s w) (x : T) : val x ∈ w.members ↔ Member s x :=
  h.mem_iff (val x)

theorem bit_iff (h : Represents s w) (p : Nat) :
    bit s.bitmap_ p = true ↔ w.low + p ∈ w.members := by
  rw [h.mem_iff, h.low_eq]
  constructor
  · intro hp
    exact ⟨p, hp, rfl⟩
  · rintro ⟨q, hq, heq⟩
    obtain rfl : p = q := by omega
    exact hq

theorem add_result (h : Represents s w) (item : T) :
    ∃ r, s.add item = some r ∧ (r.1 = true ↔ w.low ≤ val item ∧ val item ≤ w.high) := by
  rw [h.low_eq, h.high_eq]
  by_cases hin : val s.base_ ≤ val item ∧ val item ≤ val s.range_max_
  · obtain ⟨p, hp⟩ : ∃ p : Nat, val item = val s.base_ + p := Int.exists_add_of_le hin.1
    obtain ⟨t, ht, -⟩ := add_inside h.toWf hp hin.2
    exact ⟨(true, t), ht, iff_of_true rfl hin⟩
  · exact ⟨(false, s), add_outside hin, iff_of_false (by simp) hin⟩

theorem reads (h : Represents s w) : Reads s w := by
  obtain ⟨visited, hvisited, hsorted, hset, hempty, hends⟩ := h.toWf.readersAgree
  have hmem : ∀ x, x ∈ visited ↔ val x ∈ w.members := by
    intro x
    obtain ⟨r, hr, hiff⟩ := hset x
    rw [← hiff, h.mem_val_iff, ← h.toWf.isSet_eq, hr, Option.some.injEq]
  have hnone : visited = [] ↔ w.members = ∅ := by
    rw [List.eq_nil_iff_forall_not_mem, Set.eq_empty_iff_forall_notMem]
    constructor
    · intro hall v hv
      obtain ⟨x, rfl, -⟩ := h.exists_item hv
      exact hall x ((hmem x).2 hv)
    · intro hall x hx
      exact hall (val x) ((hmem x).1 hx)
  refine ⟨⟨visited, hvisited, hsorted, hmem⟩, ?_, hempty.trans hnone, ?_, h.bit_iff, h.add_result⟩
  · intro x
    obtain ⟨r, hr, hiff⟩ := hset x
    exact ⟨r, hr, hiff.trans (hmem x)⟩
  · intro hsome
    have hne : visited ≠ [] := fun hnil => hsome.ne_empty (hnone.1 hnil)
    obtain ⟨least, greatest, hmin, hmax, hleast, hgreatest, hbounds⟩ := hends hne
    -- Every member is the value of an item that is visited.
    have hbetween : ∀ v ∈ w.members, val least ≤ v ∧ v ≤ val greatest := by
      intro v hv
      obtain ⟨x, rfl, -⟩ := h.exists_item hv
      exact hbounds x ((hmem x).2 hv)
    refine ⟨least, greatest, hmin, hmax, ⟨(hmem _).1 hleast, ?_⟩, ⟨(hmem _).1 hgreatest, ?_⟩⟩
    · exact fun v hv => (hbetween v hv).1
    · exact fun v hv => (hbetween v hv).2

/-! ## Steps -/

/-- A change of bits in the same window. -/
theorem of_same {u : Window Int} (h : Represents s w) (hwf : Wf t) (hbase : t.base_ = s.base_)
    (hmax : t.range_max_ = s.range_max_) (hlow : u.low = w.low) (hhigh : u.high = w.high)
    (hmem : ∀ v, v ∈ u.members ↔ HoldsAt t v) : Represents t u where
  toWf := hwf
  low_eq := by rw [hlow, h.low_eq, hbase]
  high_eq := by rw [hhigh, h.high_eq, hmax]
  mem_iff := hmem

end Represents

variable {s t : BitmapRange T} {w : Window Int}

/-- An empty bitmap. -/
theorem represents_empty {base range_max : T} (max_bits : Nat) (hwindow : val base + 256 ≤ limit T)
    (hmax : val range_max = val base + (Nat.min max_bits 255 : Nat)) :
    Represents (⟨base, range_max, Vector.replicate 8 0#32, 0⟩ : BitmapRange T)
      (Window.opened (val base) (val base + (Nat.min max_bits 255 : Nat))) where
  toWf := wf_empty max_bits hwindow hmax
  low_eq := rfl
  high_eq := hmax.symm
  mem_iff v := by
    refine iff_of_false Window.mem_opened ?_
    rintro ⟨p, hp, -⟩
    rw [bit_replicate] at hp
    cases hp

theorem represents_newCapped {base : T} (hwindow : val base + 256 ≤ limit T) (max_bits : Nat) :
    ∃ t, newCapped base max_bits = some t ∧
      Represents t (Window.opened (val base) (val base + (Nat.min max_bits 255 : Nat))) := by
  have hle : Nat.min max_bits 255 ≤ 255 := Nat.min_le_right _ _
  obtain ⟨r, hr, hval⟩ := add_val base (Nat.min max_bits 255) (by omega) (by omega)
  refine ⟨_, ?_, represents_empty max_bits hwindow hval⟩
  simp only [newCapped, Option.bind_eq_bind]
  exact Option.bind_eq_some_iff.2 ⟨r, hr, rfl⟩

/-- The new window of a move has its full width. -/
theorem represents_move {base : T} (hwindow : val base + 256 ≤ limit T) (hbase : t.base_ = base)
    (hmax : val t.range_max_ = val t.base_ + 255) (hends : EndsAt t.bitmap_ t.num_bits_)
    (hmem : ∀ v, HoldsAt t v ↔ v ∈ w.members ∧ val base ≤ v ∧ v ≤ val base + 255) :
    Represents t (w.moveTo (val base) (val base + 255)) where
  toWf := ⟨wellFormed_of_full hmax hends, by rw [hbase]; exact hwindow⟩
  low_eq := by rw [hbase, Window.moveTo_low]
  high_eq := by rw [hmax, hbase, Window.moveTo_high]
  mem_iff v := (hmem v).symm

variable [DecidableEq T]

theorem updateBase_represents (h : Represents s w) {base : T}
    (hwindow : val base + 256 ≤ limit T) (hexact : Op.Exact s (.updateBase base)) :
    ∃ t, s.updateBase base = some t ∧ Represents t (Op.apply w (.updateBase base)) := by
  have hends := h.ends
  have hbits : ∀ {u : BitmapRange T} {v : Int}, HoldsAt u v → v ≤ val u.base_ + 255 := by
    rintro u v ⟨p, hp, rfl⟩
    have hlt := bit_lt hp
    omega
  simp only [Op.apply, h.low_eq]
  rcases Int.lt_trichotomy (val base) (val s.base_) with hlt | heq | hgt
  · rw [if_neg (Int.ne_of_lt hlt)]
    obtain ⟨r, hr, hval⟩ := add_val base 255 (by omega) (by omega)
    obtain ⟨t, ht, hmoved⟩ :=
      (updateBase_down_iff hends hlt).2 ⟨by rw [hr]; rfl, hexact.2 hlt⟩
    have hmax : val t.range_max_ = val t.base_ + 255 := by
      rw [updateBase_down hlt, hr] at ht
      obtain ⟨u, -, hu⟩ := Option.bind_eq_some_iff.1 ht
      cases hu
      exact hval
    refine ⟨t, ht, represents_move hwindow hmoved.base_eq hmax hmoved.ends fun v => ?_⟩
    rw [hmoved.members, h.mem_iff]
  · rw [if_pos heq]
    exact ⟨s, by simp [updateBase, val_injective heq], h⟩
  · rw [if_neg (Int.ne_of_gt hgt)]
    obtain ⟨t, ht, hmoved, hmax⟩ :=
      updateBase_up_moved hends hgt (hexact.1 hgt) (by omega)
    refine ⟨t, ht, represents_move hwindow hmoved.base_eq hmax hmoved.ends fun v => ?_⟩
    rw [hmoved.members, h.mem_iff]
    -- A member of the old window does not reach past the new one.
    constructor
    · rintro ⟨hold, hle⟩
      have := hbits hold
      exact ⟨hold, hle, by omega⟩
    · rintro ⟨hold, hle, -⟩
      exact ⟨hold, hle⟩

omit [DecidableEq T] in
theorem add_represents (h : Represents s w) (item : T) :
    ∃ r, s.add item = some r ∧ Represents r.2 (w.fill {val item}) := by
  by_cases hin : val s.base_ ≤ val item ∧ val item ≤ val s.range_max_
  · obtain ⟨p, hp⟩ : ∃ p : Nat, val item = val s.base_ + p := Int.exists_add_of_le hin.1
    obtain ⟨t, ht, hwf, hbase, hmax, hbits⟩ := add_inside h.toWf hp hin.2
    refine ⟨_, ht, h.of_same hwf hbase hmax rfl rfl fun v => ?_⟩
    rw [Window.mem_fill, h.mem_iff, Set.mem_singleton_iff, h.low_eq, h.high_eq]
    constructor
    · rintro (⟨q, hq, rfl⟩ | ⟨rfl, -⟩)
      · exact ⟨q, by rw [hbits, hq, Bool.true_or], by rw [hbase]⟩
      · exact ⟨p, by rw [hbits, decide_eq_true rfl, Bool.or_true], by rw [hbase]; exact hp⟩
    · rintro ⟨q, hq, rfl⟩
      rw [hbits, Bool.or_eq_true, decide_eq_true_eq] at hq
      rw [hbase]
      rcases hq with hq | rfl
      · exact Or.inl ⟨q, hq, rfl⟩
      · exact Or.inr ⟨hp.symm, by omega, by omega⟩
  · refine ⟨_, add_outside hin, h.of_same h.toWf rfl rfl rfl rfl fun v => ?_⟩
    rw [Window.mem_fill, h.mem_iff, Set.mem_singleton_iff, h.low_eq, h.high_eq]
    constructor
    · rintro (hold | ⟨rfl, hv⟩)
      · exact hold
      · exact absurd hv hin
    · exact Or.inl

omit [DecidableEq T] in
theorem addRange_represents (h : Represents s w) {from_ to_ : T}
    (hkeeps : Op.Keeps s (.addRange from_ to_)) :
    ∃ t, s.addRange from_ to_ = some t ∧
      Represents t (w.fill { v | val from_ ≤ v ∧ v < val to_ }) := by
  have hrange := h.range_max_le
  obtain ⟨t, ht, hwf⟩ := addRange_wf h.toWf hkeeps
  obtain ⟨u, hu, hbase, hmax, -, hbits⟩ := addRange_bits h.toWf from_ to_
  obtain rfl : t = u := Option.some.inj (ht.symm.trans hu)
  refine ⟨t, ht, h.of_same hwf hbase hmax rfl rfl fun v => ?_⟩
  rw [Window.mem_fill, h.mem_iff, Set.mem_ofPred_eq, h.low_eq, h.high_eq]
  constructor
  · rintro (⟨q, hq, rfl⟩ | ⟨⟨hfrom, hto⟩, hlow, hhigh⟩)
    · exact ⟨q, by rw [hbits, hq, Bool.true_or], by rw [hbase]⟩
    · refine ⟨(v - val s.base_).toNat, ?_, by rw [hbase]; omega⟩
      rw [hbits, decide_eq_true (by unfold Clipped; omega), Bool.or_true]
  · rintro ⟨q, hq, rfl⟩
    rw [hbits, Bool.or_eq_true, decide_eq_true_eq] at hq
    rw [hbase]
    rcases hq with hq | ⟨hfrom, hto, hq256⟩
    · exact Or.inl ⟨q, hq, rfl⟩
    · exact Or.inr ⟨⟨hfrom, hto⟩, by omega, hkeeps _ (by omega) hfrom hto (by omega)⟩

omit [DecidableEq T] in
/-- `max()` in a state where `remove` keeps to the window. -/
theorem max_of_keeps (h : Wf s) {item : T} (hkeeps : Op.Keeps s (.remove item)) :
    ∃ m, s.max = some m ∧
      (val s.base_ ≤ val item → val item ≤ val m → val item < val s.base_ + 256) ∧
      (s.num_bits_ ≠ 0 → val m = val s.base_ + (s.num_bits_ - 1 : Nat)) := by
  have hmax := h.range_max_le
  have hnum := h.num_bits_le
  by_cases hzero : s.num_bits_ = 0
  · obtain ⟨m, hm, hnear⟩ := hkeeps hzero
    exact ⟨m, hm, hnear, fun hne => absurd hzero hne⟩
  · obtain ⟨m, hm, hval⟩ := h.max_eq (by omega)
    exact ⟨m, hm, fun _ _ => by omega, fun _ => hval⟩

theorem remove_represents (h : Represents s w) {item : T}
    (hkeeps : Op.Keeps s (.remove item)) :
    ∃ t, s.remove item = some t ∧ Represents t (w.drop (val item)) := by
  obtain ⟨m, hm, hnear, hlast⟩ := max_of_keeps h.toWf hkeeps
  by_cases hin : val s.base_ ≤ val item ∧ val item ≤ val m
  · obtain ⟨t, ht, hwf⟩ := remove_wf h.toWf hkeeps
    obtain ⟨p, hp⟩ : ∃ p : Nat, val item = val s.base_ + p := Int.exists_add_of_le hin.1
    have hlt := hnear hin.1 hin.2
    obtain ⟨u, hu, hbase, hmax, -, hbits⟩ :=
      remove_inside h.ends hm hp (by omega) hin.2 (by
        intro hne
        have hval := hlast hne
        constructor
        · rintro rfl
          omega
        · intro heq
          exact val_injective (by omega))
    obtain rfl : t = u := Option.some.inj (ht.symm.trans hu)
    refine ⟨t, ht, h.of_same hwf hbase hmax rfl rfl fun v => ?_⟩
    rw [Window.mem_drop, h.mem_iff]
    constructor
    · rintro ⟨⟨q, hq, rfl⟩, hne⟩
      refine ⟨q, ?_, by rw [hbase]⟩
      rw [hbits, hq, Bool.true_and, decide_eq_true_eq]
      rintro rfl
      exact hne hp.symm
    · rintro ⟨q, hq, rfl⟩
      rw [hbits, Bool.and_eq_true, decide_eq_true_eq] at hq
      rw [hbase]
      exact ⟨⟨q, hq.1, rfl⟩, by omega⟩
  · -- The item lies outside the bitmap, so that it is no member.
    refine ⟨s, remove_outside hm hin, h.of_same h.toWf rfl rfl rfl rfl fun v => ?_⟩
    rw [Window.mem_drop, h.mem_iff]
    refine ⟨And.left, fun hold => ⟨hold, ?_⟩⟩
    rintro rfl
    obtain ⟨q, hq, heq⟩ := hold
    have hlt := h.ends.bits_lt q hq
    have hval := hlast (by omega)
    exact hin ⟨by omega, by omega⟩

omit [DecidableEq T] in
theorem setBitmap_represents (h : Represents s w) {num_bits : Nat} {bitmap : Nat → BitVec 32}
    (hexact : Op.Exact s (.setBitmap num_bits bitmap)) :
    ∃ t, s.setBitmap num_bits bitmap = some t ∧
      Represents t (w.load (declared w.low num_bits bitmap)) := by
  obtain ⟨huncut, hkeeps⟩ := hexact
  obtain ⟨t, ht, hwf⟩ := setBitmap_wf h.toWf hkeeps
  obtain ⟨u, hu, hbase, hmax, hbits, -⟩ := (loadsExactly_iff s num_bits bitmap).2 huncut
  obtain rfl : t = u := Option.some.inj (ht.symm.trans hu)
  refine ⟨t, ht, h.of_same hwf hbase hmax rfl rfl fun v => ?_⟩
  rw [Window.mem_load, h.low_eq, h.high_eq]
  constructor
  · rintro ⟨⟨p, hp, hset, rfl⟩, -⟩
    exact ⟨p, (hbits p).2 ⟨hp, hset⟩, by rw [hbase]⟩
  · rintro ⟨p, hp, rfl⟩
    have hle := hwf.bit_le_range_max hp
    obtain ⟨hlt, hset⟩ := (hbits p).1 hp
    rw [hbase] at hle ⊢
    rw [hmax] at hle
    exact ⟨⟨p, hlt, hset, rfl⟩, by omega, hle⟩

/-- The step lemma: the code does on the bitmap what the operation is for. -/
theorem represents_step (h : Represents s w) {op : Op T} (hwindow : op.Windowed)
    (hexact : op.Exact s) :
    ∃ t, machine.step s op = some t ∧ Represents t (op.apply w) := by
  cases op with
  | base base =>
      exact represents_newCapped hwindow 255
  | baseCapped base max_bits =>
      exact represents_newCapped hwindow max_bits
  | updateBase base =>
      exact updateBase_represents h hwindow hexact
  | add item =>
      obtain ⟨r, hr, hrel⟩ := add_represents h item
      exact ⟨r.2, by simp [machine, step, hr], hrel⟩
  | addRange from_ to_ =>
      exact addRange_represents h hexact
  | remove item =>
      exact remove_represents h hexact
  | setBitmap num_bits bitmap =>
      exact setBitmap_represents h hexact

/-- A run from a constructor whose operations do what they are for returns, and every reader
describes the set that the operations make on integers. -/
theorem refines_window {base : T} (hbase : val base + 256 ≤ limit T) (max_bits : Nat)
    {ops : List (Op T)}
    (hexact : ∀ s, newCapped base max_bits = some s →
      machine.Along (fun s op => op.Windowed ∧ op.Exact s) s ops) :
    ∃ s t, newCapped base max_bits = some s ∧ machine.exec s ops = some t ∧
      Represents t (ops.foldl Op.apply
        (Window.opened (val base) (val base + (Nat.min max_bits 255 : Nat)))) ∧
      Reads t (ops.foldl Op.apply
        (Window.opened (val base) (val base + (Nat.min max_bits 255 : Nat)))) := by
  obtain ⟨s, hs, hrel⟩ := represents_newCapped hbase max_bits
  obtain ⟨t, ht, hend⟩ := machine.exec_refines
    (R := Represents) (P := fun s op => op.Windowed ∧ op.Exact s)
    (fun _ _ _ hrel hop => represents_step hrel hop.1 hop.2) hrel (hexact s hs)
  exact ⟨s, t, hs, ht, hend, hend.reads⟩

/-- A sequence number is added, the base moves up to 4 and the number is removed. -/
def addsAndMoves : List (Op SequenceNumber) :=
  [.add ⟨0#32, 5#32⟩, .updateBase ⟨0#32, 4#32⟩, .remove ⟨0#32, 5#32⟩]

theorem refines_window_sequence_numbers :
    ∃ s t : SequenceNumberSet, newCapped ⟨0#32, 1#32⟩ 10 = some s ∧
      machine.exec s addsAndMoves = some t ∧ t.empty = true ∧
      Reads t (addsAndMoves.foldl Op.apply (Window.opened 1 11)) := by
  have hrun : ∀ s, newCapped (⟨0#32, 1#32⟩ : SequenceNumber) 10 = some s →
      machine.Along (fun s op => op.Windowed ∧ op.Exact s) s addsAndMoves := by
    intro s hs
    cases hs
    refine ⟨⟨trivial, trivial⟩, fun t ht => ?_⟩
    cases ht
    refine ⟨⟨by unfold Op.Windowed; decide, fun _ => by decide, fun hdown => ?_⟩, fun t ht => ?_⟩
    · exact absurd hdown (by decide)
    · cases ht
      refine ⟨⟨trivial, fun hzero => ?_⟩, fun _ _ => trivial⟩
      cases hzero
  obtain ⟨s, t, hs, ht, -, hreads⟩ := refines_window (by decide) 10 hrun
  refine ⟨s, t, hs, ht, ?_, hreads⟩
  cases hs
  cases ht
  rfl

end BitmapRange

end DataStructure
end Mozi
