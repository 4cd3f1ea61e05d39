import Mozi.DataStructure.BitmapMutators
import Mozi.DataStructure.BitmapShiftRight
import Mozi.DataStructure.SequenceNumber

/-!
# BitmapMoveDown — which members survive a move of the window down

`updateBase` with a base below the old one.  `MovedDown` says what the move is for: the members
that fit into the new window stay, and `num_bits_` ends them.  `updateBase_down_iff` is the exact
condition on the distance and on the set bits.
-/

namespace Mozi
namespace DataStructure

open Foundation BitArray

namespace BitmapRange

open LawfulRangeItem

/-! ## Distances and bits -/

section Shift

variable {T : Type} {s : BitmapRange T} {d n : Nat}

/-- The bits of `b`, moved up by `d` positions, as far as they fit. -/
def ShiftedBy (b c : Vector (BitVec 32) 8) (d : Nat) : Prop :=
  ∀ p, bit c p = true ↔ p < 256 ∧ d ≤ p ∧ bit b (p - d) = true

/-- The result of a shift that is to move the bits by `d`. -/
def Lowered (s u : BitmapRange T) (d : Nat) : Prop :=
  ShiftedBy s.bitmap_ u.bitmap_ d ∧ EndsAt u.bitmap_ u.num_bits_

/-- Whole words: no bit that has to stay lies among the last or the first ones.  For a distance
`d` that has wrapped to `n` no bit may stay at all. -/
def WordsSurvive (b : Vector (BitVec 32) 8) (d n : Nat) : Prop :=
  ∀ P, bit b P = true → P + n < 256 → n ≤ P ∧ (P + 2 * n < 256 ↔ d = n)

/-- Words and bits: a bit that the loop does not keep is made up for by one that strays to its
place, and every bit that strays comes out where another one has to. -/
def PartsSurvive (b : Vector (BitVec 32) 8) (d n : Nat) : Prop :=
  if d = n then
    (∀ P, bit b P = true → P + n < 256 →
      Kept n P ∨ (Strays n (P + 2 * (n % 32)) ∧ bit b (P + 2 * (n % 32)) = true)) ∧
      ∀ P, bit b P = true → Strays n P →
        2 * (n % 32) ≤ P ∧ bit b (P - 2 * (n % 32)) = true
  else
    ∀ P, bit b P = true → ¬ (P + n < 256 ∧ Kept n P) ∧ ¬ Strays n P

/-- `num_bits_` ends the moved bits: the sum of the lengths does, or the search finds the end. -/
def EndSurvives (num_bits d n : Nat) : Prop :=
  if d = n then 0 < num_bits else 256 < num_bits + n

/-- When `shift_map_right` moves the bits by `d`; it is given `d` in 32 bits. -/
def SurvivesDown (s : BitmapRange T) (d : Nat) : Prop :=
  256 ≤ u32 d ∨ (u32 d = 0 ∧ s.num_bits_ = 0) ∨
    (32 ≤ u32 d ∧ u32 d < 256 ∧ EndSurvives s.num_bits_ d (u32 d) ∧
      if u32 d % 32 = 0 then WordsSurvive s.bitmap_ d (u32 d)
      else PartsSurvive s.bitmap_ d (u32 d))

theorem closeShift_bitmap {c : Vector (BitVec 32) 8} {u : BitmapRange T}
    (h : closeShift s n c = some u) : u.bitmap_ = c := by
  unfold closeShift calcMaximumBitSet at h
  split_ifs at h
  · obtain ⟨m, _, hu⟩ := Option.bind_eq_some_iff.1 h
    cases hu
    rfl
  · cases h
    rfl

/-- The end is right exactly if the set was not empty, and a wrapped distance has led to a
search. -/
theorem closeShift_ends {c : Vector (BitVec 32) 8} (hends : EndsAt s.bitmap_ s.num_bits_)
    (hpos : 0 < n) (hd : d = n ∨ 256 ≤ d) (hn : n < 256) (hbits : ShiftedBy s.bitmap_ c d) :
    (∃ u, closeShift s n c = some u ∧ EndsAt u.bitmap_ u.num_bits_) ↔
      EndSurvives s.num_bits_ d n := by
  unfold closeShift EndSurvives
  by_cases hlong : s.num_bits_ + n > 256
  · rw [if_pos hlong]
    obtain ⟨u, hu, _, _, hbitmap, hends'⟩ :=
      calcMaximumBitSet_spec (s := { s with num_bits_ := s.num_bits_ + n, bitmap_ := c })
        (l := n / 32) (k := 8) (by omega)
        (fun p hp => by have := (hbits p).1 hp; omega)
        (fun p hp => by have := (hbits p).1 hp; omega)
    refine ⟨fun _ => ?_, fun _ => ⟨u, hu, hends'⟩⟩
    split_ifs <;> omega
  · rw [if_neg hlong]
    constructor
    · rintro ⟨u, hu, hends'⟩
      cases hu
      -- The sum of the lengths is positive, so that there is a last bit.
      obtain ⟨_, hle, hset⟩ := (hbits _).1 (hends'.top (by simp only; omega))
      simp only at hle hset
      rcases hd with rfl | hd
      · rw [if_pos rfl]
        by_contra hzero
        have := hends.bits_lt _ hset
        omega
      · omega
    · intro hend
      split_ifs at hend with heq
      · subst heq
        refine ⟨_, rfl, ?_, ?_⟩
        · intro p hp
          obtain ⟨_, hle, hset⟩ := (hbits p).1 hp
          have := hends.bits_lt _ hset
          simp only
          omega
        · intro _
          show bit c (s.num_bits_ + d - 1) = true
          refine (hbits _).2 ⟨by omega, by omega, ?_⟩
          rw [show s.num_bits_ + d - 1 - d = s.num_bits_ - 1 by omega]
          exact hends.top hend
      · omega

theorem lowered_closeShift {c : Vector (BitVec 32) 8} (hends : EndsAt s.bitmap_ s.num_bits_)
    (hpos : 0 < n) (hd : d = n ∨ 256 ≤ d) (hn : n < 256) :
    (∃ u, closeShift s n c = some u ∧ Lowered s u d) ↔
      EndSurvives s.num_bits_ d n ∧ ShiftedBy s.bitmap_ c d := by
  constructor
  · rintro ⟨u, hu, hbits, hends'⟩
    rw [closeShift_bitmap hu] at hbits
    exact ⟨(closeShift_ends hends hpos hd hn hbits).1 ⟨u, hu, hends'⟩, hbits⟩
  · rintro ⟨hend, hbits⟩
    obtain ⟨u, hu, hends'⟩ := (closeShift_ends hends hpos hd hn hbits).2 hend
    refine ⟨u, hu, ?_, hends'⟩
    rw [closeShift_bitmap hu]
    exact hbits

/-! ## The two branches -/

/-- An array without bits is what a long distance leaves. -/
theorem shiftedBy_far {b c : Vector (BitVec 32) 8} (hd : 256 ≤ d) :
    ShiftedBy b c d ↔ ∀ p, bit c p = false := by
  constructor
  · intro h p
    by_contra hset
    have := (h p).1 (by simpa using hset)
    omega
  · intro h p
    rw [h p]
    constructor
    · intro hfalse
      cases hfalse
    · omega

theorem words_survive_iff {b c : Vector (BitVec 32) 8} (hpos : 0 < n) (hn : n < 256)
    (hd : d = n ∨ 256 ≤ d)
    (hc : ∀ p, bit c p = (decide (p + n < 256) && if p < n then bit b p else bit b (p - n))) :
    ShiftedBy b c d ↔ WordsSurvive b d n := by
  constructor
  · intro h P hP hPn
    have hle : n ≤ P := by
      -- A bit among the first ones keeps its place.
      by_contra hlt
      have hset : bit c P = true := by
        rw [hc, decide_eq_true hPn, if_pos (by omega), hP]
        rfl
      have := (h P).1 hset
      omega
    have hmoved : bit c (P + n) = decide (P + 2 * n < 256) := by
      calc
        bit c (P + n) = (decide (P + n + n < 256) && bit b (P + n - n)) := by
          rw [hc, if_neg (by omega)]
        _ = decide (P + 2 * n < 256) := by
          rw [Nat.add_sub_cancel, hP, Bool.and_true, show P + n + n = P + 2 * n by omega]
    refine ⟨hle, ?_, ?_⟩
    · intro hfits
      have := (h (P + n)).1 (by rw [hmoved]; exact decide_eq_true hfits)
      omega
    · rintro rfl
      have hset := (h (P + d)).2 ⟨hPn, by omega, by rw [Nat.add_sub_cancel]; exact hP⟩
      rw [hmoved] at hset
      exact of_decide_eq_true hset
  · intro h p
    rw [hc, Bool.and_eq_true, decide_eq_true_eq]
    constructor
    · rintro ⟨hfits, hset⟩
      split_ifs at hset with hlow
      · have := (h p hset hfits).1
        omega
      · have heq := (h (p - n) hset (by omega)).2.1 (by omega)
        subst heq
        exact ⟨by omega, by omega, hset⟩
    · rintro ⟨hp, hle, hset⟩
      obtain rfl : d = n := by omega
      obtain ⟨hfirst, hlast⟩ := h (p - d) hset (by omega)
      have hfits := hlast.2 rfl
      refine ⟨by omega, ?_⟩
      rw [if_neg (by omega)]
      exact hset

namespace PartsMoved

variable {b c : Vector (BitVec 32) 8} {P : Nat}

theorem kept (h : PartsMoved b c n) (hP : bit b P = true) (hPn : P + n < 256)
    (hk : Kept n P) : bit c (P + n) = true := by
  refine (h _).2 ⟨hPn, Or.inl ⟨by omega, ?_, ?_⟩⟩
  · rwa [Nat.add_sub_cancel]
  · rwa [Nat.add_sub_cancel]

theorem stray (h : PartsMoved b c n) (hge : 32 ≤ n) (hn : n < 256) (hP : bit b P = true)
    (hs : Strays n P) : bit c (P + n - 2 * (n % 32)) = true := by
  obtain ⟨hle, hlt⟩ := hs.lands hge hn
  have hsource : P + n - 2 * (n % 32) + 2 * (n % 32) - n = P := by omega
  exact (h _).2 ⟨hlt, Or.inr ⟨by omega, by rwa [hsource], by rwa [hsource]⟩⟩

/-- The bits have moved by `n` exactly if every bit that has to stay has a bit at its new place,
and every bit that strays comes out at the new place of another one. -/
theorem near (h : PartsMoved b c n) (hge : 32 ≤ n) (hn : n < 256) :
    ShiftedBy b c n ↔
      (∀ P, bit b P = true → P + n < 256 →
        Kept n P ∨ (Strays n (P + 2 * (n % 32)) ∧ bit b (P + 2 * (n % 32)) = true)) ∧
        ∀ P, bit b P = true → Strays n P →
          2 * (n % 32) ≤ P ∧ bit b (P - 2 * (n % 32)) = true := by
  constructor
  · intro hshift
    refine ⟨fun P hP hPn => ?_, fun P hP hs => ?_⟩
    · have hset := (hshift (P + n)).2 ⟨hPn, by omega, by rwa [Nat.add_sub_cancel]⟩
      have hsource : P + n + 2 * (n % 32) - n = P + 2 * (n % 32) := by omega
      rcases ((h _).1 hset).2 with ⟨_, hk, _⟩ | ⟨_, hs, hP'⟩
      · rw [Nat.add_sub_cancel] at hk
        exact Or.inl hk
      · rw [hsource] at hs hP'
        exact Or.inr ⟨hs, hP'⟩
    · obtain ⟨_, hle, hset⟩ := (hshift _).1 (h.stray hge hn hP hs)
      obtain ⟨hle', _⟩ := hs.lands hge hn
      rw [show P + n - 2 * (n % 32) - n = P - 2 * (n % 32) by omega] at hset
      exact ⟨by omega, hset⟩
  · rintro ⟨hmoved, hstrayed⟩ p
    constructor
    · intro hset
      obtain ⟨hp, ⟨hle, _, hset⟩ | ⟨hle, hs, hset⟩⟩ := (h p).1 hset
      · exact ⟨hp, hle, hset⟩
      · obtain ⟨hle', hset'⟩ := hstrayed _ hset hs
        rw [show p + 2 * (n % 32) - n - 2 * (n % 32) = p - n by omega] at hset'
        exact ⟨hp, by omega, hset'⟩
    · rintro ⟨hp, hle, hset⟩
      apply (h p).2
      refine ⟨hp, ?_⟩
      rcases hmoved _ hset (by omega) with hk | ⟨hs, hset'⟩
      · exact Or.inl ⟨hle, hk, hset⟩
      · rw [show p - n + 2 * (n % 32) = p + 2 * (n % 32) - n by omega] at hs hset'
        exact Or.inr ⟨by omega, hs, hset'⟩

/-- The bits have moved by a distance that has wrapped to `n` exactly if none is left. -/
theorem far (h : PartsMoved b c n) (hge : 32 ≤ n) (hn : n < 256) (hd : 256 ≤ d) :
    ShiftedBy b c d ↔
      ∀ P, bit b P = true → ¬ (P + n < 256 ∧ Kept n P) ∧ ¬ Strays n P := by
  rw [shiftedBy_far hd]
  constructor
  · intro hnone P hP
    refine ⟨fun hk => ?_, fun hs => ?_⟩
    · have hset := h.kept hP hk.1 hk.2
      rw [hnone] at hset
      cases hset
    · have hset := h.stray hge hn hP hs
      rw [hnone] at hset
      cases hset
  · intro hnothing p
    by_contra hset
    obtain ⟨hp, ⟨hle, hk, hset⟩ | ⟨_, hs, hset⟩⟩ := (h p).1 (by simpa using hset)
    · exact (hnothing _ hset).1 ⟨by omega, hk⟩
    · exact (hnothing _ hset).2 hs

theorem survive_iff (h : PartsMoved b c n) (hge : 32 ≤ n) (hn : n < 256) (hd : d = n ∨ 256 ≤ d) :
    ShiftedBy b c d ↔ PartsSurvive b d n := by
  unfold PartsSurvive
  split_ifs with heq
  · subst heq
    exact h.near hge hn
  · exact h.far hge hn (by omega)

end PartsMoved

/-! ## `shift_map_right` -/

theorem lowered_self (hends : EndsAt s.bitmap_ s.num_bits_) (hd : 256 ≤ d) :
    Lowered s s d ↔ s.num_bits_ = 0 := by
  unfold Lowered
  rw [shiftedBy_far hd]
  constructor
  · rintro ⟨hnone, _⟩
    by_contra hne
    have htop := hends.top (by omega)
    rw [hnone] at htop
    cases htop
  · intro hzero
    exact ⟨fun p => hends.bit_eq_false (by omega), hends⟩

theorem shiftMapRight_exact (hends : EndsAt s.bitmap_ s.num_bits_) (hpos : 0 < d) :
    (∃ u, shiftMapRight s (u32 d) = some u ∧ Lowered s u d) ↔ SurvivesDown s d := by
  have h256 : s.num_bits_ ≤ 256 := hends.le
  have hd : d = u32 d ∨ 256 ≤ d := by
    unfold u32
    omega
  have hle : u32 d ≤ d := Nat.mod_le _ _
  unfold SurvivesDown
  generalize u32 d = n at hd hle ⊢
  rcases Nat.lt_or_ge n 256 with hn | hfar
  · rcases Nat.lt_or_ge n 32 with hsmall | hge
    · rcases Nat.eq_zero_or_pos n with rfl | hnpos
      · -- Nothing is shifted, although every member has to go.
        rw [shiftMapRight_zero h256]
        simp [lowered_self hends (show 256 ≤ d by omega)]
      · rw [shiftMapRight_small hnpos hsmall]
        constructor
        · rintro ⟨u, hu, _⟩
          cases hu
        · omega
    · by_cases hr : n % 32 = 0
      · obtain ⟨c, hshift, hc⟩ := shiftMapRight_words (s := s) hn hr
        rw [hshift, lowered_closeShift hends (by omega) hd hn,
          words_survive_iff (by omega) hn hd hc]
        simp [hr, hge, hn, show ¬ 256 ≤ n by omega, show n ≠ 0 by omega]
      · obtain ⟨c, hshift, hc⟩ := shiftMapRight_parts (s := s) hge hn hr
        rw [hshift, lowered_closeShift hends (by omega) hd hn, hc.survive_iff hge hn hd]
        simp [hr, hge, hn, show ¬ 256 ≤ n by omega, show n ≠ 0 by omega]
  · rw [shiftMapRight_of_le hfar]
    have hnone : Lowered s { s with num_bits_ := 0, bitmap_ := Vector.replicate 8 0#32 } d :=
      ⟨(shiftedBy_far (by omega)).2 fun p => bit_replicate, EndsAt.zero⟩
    exact ⟨fun _ => Or.inl hfar, fun _ => ⟨_, rfl, hnone⟩⟩

end Shift

/-! ## `updateBase` -/

section UpdateBase

variable {T : Type} [RangeItem T] [LawfulRangeItem T] {s t : BitmapRange T} {base : T}

/-- The value `v` is a member. -/
def HoldsAt (s : BitmapRange T) (v : Int) : Prop :=
  ∃ p : Nat, bit s.bitmap_ p = true ∧ v = val s.base_ + p

/-- What a move of the window down to `base` is for: `t` has the members of `s` that fit, and
`num_bits_` is the position of the largest one plus one. -/
structure MovedDown (s t : BitmapRange T) (base : T) : Prop where
  base_eq : t.base_ = base
  members : ∀ v, HoldsAt t v ↔ HoldsAt s v ∧ val base ≤ v ∧ v ≤ val base + 255
  ends : EndsAt t.bitmap_ t.num_bits_

/-- The distance of a move down. -/
def distanceDown (s : BitmapRange T) (base : T) : Nat :=
  (val s.base_ - val base).toNat

theorem movedDown_iff (hdown : val base < val s.base_) (hbase : t.base_ = base) :
    MovedDown s t base ↔ Lowered s t (distanceDown s base) := by
  have hd : val s.base_ = val base + distanceDown s base := by
    unfold distanceDown
    omega
  have hval : val t.base_ = val base := by rw [hbase]
  generalize distanceDown s base = d at hd ⊢
  have hmember : ∀ u : BitmapRange T, ∀ p : Nat, HoldsAt u (val u.base_ + p) ↔
      bit u.bitmap_ p = true := by
    intro u p
    constructor
    · rintro ⟨q, hq, heq⟩
      obtain rfl : p = q := by omega
      exact hq
    · intro hp
      exact ⟨p, hp, rfl⟩
  constructor
  · rintro ⟨_, hmembers, hends⟩
    refine ⟨fun p => ?_, hends⟩
    rw [← hmember t p, hmembers, hbase]
    constructor
    · rintro ⟨⟨q, hq, heq⟩, _, hlt⟩
      rw [show p - d = q by omega]
      exact ⟨by omega, by omega, hq⟩
    · rintro ⟨hlt, hle, hset⟩
      exact ⟨⟨p - d, hset, by omega⟩, by omega, by omega⟩
  · rintro ⟨hbits, hends⟩
    refine ⟨hbase, fun v => ?_, hends⟩
    constructor
    · rintro ⟨p, hp, rfl⟩
      obtain ⟨hlt, hle, hset⟩ := (hbits p).1 hp
      rw [hbase]
      exact ⟨⟨p - d, hset, by omega⟩, by omega, by omega⟩
    · rintro ⟨⟨q, hq, rfl⟩, hle, hlt⟩
      refine ⟨q + d, (hbits _).2 ⟨by omega, by omega, ?_⟩, by omega⟩
      rwa [Nat.add_sub_cancel]

variable [DecidableEq T]

/-- A move down does what it is for exactly if the new window can be built and the shift moves
the bits by the distance. -/
theorem updateBase_down_iff (hends : EndsAt s.bitmap_ s.num_bits_)
    (hdown : val base < val s.base_) :
    (∃ t, s.updateBase base = some t ∧ MovedDown s t base) ↔
      (RangeItem.add base 255).isSome = true ∧ SurvivesDown s (distanceDown s base) := by
  have hpos : 0 < distanceDown s base := by
    unfold distanceDown
    omega
  have hdistance : distance32 s.base_ base = u32 (distanceDown s base) := by
    unfold distance32 u32 distanceDown
    omega
  rw [← shiftMapRight_exact hends hpos, ← hdistance, updateBase_down hdown]
  constructor
  · rintro ⟨t, ht, hmoved⟩
    obtain ⟨u, hu, ht⟩ := Option.bind_eq_some_iff.1 ht
    obtain ⟨r, hr, ht⟩ := Option.bind_eq_some_iff.1 ht
    cases ht
    have hlowered := (movedDown_iff hdown rfl).1 hmoved
    exact ⟨Option.isSome_iff_exists.2 ⟨r, hr⟩, u, hu, hlowered⟩
  · rintro ⟨hr, u, hu, hlowered⟩
    obtain ⟨r, hr⟩ := Option.isSome_iff_exists.1 hr
    refine ⟨{ u with base_ := base, range_max_ := r }, by simp [hu, hr], ?_⟩
    exact (movedDown_iff hdown rfl).2 hlowered

/-- The set with base 1000 and one member, at position 100. -/
def oneHigh : SequenceNumberSet :=
  ⟨⟨0#32, 1000#32⟩, ⟨0#32, 1255#32⟩, (Vector.replicate 8 0#32).set 3 (1#32 <<< 27), 101⟩

theorem oneHigh_endsAt : EndsAt oneHigh.bitmap_ oneHigh.num_bits_ :=
  EndsAt.single (w := 32) (i := 3) (d := 4) (by decide) (by decide)

/-- The member moves from position 100 to position 164. -/
theorem updateBase_down_iff_two_words :
    ∃ t, oneHigh.updateBase ⟨0#32, 936#32⟩ = some t ∧ MovedDown oneHigh t ⟨0#32, 936#32⟩ := by
  have hdistance : distanceDown oneHigh ⟨0#32, 936#32⟩ = 64 := by decide
  have hbit : ∀ P, bit oneHigh.bitmap_ P = true → P = 100 := by
    intro P hP
    have hset : bit ((Vector.replicate 8 0#32).set 3 (1#32 <<< 27)) P = true := hP
    rw [bit_set (by decide), bit_replicate] at hset
    split_ifs at hset with hword
    rw [getMsbD_one_shiftLeft (w := 32) (d := 4) (by decide), decide_eq_true_eq] at hset
    omega
  refine (updateBase_down_iff oneHigh_endsAt (by decide)).2 ⟨by decide, ?_⟩
  rw [hdistance]
  refine Or.inr (Or.inr ⟨by decide, by decide, by unfold EndSurvives; decide, ?_⟩)
  intro P hP _
  obtain rfl := hbit P hP
  decide

/-- The set with base 100 and member 100. -/
def oneLow : SequenceNumberSet :=
  ⟨⟨0#32, 100#32⟩, ⟨0#32, 355#32⟩,
    #v[1#32 <<< 31, 0#32, 0#32, 0#32, 0#32, 0#32, 0#32, 0#32], 1⟩

/-- The base moves from 100 down to 95, and `bitmap_[8]` is read; it moves down to 68, and 68 is
a member afterwards. -/
theorem low_member_left_behind :
    EndsAt oneLow.bitmap_ oneLow.num_bits_ ∧
      oneLow.updateBase ⟨0#32, 95#32⟩ = none ∧
      ∃ t, oneLow.updateBase ⟨0#32, 68#32⟩ = some t ∧ t.isSet ⟨0#32, 68#32⟩ = some true ∧
        ¬ MovedDown oneLow t ⟨0#32, 68#32⟩ := by
  refine ⟨EndsAt.single (w := 32) (i := 0) (d := 0) (by decide) (by decide), rfl, _, rfl, rfl, ?_⟩
  intro hmoved
  have hset := (hmoved.members 68).1 ⟨0, rfl, by decide⟩
  obtain ⟨⟨p, _, hp⟩, _⟩ := hset
  have hbase : LawfulRangeItem.val oneLow.base_ = (100 : Int) := by decide
  omega

end UpdateBase

end BitmapRange

end DataStructure
end Mozi
