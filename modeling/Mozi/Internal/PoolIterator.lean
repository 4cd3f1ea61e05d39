import Mozi.Internal.PoolBookkeeping

/-!
# PoolIterator — iterating over the used cells

`Iterator`, `begin`, `end` and `iterator` of `object_pool.h`.  Each of them searches the flags for
itself, and the body of a loop may free the cell the iterator is on: the search for the next one
only reads the cells behind it.

An iterator is its index; the iterators of one pool share `pool_`.
-/

namespace Mozi
namespace Internal
namespace ObjectPool

open Foundation

variable {P : PoolLayout} {s t : State}

/-! ## The source -/

structure Iterator where
  index_ : Nat
  deriving DecidableEq, Repr

namespace State

/-- `for (int i = index; i < kCapacity; ++i)` with the rounds that are left. -/
def firstUsed (s : State) : Nat → Nat → Option Nat
  | 0, _ => none
  | rounds + 1, index => if s.occupied index then some index else s.firstUsed rounds (index + 1)

/-- The search of `begin` and of both increments. -/
def searchUsed (P : PoolLayout) (s : State) (index : Nat) : Nat :=
  (s.firstUsed (P.kCapacity - index) index).getD P.kCapacity

def begin (P : PoolLayout) (s : State) : Iterator :=
  ⟨s.searchUsed P 0⟩

def «end» (P : PoolLayout) : Iterator :=
  ⟨P.kCapacity⟩

/-- `iterator(index)`; `none` is an index outside the cells. -/
def iterator (P : PoolLayout) (s : State) (index : Nat) : Option Iterator :=
  (s.cell_[index]?).map fun cell => if cell.isUsed then ⟨index⟩ else State.end P

end State

namespace Iterator

/-- `operator++()` -/
def preIncrement (P : PoolLayout) (s : State) (it : Iterator) : Iterator :=
  ⟨s.searchUsed P (it.index_ + 1)⟩

/-- `operator++(int)`: the iterator that is returned, and the one that is left. -/
def postIncrement (P : PoolLayout) (s : State) (it : Iterator) : Iterator × Iterator :=
  (⟨it.index_⟩, ⟨s.searchUsed P (it.index_ + 1)⟩)

/-- `operator*()`.  The value is `none`: the end of the function is reached without a `return`. -/
def deref (s : State) (it : Iterator) : Option (Option Nat) :=
  (s.cell_[it.index_]?).map fun _ => none

/-- `operator->()` -/
def arrow (P : PoolLayout) (s : State) (it : Iterator) : Nat :=
  if it.index_ ≥ P.kCapacity then nullptr else s.get it.index_

end Iterator

/-! ## Loops over a pool -/

inductive Increment
  | pre
  | post

def Increment.apply (P : PoolLayout) (s : State) (it : Iterator) : Increment → Iterator
  | .pre => it.preIncrement P s
  | .post => (it.postIncrement P s).2

/-- What the body of a loop does with the cell it is on: nothing, or `remove(index, destruct)`. -/
abbrev Body := Nat → Option Bool

/-- A loop after some rounds, with the indices it has visited. -/
structure Loop where
  visited : List Nat
  it : Iterator
  pool : State

def runBody (body : Body) (s : State) (it : Iterator) : Option State :=
  match body it.index_ with
  | none => some s
  | some destruct => s.remove it.index_ destruct

def loopRound (P : PoolLayout) (form : Increment) (body : Body) (l : Loop) : Option Loop :=
  (runBody body l.pool l.it).map fun s =>
    { visited := l.visited ++ [l.it.index_]
      it := form.apply P s l.it
      pool := s }

/-- `for (auto it = pool.begin(); it != pool.end(); ++it)` -/
def forEach (P : PoolLayout) (form : Increment) (body : Body) (fuel : Nat) (s : State) :
    Option Loop :=
  whileM (fun l : Loop => l.it != State.end P) (loopRound P form body) fuel
    { visited := []
      it := s.begin P
      pool := s }

/-! ## The search -/

theorem firstUsed_some {rounds i j : Nat} (h : s.firstUsed rounds i = some j) :
    i ≤ j ∧ j < i + rounds ∧ s.occupied j = true ∧
      ∀ k, i ≤ k → k < j → s.occupied k = false := by
  induction rounds generalizing i with
  | zero =>
      cases h
  | succ rounds ih =>
      unfold State.firstUsed at h
      split_ifs at h with hused
      · cases h
        exact ⟨Nat.le_refl _, by omega, hused, fun k hle hlt => by omega⟩
      · obtain ⟨hle, hlt, hj, hbetween⟩ := ih h
        refine ⟨by omega, by omega, hj, ?_⟩
        intro k hik hkj
        rcases Nat.eq_or_lt_of_le hik with rfl | hlater
        · simpa using hused
        · exact hbetween k hlater hkj

theorem firstUsed_none {rounds i : Nat} (h : s.firstUsed rounds i = none) :
    ∀ k, i ≤ k → k < i + rounds → s.occupied k = false := by
  induction rounds generalizing i with
  | zero =>
      intro k hle hlt
      omega
  | succ rounds ih =>
      unfold State.firstUsed at h
      split_ifs at h with hused
      intro k hik hlt
      rcases Nat.eq_or_lt_of_le hik with rfl | hlater
      · simpa using hused
      · exact ih h k hlater (by omega)

/-- The search ends at the first used cell from an index on, or at the end. -/
theorem searchUsed_spec (hlen : s.cell_.length = P.kCapacity) {i : Nat} (hi : i ≤ P.kCapacity) :
    i ≤ s.searchUsed P i ∧ s.searchUsed P i ≤ P.kCapacity ∧
      (s.searchUsed P i < P.kCapacity → s.Used (s.searchUsed P i)) ∧
      ∀ k, i ≤ k → k < s.searchUsed P i → ¬ s.Used k := by
  have hunused : ∀ k, k < P.kCapacity → s.occupied k = false → ¬ s.Used k := by
    intro k hk hfree hused
    rw [← occupied_iff (hlen ▸ hk), hfree] at hused
    cases hused
  unfold State.searchUsed
  cases hfound : s.firstUsed (P.kCapacity - i) i with
  | none =>
      refine ⟨hi, Nat.le_refl _, fun hlt => absurd hlt (Nat.lt_irrefl _), ?_⟩
      intro k hle hlt
      exact hunused k hlt (firstUsed_none hfound k hle (by simpa [hi] using hlt))
  | some j =>
      obtain ⟨hle, hlt, hused, hbetween⟩ := firstUsed_some hfound
      have hj : j < P.kCapacity := by omega
      refine ⟨hle, Nat.le_of_lt hj, fun _ => (occupied_iff (hlen ▸ hj)).1 hused, ?_⟩
      intro k hik hkj
      exact hunused k (Nat.lt_trans hkj hj) (hbetween k hik hkj)

/-! ## One round -/

theorem apply_index (form : Increment) (s : State) (it : Iterator) :
    (form.apply P s it).index_ = s.searchUsed P (it.index_ + 1) := by
  cases form with
  | pre => rfl
  | post => rfl

/-- The body frees the cell the loop is on or no cell. -/
theorem runBody_spec (body : Body) {it : Iterator} (hused : s.Used it.index_) :
    ∃ t, runBody body s it = some t ∧ t.cell_.length = s.cell_.length ∧
      ∀ j, t.Used j ↔ s.Used j ∧ (j = it.index_ → body j = none) := by
  unfold runBody
  cases hbody : body it.index_ with
  | none =>
      refine ⟨s, rfl, rfl, fun j => ?_⟩
      refine ⟨fun hj => ⟨hj, ?_⟩, fun hj => hj.1⟩
      rintro rfl
      exact hbody
  | some destruct =>
      have hi := hused.lt
      obtain ⟨cell, hcell, hisUsed⟩ := hused
      refine ⟨_, by simp only [State.remove, hcell, Option.map_some, if_pos hisUsed]; rfl, ?_, ?_⟩
      · exact List.length_set
      · intro j
        rw [used_set hi rfl]
        by_cases hj : j = it.index_
        · simp [hj, hbody]
        · simp [hj]

/-- What a loop over the cells that were used in `s` has done before the round of `l.it`. -/
structure Visiting (P : PoolLayout) (s : State) (body : Body) (l : Loop) : Prop where
  length : l.pool.cell_.length = P.kCapacity
  le : l.it.index_ ≤ P.kCapacity
  on_used : l.it.index_ < P.kCapacity → l.pool.Used l.it.index_
  increasing : l.visited.Pairwise (· < ·)
  visited : ∀ i, i ∈ l.visited ↔ s.Used i ∧ i < l.it.index_
  used : ∀ i, l.pool.Used i ↔ s.Used i ∧ (i < l.it.index_ → body i = none)

theorem visiting_begin (hlen : s.cell_.length = P.kCapacity) (body : Body) :
    Visiting P s body { visited := [], it := s.begin P, pool := s } := by
  obtain ⟨-, hle, hused, hbefore⟩ := searchUsed_spec hlen (Nat.zero_le P.kCapacity)
  exact
    { length := hlen
      le := hle
      on_used := hused
      increasing := List.Pairwise.nil
      visited := by
        intro i
        simp only [List.not_mem_nil, false_iff, not_and, Nat.not_lt]
        intro hi
        by_contra hlt
        exact hbefore i (Nat.zero_le i) (Nat.lt_of_not_le hlt) hi
      used := by
        intro i
        refine ⟨fun hi => ⟨hi, fun hlt => ?_⟩, fun hi => hi.1⟩
        exact absurd hi (hbefore i (Nat.zero_le i) hlt) }

section Round

variable {body : Body} {l : Loop} {next : Nat}

/-- Behind the cell it is on the body changes nothing. -/
theorem Visiting.used_behind (h : Visiting P s body l)
    (hused : ∀ j, t.Used j ↔ l.pool.Used j ∧ (j = l.it.index_ → body j = none)) {i : Nat}
    (hi : l.it.index_ < i) : t.Used i ↔ s.Used i := by
  rw [hused, h.used]
  refine ⟨fun ht => ht.1.1, fun hs => ⟨⟨hs, fun hlt => ?_⟩, fun heq => ?_⟩⟩
  · omega
  · omega

theorem Visiting.visited_next (h : Visiting P s body l) (hlt : l.it.index_ < P.kCapacity)
    (hafter : l.it.index_ < next) (hskipped : ∀ i, l.it.index_ < i → i < next → ¬ s.Used i)
    (i : Nat) : i ∈ l.visited ++ [l.it.index_] ↔ s.Used i ∧ i < next := by
  rw [List.mem_append, List.mem_singleton, h.visited]
  constructor
  · rintro (⟨hs, hi⟩ | rfl)
    · exact ⟨hs, by omega⟩
    · exact ⟨((h.used _).1 (h.on_used hlt)).1, hafter⟩
  · rintro ⟨hs, hi⟩
    rcases Nat.lt_trichotomy i l.it.index_ with hbefore | hon | hbehind
    · exact Or.inl ⟨hs, hbefore⟩
    · exact Or.inr hon
    · exact absurd hs (hskipped i hbehind hi)

theorem Visiting.used_next (h : Visiting P s body l)
    (hused : ∀ j, t.Used j ↔ l.pool.Used j ∧ (j = l.it.index_ → body j = none))
    (hafter : l.it.index_ < next) (hskipped : ∀ i, l.it.index_ < i → i < next → ¬ s.Used i)
    (i : Nat) : t.Used i ↔ s.Used i ∧ (i < next → body i = none) := by
  rw [hused, h.used]
  constructor
  · rintro ⟨⟨hs, hbefore⟩, hon⟩
    refine ⟨hs, fun hi => ?_⟩
    rcases Nat.lt_trichotomy i l.it.index_ with hlt | heq | hgt
    · exact hbefore hlt
    · exact hon heq
    · exact absurd hs (hskipped i hgt hi)
  · rintro ⟨hs, hbefore⟩
    exact ⟨⟨hs, fun hi => hbefore (by omega)⟩, fun heq => hbefore (by omega)⟩

/-- A round visits the cell it is on and moves to the next one. -/
theorem Visiting.round (h : Visiting P s body l) (form : Increment)
    (hlt : l.it.index_ < P.kCapacity) :
    ∃ l', loopRound P form body l = some l' ∧ Visiting P s body l' ∧
      l.it.index_ < l'.it.index_ := by
  obtain ⟨t, hbody, hlength, hused⟩ := runBody_spec body (h.on_used hlt)
  obtain ⟨hafter, hle, hnext, hbetween⟩ :=
    searchUsed_spec (hlength.trans h.length) (i := l.it.index_ + 1) hlt
  have hskipped : ∀ i, l.it.index_ < i → i < t.searchUsed P (l.it.index_ + 1) → ¬ s.Used i := by
    intro i hi hbefore hs
    exact hbetween i hi hbefore ((h.used_behind hused hi).2 hs)
  refine ⟨_, by rw [loopRound, hbody]; rfl, ?_, by rw [apply_index]; exact hafter⟩
  exact
    { length := hlength.trans h.length
      le := by simpa only [apply_index] using hle
      on_used := by simpa only [apply_index] using hnext
      increasing := by
        refine List.pairwise_append.2 ⟨h.increasing, by simp, ?_⟩
        intro i hi j hj
        rw [List.mem_singleton.1 hj]
        exact ((h.visited i).1 hi).2
      visited := by
        simpa only [apply_index] using h.visited_next hlt hafter hskipped
      used := by
        simpa only [apply_index] using h.used_next hused hafter hskipped }

end Round

/-! ## A whole loop -/

/-- With either increment a loop ends, has visited the used cells in increasing order, each once
and no other, and has freed those that its body removes, whatever cells are used. -/
theorem forEach_exact (s : State) (hlen : s.cell_.length = P.kCapacity) (form : Increment)
    (body : Body) :
    ∃ fuel l, forEach P form body fuel s = some l ∧ l.visited.Pairwise (· < ·) ∧
      (∀ i, i ∈ l.visited ↔ s.Used i) ∧ ∀ i, l.pool.Used i ↔ s.Used i ∧ body i = none := by
  have hend : ∀ l : Loop, Visiting P s body l → ((l.it != State.end P) = true ↔
      l.it.index_ < P.kCapacity) := by
    intro l hl
    have hle := hl.le
    have hiff : l.it = State.end P ↔ l.it.index_ = P.kCapacity := by
      cases hit : l.it
      simp [State.end]
    rw [bne_iff_ne, ne_eq, hiff]
    omega
  have hround : ∀ l, Visiting P s body l → (l.it != State.end P) = true →
      ∃ l', loopRound P form body l = some l' ∧ Visiting P s body l' ∧
        P.kCapacity - l'.it.index_ < P.kCapacity - l.it.index_ := by
    intro l hl hcond
    have hlt := (hend l hl).1 hcond
    obtain ⟨l', hnext, hl', hgt⟩ := hl.round form hlt
    exact ⟨l', hnext, hl', by omega⟩
  obtain ⟨l, hrun, hl, hstop⟩ := whileM_returns (I := Visiting P s body)
    (fun l => P.kCapacity - l.it.index_) hround (visiting_begin hlen body)
  have hindex : ¬ l.it.index_ < P.kCapacity := by
    rw [← hend l hl, hstop]
    decide
  -- A used cell is one of the pool.
  have hall : ∀ i, s.Used i → i < l.it.index_ := by
    intro i hi
    have hlt := hi.lt
    omega
  refine ⟨_, l, hrun, hl.increasing, fun i => ?_, fun i => ?_⟩
  · rw [hl.visited]
    exact ⟨fun h => h.1, fun h => ⟨h, hall i h⟩⟩
  · rw [hl.used]
    exact ⟨fun h => ⟨h.1, h.2 (hall i h.1)⟩, fun h => ⟨h.1, fun _ => h.2⟩⟩

/-- A loop over two used cells that removes the first one. -/
theorem forEach_exact_two_words :
    ∃ s, (pool twoWords).exec (.init twoWords) [.create, .create] = some s ∧
      ∃ fuel l, forEach twoWords .pre (fun i => if i = 0 then some true else none) fuel s =
        some l ∧ l.visited.Pairwise (· < ·) ∧ (∀ i, i ∈ l.visited ↔ s.Used i) ∧
          ∀ i, l.pool.Used i ↔ s.Used i ∧ (if i = 0 then some true else none) = none := by
  have hrun : (pool twoWords).exec (.init twoWords) [.create, .create] = some _ := rfl
  exact ⟨_, hrun, forEach_exact _ rfl .pre _⟩

end ObjectPool
end Internal
end Mozi
