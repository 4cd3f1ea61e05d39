import Mathlib.Data.List.Nodup
import Mozi.Foundation.Lifetimes
import Mozi.Internal.PoolSteps

/-!
# PoolLifetimes — constructed objects are destroyed exactly once

`free(ptr)` and `~ObjectPool` ask `wasConstructed` whether there is an object to destroy.  The flag
survives a free, but every call that takes the cell again sets it anew.  The ledger beside the pool
records the objects the calls construct and the places the destructor is called on.
-/

namespace Mozi
namespace Internal
namespace ObjectPool

open Foundation

variable {P : PoolLayout} {s t : State} {a : Action} {i : Nat} {l : Ledger Nat}

/-! ## The source -/

/-- `~ObjectPool`: the pointers it calls `~T` on. -/
def State.destructor (P : PoolLayout) (s : State) : List Nat :=
  (List.range P.kCapacity).filterMap fun i =>
    (s.cell_[i]?).bind fun cell =>
      if cell.isUsed && cell.wasConstructed then some cell.data else none

/-! ## The objects of a pool -/

/-- The calls that construct an object. -/
def Action.constructs : Action → Bool
  | .construct => true
  | .create => true
  | .add => true
  | .insert => true
  | _ => false

/-- The slot that a result is a handle to. -/
def Result.slot (P : PoolLayout) : Result → Option Nat
  | .index i => i.map P.values_
  | .pointer p => if p = nullptr then none else some p
  | .void => none

/-- Where the call has constructed an object: at the slot it answers with. -/
def constructedAt (P : PoolLayout) (a : Action) (r : Result) : Option Nat :=
  if a.constructs then r.slot P else none

/-- A pool with the objects that were constructed in it. -/
structure Observed where
  pool : State
  ledger : Ledger Nat

/-- The ledger after a call: an object more, or the destructor runs of the call. -/
def record (P : PoolLayout) (l : Ledger Nat) (a : Action) (r : Result) (s t : State) :
    Ledger Nat :=
  ((constructedAt P a r).elim l l.construct).destroyAll (t.destroyed.drop s.destroyed.length)

def lifetimes (P : PoolLayout) : Machine Observed Action :=
  { step := fun o a => (o.pool.call P a).map fun r =>
      { pool := r.2
        ledger := record P o.ledger a r.1 o.pool r.2 } }

/-- The calls that leave it to the pool whether there is an object to destroy. -/
def Action.managed : Action → Bool
  | .remove _ _ => false
  | .freeWith _ _ => false
  | _ => true

/-- The slots of the used cells with `wasConstructed`. -/
def Alive (P : PoolLayout) (s : State) : Set Nat :=
  {p | ∃ i cell, s.cell_[i]? = some cell ∧ cell.isUsed = true ∧ cell.wasConstructed = true ∧
    p = P.values_ i}

theorem values_injective {j : Nat} (h : P.values_ i = P.values_ j) : i = j := by
  have hmul : i * P.sizeofT = j * P.sizeofT := Nat.add_left_cancel h
  exact Nat.eq_of_mul_eq_mul_right P.sizeof_pos hmul

theorem mem_alive_iff {cell : Cell} (hcell : s.cell_[i]? = some cell) :
    P.values_ i ∈ Alive P s ↔ cell.isUsed = true ∧ cell.wasConstructed = true := by
  constructor
  · rintro ⟨j, cell', hcell', hused, hconstructed, hslot⟩
    obtain rfl := values_injective hslot
    rw [hcell] at hcell'
    cases hcell'
    exact ⟨hused, hconstructed⟩
  · rintro ⟨hused, hconstructed⟩
    exact ⟨i, cell, hcell, hused, hconstructed, rfl⟩

/-- Writing a cell decides about its own slot only. -/
theorem mem_alive_set {cell : Cell} (hi : i < s.cell_.length)
    (ht : t.cell_ = s.cell_.set i cell) {p : Nat} :
    p ∈ Alive P t ↔ if p = P.values_ i then cell.isUsed = true ∧ cell.wasConstructed = true
      else p ∈ Alive P s := by
  split_ifs with hp
  · subst hp
    exact mem_alive_iff (by rw [ht, List.getElem?_set_self hi])
  · constructor
    · rintro ⟨j, cell', hcell', hrest⟩
      have hji : j ≠ i := by
        rintro rfl
        exact hp hrest.2.2
      rw [ht, List.getElem?_set_ne (Ne.symm hji)] at hcell'
      exact ⟨j, cell', hcell', hrest⟩
    · rintro ⟨j, cell', hcell', hrest⟩
      have hji : j ≠ i := by
        rintro rfl
        exact hp hrest.2.2
      refine ⟨j, cell', ?_, hrest⟩
      rwa [ht, List.getElem?_set_ne (Ne.symm hji)]

/-! ## The invariant -/

/-- The living objects are those of the used cells with `wasConstructed`, which lead to them. -/
structure Tracked (P : PoolLayout) (o : Observed) : Prop where
  books : Books P o.pool
  own : ∀ i cell, o.pool.cell_[i]? = some cell → cell.wasConstructed = true →
    cell.data = P.values_ i
  settled : o.ledger.Settled (Alive P o.pool)

theorem tracked_init : Tracked P { pool := .init P, ledger := .empty } := by
  have hcells : ∀ (i : Nat) (cell : Cell), (State.init P).cell_[i]? = some cell →
      cell = Cell.init := by
    intro i cell hcell
    have hmem : cell ∈ List.replicate P.kCapacity Cell.init := List.mem_of_getElem? hcell
    exact (List.mem_replicate.1 hmem).2
  have hnone : Alive P (State.init P) = ∅ := by
    refine Set.eq_empty_of_forall_notMem ?_
    rintro p ⟨i, cell, hcell, hused, -⟩
    rw [hcells i cell hcell] at hused
    cases hused
  exact
    { books := books_init
      own := by
        intro i cell hcell hconstructed
        rw [hcells i cell hcell] at hconstructed
        cases hconstructed
      settled := hnone ▸ Ledger.settled_empty }

theorem own_set {cell : Cell} (hi : i < s.cell_.length) (ht : t.cell_ = s.cell_.set i cell)
    (hown : ∀ i cell, s.cell_[i]? = some cell → cell.wasConstructed = true →
      cell.data = P.values_ i)
    (hcell : cell.wasConstructed = true → cell.data = P.values_ i) :
    ∀ j c, t.cell_[j]? = some c → c.wasConstructed = true → c.data = P.values_ j := by
  intro j c hc
  rw [ht] at hc
  by_cases hji : j = i
  · subst hji
    rw [List.getElem?_set_self hi] at hc
    cases hc
    exact hcell
  · rw [List.getElem?_set_ne (Ne.symm hji)] at hc
    exact hown j c hc

/-! ## One call -/

theorem Result.Names.slot {r : Result} (hr : r.Names P i) : r.slot P = some (P.values_ i) := by
  have hpos : P.values_ i ≠ nullptr :=
    Nat.ne_of_gt (Nat.lt_of_lt_of_le P.first_pos (Nat.le_add_right _ _))
  rcases hr with rfl | rfl
  · rfl
  · exact if_neg hpos

theorem slot_of_isNull {r : Result} (hr : r.isNull = true) : r.slot P = none := by
  cases r with
  | index index =>
      have hnone : index = NO_INDEX := of_decide_eq_true hr
      rw [hnone]
      rfl
  | pointer p =>
      have hnull : p = nullptr := of_decide_eq_true hr
      exact if_pos hnull
  | void =>
      rfl

theorem constructedAt_of_not {r : Result} (ha : a.constructs = false) :
    constructedAt P a r = none := by
  unfold constructedAt
  rw [ha, if_neg (by decide)]

/-- Only reserving calls construct. -/
theorem constructs_of_releases (ha : a.reserves = false) : a.constructs = false := by
  cases a with
  | remove _ _ => rfl
  | freeWith _ _ => rfl
  | free _ => rfl
  | _ => cases ha

theorem record_same {r : Result} (h : constructedAt P a r = none) :
    record P l a r s s = l := by
  rw [record, h, List.drop_length]
  rfl

/-- A call that takes a cell constructs an object in it, or leaves it without one. -/
theorem Tracked.takes {cell : Cell} {r : Result} (h : Tracked P ⟨s, l⟩)
    (htakes : Takes P s a i cell t) (hr : r.Names P i) (ht : Books P t) :
    Tracked P ⟨t, record P l a r s t⟩ := by
  have hi : i < s.cell_.length := (List.getElem?_eq_some_iff.1 htakes.was).1
  -- The cell was free.
  have hdead : P.values_ i ∉ Alive P s := by
    obtain ⟨-, -, hfree, -⟩ := htakes.found
    rw [mem_alive_iff htakes.was]
    exact fun hboth => hfree ⟨cell, htakes.was, hboth.1⟩
  have halive := fun p => mem_alive_set (P := P) (p := p) hi htakes.cells
  have hledger : record P l a r s t = if a.constructs then l.construct (P.values_ i) else l := by
    rw [record, constructedAt, hr.slot, htakes.destroyed, List.drop_length]
    cases a.constructs <;> rfl
  have hreserves := htakes.reserves
  have hflag : (a.fill P i cell).wasConstructed = a.constructs ∧
      (a.constructs = true → (a.fill P i cell).data = P.values_ i) := by
    cases a with
    | remove _ _ => cases hreserves
    | freeWith _ _ => cases hreserves
    | free _ => cases hreserves
    | reserve => exact ⟨rfl, fun h => by cases h⟩
    | allocate => exact ⟨rfl, fun h => by cases h⟩
    | _ => exact ⟨rfl, fun _ => rfl⟩
  refine ⟨ht, own_set hi htakes.cells h.own (hflag.1 ▸ hflag.2), ?_⟩
  rw [hledger]
  cases hconstructs : a.constructs with
  | true =>
      have hset : Alive P t = insert (P.values_ i) (Alive P s) := by
        ext p
        rw [halive, hflag.1, hconstructs, fill_isUsed hreserves, Set.mem_insert_iff]
        split_ifs with hp
        · simp [hp]
        · simp [hp]
      rw [hset]
      exact h.settled.construct hdead
  | false =>
      have hset : Alive P t = Alive P s := by
        ext p
        rw [halive, hflag.1, hconstructs]
        split_ifs with hp
        · simp [hp, hdead]
        · rfl
      rw [hset]
      exact h.settled

/-- `free` destroys the object of the cell if there is one. -/
theorem Tracked.releases {cell : Cell} {r : Result} (h : Tracked P ⟨s, l⟩)
    (hreleases : Releases s a i cell t) (ha : a.managed = true) (ht : Books P t) :
    Tracked P ⟨t, record P l a r s t⟩ := by
  have hi : i < s.cell_.length := (List.getElem?_eq_some_iff.1 hreleases.was).1
  have halive := fun p => mem_alive_set (P := P) (p := p) hi hreleases.cells
  have hset : Alive P t = Alive P s \ {P.values_ i} := by
    ext p
    rw [halive, Set.mem_sdiff, Set.mem_singleton_iff]
    split_ifs with hp
    · simp [hp]
    · simp [hp]
  have hdestructs : a.destructs cell = cell.wasConstructed := by
    have hnot := hreleases.releases
    cases a with
    | remove _ _ => cases ha
    | freeWith _ _ => cases ha
    | free _ => rfl
    | _ => cases hnot
  have hnone : constructedAt P a r = none :=
    constructedAt_of_not (constructs_of_releases hreleases.releases)
  have hown := h.own i cell hreleases.was
  refine ⟨ht, own_set hi hreleases.cells h.own hown, ?_⟩
  rw [record, hnone, hreleases.destroyed, hdestructs, hset]
  have hmem := mem_alive_iff (P := P) hreleases.was
  cases hconstructed : cell.wasConstructed with
  | true =>
      rw [if_pos rfl, List.drop_left, hown hconstructed]
      exact h.settled.destroy (hmem.2 ⟨hreleases.used, hconstructed⟩)
  | false =>
      rw [if_neg (by decide), List.drop_length, Set.sdiff_singleton_eq_self ?_]
      · exact h.settled
      · rw [hmem, hconstructed]
        exact fun hboth => by cases hboth.2

theorem tracked_step {o o' : Observed} (h : Tracked P o) (ha : a.managed = true)
    (hstep : (lifetimes P).step o a = some o') : Tracked P o' := by
  obtain ⟨⟨r, t⟩, hcall, rfl⟩ := Option.map_eq_some_iff.1 hstep
  have ht : Books P t := books_step h.books hcall
  rcases call_cases h.books hcall with ⟨rfl, -⟩ | ⟨i, cell, htakes⟩ | ⟨i, cell, hreleases⟩
  · have hnone : constructedAt P a r = none := by
      cases hreserves : a.reserves with
      | true =>
          rw [constructedAt, slot_of_isNull (isNull_of_same h.books hreserves hcall), ite_self]
      | false =>
          exact constructedAt_of_not (constructs_of_releases hreserves)
    rw [record_same hnone]
    exact h
  · exact h.takes htakes (htakes.names h.books hcall) ht
  · exact h.releases hreleases ha ht

/-- The managed calls can be made in every state. -/
theorem call_total (hs : Books P s) (ha : a.managed = true) : ∃ r, s.call P a = some r := by
  cases hreserves : a.reserves with
  | true =>
      obtain ⟨r, t, hcall, -⟩ := call_answers hs hreserves
      exact ⟨(r, t), hcall⟩
  | false =>
      cases a with
      | free ptr =>
          cases hindex : s.pointerToIndex P ptr with
          | none =>
              exact ⟨_, by simp only [State.call, State.free, hindex]; rfl⟩
          | some i =>
              have hi : i < s.cell_.length := hs.length ▸ (pointerToIndex_some hindex).1
              simp only [State.call, State.free, hindex, State.remove,
                List.getElem?_eq_getElem hi]
              exact ⟨_, rfl⟩
      | remove _ _ => cases ha
      | freeWith _ _ => cases ha
      | _ => cases hreserves

/-! ## Runs -/

/-- The destructor of the pool is called on each living object once. -/
theorem Tracked.destructor {o : Observed} (h : Tracked P o) :
    (o.ledger.destroyAll (o.pool.destructor P)).DestroyedOnce := by
  have hmem : ∀ p i, p ∈ ((o.pool.cell_[i]?).bind fun cell =>
      if cell.isUsed && cell.wasConstructed then some cell.data else none) →
      p = P.values_ i ∧ p ∈ Alive P o.pool := by
    intro p i hp
    obtain ⟨cell, hcell, hsome⟩ := Option.bind_eq_some_iff.1 hp
    obtain ⟨hflags, hdata⟩ := Option.ite_none_right_eq_some.1 hsome
    obtain ⟨hused, hconstructed⟩ := Bool.and_eq_true_iff.1 hflags
    have hslot : p = P.values_ i :=
      (Option.some.inj hdata).symm.trans (h.own i cell hcell hconstructed)
    exact ⟨hslot, i, cell, hcell, hused, hconstructed, hslot⟩
  refine (h.settled.destroyAll ?_ ?_).destroyed_once
  · refine List.Nodup.filterMap ?_ List.nodup_range
    intro i j p hi hj
    exact values_injective ((hmem p i hi).1.symm.trans (hmem p j hj).1)
  · intro p
    rw [State.destructor, List.mem_filterMap]
    constructor
    · rintro ⟨i, -, hi⟩
      exact (hmem p i hi).2
    · rintro ⟨i, cell, hcell, hused, hconstructed, rfl⟩
      refine ⟨i, ?_, ?_⟩
      · rw [List.mem_range, ← h.books.length]
        exact (List.getElem?_eq_some_iff.1 hcell).1
      · simp [hcell, hused, hconstructed, h.own i cell hcell hconstructed]

/-- After any sequence of these calls, with any pointers, and the destruction of the pool, the
destructor has run once on every object, and on nothing else. -/
theorem destroyed_exactly_once (P : PoolLayout) (tr : List Action)
    (h : ∀ a ∈ tr, a.managed = true) :
    ∃ o, (lifetimes P).exec { pool := .init P, ledger := .empty } tr = some o ∧
      (o.ledger.destroyAll (o.pool.destructor P)).DestroyedOnce := by
  have hstep : ∀ o a, Tracked P o → a.managed = true →
      ∃ o', (lifetimes P).step o a = some o' ∧ Tracked P o' := by
    intro o a ho ha
    obtain ⟨r, hcall⟩ := call_total ho.books ha
    have hnext : (lifetimes P).step o a = some _ := Option.map_eq_some_iff.2 ⟨r, hcall, rfl⟩
    exact ⟨_, hnext, tracked_step ho ha hnext⟩
  have halong := (lifetimes P).along_of_forall_mem (Q := fun a => a.managed = true)
    (s := { pool := .init P, ledger := .empty }) h
  obtain ⟨o, hexec, ho⟩ := (lifetimes P).exec_total hstep tracked_init halong
  exact ⟨o, hexec, ho.destructor⟩

/-- A slot is constructed in, freed twice and only reserved afterwards. -/
theorem destroyed_exactly_once_two_words :
    ∃ o, (lifetimes twoWords).exec { pool := .init twoWords, ledger := .empty }
        [.create, .insert, .free 64, .free 64, .free 68, .reserve, .free 72] = some o ∧
      (o.ledger.destroyAll (o.pool.destructor twoWords)).DestroyedOnce :=
  destroyed_exactly_once twoWords _ (by decide)

end ObjectPool
end Internal
end Mozi
