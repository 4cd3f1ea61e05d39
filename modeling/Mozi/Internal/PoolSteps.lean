import Mozi.Internal.PoolIterator

/-!
# PoolSteps — what a call does to the cells

A call leaves the pool as it is, takes the first free cell from `free_index_` on, or releases a
used cell; `call_cases` gives everything it does to the cells and to the list of destructor calls.
-/

namespace Mozi
namespace Internal
namespace ObjectPool

open Foundation

variable {P : PoolLayout} {s t : State} {a : Action} {i j : Nat}

/-! ## The cell that is found -/

/-- The first cell from `free_index_` on that is not used. -/
def State.Finds (P : PoolLayout) (s : State) (i : Nat) : Prop :=
  ∃ d, i = (s.free_index_ + d) % P.kCapacity ∧ ¬ s.Used i ∧
    ∀ e < d, s.Used ((s.free_index_ + e) % P.kCapacity)

theorem State.Finds.lt (h : s.Finds P i) : i < P.kCapacity := by
  obtain ⟨d, rfl, -⟩ := h
  exact Nat.mod_lt _ P.capacity_pos

theorem State.Finds.unique (h : s.Finds P i) (h' : s.Finds P j) : i = j := by
  obtain ⟨d, rfl, hfree, hbefore⟩ := h
  obtain ⟨d', rfl, hfree', hbefore'⟩ := h'
  rcases Nat.lt_trichotomy d d' with hlt | rfl | hgt
  · exact absurd (hbefore' d hlt) hfree
  · rfl
  · exact absurd (hbefore d' hgt) hfree'

theorem search_finds (hlen : s.cell_.length = P.kCapacity) {fuel k r : Nat} (hk : k < P.kCapacity)
    (h : whileM s.occupied (s.advance P) fuel k = some r) :
    ∃ d, r = (k + d) % P.kCapacity ∧ ¬ s.Used r ∧ ∀ e < d, s.Used ((k + e) % P.kCapacity) := by
  induction fuel generalizing k with
  | zero =>
      cases h
  | succ fuel ih =>
      have hused := occupied_iff (s := s) (hlen ▸ hk)
      cases hocc : s.occupied k with
      | false =>
          rw [whileM_stop hocc] at h
          cases h
          refine ⟨0, by rw [Nat.add_zero, Nat.mod_eq_of_lt hk], ?_, by simp⟩
          rw [← hused, hocc]
          decide
      | true =>
          have hnext : s.advance P k = some ((k + 1) % P.kCapacity) := by
            rw [State.advance, if_pos (hlen ▸ hk)]
          rw [whileM_step hocc hnext] at h
          obtain ⟨d, hr, hfree, hbefore⟩ := ih (Nat.mod_lt _ P.capacity_pos) h
          -- The cells passed are `k` and those passed from the next one on.
          have hshift : ∀ e, ((k + 1) % P.kCapacity + e) % P.kCapacity =
              (k + (e + 1)) % P.kCapacity := by
            intro e
            rw [Nat.mod_add_mod]
            congr 1
            omega
          refine ⟨d + 1, by rw [hr, hshift], hfree, ?_⟩
          intro e he
          cases e with
          | zero =>
              rw [Nat.add_zero, Nat.mod_eq_of_lt hk]
              exact hused.1 hocc
          | succ e =>
              rw [← hshift]
              exact hbefore e (by omega)

/-- `nextFree` finds the pool full or the first free cell. -/
theorem nextFree_cases (hs : Books P s) {r : Index} {u : State}
    (h : s.nextFree P = some (r, u)) :
    (r = NO_INDEX ∧ u = s ∧ ∀ i < P.kCapacity, s.Used i) ∨
      ∃ i, r = some i ∧ s.Finds P i ∧ u = { s with free_index_ := i } := by
  unfold State.nextFree at h
  split_ifs at h with hfull
  · cases h
    have hsize : s.size_ = P.kCapacity := Nat.le_antisymm hs.size_le hfull
    exact Or.inl ⟨rfl, rfl, hs.full_iff.1 hsize⟩
  · obtain ⟨i, hsearch, heq⟩ := Option.map_eq_some_iff.1 h
    cases heq
    exact Or.inr ⟨i, rfl, search_finds hs.length hs.free_index hsearch, rfl⟩

/-! ## Taking a cell -/

/-- The cell as a reserving call leaves it. -/
def Action.fill (P : PoolLayout) (index : Nat) (cell : Cell) : Action → Cell
  | .reserve => { cell with isUsed := true, wasConstructed := false }
  | .allocate => { cell with isUsed := true, wasConstructed := false }
  | .construct => { data := P.values_ index, isUsed := true, wasConstructed := true }
  | .create => { data := P.values_ index, isUsed := true, wasConstructed := true }
  | .add => { data := P.values_ index, isUsed := true, wasConstructed := true }
  | .insert => { data := P.values_ index, isUsed := true, wasConstructed := true }
  | _ => cell

@[simp] theorem fill_isUsed {index : Nat} {cell : Cell} (ha : a.reserves = true) :
    (a.fill P index cell).isUsed = true := by
  cases a with
  | remove _ _ => cases ha
  | freeWith _ _ => cases ha
  | free _ => cases ha
  | _ => rfl

theorem call_reserving (ha : a.reserves = true) :
    ∃ f : Index × State → Result,
      s.call P a = (s.reserveWith P fun index cell => a.fill P index cell).map
        fun r => (f r, r.2) := by
  cases a with
  | reserve => exact ⟨_, rfl⟩
  | construct => exact ⟨_, rfl⟩
  | add => exact ⟨_, rfl⟩
  | allocate =>
      refine ⟨fun r => .pointer (r.1.elim nullptr P.values_), ?_⟩
      simp only [State.call, State.allocate, State.reserve, Option.map_map]
      congr 1
      funext r
      rcases r with ⟨_ | index, u⟩ <;> rfl
  | create =>
      refine ⟨fun r => .pointer (r.1.elim nullptr r.2.get), ?_⟩
      simp only [State.call, State.create, State.construct, Option.map_map]
      congr 1
      funext r
      rcases r with ⟨_ | index, u⟩ <;> rfl
  | insert =>
      refine ⟨fun r => .pointer (r.1.elim nullptr r.2.get), ?_⟩
      simp only [State.call, State.insert, State.add, Option.map_map]
      congr 1
      funext r
      rcases r with ⟨_ | index, u⟩ <;> rfl
  | remove _ _ => cases ha
  | freeWith _ _ => cases ha
  | free _ => cases ha

/-- The call takes the cell `i`, which was `cell`. -/
structure Takes (P : PoolLayout) (s : State) (a : Action) (i : Nat) (cell : Cell) (t : State) :
    Prop where
  reserves : a.reserves = true
  found : s.Finds P i
  was : s.cell_[i]? = some cell
  cells : t.cell_ = s.cell_.set i (a.fill P i cell)
  live : t.live = s.live ++ [i]
  destroyed : t.destroyed = s.destroyed

theorem reserving_cases (hs : Books P s) (ha : a.reserves = true) {r : Result}
    (h : s.call P a = some (r, t)) :
    (t = s ∧ ∀ i < P.kCapacity, s.Used i) ∨ ∃ i cell, Takes P s a i cell t := by
  obtain ⟨f, hcall⟩ := call_reserving (P := P) (s := s) ha
  rw [hcall] at h
  obtain ⟨⟨index, u⟩, hreserve, heq⟩ := Option.map_eq_some_iff.1 h
  cases heq
  obtain ⟨⟨found, u'⟩, hnext, hrest⟩ := Option.bind_eq_some_iff.1 hreserve
  rcases nextFree_cases hs hnext with ⟨rfl, rfl, hall⟩ | ⟨i, rfl, hfinds, rfl⟩
  · cases hrest
    exact Or.inl ⟨rfl, hall⟩
  · obtain ⟨v, htake, heq⟩ := Option.map_eq_some_iff.1 hrest
    cases heq
    obtain ⟨cell, hcell, rfl⟩ := Option.map_eq_some_iff.1 htake
    exact Or.inr ⟨i, cell, ha, hfinds, hcell, rfl, rfl, rfl⟩

/-- The call answers with a handle to the cell. -/
theorem Takes.names {cell : Cell} (hs : Books P s) (h : Takes P s a i cell t) {r : Result}
    (hcall : s.call P a = some (r, t)) : r.Names P i := by
  obtain ⟨r', t', hcall', hanswer⟩ := call_answers hs h.reserves
  rw [hcall] at hcall'
  cases hcall'
  have hlive := h.live
  rcases hanswer with ⟨-, -, rfl⟩ | ⟨j, -, -, hnames, -, hlive', -⟩
  · simp at hlive
  · rw [hlive', List.append_cancel_left_eq, List.cons.injEq] at hlive
    rwa [← hlive.1]

/-- A reserving call that leaves the pool as it is answers null. -/
theorem isNull_of_same (hs : Books P s) (ha : a.reserves = true) {r : Result}
    (hcall : s.call P a = some (r, s)) : r.isNull = true := by
  obtain ⟨r', t', hcall', hanswer⟩ := call_answers hs ha
  rw [hcall] at hcall'
  cases hcall'
  rcases hanswer with ⟨-, hnull, -⟩ | ⟨j, -, -, -, -, hlive, -⟩
  · exact hnull
  · simp at hlive

/-! ## Releasing a cell -/

/-- Whether a call that releases the cell runs the destructor. -/
def Action.destructs (cell : Cell) : Action → Bool
  | .remove _ destruct => destruct
  | .freeWith _ destruct => destruct
  | .free _ => cell.wasConstructed
  | _ => false

/-- The call releases the used cell `i`. -/
structure Releases (s : State) (a : Action) (i : Nat) (cell : Cell) (t : State) : Prop where
  releases : a.reserves = false
  was : s.cell_[i]? = some cell
  used : cell.isUsed = true
  cells : t.cell_ = s.cell_.set i { cell with isUsed := false }
  destroyed : t.destroyed =
    if a.destructs cell then s.destroyed ++ [cell.data] else s.destroyed

theorem remove_cases {destruct : Bool} (h : s.remove i destruct = some t) :
    t = s ∨ ∃ cell, s.cell_[i]? = some cell ∧ cell.isUsed = true ∧
      t.cell_ = s.cell_.set i { cell with isUsed := false } ∧
      t.destroyed = if destruct then s.destroyed ++ [cell.data] else s.destroyed := by
  obtain ⟨cell, hcell, ht⟩ := Option.map_eq_some_iff.1 h
  by_cases hused : cell.isUsed = true
  · rw [if_pos hused] at ht
    subst ht
    exact Or.inr ⟨cell, hcell, hused, rfl, rfl⟩
  · rw [if_neg hused] at ht
    exact Or.inl ht.symm

theorem releasing_cases (ha : a.reserves = false) {r : Result} (h : s.call P a = some (r, t)) :
    t = s ∨ ∃ i cell, Releases s a i cell t := by
  cases a with
  | remove index destruct =>
      obtain ⟨u, hu, heq⟩ := Option.map_eq_some_iff.1 h
      cases heq
      rcases remove_cases hu with rfl | ⟨cell, hcell, hused, hcells, hdestroyed⟩
      · exact Or.inl rfl
      · exact Or.inr ⟨index, cell, rfl, hcell, hused, hcells, hdestroyed⟩
  | freeWith ptr destruct =>
      obtain ⟨u, hu, heq⟩ := Option.map_eq_some_iff.1 h
      cases heq
      unfold State.freeWith at hu
      split at hu
      · exact Or.inl (Option.some.inj hu).symm
      · rename_i index _
        rcases remove_cases hu with rfl | ⟨cell, hcell, hused, hcells, hdestroyed⟩
        · exact Or.inl rfl
        · exact Or.inr ⟨index, cell, rfl, hcell, hused, hcells, hdestroyed⟩
  | free ptr =>
      obtain ⟨u, hu, heq⟩ := Option.map_eq_some_iff.1 h
      cases heq
      unfold State.free at hu
      split at hu
      · exact Or.inl (Option.some.inj hu).symm
      · rename_i index _
        obtain ⟨cell, hcell, hremove⟩ := Option.bind_eq_some_iff.1 hu
        rcases remove_cases hremove with rfl | ⟨cell', hcell', hused, hcells, hdestroyed⟩
        · exact Or.inl rfl
        · rw [hcell] at hcell'
          cases hcell'
          exact Or.inr ⟨index, cell, rfl, hcell, hused, hcells, hdestroyed⟩
  | _ => cases ha

/-! ## Any call -/

/-- Everything a call does to the cells. -/
theorem call_cases (hs : Books P s) {r : Result} (h : s.call P a = some (r, t)) :
    (t = s ∧ (a.reserves = true → ∀ i < P.kCapacity, s.Used i)) ∨
      (∃ i cell, Takes P s a i cell t) ∨ ∃ i cell, Releases s a i cell t := by
  cases ha : a.reserves with
  | true =>
      rcases reserving_cases hs ha h with ⟨rfl, hall⟩ | htakes
      · exact Or.inl ⟨rfl, fun _ => hall⟩
      · exact Or.inr (Or.inl htakes)
  | false =>
      rcases releasing_cases ha h with rfl | hreleases
      · exact Or.inl ⟨rfl, fun h => by cases h⟩
      · exact Or.inr (Or.inr hreleases)

end ObjectPool
end Internal
end Mozi
