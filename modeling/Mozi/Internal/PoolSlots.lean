import Mozi.Internal.PoolSteps

/-!
# PoolSlots — cells that point at their own slots

The constructing calls store the slot in `data`, `reserve` and `allocate` leave there what the last
tenant of the cell left.  A used cell points at its slot as long as no cell is reserved that no
object was ever constructed in.  The `operator*` of an iterator ends without a `return`, so it
yields the slot of no used cell (`own_slots_iff`).
-/

namespace Mozi
namespace Internal
namespace ObjectPool

open Foundation

variable {P : PoolLayout} {s t : State} {a : Action} {i : Nat}

/-! ## The source -/

namespace State

/-- `get(T* ptr)` -/
def getPtr (P : PoolLayout) (s : State) (ptr : Nat) : Nat :=
  match s.pointerToIndex P ptr with
  | none => nullptr
  | some index => s.get index

/-- `operator[]`, the address of the object. -/
def subscript (s : State) (index : Nat) : Option Nat :=
  (s.cell_[index]?).map Cell.data

def indexToPointer (s : State) (index : Nat) : Option Nat :=
  (s.cell_[index]?).map Cell.data

end State

/-! ## Own slots -/

/-- The cell points at its slot, and so does everything that reads the cell and returns. -/
structure ReadsSlot (P : PoolLayout) (s : State) (i : Nat) : Prop where
  data : ∃ cell, s.cell_[i]? = some cell ∧ cell.data = P.values_ i
  get : s.get i = P.values_ i
  getPtr : s.getPtr P (P.values_ i) = P.values_ i
  subscript : s.subscript i = some (P.values_ i)
  indexToPointer : s.indexToPointer i = some (P.values_ i)
  arrow : ∃ it, s.iterator P i = some it ∧ it.arrow P s = P.values_ i
  /-- `free(ptr, true)` runs the destructor on the object at `ptr` -/
  freeWith : ∃ t, s.freeWith P (P.values_ i) true = some t ∧
    t.destroyed = s.destroyed ++ [P.values_ i]

/-- And so does the iterator on the cell. -/
structure OwnSlot (P : PoolLayout) (s : State) (i : Nat) : Prop extends ReadsSlot P s i where
  deref : ∃ it, s.iterator P i = some it ∧ it.deref s = some (some (P.values_ i))

def SlotsRead (P : PoolLayout) (s : State) : Prop :=
  ∀ i, s.Used i → ReadsSlot P s i

def OwnSlots (P : PoolLayout) (s : State) : Prop :=
  ∀ i, s.Used i → OwnSlot P s i

/-- The call does not reserve a cell that points nowhere. -/
def SlotFilled (P : PoolLayout) (s : State) (a : Action) : Prop :=
  a = .reserve ∨ a = .allocate →
    ∀ i cell, s.Finds P i → s.cell_[i]? = some cell → cell.data ≠ nullptr

/-- What reads the cell follows from where it points. -/
theorem readsSlot_of_data (hs : Books P s) {cell : Cell} (hcell : s.cell_[i]? = some cell)
    (hused : cell.isUsed = true) (hdata : cell.data = P.values_ i) : ReadsSlot P s i := by
  have hlt : i < P.kCapacity := by
    rw [← hs.length]
    exact (List.getElem?_eq_some_iff.1 hcell).1
  have hindex := pointerToIndex_slot hs hlt
  have hget : s.get i = P.values_ i := by simp [State.get, hcell, hused, hdata]
  have hread : (s.cell_[i]?).map Cell.data = some (P.values_ i) := by rw [hcell, ← hdata]; rfl
  exact
    { data := ⟨cell, hcell, hdata⟩
      get := hget
      getPtr := by rw [State.getPtr, hindex]; exact hget
      subscript := hread
      indexToPointer := hread
      arrow := by
        refine ⟨⟨i⟩, by simp [State.iterator, hcell, hused], ?_⟩
        rw [Iterator.arrow, if_neg (Nat.not_le.2 hlt)]
        exact hget
      freeWith := by
        simp only [State.freeWith, hindex, State.remove, hcell, Option.map_some, if_pos hused]
        exact ⟨_, rfl, by rw [hdata]; rfl⟩ }

theorem slotsRead_iff (hs : Books P s) :
    SlotsRead P s ↔ ∀ i cell, s.cell_[i]? = some cell → cell.isUsed = true →
      cell.data = P.values_ i := by
  constructor
  · intro h i cell hcell hused
    obtain ⟨cell', hcell', hdata⟩ := (h i ⟨cell, hcell, hused⟩).data
    rw [hcell] at hcell'
    cases hcell'
    exact hdata
  · rintro h i ⟨cell, hcell, hused⟩
    exact readsSlot_of_data hs hcell hused (h i cell hcell hused)

/-- Where the used cells point at their slots, they do so after a store to a cell exactly if this
one does or is not used. -/
theorem slots_set {cells : List Cell} {cell' : Cell} (hlt : i < cells.length)
    (hown : ∀ j cell, cells[j]? = some cell → cell.isUsed = true → cell.data = P.values_ j) :
    (∀ j cell, (cells.set i cell')[j]? = some cell → cell.isUsed = true →
        cell.data = P.values_ j) ↔ (cell'.isUsed = true → cell'.data = P.values_ i) := by
  constructor
  · intro h
    exact h i cell' (List.getElem?_set_self hlt)
  · intro h j cell hcell hused
    by_cases hji : j = i
    · subst hji
      rw [List.getElem?_set_self hlt] at hcell
      cases hcell
      exact h hused
    · rw [List.getElem?_set_ne (Ne.symm hji)] at hcell
      exact hown j cell hcell hused

/-- No iterator yields an object, so no cell may be used. -/
theorem ownSlots_iff : OwnSlots P s ↔ ∀ i, ¬ s.Used i := by
  constructor
  · intro h i hused
    obtain ⟨it, -, hderef⟩ := (h i hused).deref
    obtain ⟨cell, -, hnone⟩ := Option.map_eq_some_iff.1 hderef
    cases hnone
  · intro h i hused
    exact absurd hused (h i)

theorem init_unused (P : PoolLayout) (i : Nat) : ¬ (State.init P).Used i := by
  simp [State.init, State.Used, List.getElem?_replicate, Cell.init]

theorem slotsRead_init : SlotsRead P (.init P) :=
  fun i hused => absurd hused (init_unused P i)

/-- The cell that a reserving call takes points at its slot exactly if the call may reserve it. -/
theorem Takes.data_iff {cell : Cell} (hs : Books P s) (h : Takes P s a i cell t) :
    (a.fill P i cell).data = P.values_ i ↔ SlotFilled P s a := by
  -- For the calls that leave `data`, where it is not null it is the slot.
  have hreserve : (a = .reserve ∨ a = .allocate) → (a.fill P i cell).data = cell.data →
      ((a.fill P i cell).data = P.values_ i ↔ SlotFilled P s a) := by
    intro ha hdata
    rw [hdata]
    constructor
    · intro hslot _ j cell' hfinds hcell'
      obtain rfl := h.found.unique hfinds
      rw [h.was] at hcell'
      cases hcell'
      rw [hslot]
      exact Nat.ne_of_gt (Nat.lt_of_lt_of_le P.first_pos (Nat.le_add_right _ _))
    · intro hfilled
      exact (hs.data i cell h.was).resolve_left (hfilled ha i cell h.found h.was)
  have hconstruct : ¬ (a = .reserve ∨ a = .allocate) →
      (a.fill P i cell).data = P.values_ i →
      ((a.fill P i cell).data = P.values_ i ↔ SlotFilled P s a) :=
    fun ha hdata => iff_of_true hdata fun hreserves => absurd hreserves ha
  have hreserves := h.reserves
  cases a with
  | reserve => exact hreserve (Or.inl rfl) rfl
  | allocate => exact hreserve (Or.inr rfl) rfl
  | construct => exact hconstruct (by simp) rfl
  | create => exact hconstruct (by simp) rfl
  | add => exact hconstruct (by simp) rfl
  | insert => exact hconstruct (by simp) rfl
  | _ => cases hreserves

/-! ## Runs -/

/-- One call keeps the slots exactly if it does not reserve a cell that points nowhere. -/
theorem slotsRead_step (hs : Books P s) (hown : SlotsRead P s) {r : Result}
    (h : s.call P a = some (r, t)) : SlotsRead P t ↔ SlotFilled P s a := by
  have ht : Books P t := books_step hs h
  rw [slotsRead_iff hs] at hown
  rcases call_cases hs h with ⟨rfl, hfull⟩ | ⟨i, cell, htakes⟩ | ⟨i, cell, hreleases⟩
  · -- In a full pool no cell is found.
    refine iff_of_true ((slotsRead_iff hs).2 hown) ?_
    intro ha i cell hfinds
    have hreserves : a.reserves = true := by rcases ha with rfl | rfl <;> rfl
    have hused := hfull hreserves i hfinds.lt
    obtain ⟨-, -, hfree, -⟩ := hfinds
    exact absurd hused hfree
  · have hlt : i < s.cell_.length := (List.getElem?_eq_some_iff.1 htakes.was).1
    rw [slotsRead_iff ht, ← htakes.data_iff hs, htakes.cells, slots_set hlt hown]
    simp [fill_isUsed htakes.reserves]
  · have hlt : i < s.cell_.length := (List.getElem?_eq_some_iff.1 hreleases.was).1
    refine iff_of_true ?_ ?_
    · rw [slotsRead_iff ht, hreleases.cells, slots_set hlt hown]
      simp
    · rintro (rfl | rfl)
      · cases hreleases.releases
      · cases hreleases.releases

/-- One call leaves a pool without used cells so exactly if it does not reserve one. -/
theorem unused_step (hs : Books P s) (hnone : ∀ i, ¬ s.Used i) {r : Result}
    (h : s.call P a = some (r, t)) : (∀ i, ¬ t.Used i) ↔ a.reserves = false := by
  rcases call_cases hs h with ⟨rfl, hfull⟩ | ⟨i, cell, htakes⟩ | ⟨i, cell, hreleases⟩
  · refine iff_of_true hnone ?_
    by_contra ha
    exact hnone 0 (hfull (by simpa using ha) 0 P.capacity_pos)
  · have hlt : i < s.cell_.length := (List.getElem?_eq_some_iff.1 htakes.was).1
    refine iff_of_false (fun h => h i ⟨a.fill P i cell, ?_, fill_isUsed htakes.reserves⟩) ?_
    · rw [htakes.cells, List.getElem?_set_self hlt]
    · rw [htakes.reserves]
      decide
  · exact absurd ⟨cell, hreleases.was, hreleases.used⟩ (hnone i)

/-- What a call keeps exactly under a condition holds all along a run from a new pool exactly if the
calls of the run meet the condition. -/
theorem holds_iff_along {I : State → Prop} {C : State → Action → Prop} (hinit : I (.init P))
    (hstep : ∀ {s t a r}, Books P s → I s → s.call P a = some (r, t) → (I t ↔ C s a))
    {tr : List Action} (hrun : (pool P).exec (.init P) tr = some s) :
    (∀ tr₁ t, tr₁ <+: tr → (pool P).exec (.init P) tr₁ = some t → I t) ↔
      (pool P).Along C (.init P) tr := by
  have hkeeps : ∀ s a t, (Books P s ∧ I s) → True → (pool P).step s a = some t →
      ((Books P t ∧ I t) ↔ C s a) := by
    rintro s a t ⟨hs, hI⟩ - ht
    obtain ⟨⟨r, u⟩, hcall, rfl⟩ := Option.map_eq_some_iff.1 ht
    rw [← hstep hs hI hcall]
    exact ⟨fun h => h.2, fun h => ⟨books_step hs hcall, h⟩⟩
  rw [← (pool P).along_iff_invariant (Q := fun _ => True) hkeeps ⟨books_init, hinit⟩
    (fun _ _ => trivial) hrun]
  constructor
  · intro h tr₁ t hpre ht
    exact ⟨books_reachable ⟨tr₁, ht⟩, h tr₁ t hpre ht⟩
  · intro h tr₁ t hpre ht
    exact (h tr₁ t hpre ht).2

/-- In a run from a new pool everything yields the slots of the used cells all along exactly if no
call reserves a cell, and everything but `operator*` exactly if no call reserves a cell that no
object was constructed in before. -/
theorem own_slots_iff {tr : List Action} (hrun : (pool P).exec (.init P) tr = some s) :
    ((∀ tr₁ t, tr₁ <+: tr → (pool P).exec (.init P) tr₁ = some t → OwnSlots P t) ↔
        (pool P).Along (fun _ a => a.reserves = false) (.init P) tr) ∧
      ((∀ tr₁ t, tr₁ <+: tr → (pool P).exec (.init P) tr₁ = some t → SlotsRead P t) ↔
        (pool P).Along (SlotFilled P) (.init P) tr) := by
  constructor
  · refine holds_iff_along (ownSlots_iff.2 (init_unused P)) ?_ hrun
    intro s t a r hs hown hcall
    rw [ownSlots_iff] at hown ⊢
    exact unused_step hs hown hcall
  · exact holds_iff_along slotsRead_init (fun hs hread hcall => slotsRead_step hs hread hcall) hrun

/-- An object is constructed and freed, and its cell is reserved. -/
theorem own_slots_two_words :
    ∃ s, (pool twoWords).exec (.init twoWords) [.create, .create, .free 64, .reserve] = some s ∧
      ((∀ tr₁ t, tr₁ <+: [.create, .create, .free 64, .reserve] →
          (pool twoWords).exec (.init twoWords) tr₁ = some t → OwnSlots twoWords t) ↔
        (pool twoWords).Along (fun _ a => a.reserves = false) (.init twoWords)
          [.create, .create, .free 64, .reserve]) ∧
      ((∀ tr₁ t, tr₁ <+: [.create, .create, .free 64, .reserve] →
          (pool twoWords).exec (.init twoWords) tr₁ = some t → SlotsRead twoWords t) ↔
        (pool twoWords).Along (SlotFilled twoWords) (.init twoWords)
          [.create, .create, .free 64, .reserve]) := by
  have hrun : (pool twoWords).exec (.init twoWords) [.create, .create, .free 64, .reserve] =
      some _ := rfl
  exact ⟨_, hrun, own_slots_iff hrun⟩

/-- `reserve` on a new pool returns index 0, and `get(0)` is a null pointer; `create` returns the
first slot, and `operator*` of the iterator on it does not. -/
theorem reserved_points_nowhere :
    (∃ s, (pool twoWords).exec (.init twoWords) [.reserve] = some s ∧
        s.get 0 = nullptr ∧ ¬ SlotsRead twoWords s) ∧
      ∃ s, (pool twoWords).exec (.init twoWords) [.create] = some s ∧
        (s.begin twoWords).deref s = some none ∧ ¬ OwnSlots twoWords s := by
  refine ⟨⟨_, rfl, by decide, ?_⟩, ⟨_, rfl, by decide, ?_⟩⟩
  · intro h
    exact absurd (h 0 ⟨_, rfl, rfl⟩).get (by decide)
  · intro h
    exact ownSlots_iff.1 h 0 ⟨_, rfl, rfl⟩

end ObjectPool
end Internal
end Mozi
