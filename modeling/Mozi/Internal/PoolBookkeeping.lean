import Mozi.Internal.ObjectPool

/-!
# PoolBookkeeping — the books of the pool are exact

`Books` is the invariant: `size_` counts the used cells, `free_index_` is in range, a cell points
nowhere or to its own slot, and the handles given out and not taken back are the used cells, each
once.  The search of `nextFree` ends because `size_` is the count: below `kCapacity` there is a
free cell, and each round brings the search nearer to it.
-/

namespace Mozi
namespace Internal
namespace ObjectPool

open Foundation

variable {P : PoolLayout} {s t : State}

/-! ## Used cells -/

def State.Used (s : State) (index : Nat) : Prop :=
  ∃ cell, s.cell_[index]? = some cell ∧ cell.isUsed = true

theorem State.Used.lt (h : s.Used index) : index < s.cell_.length := by
  rcases h with ⟨cell, hcell, _⟩
  exact (List.getElem?_eq_some_iff.1 hcell).1

theorem occupied_iff {index : Nat} (hindex : index < s.cell_.length) :
    s.occupied index = true ↔ s.Used index := by
  simp [State.occupied, State.Used, List.getElem?_eq_getElem hindex]

/-- The number of cells with `isUsed`. -/
def State.usedCount (s : State) : Nat :=
  s.cell_.countP fun cell => cell.isUsed

theorem usedCount_le (s : State) : s.usedCount ≤ s.cell_.length :=
  List.countP_le_length

/-- The count is full exactly if every cell is used. -/
theorem usedCount_eq_length : s.usedCount = s.cell_.length ↔
    ∀ i < s.cell_.length, s.Used i := by
  rw [State.usedCount, List.countP_eq_length]
  constructor
  · intro hall i hi
    exact ⟨s.cell_[i], List.getElem?_eq_getElem hi, hall _ (List.getElem_mem hi)⟩
  · intro hall cell hmem
    rcases List.getElem_of_mem hmem with ⟨i, hi, rfl⟩
    rcases hall i hi with ⟨cell, hcell, hused⟩
    rw [List.getElem?_eq_getElem hi] at hcell
    cases hcell
    exact hused

/-! ## The search -/

/-- How many cells the search passes before it reaches cell `j`. -/
def distance (n j i : Nat) : Nat :=
  if i ≤ j then j - i else j + n - i

theorem distance_next {n i j : Nat} (hi : i < n) (hj : j < n) (hne : i ≠ j) :
    distance n j ((i + 1) % n) < distance n j i := by
  -- The next index is `i + 1`, or 0 behind the last one.
  have hnext : (i + 1) % n = if i + 1 = n then 0 else i + 1 := by
    split_ifs with hlast
    · simp [hlast]
    · exact Nat.mod_eq_of_lt (by omega)
  rw [hnext]
  unfold distance
  split_ifs <;> omega

/-- Where some cell is free the search ends at a free cell. -/
theorem search_returns (hlen : s.cell_.length = P.kCapacity) {i j : Nat} (hi : i < P.kCapacity)
    (hj : j < P.kCapacity) (hfree : s.occupied j = false) :
    ∃ r, whileM s.occupied (s.advance P) P.kCapacity i = some r ∧ r < P.kCapacity ∧
      s.occupied r = false := by
  have hbody : ∀ k, k < P.kCapacity → s.occupied k = true →
      ∃ k', s.advance P k = some k' ∧ k' < P.kCapacity ∧
        distance P.kCapacity j k' < distance P.kCapacity j k := by
    intro k hk hused
    have hne : k ≠ j := by
      rintro rfl
      simp [hfree] at hused
    exact ⟨(k + 1) % P.kCapacity, by simp [State.advance, hlen, hk],
      Nat.mod_lt _ P.capacity_pos, distance_next hk hj hne⟩
  obtain ⟨r, hr, hlt, hend⟩ := whileM_returns (I := fun k => k < P.kCapacity)
    (distance P.kCapacity j) hbody hi
  have hrounds : distance P.kCapacity j i + 1 ≤ P.kCapacity := by
    unfold distance
    split_ifs <;> omega
  exact ⟨r, whileM_mono (fun _ _ h => h) hrounds hr, hlt, hend⟩

/-! ## The invariant -/

structure Books (P : PoolLayout) (s : State) : Prop where
  length : s.cell_.length = P.kCapacity
  size : s.size_ = s.usedCount
  free_index : s.free_index_ < P.kCapacity
  data : ∀ i cell, s.cell_[i]? = some cell → cell.data = nullptr ∨ cell.data = P.values_ i
  nodup : s.live.Nodup
  live : ∀ i, i ∈ s.live ↔ s.Used i

theorem books_init : Books P (.init P) :=
  { length := by simp [State.init]
    size := by simp [State.init, State.usedCount, Cell.init, List.countP_replicate]
    free_index := P.capacity_pos
    data := by
      intro i cell hcell
      have hmem : cell ∈ List.replicate P.kCapacity Cell.init := List.mem_of_getElem? hcell
      rw [(List.mem_replicate.1 hmem).2]
      exact Or.inl rfl
    nodup := List.nodup_nil
    live := by
      intro i
      simp [State.init, State.Used, List.getElem?_replicate, Cell.init] }

namespace Books

theorem size_le (hs : Books P s) : s.size_ ≤ P.kCapacity := by
  rw [hs.size, ← hs.length]
  exact usedCount_le s

/-- `size_` reaches the capacity exactly if every cell is used. -/
theorem full_iff (hs : Books P s) : s.size_ = P.kCapacity ↔ ∀ i < P.kCapacity, s.Used i := by
  rw [hs.size, ← hs.length]
  exact usedCount_eq_length

/-- What `nextFree` does: it finds the pool full, or it ends at a free cell. -/
theorem nextFree_spec (hs : Books P s) :
    ((∀ i < P.kCapacity, s.Used i) ∧ s.nextFree P = some (NO_INDEX, s)) ∨
      ∃ i < P.kCapacity, ¬ s.Used i ∧ s.size_ < P.kCapacity ∧
        s.nextFree P = some (some i, { s with free_index_ := i }) := by
  by_cases hfull : s.size_ = P.kCapacity
  · exact Or.inl ⟨hs.full_iff.1 hfull, by simp [State.nextFree, hfull]⟩
  · have hlt : s.size_ < P.kCapacity := Nat.lt_of_le_of_ne hs.size_le hfull
    obtain ⟨j, hj, hfree⟩ : ∃ j < P.kCapacity, ¬ s.Used j := by
      by_contra hall
      push Not at hall
      exact hfull (hs.full_iff.2 hall)
    have hunocc : ∀ {k}, k < P.kCapacity → (s.occupied k = false ↔ ¬ s.Used k) := by
      intro k hk
      rw [← occupied_iff (hs.length ▸ hk)]
      simp
    obtain ⟨i, hi, hilt, hend⟩ :=
      search_returns hs.length hs.free_index hj ((hunocc hj).2 hfree)
    refine Or.inr ⟨i, hilt, (hunocc hilt).1 hend, hlt, ?_⟩
    simp [State.nextFree, Nat.not_le.2 hlt, hi]

end Books

/-! ## Reserving calls -/

/-- A cell as the reserving calls leave it: used, and pointing nowhere or to its own slot. -/
def FillsSlot (P : PoolLayout) (fill : Nat → Cell → Cell) : Prop :=
  ∀ i cell, (cell.data = nullptr ∨ cell.data = P.values_ i) →
    (fill i cell).isUsed = true ∧
      ((fill i cell).data = nullptr ∨ (fill i cell).data = P.values_ i)

/-- Writing a cell changes whether that one is used and no other. -/
theorem used_set {i j : Nat} {cell : Cell} (hi : i < s.cell_.length)
    (ht : t.cell_ = s.cell_.set i cell) :
    t.Used j ↔ if j = i then cell.isUsed = true else s.Used j := by
  by_cases hji : j = i
  · subst hji
    simp [State.Used, ht, List.getElem?_set_self hi]
  · simp [State.Used, ht, List.getElem?_set_ne (Ne.symm hji), hji]

theorem data_set (hs : Books P s) {i : Nat} {cell : Cell} (hi : i < s.cell_.length)
    (ht : t.cell_ = s.cell_.set i cell)
    (hcell : cell.data = nullptr ∨ cell.data = P.values_ i) :
    ∀ j c, t.cell_[j]? = some c → c.data = nullptr ∨ c.data = P.values_ j := by
  intro j c hc
  by_cases hji : j = i
  · subst hji
    rw [ht, List.getElem?_set_self hi] at hc
    cases hc
    exact hcell
  · rw [ht, List.getElem?_set_ne (Ne.symm hji)] at hc
    exact hs.data j c hc

/-- Taking a free cell. -/
theorem take_spec (hs : Books P s) {i : Nat} (hi : i < P.kCapacity) (hfree : ¬ s.Used i)
    (hsize : s.size_ < P.kCapacity) {fill : Nat → Cell → Cell} (hfill : FillsSlot P fill) :
    ∃ t cell, { s with free_index_ := i }.take i (fill i) = some t ∧ Books P t ∧
      t.cell_[i]? = some (fill i cell) ∧ t.live = s.live ++ [i] ∧
      ∀ j, j ≠ i → t.cell_[j]? = s.cell_[j]? := by
  have hi' : i < s.cell_.length := hs.length ▸ hi
  have hget : s.cell_[i]? = some s.cell_[i] := List.getElem?_eq_getElem hi'
  have hcell := hfill i s.cell_[i] (hs.data i _ hget)
  have hunused : s.cell_[i].isUsed = false := by
    cases hused : s.cell_[i].isUsed with
    | false => rfl
    | true => exact absurd ⟨_, hget, hused⟩ hfree
  have hsmall : s.size_ + 1 < 2 ^ 64 := by
    have hint := P.capacity_int
    omega
  refine ⟨{ s with
      free_index_ := i
      cell_ := s.cell_.set i (fill i s.cell_[i])
      size_ := (s.size_ + 1) % 2 ^ 64
      live := s.live ++ [i] }, s.cell_[i], by simp [State.take, hget], ?_, ?_, rfl, ?_⟩
  · exact
      { length := by simp [hs.length]
        size := by
          -- One cell more is used, and the counter does not wrap.
          have hcount := List.countP_set (p := fun cell : Cell => cell.isUsed)
            (a := fill i s.cell_[i]) hi'
          calc
            (s.size_ + 1) % 2 ^ 64 = s.size_ + 1 := Nat.mod_eq_of_lt hsmall
            _ = s.usedCount + 1 := by rw [hs.size]
            _ = _ := by simp [State.usedCount, hcount, hunused, hcell.1]
        free_index := hi
        data := data_set hs hi' rfl hcell.2
        nodup := by
          refine List.nodup_append.2 ⟨hs.nodup, by simp, ?_⟩
          intro x hx y hy
          have hyi : y = i := by simpa using hy
          rintro rfl
          exact hfree ((hs.live i).1 (hyi ▸ hx))
        live := by
          intro j
          rw [used_set hi' rfl]
          by_cases hji : j = i
          · simp [hji, hcell.1]
          · simp [hji, hs.live j] }
  · simp [List.getElem?_set_self hi']
  · intro j hji
    simp [List.getElem?_set_ne (Ne.symm hji)]

/-- A reserving call finds the pool full and changes nothing, or takes a cell that was free. -/
theorem reserveWith_spec (hs : Books P s) {fill : Nat → Cell → Cell} (hfill : FillsSlot P fill) :
    ((∀ i < P.kCapacity, s.Used i) ∧ s.reserveWith P fill = some (NO_INDEX, s)) ∨
      ∃ i < P.kCapacity, ¬ s.Used i ∧ ∃ t cell, s.reserveWith P fill = some (some i, t) ∧
        Books P t ∧ t.cell_[i]? = some (fill i cell) ∧ t.live = s.live ++ [i] ∧
        ∀ j, j ≠ i → t.cell_[j]? = s.cell_[j]? := by
  rcases hs.nextFree_spec with ⟨hall, hnext⟩ | ⟨i, hi, hfree, hsize, hnext⟩
  · exact Or.inl ⟨hall, by simp [State.reserveWith, hnext, NO_INDEX]⟩
  · rcases take_spec hs hi hfree hsize hfill with ⟨t, cell, ht, hbooks, hcell, hlive, hframe⟩
    refine Or.inr ⟨i, hi, hfree, t, cell, ?_, hbooks, hcell, hlive, hframe⟩
    simp [State.reserveWith, hnext, ht]

/-! ## Releasing calls -/

theorem remove_unused {i : Nat} (hi : i < s.cell_.length) (hfree : ¬ s.Used i) (destruct : Bool) :
    s.remove i destruct = some s := by
  have hget : s.cell_[i]? = some s.cell_[i] := List.getElem?_eq_getElem hi
  have hunused : ¬ s.cell_[i].isUsed = true := fun hused => hfree ⟨_, hget, hused⟩
  simp [State.remove, hget, hunused]

theorem remove_used (hs : Books P s) {i : Nat} (hused : s.Used i) (destruct : Bool) :
    ∃ t, s.remove i destruct = some t ∧ Books P t ∧ t.live = s.live.filter (fun j => j ≠ i) ∧
      ∀ j, j ≠ i → t.cell_[j]? = s.cell_[j]? := by
  have hi : i < s.cell_.length := hused.lt
  rcases hused with ⟨cell, hcell, hisUsed⟩
  have hget : s.cell_[i] = cell := (List.getElem?_eq_some_iff.1 hcell).2
  -- The cell itself is counted, so the counter is not 0.
  have hpos : 0 < s.usedCount := List.countP_pos_iff.2 ⟨cell, List.mem_of_getElem? hcell, hisUsed⟩
  have hsmall : s.usedCount < 2 ^ 64 := by
    have hint := P.capacity_int
    have hle := usedCount_le s
    have hlen := hs.length
    omega
  refine ⟨{ s with
      cell_ := s.cell_.set i { cell with isUsed := false }
      size_ := (s.size_ + (2 ^ 64 - 1)) % 2 ^ 64
      live := s.live.filter fun j => j ≠ i
      destroyed := if destruct then s.destroyed ++ [cell.data] else s.destroyed },
    by simp [State.remove, hcell, hisUsed], ?_, rfl, ?_⟩
  · exact
      { length := by simp [hs.length]
        size := by
          have hcount := List.countP_set (p := fun cell : Cell => cell.isUsed)
            (a := { cell with isUsed := false }) hi
          calc
            (s.size_ + (2 ^ 64 - 1)) % 2 ^ 64 = s.usedCount - 1 := by
              rw [hs.size]
              omega
            _ = _ := by simp [State.usedCount, hcount, hget, hisUsed]
        free_index := hs.free_index
        data := data_set hs hi rfl (hs.data i cell hcell)
        nodup := hs.nodup.filter _
        live := by
          intro j
          rw [used_set hi rfl]
          by_cases hji : j = i
          · simp [hji]
          · simp [hji, hs.live j] }
  · intro j hji
    simp [List.getElem?_set_ne (Ne.symm hji)]

/-- `pointerToIndex` answers with the slots that start at the pointer. -/
theorem pointerToIndex_some {ptr i : Nat}
    (h : s.pointerToIndex P ptr = some i) : i < P.kCapacity ∧ ptr = P.values_ i := by
  by_cases hrange : ptr < P.first_ ∨ ptr > P.last_
  · simp [State.pointerToIndex, hrange, NO_INDEX] at h
  by_cases haligned : (ptr - P.first_) % P.sizeofT = 0
  · have hindex : (ptr - P.first_) / P.sizeofT = i := by
      simp only [State.pointerToIndex, if_neg hrange, haligned, ne_eq, not_true, if_false] at h
      split at h
      · cases h
      · split_ifs at h
        · exact Option.some.inj h
        · cases h
        · exact Option.some.inj h
    have hdvd : P.sizeofT ∣ ptr - P.first_ := Nat.dvd_of_mod_eq_zero haligned
    have hmul : i * P.sizeofT = ptr - P.first_ := hindex ▸ Nat.div_mul_cancel hdvd
    have hptr : ptr = P.values_ i := by
      unfold PoolLayout.values_
      omega
    refine ⟨?_, hptr⟩
    -- The slot does not start behind the last one.
    have hle : P.values_ i ≤ P.values_ (P.kCapacity - 1) := by
      rw [← hptr]
      exact Nat.le_of_not_lt fun hlt => hrange (Or.inr hlt)
    have hmul' : i * P.sizeofT ≤ (P.kCapacity - 1) * P.sizeofT := by
      unfold PoolLayout.values_ at hle
      omega
    have hpos := P.capacity_pos
    have hindex' := Nat.le_of_mul_le_mul_right hmul' P.sizeof_pos
    omega
  · simp [State.pointerToIndex, hrange, haligned, NO_INDEX] at h

theorem pointerToIndex_slot (hs : Books P s) {i : Nat} (hi : i < P.kCapacity) :
    s.pointerToIndex P (P.values_ i) = some i := by
  have hle : i * P.sizeofT ≤ (P.kCapacity - 1) * P.sizeofT :=
    Nat.mul_le_mul_right _ (by omega)
  have hrange : ¬ (P.values_ i < P.first_ ∨ P.values_ i > P.last_) := by
    rintro (hbelow | habove)
    · exact absurd hbelow (Nat.not_lt.2 (Nat.le_add_right _ _))
    · exact absurd habove (Nat.not_lt.2 (Nat.add_le_add_left hle _))
  have hdelta : P.values_ i - P.first_ = i * P.sizeofT := by simp [PoolLayout.values_]
  have hi' : i < s.cell_.length := hs.length ▸ hi
  have hdata := hs.data i s.cell_[i] (List.getElem?_eq_getElem hi')
  unfold State.pointerToIndex
  rw [if_neg hrange]
  simp only [hdelta, Nat.mul_mod_left, Nat.mul_div_cancel _ P.sizeof_pos,
    List.getElem?_eq_getElem hi']
  rcases hdata with hnull | hslot
  · simp [hnull]
  · simp [hslot]

/-- Freeing a pointer that is not the start of a slot in use changes nothing. -/
theorem free_foreign (hs : Books P s) {ptr : Nat}
    (hptr : ¬ ∃ i < P.kCapacity, s.Used i ∧ ptr = P.values_ i) :
    s.free P ptr = some s ∧ ∀ destruct, s.freeWith P ptr destruct = some s := by
  cases hindex : s.pointerToIndex P ptr with
  | none =>
      simp [State.free, State.freeWith, hindex]
  | some i =>
      rcases pointerToIndex_some hindex with ⟨hi, hslot⟩
      have hfree : ¬ s.Used i := fun hused => hptr ⟨i, hi, hused, hslot⟩
      have hi' : i < s.cell_.length := hs.length ▸ hi
      constructor
      · simp [State.free, hindex, List.getElem?_eq_getElem hi', remove_unused hi' hfree]
      · intro destruct
        simp [State.freeWith, hindex, remove_unused hi' hfree]

/-- Freeing the start of a slot is removing its cell. -/
theorem free_slot (hs : Books P s) {i : Nat} (hi : i < P.kCapacity) :
    (∃ destruct, s.free P (P.values_ i) = s.remove i destruct) ∧
      ∀ destruct, s.freeWith P (P.values_ i) destruct = s.remove i destruct := by
  have hindex := pointerToIndex_slot hs hi
  have hi' : i < s.cell_.length := hs.length ▸ hi
  constructor
  · exact ⟨s.cell_[i].wasConstructed, by
      simp [State.free, hindex, List.getElem?_eq_getElem hi']⟩
  · intro destruct
    simp [State.freeWith, hindex]

/-! ## Calls -/

/-- The calls that ask for a cell. -/
def Action.reserves : Action → Bool
  | .remove _ _ => false
  | .freeWith _ _ => false
  | .free _ => false
  | _ => true

/-- `NO_INDEX` or `nullptr`. -/
def Result.isNull : Result → Bool
  | .index i => i = NO_INDEX
  | .pointer p => p = nullptr
  | .void => false

/-- The result is a handle to the cell: its index or its slot. -/
def Result.Names (P : PoolLayout) (r : Result) (i : Nat) : Prop :=
  r = .index (some i) ∨ r = .pointer (P.values_ i)

theorem Result.Names.isNull {r : Result} {i : Nat} (h : r.Names P i) : r.isNull = false := by
  rcases h with rfl | rfl
  · rfl
  · have hpos : nullptr < P.values_ i := Nat.lt_of_lt_of_le P.first_pos (Nat.le_add_right _ _)
    simpa [Result.isNull] using Nat.ne_of_gt hpos

/-- What a reserving call answers: the pool is full and stays as it is, or the answer names a
cell that was free. -/
def Answers (P : PoolLayout) (s : State) (r : Result) (t : State) : Prop :=
  ((∀ i < P.kCapacity, s.Used i) ∧ r.isNull = true ∧ t = s) ∨
    ∃ i < P.kCapacity, ¬ s.Used i ∧ r.Names P i ∧ Books P t ∧ t.live = s.live ++ [i] ∧
      ∀ j, j ≠ i → t.cell_[j]? = s.cell_[j]?

theorem reserve_answers (hs : Books P s) :
    ∃ r t, s.reserve P = some (r, t) ∧ Answers P s (.index r) t ∧
      Answers P s (.pointer (r.elim nullptr P.values_)) t := by
  have hfill : FillsSlot P fun _ cell => { cell with isUsed := true, wasConstructed := false } :=
    fun _ _ hdata => ⟨rfl, hdata⟩
  rcases reserveWith_spec hs hfill with ⟨hall, hcall⟩ | ⟨i, hi, hfree, t, _, hcall, hb, _, hl, hf⟩
  · exact ⟨_, _, hcall, Or.inl ⟨hall, rfl, rfl⟩, Or.inl ⟨hall, rfl, rfl⟩⟩
  · exact ⟨_, _, hcall, Or.inr ⟨i, hi, hfree, Or.inl rfl, hb, hl, hf⟩,
      Or.inr ⟨i, hi, hfree, Or.inr rfl, hb, hl, hf⟩⟩

/-- `construct` and `add` also leave the slot in `data`, where `get` finds it. -/
theorem constructing_answers (hs : Books P s) {f : Option (Index × State)}
    (hf : f = s.reserveWith P fun index _ =>
      { data := P.values_ index, isUsed := true, wasConstructed := true }) :
    ∃ r t, f = some (r, t) ∧ Answers P s (.index r) t ∧
      Answers P s (.pointer (r.elim nullptr t.get)) t := by
  have hfill : FillsSlot P fun index _ =>
      { data := P.values_ index, isUsed := true, wasConstructed := true } :=
    fun _ _ _ => ⟨rfl, Or.inr rfl⟩
  rcases reserveWith_spec hs hfill with ⟨hall, hcall⟩ |
    ⟨i, hi, hfree, t, _, hcall, hb, hcell, hl, hframe⟩
  · exact ⟨_, _, hf.trans hcall, Or.inl ⟨hall, rfl, rfl⟩, Or.inl ⟨hall, rfl, rfl⟩⟩
  · have hget : t.get i = P.values_ i := by simp [State.get, hcell]
    exact ⟨_, _, hf.trans hcall, Or.inr ⟨i, hi, hfree, Or.inl rfl, hb, hl, hframe⟩,
      Or.inr ⟨i, hi, hfree, Or.inr (by simp [hget]), hb, hl, hframe⟩⟩

theorem call_answers (hs : Books P s) {a : Action} (ha : a.reserves = true) :
    ∃ r t, s.call P a = some (r, t) ∧ Answers P s r t := by
  cases a with
  | reserve =>
      rcases reserve_answers hs with ⟨r, t, hcall, hindex, _⟩
      exact ⟨.index r, t, by simp [State.call, hcall], hindex⟩
  | construct =>
      rcases constructing_answers hs (f := s.construct P) rfl with ⟨r, t, hcall, hindex, _⟩
      exact ⟨.index r, t, by simp [State.call, hcall], hindex⟩
  | add =>
      rcases constructing_answers hs (f := s.add P) rfl with ⟨r, t, hcall, hindex, _⟩
      exact ⟨.index r, t, by simp [State.call, hcall], hindex⟩
  | allocate =>
      rcases reserve_answers hs with ⟨r, t, hcall, _, hpointer⟩
      refine ⟨_, t, ?_, hpointer⟩
      cases r <;> simp [State.call, State.allocate, hcall]
  | create =>
      rcases constructing_answers hs (f := s.construct P) rfl with ⟨r, t, hcall, _, hpointer⟩
      refine ⟨_, t, ?_, hpointer⟩
      cases r <;> simp [State.call, State.create, hcall]
  | insert =>
      rcases constructing_answers hs (f := s.add P) rfl with ⟨r, t, hcall, _, hpointer⟩
      refine ⟨_, t, ?_, hpointer⟩
      cases r <;> simp [State.call, State.insert, hcall]
  | remove index destruct =>
      cases ha
  | freeWith ptr destruct =>
      cases ha
  | free ptr =>
      cases ha

theorem remove_books (hs : Books P s) {i : Nat} {destruct : Bool}
    (h : s.remove i destruct = some t) : Books P t := by
  by_cases hused : s.Used i
  · rcases remove_used hs hused destruct with ⟨t', ht', hbooks, _⟩
    rw [ht'] at h
    cases h
    exact hbooks
  · have hi : i < s.cell_.length := by
      rcases Option.map_eq_some_iff.1 h with ⟨cell, hcell, _⟩
      exact (List.getElem?_eq_some_iff.1 hcell).1
    rw [remove_unused hi hused] at h
    cases h
    exact hs

theorem books_step (hs : Books P s) {a : Action} {r : Result} (h : s.call P a = some (r, t)) :
    Books P t := by
  cases ha : a.reserves with
  | true =>
      rcases call_answers hs ha with ⟨r', t', hcall, hanswer⟩
      rw [hcall] at h
      cases h
      rcases hanswer with ⟨_, _, rfl⟩ | ⟨_, _, _, _, hbooks, _⟩
      · exact hs
      · exact hbooks
  | false =>
      cases a with
      | remove i destruct =>
          rcases Option.map_eq_some_iff.1 h with ⟨u, hu, heq⟩
          cases heq
          exact remove_books hs hu
      | freeWith ptr destruct =>
          rcases Option.map_eq_some_iff.1 h with ⟨u, hu, heq⟩
          cases heq
          unfold State.freeWith at hu
          split at hu
          · cases hu
            exact hs
          · exact remove_books hs hu
      | free ptr =>
          rcases Option.map_eq_some_iff.1 h with ⟨u, hu, heq⟩
          cases heq
          unfold State.free at hu
          split at hu
          · cases hu
            exact hs
          · rcases Option.bind_eq_some_iff.1 hu with ⟨cell, _, hremove⟩
            exact remove_books hs hremove
      | _ =>
          cases ha

theorem books_reachable (h : (pool P).Reachable (.init P) s) : Books P s := by
  apply h.invariant books_init
  intro s a t hs ht
  rcases Option.map_eq_some_iff.1 ht with ⟨⟨r, u⟩, hcall, rfl⟩
  exact books_step hs hcall

/-! ## Exactness -/

/-- What the pool's books promise in a state. -/
structure Exact (P : PoolLayout) (s : State) : Prop where
  /-- `size_` is the number of cells with `isUsed`, and at most the capacity -/
  size : s.size_ = s.usedCount ∧ s.size_ ≤ P.kCapacity
  /-- the handles given out and not taken back name each used cell once -/
  handles : s.live.Nodup ∧ ∀ i, i ∈ s.live ↔ s.Used i
  /-- `nextFree` ends, with `free_index_` in range -/
  nextFree : s.free_index_ < P.kCapacity ∧
    ∃ r t, s.nextFree P = some (r, t) ∧ t.free_index_ < P.kCapacity
  /-- a reserving call answers null exactly if every cell is used, and else names a free cell -/
  reserving : ∀ a : Action, a.reserves = true → ∃ r t, s.call P a = some (r, t) ∧
    (r.isNull = true ↔ ∀ i < P.kCapacity, s.Used i) ∧
    (r.isNull = false → ∃ i < P.kCapacity, ¬ s.Used i ∧ r.Names P i ∧ t.live = s.live ++ [i])
  /-- removing a cell that is not in use changes nothing -/
  removing : ∀ i < P.kCapacity, ¬ s.Used i → ∀ destruct,
    s.call P (.remove i destruct) = some (.void, s)
  /-- freeing a pointer that is not the start of a slot in use changes nothing -/
  freeing : ∀ ptr, (¬ ∃ i < P.kCapacity, s.Used i ∧ ptr = P.values_ i) →
    s.call P (.free ptr) = some (.void, s) ∧
      ∀ destruct, s.call P (.freeWith ptr destruct) = some (.void, s)
  /-- removing or freeing a cell in use takes its handle back and no other -/
  releasing : ∀ i < P.kCapacity, s.Used i → ∀ a,
    (a = .free (P.values_ i) ∨ ∃ destruct, a = .remove i destruct ∨
      a = .freeWith (P.values_ i) destruct) →
    ∃ t, s.call P a = some (.void, t) ∧ t.live = s.live.filter fun j => j ≠ i

/-- The books of a pool are exact after any sequence of calls. -/
theorem pool_books_exact {tr : List Action} (hrun : (pool P).exec (.init P) tr = some s) :
    Exact P s := by
  have hs : Books P s := books_reachable ⟨tr, hrun⟩
  refine
    { size := ⟨hs.size, hs.size_le⟩
      handles := ⟨hs.nodup, hs.live⟩
      nextFree := ⟨hs.free_index, ?_⟩
      reserving := ?_
      removing := ?_
      freeing := ?_
      releasing := ?_ }
  · rcases hs.nextFree_spec with ⟨_, hnext⟩ | ⟨i, hi, _, _, hnext⟩
    · exact ⟨_, _, hnext, hs.free_index⟩
    · exact ⟨_, _, hnext, hi⟩
  · intro a ha
    rcases call_answers hs ha with
      ⟨r, t, hcall, ⟨hall, hnull, _⟩ | ⟨i, hi, hfree, hnames, _, hl, _⟩⟩
    · exact ⟨r, t, hcall, ⟨fun _ => hall, fun _ => hnull⟩, fun h => by simp [hnull] at h⟩
    · refine ⟨r, t, hcall, ⟨?_, ?_⟩, fun _ => ⟨i, hi, hfree, hnames, hl⟩⟩
      · simp [hnames.isNull]
      · exact fun hall => absurd (hall i hi) hfree
  · intro i hi hfree destruct
    simp [State.call, remove_unused (hs.length ▸ hi) hfree]
  · intro ptr hptr
    rcases free_foreign hs hptr with ⟨hfree, hfreeWith⟩
    exact ⟨by simp [State.call, hfree], fun destruct => by simp [State.call, hfreeWith]⟩
  · intro i hi hused a ha
    rcases free_slot hs hi with ⟨⟨d, hfree⟩, hfreeWith⟩
    rcases ha with rfl | ⟨destruct, rfl | rfl⟩
    · rcases remove_used hs hused d with ⟨t, ht, _, hl, _⟩
      exact ⟨t, by simp [State.call, hfree, ht], hl⟩
    · rcases remove_used hs hused destruct with ⟨t, ht, _, hl, _⟩
      exact ⟨t, by simp [State.call, ht], hl⟩
    · rcases remove_used hs hused destruct with ⟨t, ht, _, hl, _⟩
      exact ⟨t, by simp [State.call, hfreeWith, ht], hl⟩

/-- A pool of two words at address 64. -/
def twoWords : PoolLayout :=
  { kCapacity := 2
    sizeofT := 8
    first_ := 64
    capacity_pos := by decide
    capacity_int := by decide
    sizeof_pos := Nat.succ_pos 7
    first_pos := by decide }

/-- Two cells are taken, the first is given back twice and its slot reused. -/
theorem pool_books_exact_two_words :
    ∃ s, (pool twoWords).exec (.init twoWords)
        [.create, .reserve, .free 64, .free 64, .free 68, .allocate] = some s ∧
      s.live = [1, 0] ∧ s.size_ = 2 ∧ Exact twoWords s := by
  have hrun : (pool twoWords).exec (.init twoWords)
      [.create, .reserve, .free 64, .free 64, .free 68, .allocate] = some _ := rfl
  exact ⟨_, hrun, rfl, rfl, pool_books_exact hrun⟩

end ObjectPool
end Internal
end Mozi
