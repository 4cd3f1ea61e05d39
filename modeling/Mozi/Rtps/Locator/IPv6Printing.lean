import Mozi.Rtps.Locator.IPv6Text

/-!
# IPv6Printing — the block that `toIPv6string` elides

* `Scanned` is the invariant of the first loop of `toIPv6string`, and `maxBlock_spec` what it says
  about the block that is chosen: a block at the end has its index, any other one has its size as
  index.
* `printBlocks_groups` and the lemmas after it give the text for each index and size.
-/

namespace Mozi
namespace Rtps

open Foundation IPLocator

/-! ## The first loop -/

/-- The groups from `start` on are zero, `size` of them. -/
def ZeroRun (zero : Nat → Bool) (start size : Nat) : Prop :=
  ∀ k, start ≤ k → k < start + size → zero (2 * k) = true

theorem ZeroRun.concat {zero : Nat → Bool} {start size n : Nat} (h : ZeroRun zero start size)
    (hn : start + size = n) (hzero : zero (2 * n) = true) : ZeroRun zero start (size + 1) := by
  intro k hle hlt
  by_cases hk : k < start + size
  · exact h k hle hk
  · have heq : k = n := by omega
    rw [heq]
    exact hzero

/-- What is known after `n` groups: about the block that is still open, about the largest block that
is closed, and about two neighbouring zero groups. -/
structure Scanned (zero : Nat → Bool) (n : Nat) (b : Blocks) : Prop where
  actual : b.compress = true →
    ∃ start, start + b.actual_block_size = n ∧ 1 ≤ b.actual_block_size ∧
      b.actual_block_index = 2 * start ∧ ZeroRun zero start b.actual_block_size ∧
      (start = 0 ∨ zero (2 * (start - 1)) = false)
  closed : b.compress = false → n = 0 ∨ zero (2 * (n - 1)) = false
  index : b.max_block_index = b.max_block_size
  largest : b.max_block_size = 0 ∨
    ∃ start, start + b.max_block_size < n ∧ ZeroRun zero start b.max_block_size ∧
      zero (2 * (start + b.max_block_size)) = false
  pair : ∀ k, k + 1 < n → zero (2 * k) = true → zero (2 * (k + 1)) = true →
    2 ≤ b.max_block_size ∨ (b.compress = true ∧ 2 ≤ b.actual_block_size)

variable {zero : Nat → Bool} {n : Nat} {b : Blocks}

theorem scanned_start (zero : Nat → Bool) : Scanned zero 0 ⟨0, 0, 0, 0, false⟩ where
  actual h := by cases h
  closed _ := Or.inl rfl
  index := rfl
  largest := Or.inl rfl
  pair k hk := by omega

theorem Scanned.largest_succ (h : Scanned zero n b) :
    b.max_block_size = 0 ∨
      ∃ start, start + b.max_block_size < n + 1 ∧ ZeroRun zero start b.max_block_size ∧
        zero (2 * (start + b.max_block_size)) = false := by
  rcases h.largest with hzero | ⟨start, hlt, hrun, hend⟩
  · exact Or.inl hzero
  · exact Or.inr ⟨start, by omega, hrun, hend⟩

/-- A zero group extends the open block or opens one. -/
theorem Scanned.zero_group (h : Scanned zero n b) (hzero : zero (2 * n) = true) :
    Scanned zero (n + 1) (scanBlock zero b (2 * n)) := by
  unfold scanBlock
  rw [if_pos hzero]
  cases hcompress : b.compress with
  | true =>
      rw [if_pos rfl]
      obtain ⟨start, hstart, hpos, hindex, hrun, hbefore⟩ := h.actual hcompress
      exact
        { actual := fun _ =>
            ⟨start, by simp; omega, by simp, hindex, hrun.concat hstart hzero, hbefore⟩
          closed := fun hc => by simp at hc
          index := h.index
          largest := h.largest_succ
          pair := fun k hk hz hz' => Or.inr ⟨rfl, by simp; omega⟩ }
  | false =>
      rw [if_neg (by simp)]
      exact
        { actual := fun _ =>
            ⟨n, rfl, Nat.le_refl 1, rfl, fun k hle hlt => by
              have heq : k = n := by simp at hlt; omega
              rw [heq]
              exact hzero, h.closed hcompress⟩
          closed := fun hc => by simp at hc
          index := h.index
          largest := h.largest_succ
          pair := fun k hk hz hz' => by
            by_cases hlast : k + 1 = n
            · -- The group before the one that opens a block is not zero.
              rcases h.closed hcompress with h0 | hprev
              · omega
              · rw [← hlast, Nat.add_sub_cancel, hz] at hprev
                cases hprev
            · rcases h.pair k (by omega) hz hz' with hmax | ⟨hc, _⟩
              · exact Or.inl hmax
              · rw [hcompress] at hc
                cases hc }

/-- Another group closes the open block, which may be the largest one. -/
theorem Scanned.other_group (h : Scanned zero n b) (hother : zero (2 * n) = false) :
    Scanned zero (n + 1) (scanBlock zero b (2 * n)) := by
  have hpair : ∀ k, k + 1 < n + 1 → zero (2 * k) = true → zero (2 * (k + 1)) = true →
      2 ≤ b.max_block_size ∨ (b.compress = true ∧ 2 ≤ b.actual_block_size) := by
    intro k hk hz hz'
    apply h.pair k _ hz hz'
    by_contra hnot
    rw [show k + 1 = n by omega, hother] at hz'
    cases hz'
  unfold scanBlock
  rw [if_neg (by simp [hother])]
  cases hcompress : b.compress with
  | true =>
      rw [if_pos rfl]
      obtain ⟨start, hstart, hpos, _, hrun, _⟩ := h.actual hcompress
      by_cases hlarger : b.actual_block_size > b.max_block_size
      · rw [if_pos hlarger]
        exact
          { actual := fun hc => by simp at hc
            closed := fun _ => Or.inr hother
            index := rfl
            largest := Or.inr ⟨start, by simp; omega, hrun, by rw [hstart]; exact hother⟩
            pair := fun k hk hz hz' => Or.inl (by
              rcases hpair k hk hz hz' with hmax | ⟨_, hactual⟩
              · exact Nat.le_trans hmax (Nat.le_of_lt hlarger)
              · exact hactual) }
      · rw [if_neg hlarger]
        exact
          { actual := fun hc => by simp at hc
            closed := fun _ => Or.inr hother
            index := h.index
            largest := h.largest_succ
            pair := fun k hk hz hz' => Or.inl (by
              rcases hpair k hk hz hz' with hmax | ⟨_, hactual⟩
              · exact hmax
              · exact Nat.le_trans hactual (Nat.le_of_not_lt hlarger)) }
  | false =>
      rw [if_neg (by simp)]
      exact
        { actual := fun hc => by simp [hcompress] at hc
          closed := fun _ => Or.inr hother
          index := h.index
          largest := h.largest_succ
          pair := hpair }

/-- The first loop keeps the invariant. -/
theorem scanned_blocks (zero : Nat → Bool) (n : Nat) :
    Scanned zero n ((List.range' 0 n 2).foldl (scanBlock zero) ⟨0, 0, 0, 0, false⟩) := by
  induction n with
  | zero =>
      exact scanned_start zero
  | succ n ih =>
      rw [List.range'_concat, List.foldl_append, Nat.zero_add]
      cases hzero : zero (2 * n) with
      | true =>
          exact ih.zero_group hzero
      | false =>
          exact ih.other_group hzero

/-- Two neighbouring groups of the address are zero. -/
def ZeroPair (zero : Nat → Bool) : Prop :=
  ∃ k, k < 7 ∧ zero (2 * k) = true ∧ zero (2 * (k + 1)) = true

instance (zero : Nat → Bool) : Decidable (ZeroPair zero) :=
  inferInstanceAs (Decidable (∃ k, k < 7 ∧ zero (2 * k) = true ∧ zero (2 * (k + 1)) = true))

/-- The block that is chosen is the last one, with its index. -/
structure LastBlock (zero : Nat → Bool) (index size : Nat) : Prop where
  size_le : size ≤ 8
  index_eq : index = 2 * (8 - size)
  run : ZeroRun zero (8 - size) size
  before : size = 8 ∨ zero (2 * (7 - size)) = false

/-- The block that is chosen has another group after it, and its size stands for its index. -/
structure InnerBlock (zero : Nat → Bool) (index size : Nat) : Prop where
  index_eq : index = size
  block : ∃ start, start + size < 8 ∧ ZeroRun zero start size ∧ zero (2 * (start + size)) = false

theorem blockIndices_eq : blockIndices = List.range' 0 8 2 :=
  rfl

theorem ZeroRun.zeroPair {start size : Nat} (h : ZeroRun zero start size) (hsize : 2 ≤ size)
    (hle : start + size ≤ 8) : ZeroPair zero :=
  ⟨start, by omega, h start (Nat.le_refl start) (by omega), h (start + 1) (by omega) (by omega)⟩

theorem maxBlock_spec (zero : Nat → Bool) :
    (2 ≤ (maxBlock zero).2 ↔ ZeroPair zero) ∧
      (2 ≤ (maxBlock zero).2 →
        LastBlock zero (maxBlock zero).1 (maxBlock zero).2 ∨
          InnerBlock zero (maxBlock zero).1 (maxBlock zero).2) := by
  have h := scanned_blocks zero 8
  rw [← blockIndices_eq] at h
  unfold maxBlock
  generalize blockIndices.foldl (scanBlock zero) ⟨0, 0, 0, 0, false⟩ = b at h
  dsimp only
  split_ifs with hlast
  · simp only [Bool.and_eq_true, decide_eq_true_eq] at hlast
    -- The block is still open at the end, and larger than any other one.
    obtain ⟨start, hstart, _, hindex, hrun, hbefore⟩ := h.actual hlast.1
    have hstart' : start = 8 - b.actual_block_size := by omega
    refine ⟨⟨fun hsize => hrun.zeroPair hsize (by omega), ?_⟩,
      fun _ => Or.inl ⟨by omega, ?_, ?_, ?_⟩⟩
    · rintro ⟨k, hk, hz, hz'⟩
      rcases h.pair k (by omega) hz hz' with hmax | ⟨_, hactual⟩
      · exact Nat.le_trans hmax (Nat.le_of_lt hlast.2)
      · exact hactual
    · rw [← hstart']
      exact hindex
    · rw [← hstart']
      exact hrun
    · rcases hbefore with h0 | hprev
      · left
        omega
      · right
        rw [show 7 - b.actual_block_size = start - 1 by omega]
        exact hprev
  · -- A closed block is the largest one.
    simp only [Bool.and_eq_true, decide_eq_true_eq, not_and, Nat.not_lt] at hlast
    constructor
    · constructor
      · intro hsize
        rcases h.largest with hzero | ⟨start, hlt, hrun, _⟩
        · omega
        · exact hrun.zeroPair hsize (by omega)
      · rintro ⟨k, hk, hz, hz'⟩
        rcases h.pair k (by omega) hz hz' with hmax | ⟨hcompress, hactual⟩
        · exact hmax
        · exact Nat.le_trans hactual (hlast hcompress)
    · intro hsize
      right
      rcases h.largest with hzero | hblock
      · omega
      · exact ⟨h.index, hblock⟩

/-! ## The second loop -/

variable {field : Nat → List Char} {compress : Bool} {max_block_index : Nat}

/-- Blocks that are printed, each with a colon. -/
theorem foldl_printBlock_field {l : List Nat} {size : Nat}
    (h : ∀ i ∈ l, (compress && decide (i ≥ max_block_index) && decide (size > 0)) = false ∧ i ≠ 14)
    (ss : List Char) :
    l.foldl (printBlock field compress max_block_index) (size, ss) =
      (size, ss ++ l.flatMap fun i => field i ++ [':']) := by
  induction l generalizing ss with
  | nil =>
      simp
  | cons i l ih =>
      obtain ⟨hfield, hne⟩ := h i (List.mem_cons_self ..)
      rw [List.foldl_cons, printBlock, if_neg (by simp [hfield]), if_pos hne,
        ih fun j hj => h j (List.mem_cons_of_mem i hj)]
      simp

/-- Blocks that are left out: the colon comes with the last one. -/
theorem foldl_printBlock_elided {l : List Nat} {size : Nat} (h : ∀ i ∈ l, i ≥ max_block_index)
    (hle : l.length ≤ size) (hpos : 0 < size) (ss : List Char) :
    l.foldl (printBlock field true max_block_index) (size, ss) =
      (size - l.length, if l.length = size then ss ++ [':'] else ss) := by
  induction l generalizing size with
  | nil =>
      have hne : ¬ 0 = size := by omega
      simp [hne]
  | cons i l ih =>
      have hi := h i (List.mem_cons_self ..)
      rw [List.length_cons] at hle ⊢
      rw [List.foldl_cons, printBlock, if_pos (by simp [hi, hpos])]
      -- The colon is printed where the counter reaches 0.
      by_cases hone : size = 1
      · have hnil : l = [] := List.length_eq_zero_iff.1 (by omega)
        subst hnil
        simp [hone]
      · rw [if_neg (by omega),
          ih (fun j hj => h j (List.mem_cons_of_mem i hj)) (by omega) (by omega)]
        congr 1
        · omega
        · simp only [show l.length = size - 1 ↔ l.length + 1 = size by omega]

/-! ## The text -/

/-- The groups at every second index from `a` on. -/
def groupsAt (f : Nat → Group) (a n : Nat) : List Group :=
  (List.range' a n 2).map f

variable {f : Nat → Group}

theorem length_groupsAt (a n : Nat) : (groupsAt f a n).length = n := by
  simp [groupsAt]

theorem groupsAt_concat (a n : Nat) :
    groupsAt f a (n + 1) = groupsAt f a n ++ [f (a + 2 * n)] := by
  rw [groupsAt, groupsAt, List.range'_concat, List.map_append, List.map_singleton]

theorem groupsAt_append (a m n : Nat) :
    groupsAt f a m ++ groupsAt f (a + 2 * m) n = groupsAt f a (m + n) := by
  rw [groupsAt, groupsAt, groupsAt, ← List.map_append, List.range'_append]

theorem flatMap_range' (a n : Nat) :
    ((List.range' a n 2).flatMap fun i => (f i).digits ++ [':']) =
      (groupsAt f a n).flatMap fun g => g.digits ++ [':'] := by
  rw [groupsAt, List.flatMap_map]

/-- The blocks up to the last one, which has no colon. -/
theorem foldl_printBlock_last {a n size : Nat} (hlast : a + 2 * n = 14)
    (h : ∀ i, a ≤ i → (compress && decide (i ≥ max_block_index) && decide (size > 0)) = false)
    (ss : List Char) :
    (List.range' a (n + 1) 2).foldl
        (printBlock (fun i => (f i).digits) compress max_block_index) (size, ss) =
      (size, ss ++ joinGroups (groupsAt f a (n + 1))) := by
  have hfields : ∀ i ∈ List.range' a n 2,
      (compress && decide (i ≥ max_block_index) && decide (size > 0)) = false ∧ i ≠ 14 := by
    intro i hi
    obtain ⟨k, hk, rfl⟩ := List.mem_range'.1 hi
    exact ⟨h _ (by omega), by omega⟩
  rw [List.range'_concat, List.foldl_append, foldl_printBlock_field hfields, hlast]
  simp only [List.foldl_cons, List.foldl_nil]
  rw [printBlock, if_neg (by simp [h 14 (by omega)]), if_neg (by simp), List.append_assoc,
    flatMap_range', flatMap_digits_append, groupsAt_concat, hlast]

/-- Nothing is left out. -/
theorem printBlocks_groups {index size : Nat} (hsize : size < 2) :
    printBlocks (fun i => (f i).digits) index size = joinGroups (groupsAt f 0 8) := by
  have hcompress : decide (size ≥ 2) = false := by
    simpa using hsize
  have hfold : (List.range' 0 8 2).foldl
      (printBlock (fun i => (f i).digits) false index) (size, []) =
        (size, [] ++ joinGroups (groupsAt f 0 8)) :=
    foldl_printBlock_last (by decide) (fun i _ => rfl) []
  simp [printBlocks, blockIndices_eq, hcompress, hfold]

/-- The blocks before the index, and the blocks that are left out. -/
theorem foldl_printBlock_left {index size left n : Nat} (hleft : (index + 1) / 2 = left)
    (hpos : 1 ≤ left) (hle : left + n ≤ 8) (hn : 1 ≤ n) (hnsize : n ≤ size) :
    (List.range' 0 (left + n) 2).foldl (printBlock (fun i => (f i).digits) true index) (size, []) =
      (size - n, joinGroups (groupsAt f 0 left) ++ if n = size then [':', ':'] else [':']) := by
  -- An index that is odd splits no group: the blocks are the even ones.
  have hfields : ∀ i ∈ List.range' 0 left 2,
      (true && decide (i ≥ index) && decide (size > 0)) = false ∧ i ≠ 14 := by
    intro i hi
    obtain ⟨k, hk, rfl⟩ := List.mem_range'.1 hi
    have hlt : ¬ index ≤ 2 * k := by omega
    exact ⟨by simp [hlt], by omega⟩
  have helided : ∀ i ∈ List.range' (0 + 2 * left) n 2, i ≥ index := by
    intro i hi
    obtain ⟨k, hk, rfl⟩ := List.mem_range'.1 hi
    omega
  have hne : groupsAt f 0 left ≠ [] := by
    rw [← List.length_pos_iff, length_groupsAt]
    exact hpos
  rw [← List.range'_append, List.foldl_append, foldl_printBlock_field hfields,
    foldl_printBlock_elided helided (by simpa using hnsize) (by omega), List.length_range',
    flatMap_range', flatMap_digits hne]
  split_ifs <;> simp

/-- The block is left out between the groups before the index and the groups after the block. -/
theorem printBlocks_elided {index size left : Nat} (hsize : 2 ≤ size)
    (hleft : (index + 1) / 2 = left) (hpos : 1 ≤ left) (hle : left + size ≤ 8) :
    printBlocks (fun i => (f i).digits) index size =
      joinGroups (groupsAt f 0 left) ++
        ':' :: ':' :: joinGroups (groupsAt f (2 * (left + size)) (8 - left - size)) := by
  have hindex : (index == 0) = false := by
    simp
    omega
  obtain ⟨n, hn⟩ : ∃ n, left + size + n = 8 := ⟨8 - left - size, by omega⟩
  have hrest : (List.range' (2 * (left + size)) n 2).foldl
      (printBlock (fun i => (f i).digits) true index)
        (0, joinGroups (groupsAt f 0 left) ++ [':', ':']) =
      (0, joinGroups (groupsAt f 0 left) ++ [':', ':'] ++
        joinGroups (groupsAt f (2 * (left + size)) n)) := by
    cases n with
    | zero =>
        simp [groupsAt, joinGroups]
    | succ n =>
        exact foldl_printBlock_last (by omega) (fun i _ => by simp) _
  have hleftText := foldl_printBlock_left (f := f) hleft hpos hle (by omega) (Nat.le_refl size)
  rw [if_pos rfl, Nat.sub_self] at hleftText
  have hfold : (List.range' 0 8 2).foldl
      (printBlock (fun i => (f i).digits) true index) (size, []) =
        (0, joinGroups (groupsAt f 0 left) ++ [':', ':'] ++
          joinGroups (groupsAt f (2 * (left + size)) n)) := by
    rw [← hn, ← List.range'_append, List.foldl_append, hleftText, Nat.zero_add, hrest]
  have hcompress : decide (size ≥ 2) = true := by
    simpa using hsize
  rw [show 8 - left - size = n by omega]
  simp [printBlocks, blockIndices_eq, hcompress, hindex, hfold]

/-- The address ends before the block does. -/
theorem printBlocks_cut {index size left : Nat} (hsize : 2 ≤ size)
    (hleft : (index + 1) / 2 = left) (hpos : 1 ≤ left) (hlt : left < 8) (hcut : 8 < left + size) :
    printBlocks (fun i => (f i).digits) index size = joinGroups (groupsAt f 0 left) ++ [':'] := by
  have hindex : (index == 0) = false := by
    simp
    omega
  obtain ⟨n, hn⟩ : ∃ n, left + n = 8 := ⟨8 - left, by omega⟩
  have hfold := foldl_printBlock_left (f := f) hleft hpos (show left + n ≤ 8 by omega) (by omega)
    (show n ≤ size by omega)
  rw [if_neg (by omega), hn] at hfold
  have hcompress : decide (size ≥ 2) = true := by
    simpa using hsize
  simp [printBlocks, blockIndices_eq, hcompress, hindex, hfold]

end Rtps
end Mozi
