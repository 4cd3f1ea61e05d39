import Mozi.Rtps.Storage.Fuel

/-!
# Links — where the links of the missing-fragment list are

`nextFragmentPointer` rounds with `& 3u` where a multiple of 4 needs `& ~3u`, so the link of every
fragment is in the first 7 bytes of the buffer: the links overwrite each other, and the data of the
first fragment overwrites them all.
-/

namespace Mozi
namespace Rtps

open Foundation

/-- `fragment_count_` as `setFragmentSize` computes it. -/
def fragmentCount (length fragment_size : Nat) : Nat :=
  u32 (length + fragment_size - 1) / fragment_size

theorem fragmentCount_lt (length fs : Nat) : fragmentCount length fs < 2 ^ 32 :=
  Nat.lt_of_le_of_lt (Nat.div_le_self _ _) (u32_lt _)

theorem fragmentCount_zero {length fs : Nat} (hlen : length < 2 ^ 32) (hfs : 0 < fs)
    (hfs' : fs < 2 ^ 16) :
    fragmentCount length fs = 0 ↔ length = 0 ∨ 2 ^ 32 ≤ length + fs - 1 := by
  unfold fragmentCount u32
  rw [Nat.div_eq_zero_iff]
  omega

/-- Without overflow the count is the length divided by the size, rounded up. -/
theorem fragmentCount_bounds {length fs : Nat} (hfs : 0 < fs)
    (hpos : 0 < fragmentCount length fs) (hlen : length < 2 ^ 32) (hfs' : fs < 2 ^ 16) :
    (fragmentCount length fs - 1) * fs < length ∧ length ≤ fragmentCount length fs * fs := by
  have hnot : ¬ (length = 0 ∨ 2 ^ 32 ≤ length + fs - 1) := by
    rw [← fragmentCount_zero hlen hfs hfs']
    omega
  have hcount : fragmentCount length fs = (length + fs - 1) / fs := by
    unfold fragmentCount
    rw [u32_of_lt (by omega)]
  rw [hcount] at hpos ⊢
  have hdiv := Nat.div_add_mod (length + fs - 1) fs
  have hmod := Nat.mod_lt (length + fs - 1) hfs
  generalize (length + fs - 1) / fs = n at *
  -- With the count written as `k + 1` both products are linear in `k * fs`.
  obtain ⟨k, rfl⟩ : ∃ k, n = k + 1 := ⟨n - 1, by omega⟩
  rw [Nat.add_sub_cancel]
  rw [Nat.mul_succ] at hdiv
  rw [Nat.succ_mul]
  rw [Nat.mul_comm fs k] at hdiv
  omega

/-- Every fragment has a byte. -/
theorem fragmentCount_le {length fs : Nat} (hlen : length < 2 ^ 32) (hfs : fs < 2 ^ 16) :
    fragmentCount length fs ≤ length := by
  rcases Nat.eq_zero_or_pos fs with rfl | hpos
  · simp [fragmentCount]
  · rcases Nat.eq_zero_or_pos (fragmentCount length fs) with hzero | hcount
    · omega
    · have hbelow := (fragmentCount_bounds hpos hcount hlen hfs).1
      have := Nat.mul_le_mul_left (fragmentCount length fs - 1) (show 1 ≤ fs from hpos)
      omega

theorem fragmentCount_one {length fs : Nat} (hfs : 0 < fs) (hpos : 0 < length) (hle : length ≤ fs)
    (hfs' : fs < 2 ^ 16) : fragmentCount length fs = 1 := by
  unfold fragmentCount
  rw [u32_of_lt (by omega)]
  have h : length + fs - 1 = (length - 1) + 1 * fs := by omega
  rw [h, Nat.add_mul_div_right _ _ hfs, Nat.div_eq_of_lt (by omega)]

namespace CacheChange

variable {ch : CacheChange} {fuel i : Nat}

/-! ## The slot of a link -/

theorem nextFragmentPointer_le (ch : CacheChange) (i : Nat) : ch.nextFragmentPointer i ≤ 3 :=
  Nat.and_le_right

theorem nextFragmentPointer_zero (ch : CacheChange) : ch.nextFragmentPointer 0 = 3 := by
  simp [nextFragmentPointer]

theorem getNextMissingFragment_eq (h : 7 ≤ ch.serialized_payload.max_size) (i : Nat) :
    ch.getNextMissingFragment i =
      some (ch.serialized_payload.data.word32 (ch.nextFragmentPointer i)) := by
  have hle := ch.nextFragmentPointer_le i
  unfold getNextMissingFragment
  rw [if_pos (by omega)]

theorem setNextMissingFragment_eq (h : 7 ≤ ch.serialized_payload.max_size) (i next : Nat) :
    ch.setNextMissingFragment i next =
      some
        { ch with
          serialized_payload :=
            { ch.serialized_payload with
              data := ch.serialized_payload.data.store (ch.nextFragmentPointer i)
                (Memory.bytes32 next) } } := by
  have hle := ch.nextFragmentPointer_le i
  unfold setNextMissingFragment
  rw [if_pos (by omega)]

/-! ## Building the list -/

/-- The numbers of a change, everything but the bytes of the payload. -/
structure SameNumbers (ch ch' : CacheChange) : Prop where
  length : ch'.serialized_payload.length = ch.serialized_payload.length
  max_size : ch'.serialized_payload.max_size = ch.serialized_payload.max_size
  size : ch'.fragment_size_ = ch.fragment_size_
  count : ch'.fragment_count_ = ch.fragment_count_
  first : ch'.first_missing_fragment_ = ch.first_missing_fragment_

/-- The loop writes links only: it keeps the numbers and the bytes past the seventh. -/
theorem linkFragments_returns (ch : CacheChange) (h7 : 7 ≤ ch.serialized_payload.max_size)
    (hcount : ch.fragment_count_ + 1 < 2 ^ 32) :
    ∃ fuel ch', ch.linkFragments fuel = some ch' ∧ SameNumbers ch ch' ∧
      ∀ x, 7 ≤ x → ch'.serialized_payload.data x = ch.serialized_payload.data x := by
  have hloop := whileM_returns
    (c := fun p : Nat × CacheChange => decide (p.1 ≤ p.2.fragment_count_))
    (b := fun p => (p.2.setNextMissingFragment (sub32 p.1 1) p.1).map fun ch =>
      (u32 (p.1 + 1), ch))
    (I := fun p => p.1 ≤ ch.fragment_count_ + 1 ∧ SameNumbers ch p.2 ∧
      ∀ x, 7 ≤ x → p.2.serialized_payload.data x = ch.serialized_payload.data x)
    (fun p => ch.fragment_count_ + 1 - p.1) ?_ (s := (1, ch))
    ⟨by omega, ⟨rfl, rfl, rfl, rfl, rfl⟩, fun _ _ => rfl⟩
  · obtain ⟨⟨j, ch'⟩, hr, ⟨_, hsame, hbytes⟩, _⟩ := hloop
    refine ⟨ch.fragment_count_ + 1 - 1 + 1, ch', ?_, hsame, hbytes⟩
    unfold linkFragments
    rw [hr]
    rfl
  · rintro ⟨j, ch'⟩ ⟨hj, hsame, hbytes⟩ hcond
    change SameNumbers ch ch' at hsame
    have hle : j ≤ ch.fragment_count_ := by simpa [hsame.count] using hcond
    have hnext : u32 (j + 1) = j + 1 := u32_of_lt (by omega)
    have hbig : 7 ≤ ch'.serialized_payload.max_size := by
      rw [hsame.max_size]
      exact h7
    -- The link of this round ends before byte 7.
    have hset := setNextMissingFragment_eq hbig (sub32 j 1) j
    have hslot := ch'.nextFragmentPointer_le (sub32 j 1)
    simp only [hset, Option.map_some]
    refine ⟨_, rfl, ⟨?_, ?_, ?_⟩, ?_⟩
    · simp only [hnext]
      omega
    · exact ⟨hsame.length, hsame.max_size, hsame.size, hsame.count, hsame.first⟩
    · intro x hx
      rw [← hbytes x hx]
      exact Memory.store_outside (by simp only [Memory.length_bytes32]; omega)
    · simp only [hnext]
      omega

/-- A list with a link to write does not fit in a buffer of less than 7 bytes. -/
theorem linkFragments_small (h7 : ch.serialized_payload.max_size < 7)
    (hcount : 0 < ch.fragment_count_) (fuel : Nat) : ch.linkFragments fuel = none := by
  have hset : ch.setNextMissingFragment (sub32 1 1) 1 = none := by
    have hzero : sub32 1 1 = 0 := by decide
    unfold setNextMissingFragment
    rw [hzero, nextFragmentPointer_zero, if_neg (by omega)]
  cases fuel with
  | zero =>
      rfl
  | succ fuel =>
      have hle : 1 ≤ ch.fragment_count_ := hcount
      simp [linkFragments, whileM, hle, hset]

theorem linkFragments_empty (hcount : ch.fragment_count_ = 0) (fuel : Nat) :
    ch.linkFragments (fuel + 1) = some ch := by
  simp [linkFragments, whileM, hcount]

/-- One fragment: its link is the word at 3. -/
theorem linkFragments_one (h7 : 7 ≤ ch.serialized_payload.max_size)
    (hcount : ch.fragment_count_ = 1) (fuel : Nat) :
    ch.linkFragments (fuel + 2) =
      some
        { ch with
          serialized_payload :=
            { ch.serialized_payload with
              data := ch.serialized_payload.data.store 3 (Memory.bytes32 1) } } := by
  have hzero : sub32 1 1 = 0 := by decide
  have hset := setNextMissingFragment_eq h7 (sub32 1 1) 1
  rw [hzero, nextFragmentPointer_zero] at hset
  have htwo : u32 (1 + 1) = 2 := by decide
  simp [linkFragments, whileM, hcount, hzero, hset, htwo]

/-! ## Following links -/

variable {index last next : Nat}

theorem skipReceived_past (h : last ≤ index) (changed : Bool) :
    ch.skipReceived (fuel + 1) index last changed = some (index, changed) :=
  whileM_stop (decide_eq_false (Nat.not_lt.2 h))

/-- One link is followed where it leads past the range. -/
theorem skipReceived_link (hlt : index < last)
    (hlink : ch.getNextMissingFragment index = some next) (hpast : last ≤ next) (changed : Bool) :
    ch.skipReceived (fuel + 2) index last changed = some (next, true) := by
  unfold skipReceived
  rw [whileM_step (t := (next, true)) (decide_eq_true hlt) (by rw [hlink]; rfl)]
  exact whileM_stop (decide_eq_false (Nat.not_lt.2 hpast))

/-- A range that starts at the head of the list moves the head. -/
theorem receivedFragments_head {num : Nat} (hsize : 0 < ch.fragment_size_)
    (hfirst : ch.first_missing_fragment_ = i) (hi : i < ch.fragment_count_)
    (hle : i + num ≤ ch.fragment_count_) (hsum : i + num < 2 ^ 32) :
    ch.receivedFragments fuel i num =
      (ch.skipReceived fuel i (i + num) false).map fun r =>
        (r.2, { ch with first_missing_fragment_ := r.1 }) := by
  unfold receivedFragments
  rw [if_pos ⟨hsize, hi⟩]
  simp only [u32_of_lt hsum, hfirst]
  rw [if_pos (Nat.le_refl i), if_neg (by omega)]

end CacheChange

/-- The change `Session.start` calls `setFragmentSize` on. -/
theorem Session.start_eq {fs : Nat} (fuel : Nat) (payload : SerializedPayload) (hfs : 0 < fs) :
    Session.start fuel payload fs =
      (CacheChange.linkFragments fuel
        { serialized_payload := payload
          fragment_size_ := fs
          fragment_count_ := fragmentCount payload.length fs
          first_missing_fragment_ := 0 }).map fun ch =>
        { change := ch, accepted := [], returned := [] } := by
  simp [Session.start, CacheChange.setFragmentSize, hfs, fragmentCount]

end Rtps
end Mozi
