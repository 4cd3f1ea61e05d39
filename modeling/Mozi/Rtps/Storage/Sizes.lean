import Mozi.Rtps.Storage.Links

/-!
# Sizes — the numbers that stay

After `setFragmentSize` no operation changes the length of the payload, the size of its buffer, the
fragment size or the number of fragments: `addFragments` changes the links, the bytes and
`first_missing_fragment_` only.
-/

namespace Mozi
namespace Rtps

open Foundation

namespace CacheChange

variable {ch ch' ch'' : CacheChange} {fuel : Nat}

/-- The numbers that `setFragmentSize` fixes. -/
structure SameSizes (ch ch' : CacheChange) : Prop where
  length : ch'.serialized_payload.length = ch.serialized_payload.length
  max_size : ch'.serialized_payload.max_size = ch.serialized_payload.max_size
  size : ch'.fragment_size_ = ch.fragment_size_
  count : ch'.fragment_count_ = ch.fragment_count_

theorem SameSizes.refl (ch : CacheChange) : SameSizes ch ch :=
  ⟨rfl, rfl, rfl, rfl⟩

theorem SameSizes.trans (h : SameSizes ch ch') (h' : SameSizes ch' ch'') : SameSizes ch ch'' :=
  ⟨h'.length.trans h.length, h'.max_size.trans h.max_size, h'.size.trans h.size,
    h'.count.trans h.count⟩

theorem setNextMissingFragment_sizes {i next : Nat}
    (h : ch.setNextMissingFragment i next = some ch') : SameSizes ch ch' := by
  unfold setNextMissingFragment at h
  simp only at h
  split_ifs at h
  cases h
  exact ⟨rfl, rfl, rfl, rfl⟩

theorem linkFragments_sizes (h : ch.linkFragments fuel = some ch') : SameSizes ch ch' := by
  unfold linkFragments at h
  rcases Option.map_eq_some_iff.1 h with ⟨p, hp, rfl⟩
  refine (whileM_invariant (I := fun p : Nat × CacheChange => SameSizes ch p.2) ?_
    (SameSizes.refl ch) hp).1
  rintro p q hsame - hq
  rcases Option.map_eq_some_iff.1 hq with ⟨next, hset, rfl⟩
  exact hsame.trans (setNextMissingFragment_sizes hset)

theorem searchStep_sizes {initial last : Nat} {p q : Search}
    (h : searchStep fuel initial last p = some q) : SameSizes p.change q.change := by
  unfold searchStep at h
  rcases Option.bind_eq_some_iff.1 h with ⟨next, -, hrest⟩
  split_ifs at hrest
  · rcases Option.bind_eq_some_iff.1 hrest with ⟨r, -, hr⟩
    split_ifs at hr
    · rcases Option.map_eq_some_iff.1 hr with ⟨c, hset, rfl⟩
      exact setNextMissingFragment_sizes hset
    · cases hr
      exact SameSizes.refl p.change
  · cases hrest
    exact SameSizes.refl p.change

theorem receivedFragments_sizes {initial num : Nat} {b : Bool}
    (h : ch.receivedFragments fuel initial num = some (b, ch')) : SameSizes ch ch' := by
  unfold receivedFragments at h
  simp only at h
  by_cases hguard : ch.fragment_size_ > 0 ∧ initial < ch.fragment_count_
  · rw [if_pos hguard] at h
    split_ifs at h
    -- The head of the list moves, with or without a smaller end of the range.
    iterate 2
      rcases Option.map_eq_some_iff.1 h with ⟨r, -, hr⟩
      cases hr
      exact ⟨rfl, rfl, rfl, rfl⟩
    all_goals
      rcases Option.map_eq_some_iff.1 h with ⟨p, hp, hr⟩
      cases hr
      refine (whileM_invariant (I := fun p : Search => SameSizes ch p.change) ?_
        (SameSizes.refl ch) hp).1
      rintro p q hsame - hq
      exact hsame.trans (searchStep_sizes hq)
  · rw [if_neg hguard] at h
    cases h
    exact SameSizes.refl ch

theorem addFragments_sizes {call : Call} {b : Bool}
    (h : ch.addFragments fuel call = some (b, ch')) : SameSizes ch ch' := by
  unfold addFragments at h
  cases hlength : ch.acceptedLength call with
  | none =>
      rw [hlength] at h
      cases h
      exact SameSizes.refl ch
  | some n =>
      rw [hlength] at h
      rcases Option.bind_eq_some_iff.1 h with ⟨r, hr, hstore⟩
      have hsame := receivedFragments_sizes hr
      unfold storeFragments at hstore
      split_ifs at hstore
      · rcases Option.map_eq_some_iff.1 hstore with ⟨c, hcopy, hc⟩
        cases hc
        unfold copyIn at hcopy
        split_ifs at hcopy
        cases hcopy
        exact ⟨hsame.length, hsame.max_size, hsame.size, hsame.count⟩
      · cases hstore
        exact hsame

/-- What `setFragmentSize` makes of the numbers. -/
structure Sized (ch : CacheChange) (len room fs : Nat) : Prop where
  length : ch.serialized_payload.length = len
  max_size : ch.serialized_payload.max_size = room
  size : ch.fragment_size_ = fs
  count : ch.fragment_count_ = fragmentCount len fs

theorem Sized.of_same {len room fs : Nat} (h : Sized ch len room fs)
    (hsame : SameSizes ch ch') : Sized ch' len room fs :=
  ⟨hsame.length.trans h.length, hsame.max_size.trans h.max_size, hsame.size.trans h.size,
    hsame.count.trans h.count⟩

theorem setFragmentSize_sized {fs : Nat} {create : Bool} (hfs : 0 < fs)
    (h : ch.setFragmentSize fuel fs create = some ch') :
    Sized ch' ch.serialized_payload.length ch.serialized_payload.max_size fs := by
  unfold setFragmentSize at h
  simp only at h
  rw [if_pos hfs] at h
  cases create with
  | false =>
      cases h
      exact ⟨rfl, rfl, rfl, rfl⟩
  | true =>
      have hsame := linkFragments_sizes (by simpa using h)
      exact ⟨hsame.length, hsame.max_size, hsame.size, hsame.count⟩

/-! ## The checks of a call -/

variable {call : Call} {len room fs n i m : Nat}

/-- The checks of a range that starts with a fragment of the payload and whose end does not wrap,
in unbounded numbers. -/
theorem acceptedLength_eq (hlength : ch.serialized_payload.length = len)
    (hsize : ch.fragment_size_ = fs) (hcount : ch.fragment_count_ = n) (hlen : len < 2 ^ 32)
    (hbelow : (n - 1) * fs < len) (hstart : call.fragment_starting_num = i + 1)
    (hnum : call.fragments_in_submessage = m) (hi : i < n) (hsum : i + m < 2 ^ 32) :
    ch.acceptedLength call =
      if i + m < n then
        if m * fs ≤ call.incoming_data.length then some (m * fs) else none
      else if i + m = n then some (len - i * fs) else none := by
  have hindex : sub32 (i + 1) 1 = i := by
    unfold sub32 u32
    omega
  have hlast : sub32 (u32 (i + 1 + m)) 1 = i + m := by
    unfold sub32 u32
    omega
  have hstart_le : i * fs ≤ (n - 1) * fs := Nat.mul_le_mul_right fs (by omega)
  have hoffset : u32 (i * fs) = i * fs := u32_of_lt (by omega)
  unfold acceptedLength
  simp only [hlength, hsize, hcount, hstart, hnum, hindex, hlast, hoffset]
  rcases Nat.lt_trichotomy (i + m) n with hinner | hend | hover
  · -- The range ends before the last fragment: the data are copied if they are long enough.
    have hend_le : (i + m) * fs ≤ (n - 1) * fs := Nat.mul_le_mul_right fs (by omega)
    rw [Nat.add_mul] at hend_le
    have hbytes : u32 (fs * m) = m * fs := by rw [Nat.mul_comm, u32_of_lt (by omega)]
    rw [if_pos hinner, if_neg (by omega), hbytes]
    simp only [if_pos hinner]
    rw [u32_of_lt (by omega)]
    split_ifs <;> first | rfl | omega
  · -- The range ends with the last fragment: the rest of the payload is copied.
    have hrest : sub32 len (i * fs) = len - i * fs := sub32_of_le (by omega) hlen
    have hnot : ¬ i + m < n := by omega
    rw [if_neg (by omega), if_neg fun h => hnot h.1]
    simp only [if_neg hnot, if_pos hend, hrest]
    rw [u32_of_lt (by omega), if_neg (by omega)]
  · rw [if_pos hover, if_neg (by omega), if_neg (by omega)]

theorem Sized.acceptedLength_eq (hs : Sized ch len room fs) (hlen : len < 2 ^ 32) (hfs : 0 < fs)
    (hfs' : fs < 2 ^ 16) (hstart : call.fragment_starting_num = i + 1)
    (hnum : call.fragments_in_submessage = m) (hi : i < fragmentCount len fs)
    (hsum : i + m < 2 ^ 32) :
    ch.acceptedLength call =
      if i + m < fragmentCount len fs then
        if m * fs ≤ call.incoming_data.length then some (m * fs) else none
      else if i + m = fragmentCount len fs then some (len - i * fs) else none := by
  obtain ⟨hbelow, -⟩ := fragmentCount_bounds hfs (Nat.lt_of_le_of_lt (Nat.zero_le i) hi) hlen hfs'
  exact CacheChange.acceptedLength_eq hs.length hs.size hs.count hlen hbelow hstart hnum hi hsum

end CacheChange

namespace Session

open CacheChange

variable {σ τ : Session} {calls : List Call} {fuel len room fs : Nat}

theorem step_sized {call : Call} (hs : Sized σ.change len room fs)
    (h : Session.step fuel σ call = some τ) : Sized τ.change len room fs := by
  unfold Session.step at h
  rcases Option.map_eq_some_iff.1 h with ⟨r, hr, rfl⟩
  exact hs.of_same (addFragments_sizes hr)

/-- In every state of a run the numbers are those of `setFragmentSize`. -/
theorem exec_sized (hs : Sized σ.change len room fs)
    (h : (receiver fuel).exec σ calls = some τ) : Sized τ.change len room fs :=
  (receiver fuel).exec_preserves (I := fun σ => Sized σ.change len room fs)
    (fun _ _ _ hs hstep => step_sized hs hstep) hs h

end Session

end Rtps
end Mozi
