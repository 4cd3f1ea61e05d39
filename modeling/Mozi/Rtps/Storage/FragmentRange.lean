import Mathlib.Order.Bounds.Defs
import Mozi.Rtps.Storage.FirstLink

/-!
# FragmentRange — the bytes a call copies

A call that reaches the `memcpy` has followed a link, so its range of fragments is not empty and
lies below `fragment_count_`, and none of its 32-bit expressions has wrapped.  What the checks leave
out is the length of the incoming data where the range ends with the last fragment.
-/

namespace Mozi
namespace Rtps

open Foundation

namespace CacheChange

variable {ch ch' : CacheChange} {call : Call} {fuel offset n len room fs : Nat}

/-! ## Calls that mark a fragment -/

/-- A loop that has followed a link started below the end of the range. -/
theorem skipReceived_followed {index last next : Nat} {changed : Bool}
    (h : ch.skipReceived fuel index last changed = some (next, true)) :
    changed = true ∨ index < last := by
  by_cases hlt : index < last
  · exact Or.inr hlt
  · cases fuel with
    | zero =>
        cases h
    | succ fuel =>
        unfold skipReceived at h
        rw [whileM_stop (by simpa using hlt)] at h
        cases h
        exact Or.inl rfl

theorem searchStep_followed {initial last : Nat} {p q : Search}
    (hp : p.at_least_one_changed = true → initial < last)
    (h : searchStep fuel initial last p = some q) (hq : q.at_least_one_changed = true) :
    initial < last := by
  unfold searchStep at h
  rcases Option.bind_eq_some_iff.1 h with ⟨next, -, hrest⟩
  split_ifs at hrest with hnext
  · rcases Option.bind_eq_some_iff.1 hrest with ⟨⟨j, changed⟩, hskip, hr⟩
    cases changed with
    | false =>
        cases hr
        exact hp hq
    | true =>
        rcases skipReceived_followed hskip with hchanged | hlt
        · exact hp hchanged
        · exact Nat.lt_of_le_of_lt hnext hlt
  · cases hrest
    exact hp hq

/-- A call that marks a fragment starts below `fragment_count_`, and the end of its range, a
`uint32_t`, is behind its start. -/
theorem receivedFragments_marked {initial num : Nat}
    (h : ch.receivedFragments fuel initial num = some (true, ch')) :
    initial < ch.fragment_count_ ∧ initial < u32 (initial + num) := by
  unfold receivedFragments at h
  simp only at h
  by_cases hguard : ch.fragment_size_ > 0 ∧ initial < ch.fragment_count_
  · refine ⟨hguard.2, ?_⟩
    rw [if_pos hguard] at h
    generalize hlast : (if u32 (initial + num) > ch.fragment_count_ then ch.fragment_count_
      else u32 (initial + num)) = last at h
    have hle : last ≤ u32 (initial + num) := by
      rw [← hlast]
      split_ifs <;> omega
    split_ifs at h with hhead
    · rcases Option.map_eq_some_iff.1 h with ⟨⟨next, changed⟩, hskip, hr⟩
      cases hr
      rcases skipReceived_followed hskip with hfalse | hlt
      · cases hfalse
      · omega
    · rcases Option.map_eq_some_iff.1 h with ⟨p, hp, hr⟩
      have hinv := (whileM_invariant
        (I := fun p : Search => p.at_least_one_changed = true → initial < last)
        (fun p q hinv _ hq => searchStep_followed hinv hq) (by simp) hp).1
      have hmarked : p.at_least_one_changed = true := (Prod.mk.inj hr).1
      exact Nat.lt_of_lt_of_le (hinv hmarked) hle
  · rw [if_neg hguard] at h
    cases h

/-! ## Calls that copy -/

/-- The call reaches the `memcpy`, with `n` bytes for the address `offset` of the payload. -/
def Copies (fuel : Nat) (ch : CacheChange) (call : Call) (offset n : Nat) : Prop :=
  ch.acceptedLength call = some n ∧
    ∃ ch', ch.receivedFragments fuel (sub32 call.fragment_starting_num 1)
        call.fragments_in_submessage = some (true, ch') ∧
      offset = u32 (sub32 call.fragment_starting_num 1 * ch'.fragment_size_)

/-- Such a call is one `memcpy` behind `receivedFragments`. -/
theorem Copies.addFragments_eq (h : Copies fuel ch call offset n) :
    ∃ ch', ch.receivedFragments fuel (sub32 call.fragment_starting_num 1)
        call.fragments_in_submessage = some (true, ch') ∧
      ch.addFragments fuel call =
        (ch'.copyIn offset n call.incoming_data).map fun c => (c.isFullyAssembled, c) := by
  obtain ⟨haccepted, ch', hreceived, rfl⟩ := h
  refine ⟨ch', hreceived, ?_⟩
  simp [addFragments, haccepted, hreceived, storeFragments]

/-- The range of a call that copies, in unbounded numbers. -/
structure CopyRange (call : Call) (len fs offset n : Nat) : Prop where
  start_pos : 1 ≤ call.fragment_starting_num
  last_le : call.fragment_starting_num - 1 + call.fragments_in_submessage ≤ fragmentCount len fs
  offset_eq : offset = (call.fragment_starting_num - 1) * fs
  end_eq : offset + n =
    min ((call.fragment_starting_num - 1 + call.fragments_in_submessage) * fs) len
  /-- the length of the incoming data is checked before the last fragment -/
  inner : call.fragment_starting_num - 1 + call.fragments_in_submessage < fragmentCount len fs →
    n ≤ call.incoming_data.length
  last : call.fragment_starting_num - 1 + call.fragments_in_submessage = fragmentCount len fs →
    offset + n = len

/-- The index of the first fragment is below the count, and the sum of it and the number of
fragments has not wrapped. -/
theorem Copies.index (h : Copies fuel ch call offset n) (hs : Sized ch len room fs) :
    ∃ i, call.fragment_starting_num = i + 1 ∧ i < fragmentCount len fs ∧
      i + call.fragments_in_submessage < 2 ^ 32 ∧ offset = u32 (i * fs) := by
  obtain ⟨-, ch', hreceived, hoffset⟩ := h
  obtain ⟨hbelow, hend⟩ := receivedFragments_marked hreceived
  have hsize : ch'.fragment_size_ = fs := (receivedFragments_sizes hreceived).size.trans hs.size
  have hstart_lt := call.starting_num_lt
  have hnum_lt := call.in_submessage_lt
  have hcount := fragmentCount_lt len fs
  rw [hs.count] at hbelow
  rw [hsize] at hoffset
  -- The start number is not 0: its index would be `2 ^ 32 - 1`.
  have hstart : 1 ≤ call.fragment_starting_num := by
    unfold sub32 u32 at hbelow
    omega
  obtain ⟨i, hi⟩ : ∃ i, call.fragment_starting_num = i + 1 :=
    ⟨call.fragment_starting_num - 1, by omega⟩
  have hindex : sub32 (i + 1) 1 = i := sub32_of_le (by omega) (by omega)
  rw [hi, hindex] at hbelow hend hoffset
  refine ⟨i, hi, hbelow, ?_, hoffset⟩
  -- A sum that wraps is below its first summand.
  unfold u32 at hend
  omega

theorem Copies.range (h : Copies fuel ch call offset n) (hs : Sized ch len room fs)
    (hlen : len < 2 ^ 32) (hfs : 0 < fs) (hfs' : fs < 2 ^ 16) :
    CopyRange call len fs offset n := by
  obtain ⟨i, hi, hbelow, hsum, hoffset⟩ := h.index hs
  obtain ⟨hlast, habove⟩ := fragmentCount_bounds hfs (by omega) hlen hfs'
  have hi_le : i * fs ≤ (fragmentCount len fs - 1) * fs := Nat.mul_le_mul_right fs (by omega)
  rw [u32_of_lt (by omega)] at hoffset
  have haccepted := h.1
  rw [hs.acceptedLength_eq hlen hfs hfs' hi rfl hbelow hsum] at haccepted
  have hprev : call.fragment_starting_num - 1 = i := by omega
  split_ifs at haccepted with hinner hdata hend
  · -- The range ends before the last fragment.
    have hcopied := Option.some.inj haccepted
    have hend_le : (i + call.fragments_in_submessage) * fs ≤ (fragmentCount len fs - 1) * fs :=
      Nat.mul_le_mul_right fs (by omega)
    have hmul : (i + call.fragments_in_submessage) * fs =
        i * fs + call.fragments_in_submessage * fs := Nat.add_mul _ _ _
    refine ⟨by omega, by omega, by rw [hprev, hoffset], ?_, ?_, ?_⟩ <;> rw [hprev]
    · rw [hmul]
      omega
    · intro _
      omega
    · omega
  · -- The range ends with the last fragment.
    have hcopied := Option.some.inj haccepted
    refine ⟨by omega, by omega, by rw [hprev, hoffset], ?_, ?_, ?_⟩ <;> rw [hprev, hend]
    · omega
    · omega
    · omega

/-! ## Counts and ranges -/

theorem fragmentCount_isLeast_iff (hlen : len < 2 ^ 32) (hfs : 0 < fs) (hfs' : fs < 2 ^ 16) :
    IsLeast {n | len ≤ n * fs} (fragmentCount len fs) ↔ len + fs ≤ 2 ^ 32 := by
  have hzero := fragmentCount_zero hlen hfs hfs'
  constructor
  · rintro ⟨habove, -⟩
    by_contra hover
    -- The rounded-up sum wraps to less than a fragment, and the count is 0.
    have hcount : fragmentCount len fs = 0 := hzero.2 (Or.inr (by omega))
    rw [hcount] at habove
    have hnone : len ≤ 0 * fs := habove
    omega
  · intro hsum
    rcases Nat.eq_zero_or_pos (fragmentCount len fs) with hcount | hpos
    · have hempty : len = 0 := by
        rcases hzero.1 hcount with h | h <;> omega
      rw [hcount, hempty]
      exact ⟨Nat.zero_le (0 * fs), fun m _ => Nat.zero_le m⟩
    · obtain ⟨hlast, habove⟩ := fragmentCount_bounds hfs hpos hlen hfs'
      refine ⟨habove, ?_⟩
      intro m hm
      by_contra hless
      have hle : m * fs ≤ (fragmentCount len fs - 1) * fs := Nat.mul_le_mul_right fs (by omega)
      have hm' : len ≤ m * fs := hm
      omega

/-- In every state that calls lead to from `ch`, every copy of a further call has the range `P`. -/
def EveryCopy (ch : CacheChange) (P : CacheChange → Call → Nat → Nat → Prop) : Prop :=
  ∀ fuel calls σ,
    (Session.receiver fuel).exec { change := ch, accepted := [], returned := [] } calls = some σ →
    ∀ fuel call offset n, Copies fuel σ.change call offset n → P σ.change call offset n

/-- `fragment_count_` is the least number of fragments that holds the payload. -/
def CountExact (ch : CacheChange) (fs : Nat) : Prop :=
  IsLeast {n | ch.serialized_payload.length ≤ n * fs} ch.fragment_count_

/-- The bytes from the first fragment of the call to the end of its last one, or of the payload. -/
def RangeExact (fs : Nat) (ch : CacheChange) (call : Call) (offset n : Nat) : Prop :=
  1 ≤ call.fragment_starting_num ∧ offset = (call.fragment_starting_num - 1) * fs ∧
    offset + n = min ((call.fragment_starting_num - 1 + call.fragments_in_submessage) * fs)
      ch.serialized_payload.length

/-- `setFragmentSize` returns, and its arithmetic and that of the calls behind it is that of
unbounded numbers. -/
def ArithmeticExact (ch : CacheChange) (fs : Nat) (create : Bool) : Prop :=
  ∃ fuel ch', ch.setFragmentSize fuel fs create = some ch' ∧ CountExact ch' fs ∧
    EveryCopy ch' (RangeExact fs)

/-- The ranges are exact whatever the count. -/
theorem everyCopy_rangeExact {create : Bool} (hlen : ch.serialized_payload.length < 2 ^ 32)
    (hfs : 0 < fs) (hfs' : fs < 2 ^ 16) (h : ch.setFragmentSize fuel fs create = some ch') :
    EveryCopy ch' (RangeExact fs) := by
  intro fuel' calls σ hexec fuel'' call offset n hcopies
  have hs := Session.exec_sized (setFragmentSize_sized hfs h) hexec
  have hrange := hcopies.range hs hlen hfs hfs'
  refine ⟨hrange.start_pos, hrange.offset_eq, ?_⟩
  rw [hs.length]
  exact hrange.end_eq

theorem countExact_iff {create : Bool} (hlen : ch.serialized_payload.length < 2 ^ 32) (hfs : 0 < fs)
    (hfs' : fs < 2 ^ 16) (h : ch.setFragmentSize fuel fs create = some ch') :
    CountExact ch' fs ↔ ch.serialized_payload.length + fs ≤ 2 ^ 32 := by
  have hs := setFragmentSize_sized hfs h
  unfold CountExact
  rw [hs.length, hs.count]
  exact fragmentCount_isLeast_iff hlen hfs hfs'

/-- The count is 0 for no bytes only, and the largest one for the largest number of single bytes. -/
theorem fragmentCount_limits (hlen : len < 2 ^ 32) (hfs : 0 < fs) (hfs' : fs < 2 ^ 16)
    (hsum : len + fs ≤ 2 ^ 32) :
    (fragmentCount len fs = 0 ↔ len = 0) ∧
      (fragmentCount len fs = 2 ^ 32 - 1 ↔ fs = 1 ∧ len = 2 ^ 32 - 1) := by
  refine ⟨?_, ?_, ?_⟩
  · rw [fragmentCount_zero hlen hfs hfs']
    omega
  · intro hcount
    have hle := fragmentCount_le hlen hfs'
    obtain ⟨hlast, -⟩ := fragmentCount_bounds hfs (by omega) hlen hfs'
    rw [hcount] at hle hlast
    -- Fragments of two bytes and more would be longer than the payload.
    have hone : ¬ 2 ≤ fs := by
      intro htwo
      have := Nat.mul_le_mul_left (2 ^ 32 - 1 - 1) htwo
      omega
    omega
  · rintro ⟨rfl, rfl⟩
    decide

/-- Where the list is asked for, the loop that builds it has to end. -/
theorem setFragmentSize_returns_iff (ch : CacheChange) (create : Bool)
    (hlen : ch.serialized_payload.length < 2 ^ 32) (hfs : 0 < fs) (hfs' : fs < 2 ^ 16)
    (hsum : ch.serialized_payload.length + fs ≤ 2 ^ 32) :
    (∃ fuel ch', ch.setFragmentSize fuel fs create = some ch') ↔
      (create = true → ch.serialized_payload.length = 0 ∨
        7 ≤ ch.serialized_payload.max_size ∧
          ¬ (fs = 1 ∧ ch.serialized_payload.length = 2 ^ 32 - 1)) := by
  cases create with
  | false =>
      refine iff_of_true ?_ (by simp)
      simp [setFragmentSize, hfs]
  | true =>
      obtain ⟨hzero, hmost⟩ := fragmentCount_limits hlen hfs hfs' hsum
      have hcount := fragmentCount_lt ch.serialized_payload.length fs
      let sized : CacheChange :=
        { ch with
          fragment_size_ := fs
          fragment_count_ := fragmentCount ch.serialized_payload.length fs
          first_missing_fragment_ := 0 }
      have hset : ∀ fuel, ch.setFragmentSize fuel fs true = sized.linkFragments fuel := by
        intro fuel
        simp [setFragmentSize, hfs, fragmentCount, sized]
      have hlinks : (∃ fuel ch', sized.linkFragments fuel = some ch') ↔
          fragmentCount ch.serialized_payload.length fs = 0 ∨
            7 ≤ ch.serialized_payload.max_size ∧
              fragmentCount ch.serialized_payload.length fs + 1 < 2 ^ 32 :=
        linkFragments_returns_iff hcount
      have hnext : fragmentCount ch.serialized_payload.length fs + 1 < 2 ^ 32 ↔
          ¬ (fs = 1 ∧ ch.serialized_payload.length = 2 ^ 32 - 1) := by
        rw [← hmost]
        omega
      simp only [hset]
      rw [hlinks, hzero, hnext]
      simp

/-- The arithmetic is exact unless rounding the length up overflows, or the list is asked for and
cannot be built. -/
theorem arithmeticExact_iff (ch : CacheChange) (create : Bool)
    (hlen : ch.serialized_payload.length < 2 ^ 32) (hfs : 0 < fs) (hfs' : fs < 2 ^ 16) :
    ArithmeticExact ch fs create ↔
      ch.serialized_payload.length + fs ≤ 2 ^ 32 ∧
        (create = true → ch.serialized_payload.length = 0 ∨
          7 ≤ ch.serialized_payload.max_size ∧
            ¬ (fs = 1 ∧ ch.serialized_payload.length = 2 ^ 32 - 1)) := by
  constructor
  · rintro ⟨fuel, ch', hset, hcount, -⟩
    have hsum := (countExact_iff hlen hfs hfs' hset).1 hcount
    exact ⟨hsum, (setFragmentSize_returns_iff ch create hlen hfs hfs' hsum).1 ⟨fuel, ch', hset⟩⟩
  · rintro ⟨hsum, hlist⟩
    obtain ⟨fuel, ch', hset⟩ := (setFragmentSize_returns_iff ch create hlen hfs hfs' hsum).2 hlist
    exact ⟨fuel, ch', hset, (countExact_iff hlen hfs hfs' hset).2 hsum,
      everyCopy_rangeExact hlen hfs hfs' hset⟩

/-- A new change with a payload of `len` zero bytes in a buffer of that size. -/
def zeros (len : Nat) : CacheChange where
  serialized_payload :=
    { length := len
      max_size := len
      data := fun _ => 0 }
  fragment_size_ := 0
  fragment_count_ := 0
  first_missing_fragment_ := 0

theorem arithmeticExact_iff_zeros :
    ArithmeticExact (zeros 100) 8 true ↔
      (zeros 100).serialized_payload.length + 8 ≤ 2 ^ 32 ∧
        (true = true → (zeros 100).serialized_payload.length = 0 ∨
          7 ≤ (zeros 100).serialized_payload.max_size ∧
            ¬ (8 = 1 ∧ (zeros 100).serialized_payload.length = 2 ^ 32 - 1)) :=
  arithmeticExact_iff (zeros 100) true (by decide) (by decide) (by decide)

/-- The largest payload has no fragments of 2 bytes. -/
theorem arithmetic_wraps :
    ((zeros (2 ^ 32 - 1)).setFragmentSize 0 2 false).map (fun c => c.fragment_count_) = some 0 ∧
      ∀ create, ¬ ArithmeticExact (zeros (2 ^ 32 - 1)) 2 create := by
  refine ⟨by decide, ?_⟩
  rintro create ⟨fuel, ch', hset, ⟨habove, -⟩, -⟩
  have hs := setFragmentSize_sized (by decide) hset
  have hcount : fragmentCount (zeros (2 ^ 32 - 1)).serialized_payload.length 2 = 0 := by decide
  rw [hs.length, hs.count, hcount] at habove
  have hnone : 2 ^ 32 - 1 ≤ 0 * 2 := habove
  exact absurd hnone (by decide)

/-! ## The incoming data -/

/-- Where the call brings the last fragment, its data reach from its first fragment to the end of
the payload. -/
def HasRest (fs : Nat) (ch : CacheChange) (call : Call) : Prop :=
  call.fragment_starting_num - 1 + call.fragments_in_submessage = ch.fragment_count_ →
    ch.serialized_payload.length - (call.fragment_starting_num - 1) * fs ≤
      call.incoming_data.length

/-- A copy reads no more than the incoming data, if and only if the rest of the payload is there
where the call brings the last fragment. -/
theorem everyCopy_within_iff (ch : CacheChange) (create : Bool)
    (hlen : ch.serialized_payload.length < 2 ^ 32) (hfs : 0 < fs) (hfs' : fs < 2 ^ 16)
    (h : ch.setFragmentSize fuel fs create = some ch') :
    EveryCopy ch' fun c call _ n => n ≤ call.incoming_data.length ↔ HasRest fs c call := by
  intro fuel' calls σ hexec fuel'' call offset n hcopies
  have hs := Session.exec_sized (setFragmentSize_sized hfs h) hexec
  have hrange := hcopies.range hs hlen hfs hfs'
  unfold HasRest
  rw [hs.count, hs.length, ← hrange.offset_eq]
  rcases Nat.eq_or_lt_of_le hrange.last_le with hlast | hinner
  · -- The last fragment is in the range: the rest of the payload is copied.
    have hrest := hrange.last hlast
    constructor
    · intro hwithin _
      omega
    · intro hcond
      have := hcond hlast
      omega
  · exact iff_of_true (hrange.inner hinner) fun hlast => absurd hlast (Nat.ne_of_lt hinner)

/-- The only fragment of a payload of 8 bytes, without data. -/
def emptyFragment : Call where
  incoming_data :=
    { length := 0
      data := fun _ => 0 }
  fragment_starting_num := 1
  fragments_in_submessage := 1
  starting_num_lt := one_lt_u32
  in_submessage_lt := one_lt_u32
  length_lt := zero_lt_u32

/-- Such a payload with its list. -/
def listed : CacheChange where
  serialized_payload :=
    { length := 8
      max_size := 8
      data := Memory.store (fun _ => 0) 3 (Memory.bytes32 1) }
  fragment_size_ := 8
  fragment_count_ := 1
  first_missing_fragment_ := 0

theorem everyCopy_within_listed :
    EveryCopy listed fun c call _ n => n ≤ call.incoming_data.length ↔ HasRest 8 c call := by
  have hset : (zeros 8).setFragmentSize 2 8 true = some listed := rfl
  exact everyCopy_within_iff (zeros 8) true (by decide) (by decide) (by decide) hset

/-- Eight bytes are read from data of length 0. -/
theorem copies_past_incoming :
    ∃ ch', (zeros 8).setFragmentSize 2 8 true = some ch' ∧
      Copies 2 ch' emptyFragment 0 8 ∧ ¬ 8 ≤ emptyFragment.incoming_data.length := by
  refine ⟨_, rfl, ⟨rfl, _, rfl, rfl⟩, by decide⟩

end CacheChange

end Rtps
end Mozi
