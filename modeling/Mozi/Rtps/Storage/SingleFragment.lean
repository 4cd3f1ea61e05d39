import Mozi.Rtps.Storage.Links

/-!
# SingleFragment — reassembly of at most one fragment

With no fragment or one fragment there is at most one link and nothing overwrites it.  Every
sequence of calls runs to its end, and what it keeps (`SingleSession`) has the right verdict and
the right bytes.
-/

namespace Mozi
namespace Rtps

open Foundation

variable {ch : CacheChange} {call : Call} {fuel : Nat}

namespace CacheChange

/-! ## At most one fragment -/

theorem receivedFragments_outside {initial : Nat} (h : ch.fragment_count_ ≤ initial) (num : Nat) :
    ch.receivedFragments fuel initial num = some (false, ch) := by
  unfold receivedFragments
  rw [if_neg (by omega)]

/-- A call whose first fragment is out of range changes nothing. -/
theorem addFragments_outside (fuel : Nat) (ch : CacheChange) (call : Call)
    (h : ch.fragment_count_ ≤ sub32 call.fragment_starting_num 1) :
    ch.addFragments fuel call =
      some ((ch.acceptedLength call).isSome && ch.isFullyAssembled, ch) := by
  unfold addFragments
  cases hlength : ch.acceptedLength call with
  | none =>
      rfl
  | some n =>
      simp [receivedFragments_outside h, storeFragments]

/-- A change with one fragment. -/
structure Single (ch : CacheChange) (len fs : Nat) : Prop where
  length : ch.serialized_payload.length = len
  max_size : 7 ≤ ch.serialized_payload.max_size
  fits : len ≤ ch.serialized_payload.max_size
  size : ch.fragment_size_ = fs
  count : ch.fragment_count_ = 1
  /-- nothing is received and the link says so, or the fragment is there -/
  first : (ch.first_missing_fragment_ = 0 ∧ ch.serialized_payload.data.word32 3 = 1) ∨
    ch.first_missing_fragment_ = 1

variable {len fs n : Nat}

theorem Single.accepted_one (hs : Single ch len fs) (hlen : len < 2 ^ 32)
    (hstart : call.fragment_starting_num = 1) (hnum : call.fragments_in_submessage = 1) :
    ch.acceptedLength call = some len := by
  have hzero : sub32 1 1 = 0 := by decide
  have htwo : sub32 (u32 (1 + 1)) 1 = 1 := by decide
  have hsub : sub32 len 0 = len := sub32_of_le (Nat.zero_le _) hlen
  simp [acceptedLength, hstart, hnum, hs.count, hs.length, hzero, htwo, u32_of_lt hlen,
    show u32 0 = 0 from rfl, hsub]

/-- With one fragment, an accepted call that starts with it brings no other. -/
theorem Single.accepted_num (hs : Single ch len fs) (hstart : call.fragment_starting_num = 1)
    (h : ch.acceptedLength call = some n) : call.fragments_in_submessage ≤ 1 := by
  have hnum := call.in_submessage_lt
  unfold acceptedLength at h
  simp only at h
  split_ifs at h with hlast
  all_goals
    rw [hstart, hs.count] at hlast
    unfold sub32 u32 at hlast
    omega

theorem Single.received_one (hs : Single ch len fs) (hfs : 0 < fs) :
    ch.receivedFragments (fuel + 2) 0 1 =
      some (decide (ch.first_missing_fragment_ = 0), { ch with first_missing_fragment_ := 1 }) := by
  have hlast : u32 (0 + 1) = 1 := by decide
  have hget := getNextMissingFragment_eq hs.max_size 0
  rw [nextFragmentPointer_zero] at hget
  unfold receivedFragments skipReceived
  rcases hs.first with ⟨hfirst, hlink⟩ | hfirst
  · simp [hs.size, hs.count, hfs, hlast, hfirst, whileM, hget, hlink]
  · simp [hs.size, hs.count, hfs, hlast, hfirst, whileM]

theorem Single.received_none (hs : Single ch len fs) (hfs : 0 < fs) :
    ch.receivedFragments (fuel + 2) 0 0 = some (false, ch) := by
  have hlast : u32 (0 + 0) = 0 := by decide
  have hguard : ch.fragment_size_ > 0 ∧ 0 < ch.fragment_count_ := by
    rw [hs.size, hs.count]
    exact ⟨hfs, Nat.one_pos⟩
  unfold receivedFragments skipReceived
  rw [if_pos hguard]
  simp [hlast, whileM]

/-- What one call does to a change with one fragment. -/
theorem Single.addFragments_cases (hs : Single ch len fs) (hfs : 0 < fs) (hlen : len < 2 ^ 32)
    (call : Call) (fuel : Nat) :
    (ch.acceptedLength call = some len ∧ call.fragment_starting_num = 1 ∧
        call.fragments_in_submessage = 1 ∧ ch.first_missing_fragment_ = 0 ∧
        ch.addFragments (fuel + 2) call =
          some (true,
            { ch with
              first_missing_fragment_ := 1
              serialized_payload :=
                { ch.serialized_payload with
                  data := ch.serialized_payload.data.store 0
                    (call.incoming_data.data.load 0 len) } })) ∨
      (((ch.acceptedLength call).isSome = true → call.fragment_starting_num = 1 →
          call.fragments_in_submessage = 0 ∨
            call.fragments_in_submessage = 1 ∧ ch.first_missing_fragment_ = 1) ∧
        ch.addFragments (fuel + 2) call =
          some ((ch.acceptedLength call).isSome && ch.isFullyAssembled, ch)) := by
  by_cases hstart : call.fragment_starting_num = 1
  · cases hlength : ch.acceptedLength call with
    | none =>
        exact Or.inr ⟨by simp, by simp [addFragments, hlength]⟩
    | some n =>
        have hzero : sub32 1 1 = 0 := by decide
        have hnum := hs.accepted_num hstart hlength
        rcases Nat.le_one_iff_eq_zero_or_eq_one.1 hnum with hnum | hnum
        · -- A call without fragments.
          refine Or.inr ⟨fun _ _ => Or.inl hnum, ?_⟩
          simp [addFragments, hlength, hstart, hnum, hzero, hs.received_none hfs, storeFragments]
        · have hn : len = n :=
            Option.some.inj ((hs.accepted_one hlen hstart hnum).symm.trans hlength)
          subst hn
          rcases hs.first with ⟨hfirst, hlink⟩ | hfirst
          · -- The link leads to 1, past the only fragment, and the data are copied.
            refine Or.inl ⟨rfl, hstart, hnum, hfirst, ?_⟩
            have hfits := hs.fits
            simp [addFragments, hlength, hstart, hnum, hzero, hs.received_one hfs, storeFragments,
              hfirst, copyIn, show u32 0 = 0 from rfl, hfits, isFullyAssembled, hs.count]
          · -- The fragment is there already: nothing is copied again.
            refine Or.inr ⟨fun _ _ => Or.inr ⟨hnum, hfirst⟩, ?_⟩
            have hsame : { ch with first_missing_fragment_ := 1 } = ch := by rw [← hfirst]
            simp [addFragments, hlength, hstart, hnum, hzero, hs.received_one hfs, storeFragments,
              hfirst, hsame]
  · -- Every other start number is out of range, 0 by underflow.
    refine Or.inr ⟨fun _ h => absurd h hstart, addFragments_outside _ _ _ ?_⟩
    have hlt := call.starting_num_lt
    rw [hs.count]
    unfold sub32 u32
    omega

end CacheChange

namespace Session

open CacheChange

variable {payload : SerializedPayload} {fs len : Nat} {calls : List Call} {σ τ : Session}

/-- What a session on a change with one fragment keeps: the verdict, the accepted calls, and the
bytes, which are those of one of the calls that brought the fragment. -/
structure SingleSession (len fs : Nat) (ok : Call → Prop) (σ : Session) : Prop where
  single : Single σ.change len fs
  missing : σ.change.first_missing_fragment_ = 0 →
    (∀ c ∈ σ.accepted, ¬ c.Covers 1) ∧ true ∉ σ.returned
  received : σ.change.first_missing_fragment_ = 1 →
    ∃ c ∈ σ.accepted, ok c ∧ c.fragment_starting_num = 1 ∧ c.fragments_in_submessage = 1 ∧
      σ.change.serialized_payload.data.load 0 len = c.incoming_data.data.load 0 len

/-- A single-fragment session takes every call, as long as its fragments are counted from 1. -/
theorem SingleSession.step {ok : Call → Prop} {call : Call} (hs : SingleSession len fs ok σ)
    (hfs : 0 < fs) (hlen : len < 2 ^ 32) (hok : ok call)
    (hstart : 1 ≤ call.fragment_starting_num) (fuel : Nat) :
    ∃ τ, Session.step (fuel + 2) σ call = some τ ∧ SingleSession len fs ok τ := by
  have hsingle := hs.single
  rcases hsingle.addFragments_cases hfs hlen call fuel with
    ⟨haccepted, hone, hnum, hfirst, hadd⟩ | ⟨hcovers, hadd⟩
  · refine ⟨_, by rw [Session.step, hadd]; rfl, ?_⟩
    refine
      { single :=
          { length := hsingle.length
            max_size := hsingle.max_size
            fits := hsingle.fits
            size := hsingle.size
            count := hsingle.count
            first := Or.inr rfl }
        missing := by simp
        received := ?_ }
    intro _
    refine ⟨call, by simp [haccepted], hok, hone, hnum, ?_⟩
    have hcopy := Memory.load_store_same σ.change.serialized_payload.data 0
      (call.incoming_data.data.load 0 len)
    rwa [Memory.length_load] at hcopy
  · refine ⟨_, by rw [Session.step, hadd]; rfl, ?_⟩
    refine
      { single := hsingle
        missing := ?_
        received := ?_ }
    · intro hzero
      obtain ⟨hnone, hfalse⟩ := hs.missing hzero
      refine ⟨?_, ?_⟩
      · -- An accepted call that covers the fragment would have received it.
        intro c hc
        split at hc
        · rename_i hsome
          rcases List.mem_append.1 hc with hold | hnew
          · exact hnone c hold
          · have hcall : c = call := by simpa using hnew
            subst hcall
            rintro ⟨hle, hlt⟩
            rcases hcovers hsome (by omega) with hnum | ⟨_, hfirst⟩
            · omega
            · change σ.change.first_missing_fragment_ = 0 at hzero
              omega
        · exact hnone c hc
      · change σ.change.first_missing_fragment_ = 0 at hzero
        simp [hfalse, isFullyAssembled, hsingle.count, hzero]
    · intro hone
      obtain ⟨c, hc, hrest⟩ := hs.received hone
      refine ⟨c, ?_, hrest⟩
      show c ∈ (if _ then _ else _)
      split
      · exact List.mem_append_left _ hc
      · exact hc

theorem SingleSession.exec {ok : Call → Prop} (hs : SingleSession len fs ok σ) (hfs : 0 < fs)
    (hlen : len < 2 ^ 32) (hcalls : ∀ c ∈ calls, ok c ∧ 1 ≤ c.fragment_starting_num) (fuel : Nat) :
    ∃ τ, (receiver (fuel + 2)).exec σ calls = some τ ∧ SingleSession len fs ok τ := by
  induction calls generalizing σ with
  | nil =>
      exact ⟨σ, rfl, hs⟩
  | cons call calls ih =>
      obtain ⟨hok, hstart⟩ := hcalls call (by simp)
      obtain ⟨σ', hstep, hσ'⟩ := hs.step hfs hlen hok hstart fuel
      obtain ⟨τ, hexec, hτ⟩ := ih hσ' fun c hc => hcalls c (List.mem_cons_of_mem call hc)
      refine ⟨τ, ((receiver (fuel + 2)).exec_cons).2 ⟨σ', ?_, hexec⟩, hτ⟩
      rw [receiver_step]
      exact hstep

/-- `setFragmentSize` on a payload of one fragment leaves it missing. -/
theorem start_single (ok : Call → Prop) (hpos : 0 < payload.length)
    (hfits : payload.length ≤ payload.max_size) (h7 : 7 ≤ payload.max_size)
    (hle : payload.length ≤ fs) (hfs : fs < 2 ^ 16) :
    ∃ σ, start 2 payload fs = some σ ∧ SingleSession payload.length fs ok σ ∧
      σ.change.first_missing_fragment_ = 0 := by
  have hfs₀ : 0 < fs := by omega
  have hcount : fragmentCount payload.length fs = 1 := fragmentCount_one hfs₀ hpos hle hfs
  have hstart := start_eq (0 + 2) payload hfs₀
  rw [linkFragments_one (by exact h7) hcount, Option.map_some] at hstart
  refine ⟨_, hstart, ?_, rfl⟩
  exact
    { single :=
        { length := rfl
          max_size := h7
          fits := hfits
          size := rfl
          count := hcount
          first := Or.inl ⟨rfl, Memory.word32_store_same _ _ (by decide)⟩ }
      missing := fun _ => ⟨by simp, by simp⟩
      received := by simp }

/-- Every sequence of calls on a change with one fragment runs to its end. -/
theorem run_single (payload : SerializedPayload) (ok : Call → Prop) (hpos : 0 < payload.length)
    (hlen : payload.length < 2 ^ 32)
    (hfits : payload.length ≤ payload.max_size) (h7 : 7 ≤ payload.max_size)
    (hle : payload.length ≤ fs) (hfs : fs < 2 ^ 16)
    (hcalls : ∀ c ∈ calls, ok c ∧ 1 ≤ c.fragment_starting_num) :
    ∃ fuel τ, run fuel payload fs calls = some τ ∧ SingleSession payload.length fs ok τ := by
  obtain ⟨σ, hσ, hinit, _⟩ := start_single ok hpos hfits h7 hle hfs
  obtain ⟨τ, hexec, hτ⟩ := hinit.exec (by omega) hlen hcalls 0
  exact ⟨2, τ, Option.bind_eq_some_iff.2 ⟨σ, hσ, hexec⟩, hτ⟩

/-- With no fragment nothing is ever read or written. -/
theorem run_empty (payload : SerializedPayload) (hfs : 0 < fs)
    (hcount : fragmentCount payload.length fs = 0) (calls : List Call) :
    ∃ τ, run 1 payload fs calls = some τ ∧ τ.change.serialized_payload = payload ∧
      τ.change.fragment_count_ = 0 := by
  have hstart := start_eq 1 payload hfs
  rw [linkFragments_empty (by exact hcount) 0, Option.map_some] at hstart
  have hexec : ∀ (calls : List Call) (σ : Session), σ.change.fragment_count_ = 0 →
      σ.change.serialized_payload = payload →
      ∃ τ, (receiver 1).exec σ calls = some τ ∧ τ.change.serialized_payload = payload ∧
        τ.change.fragment_count_ = 0 := by
    intro calls
    induction calls with
    | nil =>
        exact fun σ hzero hpayload => ⟨σ, rfl, hpayload, hzero⟩
    | cons call calls ih =>
        intro σ hzero hpayload
        have hadd := addFragments_outside 1 σ.change call (by omega)
        obtain ⟨τ, hτ, hrest⟩ := ih
          { change := σ.change
            accepted :=
              if (σ.change.acceptedLength call).isSome then σ.accepted ++ [call] else σ.accepted
            returned := σ.returned ++
              [(σ.change.acceptedLength call).isSome && σ.change.isFullyAssembled] } hzero hpayload
        refine ⟨τ, ((receiver 1).exec_cons).2 ⟨_, ?_, hτ⟩, hrest⟩
        rw [receiver_step]
        simp [Session.step, hadd]
  obtain ⟨σ, hσ, hzero, hpayload⟩ : ∃ σ, start 1 payload fs = some σ ∧
      σ.change.fragment_count_ = 0 ∧ σ.change.serialized_payload = payload :=
    ⟨_, hstart, hcount, rfl⟩
  obtain ⟨τ, hτ, hrest⟩ := hexec calls σ hzero hpayload
  exact ⟨τ, Option.bind_eq_some_iff.2 ⟨σ, hσ, hτ⟩, hrest⟩

end Session

end Rtps
end Mozi
