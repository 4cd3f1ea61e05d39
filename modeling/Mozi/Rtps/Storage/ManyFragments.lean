import Mozi.Rtps.Storage.Sizes

/-!
# ManyFragments — reassembly of two fragments or more

From two fragments on the links share their bytes.  The call that brings the first fragment of a
payload of zeros follows whatever word `setFragmentSize` left at 3: a link to itself, a link past
the end, or a link to a fragment whose own link the zeros have overwritten.
-/

namespace Mozi
namespace Rtps

open Foundation

variable {ch : CacheChange} {call : Call} {fuel : Nat}

namespace CacheChange

/-- Fragment `i` of a payload of zeros. -/
def zeroFragment (len fs i : Nat) (hi : i < 2 ^ 32) (hlen : len < 2 ^ 32) : Call :=
  { incoming_data := { length := min (i * fs) len - (i - 1) * fs, data := fun _ => 0 }
    fragment_starting_num := i
    fragments_in_submessage := 1
    starting_num_lt := hi
    in_submessage_lt := by decide
    length_lt := by
      simp only
      omega }

/-- A change with several fragments: the numbers `setFragmentSize` leaves. -/
structure Several (ch : CacheChange) (len fs n : Nat) : Prop where
  length : ch.serialized_payload.length = len
  fits : len ≤ ch.serialized_payload.max_size
  size : ch.fragment_size_ = fs
  count : ch.fragment_count_ = n
  many : 2 ≤ n
  wide : 8 ≤ fs
  below : (n - 1) * fs < len
  above : len ≤ n * fs
  len_lt : len < 2 ^ 32

variable {len fs n i : Nat}

theorem Several.le_max_size (hs : Several ch len fs n) : fs < ch.serialized_payload.max_size := by
  have hfits := hs.fits
  have hbelow := hs.below
  have hmany := hs.many
  have hone : 1 * fs ≤ (n - 1) * fs := Nat.mul_le_mul_right fs (by omega)
  omega

/-- Each fragment of the payload passes the checks. -/
theorem Several.accepted (hs : Several ch len fs n) (hi : 1 ≤ i) (hin : i ≤ n) (hi' : i < 2 ^ 32) :
    ch.acceptedLength (zeroFragment len fs i hi' hs.len_lt) =
      some (min (i * fs) len - (i - 1) * fs) := by
  have hbelow := hs.below
  obtain ⟨k, rfl⟩ : ∃ k, i = k + 1 := ⟨i - 1, by omega⟩
  have hk : k * fs ≤ (n - 1) * fs := Nat.mul_le_mul_right fs (by omega)
  have hsucc : (k + 1) * fs = k * fs + fs := Nat.succ_mul k fs
  rw [acceptedLength_eq hs.length hs.size hs.count hs.len_lt hbelow rfl rfl (by omega) hi']
  simp only [zeroFragment, Nat.add_sub_cancel, hsucc, Nat.one_mul]
  -- An inner fragment has full size, and the last one the rest of the payload.
  rcases Nat.lt_or_ge (k + 1) n with hlt | hge
  · have hnext : (k + 1) * fs ≤ (n - 1) * fs := Nat.mul_le_mul_right fs (by omega)
    have hfull : min (k * fs + fs) len - k * fs = fs := by omega
    rw [if_pos hlt, hfull, if_pos (Nat.le_refl fs)]
  · have hn : n = k + 1 := by omega
    have habove := hs.above
    rw [hn, hsucc] at habove
    rw [if_neg (Nat.not_lt.2 hge), if_pos hn.symm, Nat.min_eq_right habove]

/-- Following a link that leads to itself never ends. -/
theorem skipReceived_stuck {index last : Nat} (hlt : index < last)
    (hlink : ch.getNextMissingFragment index = some index) (changed : Bool) :
    ch.skipReceived fuel index last changed = none := by
  -- The index never moves, so the loop test stays true.
  refine whileM_diverges (J := fun p : Nat × Bool => p.1 = index) ?_ ?_ rfl fuel
  · rintro p rfl
    simpa using hlt
  · rintro p q rfl hq
    rw [hlink] at hq
    cases hq
    rfl

theorem Several.received_head (hs : Several ch len fs n) (hi : i < n) (hn : n < 2 ^ 32)
    (hfirst : ch.first_missing_fragment_ = i) :
    ch.receivedFragments fuel i 1 =
      (ch.skipReceived fuel i (i + 1) false).map fun r =>
        (r.2, { ch with first_missing_fragment_ := r.1 }) := by
  have hwide := hs.wide
  have hcount := hs.count
  have hsize : 0 < ch.fragment_size_ := by
    rw [hs.size]
    omega
  exact receivedFragments_head hsize hfirst (by omega) (by omega) (by omega)

/-- The call that brings the first missing fragment follows one link. -/
theorem Several.received (hs : Several ch len fs n) {S : Nat}
    (hfirst : ch.first_missing_fragment_ = i) (hi : i < n) (hn : n < 2 ^ 32)
    (hlink : ch.getNextMissingFragment i = some S) (hS : i < S) :
    ch.receivedFragments (fuel + 2) i 1 =
      some (true, { ch with first_missing_fragment_ := S }) := by
  rw [hs.received_head hi hn hfirst, skipReceived_link (Nat.lt_succ_self i) hlink hS]
  rfl

/-- A call that has to follow a link that leads nowhere never comes back. -/
theorem Several.received_stuck (hs : Several ch len fs n) (hi : i < n) (hn : n < 2 ^ 32)
    (hfirst : ch.first_missing_fragment_ = i)
    (hstuck : ∀ fuel, ch.skipReceived fuel i (i + 1) false = none) :
    ch.receivedFragments fuel i 1 = none := by
  rw [hs.received_head hi hn hfirst, hstuck fuel]
  rfl

/-- The data of the first fragment overwrites every link. -/
theorem getNextMissingFragment_zero (h7 : 7 ≤ ch.serialized_payload.max_size)
    (hzero : ∀ x, x < 8 → ch.serialized_payload.data x = 0) (i : Nat) :
    ch.getNextMissingFragment i = some 0 := by
  have hslot := ch.nextFragmentPointer_le i
  rw [getNextMissingFragment_eq h7]
  congr 1
  exact Memory.word32_eq_zero fun j hj => hzero _ (by omega)

theorem skipReceived_zero (ch : CacheChange) (h7 : 7 ≤ ch.serialized_payload.max_size)
    (hzero : ∀ x, x < 8 → ch.serialized_payload.data x = 0) (fuel index : Nat) :
    ch.skipReceived fuel index (index + 1) false = none := by
  have hlink := getNextMissingFragment_zero h7 hzero
  -- Every link leads to 0, which is below the end of the range.
  refine whileM_diverges (J := fun p : Nat × Bool => p.1 < index + 1) ?_ ?_ ?_ fuel
  · rintro p hp
    simpa using hp
  · rintro p q _ hq
    rw [hlink] at hq
    cases hq
    exact Nat.succ_pos index
  · exact Nat.lt_succ_self index

/-- `addFragments` on the first missing fragment of a payload of zeros. -/
theorem Several.addFragments_eq (hs : Several ch len fs n) (hi : i < n) (hn : n < 2 ^ 32) :
    ch.addFragments fuel (zeroFragment len fs (i + 1) (by omega) hs.len_lt) =
      (ch.receivedFragments fuel i 1).bind
        (storeFragments (zeroFragment len fs (i + 1) (by omega) hs.len_lt)
          (min ((i + 1) * fs) len - i * fs)) := by
  have hfirst : sub32 (i + 1) 1 = i := sub32_of_le (by omega) (by omega)
  unfold addFragments
  rw [hs.accepted (by omega) (by omega) (by omega)]
  simp [zeroFragment, hfirst]

/-- The change after the first fragment of a payload of zeros, behind a link to `S`. -/
def afterFirst (ch : CacheChange) (fs S : Nat) : CacheChange :=
  { ch with
    first_missing_fragment_ := S
    serialized_payload :=
      { ch.serialized_payload with
        data := ch.serialized_payload.data.store 0 (List.replicate fs 0) } }

/-- The first fragment, once its link has been followed. -/
theorem Several.first_fragment (hs : Several ch len fs n) (hn : n < 2 ^ 32) {S : Nat}
    (hfirst : ch.first_missing_fragment_ = 0) (hlink : ch.getNextMissingFragment 0 = some S)
    (hS : 0 < S) :
    ch.addFragments (fuel + 2) (zeroFragment len fs 1 (by decide) hs.len_lt) =
      some (decide (n ≤ S), ch.afterFirst fs S) := by
  have hmany := hs.many
  have hbelow := hs.below
  have hone : 1 * fs ≤ (n - 1) * fs := Nat.mul_le_mul_right fs (by omega)
  have hfits := hs.le_max_size
  have hlen : min ((0 + 1) * fs) len - 0 * fs = fs := by omega
  have hoff : u32 (sub32 1 1 * ch.fragment_size_) = 0 := by
    have hzero : sub32 1 1 = 0 := by decide
    rw [hzero, Nat.zero_mul]
    rfl
  rw [hs.addFragments_eq (i := 0) (by omega) hn, hlen,
    hs.received hfirst (by omega) hn hlink hS]
  simp only [Option.bind_some, storeFragments, if_true, zeroFragment, copyIn, hoff,
    Memory.load_zeros]
  rw [if_pos (by omega)]
  simp [isFullyAssembled, hs.count, afterFirst]

theorem afterFirst_zero (hwide : 8 ≤ fs) {S x : Nat} (hx : x < 8) :
    (ch.afterFirst fs S).serialized_payload.data x = 0 := by
  have hlength : x < (List.replicate fs (0 : UInt8)).length := by
    rw [List.length_replicate]
    omega
  have hinside : ch.serialized_payload.data.store 0 (List.replicate fs 0) (0 + x) = 0 := by
    rw [Memory.store_inside hlength, List.getElem_replicate]
  simpa [afterFirst] using hinside

theorem afterFirst_outside {S x : Nat} (hx : fs ≤ x) :
    (ch.afterFirst fs S).serialized_payload.data x = ch.serialized_payload.data x := by
  show ch.serialized_payload.data.store 0 (List.replicate fs 0) x = _
  exact Memory.store_outside (Or.inr (by simpa using hx))

/-- Behind the first fragment the links are zeros, and the call that brings the next missing one
never comes back. -/
theorem Several.stuck_after_first (hs : Several ch len fs n) (hn : n < 2 ^ 32) {S : Nat}
    (hS : S < n) :
    (ch.afterFirst fs S).addFragments fuel
      (zeroFragment len fs (S + 1) (by omega) hs.len_lt) = none := by
  have hs' : Several (ch.afterFirst fs S) len fs n := { hs with }
  have h7 : 7 ≤ ch.serialized_payload.max_size := by
    have hmax := hs.le_max_size
    have hwide := hs.wide
    omega
  have hstuck : ∀ fuel, (ch.afterFirst fs S).skipReceived fuel S (S + 1) false = none :=
    fun fuel => skipReceived_zero (ch.afterFirst fs S) h7
      (fun _ hx => afterFirst_zero hs.wide hx) fuel S
  rw [hs'.addFragments_eq hS hn, hs'.received_stuck hS hn rfl hstuck]
  rfl

end CacheChange

namespace Session

open CacheChange

variable {payload : SerializedPayload} {len fs n : Nat} {calls : List Call}

/-- `setFragmentSize` on a payload of several fragments leaves a list in the first 7 bytes. -/
theorem start_several (hmany : 2 ≤ fragmentCount payload.length fs) (hfs : 8 ≤ fs)
    (hfs' : fs < 2 ^ 16) (hlen : payload.length < 2 ^ 32)
    (hfits : payload.length ≤ payload.max_size) :
    ∃ fuel σ, start fuel payload fs = some σ ∧
      Several σ.change payload.length fs (fragmentCount payload.length fs) ∧
      σ.change.first_missing_fragment_ = 0 ∧ σ.accepted = [] ∧ σ.returned = [] ∧
      ∀ x, 7 ≤ x → σ.change.serialized_payload.data x = payload.data x := by
  obtain ⟨hbelow, habove⟩ := fragmentCount_bounds (show 0 < fs by omega)
    (show 0 < fragmentCount payload.length fs by omega) hlen hfs'
  have hone : 1 * fs ≤ (fragmentCount payload.length fs - 1) * fs :=
    Nat.mul_le_mul_right fs (by omega)
  have hcount : fragmentCount payload.length fs + 1 < 2 ^ 32 := by
    have hmul : (fragmentCount payload.length fs - 1) * 8 ≤
        (fragmentCount payload.length fs - 1) * fs := Nat.mul_le_mul_left _ hfs
    omega
  obtain ⟨fuel, ch, hlink, hsame, hbytes⟩ := linkFragments_returns
    { serialized_payload := payload
      fragment_size_ := fs
      fragment_count_ := fragmentCount payload.length fs
      first_missing_fragment_ := 0 } (by simp only; omega) hcount
  have hstart := start_eq fuel payload (show 0 < fs by omega)
  rw [hlink, Option.map_some] at hstart
  refine ⟨fuel, _, hstart, ?_, hsame.first, rfl, rfl, hbytes⟩
  exact
    { length := hsame.length
      fits := by rw [hsame.max_size]; exact hfits
      size := hsame.size
      count := hsame.count
      many := hmany
      wide := hfs
      below := hbelow
      above := habove
      len_lt := hlen }

/-- A sequence of calls that is stuck after `setFragmentSize` never ends. -/
theorem run_none {σ : Session} {fuel₀ : Nat} (hstart : start fuel₀ payload fs = some σ)
    (h : ∀ fuel, (receiver fuel).exec σ calls = none) (fuel : Nat) :
    run fuel payload fs calls = none := by
  cases hrun : run fuel payload fs calls with
  | none =>
      rfl
  | some τ =>
      have hexec := exec_of_run hstart hrun
      rw [h fuel] at hexec
      cases hexec

theorem exec_none_of_step {σ : Session} {call : Call} {fuel : Nat}
    (h : σ.change.addFragments fuel call = none) :
    (receiver fuel).exec σ (call :: calls) = none := by
  simp [Machine.exec, Session.step, h]

/-- Calls that are stuck behind the first one are stuck with it. -/
theorem exec_none_of_rest {σ σ₁ : Session} {call : Call}
    (hstep : ∀ fuel, Session.step (fuel + 2) σ call = some σ₁)
    (h : ∀ fuel, (receiver fuel).exec σ₁ calls = none) (fuel : Nat) :
    (receiver fuel).exec σ (call :: calls) = none := by
  cases hexec : (receiver fuel).exec σ (call :: calls) with
  | none =>
      rfl
  | some τ =>
      rcases ((receiver fuel).exec_cons).1 hexec with ⟨σ₂, hσ₂, hrest⟩
      rw [receiver_step] at hσ₂
      have heq : σ₂ = σ₁ := by
        apply Option.some.inj
        calc
          some σ₂ = Session.step (fuel + 2) σ call :=
            (step_mono (Nat.le_add_right fuel 2) hσ₂).symm
          _ = some σ₁ := hstep fuel
      subst heq
      rw [h fuel] at hrest
      cases hrest

/-- The call that brings the first fragment of a payload of zeros, behind a link to `S`. -/
theorem step_first {σ : Session} (hs : Several σ.change len fs n) (hn : n < 2 ^ 32) {S : Nat}
    (hfirst : σ.change.first_missing_fragment_ = 0)
    (hlink : σ.change.getNextMissingFragment 0 = some S) (hS : 0 < S) (hacc : σ.accepted = [])
    (hret : σ.returned = []) (fuel : Nat) :
    Session.step (fuel + 2) σ (zeroFragment len fs 1 (by decide) hs.len_lt) =
      some
        { change := σ.change.afterFirst fs S
          accepted := [zeroFragment len fs 1 (by decide) hs.len_lt]
          returned := [decide (n ≤ S)] } := by
  have hmany := hs.many
  have haccepted := hs.accepted (i := 1) (by omega) (by omega) (by decide)
  rw [Session.step, hs.first_fragment hn hfirst hlink hS]
  simp [haccepted, hacc, hret]

/-- With two fragments or more, the first fragment of a payload of zeros is never received as it
should be: the call does not return, or it returns `true` with one fragment stored, or the next
missing fragment is one whose call does not return. -/
theorem run_several (payload : SerializedPayload)
    (hmany : 2 ≤ fragmentCount payload.length fs) (hfs : 8 ≤ fs) (hfs' : fs < 2 ^ 16)
    (hlen : payload.length < 2 ^ 32) (hfits : payload.length ≤ payload.max_size) :
    (∀ fuel, run fuel payload fs [zeroFragment payload.length fs 1 (by decide) hlen] = none) ∨
      (∃ fuel σ, run fuel payload fs [zeroFragment payload.length fs 1 (by decide) hlen] = some σ ∧
        σ.accepted = [zeroFragment payload.length fs 1 (by decide) hlen] ∧ σ.returned = [true] ∧
        σ.change.isFullyAssembled = true ∧
        σ.change.fragment_count_ = fragmentCount payload.length fs ∧
        ∀ x, fs ≤ x → σ.change.serialized_payload.data x = payload.data x) ∨
      ∃ i, ∃ hi : i + 1 < 2 ^ 32, 1 ≤ i ∧
        ∀ fuel, run fuel payload fs
          [zeroFragment payload.length fs 1 (by decide) hlen,
            zeroFragment payload.length fs (i + 1) hi hlen] = none := by
  obtain ⟨fuel₀, σ, hstart, hs, hfirst, hacc, hret, hbytes⟩ :=
    start_several hmany hfs hfs' hlen hfits
  have h7 : 7 ≤ σ.change.serialized_payload.max_size := by
    have hmax := hs.le_max_size
    omega
  have hn : fragmentCount payload.length fs < 2 ^ 32 := by
    have hbelow := hs.below
    have hmul : (fragmentCount payload.length fs - 1) * 8 ≤
        (fragmentCount payload.length fs - 1) * fs := Nat.mul_le_mul_left _ hfs
    omega
  obtain ⟨S, hlink⟩ : ∃ S, σ.change.getNextMissingFragment 0 = some S :=
    ⟨_, getNextMissingFragment_eq h7 0⟩
  rcases Nat.eq_zero_or_pos S with rfl | hS
  · -- The first link leads to itself.
    refine Or.inl (run_none hstart fun fuel => exec_none_of_step ?_)
    rw [hs.addFragments_eq (i := 0) (by omega) hn,
      hs.received_stuck (by omega) hn hfirst fun fuel => skipReceived_stuck (by omega) hlink false]
    rfl
  · have hstep := step_first hs hn hfirst hlink hS hacc hret
    rcases Nat.lt_or_ge S (fragmentCount payload.length fs) with hlt | hge
    · -- The list is overwritten with zeros, and fragment `S` is the next missing one.
      refine Or.inr (Or.inr ⟨S, by omega, hS, run_none hstart ?_⟩)
      apply exec_none_of_rest hstep
      intro fuel
      exact exec_none_of_step (hs.stuck_after_first hn hlt)
    · -- The link leads past the end, so the list is taken for empty.
      refine Or.inr (Or.inl ⟨fuel₀ + 2, _, Option.bind_eq_some_iff.2
        ⟨σ, start_mono (by omega) hstart,
          ((receiver (fuel₀ + 2)).exec_singleton).2 (hstep fuel₀)⟩, rfl, ?_, ?_, hs.count, ?_⟩)
      · simp [hge]
      · simpa [isFullyAssembled, afterFirst, hs.count] using hge
      · intro x hx
        rw [← hbytes x (by omega)]
        exact afterFirst_outside hx

end Session

end Rtps
end Mozi
