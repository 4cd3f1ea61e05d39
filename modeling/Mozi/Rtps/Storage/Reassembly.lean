import Mozi.Rtps.Storage.SingleFragment
import Mozi.Rtps.Storage.ManyFragments

/-!
# Reassembly — when fragment reassembly is exact

`exact_iff` is about the verdict of `isFullyAssembled`, `reproduces_iff` about the bytes.  Both
hold of payloads that are at most one fragment in a buffer the link fits in, and fail for every
longer payload.
-/

namespace Mozi
namespace Rtps

open Foundation CacheChange

variable {payload : SerializedPayload} {len max_size fs : Nat}

/-- A payload of several fragments is one that is longer than a fragment. -/
theorem two_le_fragmentCount (hfs : 0 < fs) (hfs' : fs < 2 ^ 16) (hlen : len < 2 ^ 32)
    (hlong : fs < len) (hsum : len + fs - 1 < 2 ^ 32) : 2 ≤ fragmentCount len fs := by
  have hpos : 0 < fragmentCount len fs := by
    rw [Nat.pos_iff_ne_zero]
    intro hzero
    rcases (fragmentCount_zero hlen hfs hfs').1 hzero with h | h <;> omega
  obtain ⟨_, habove⟩ := fragmentCount_bounds hfs hpos hlen hfs'
  by_contra hlt
  have hone : fragmentCount len fs = 1 := by omega
  rw [hone] at habove
  omega

/-- No fragment, several ones, or one. -/
theorem fragmentCount_cases (hfs : 0 < fs) (hfs' : fs < 2 ^ 16) (hlen : len < 2 ^ 32) :
    fragmentCount len fs = 0 ∨ (fs < len ∧ 2 ≤ fragmentCount len fs) ∨
      (0 < fragmentCount len fs ∧ len ≤ fs) := by
  rcases Nat.eq_zero_or_pos (fragmentCount len fs) with hzero | hpos
  · exact Or.inl hzero
  · have hsum : ¬ 2 ^ 32 ≤ len + fs - 1 := by
      intro hsum
      have := (fragmentCount_zero hlen hfs hfs').2 (Or.inr hsum)
      omega
    rcases Nat.lt_or_ge fs len with hlong | hle
    · exact Or.inr (Or.inl ⟨hlong, two_le_fragmentCount hfs hfs' hlen hlong (by omega)⟩)
    · exact Or.inr (Or.inr ⟨hpos, hle⟩)

/-- One fragment in a buffer its link does not fit in: `setFragmentSize` writes past the end. -/
theorem run_small (hfs : 0 < fs) (hcount : 0 < fragmentCount payload.length fs)
    (h7 : payload.max_size < 7) (calls : List Call) (fuel : Nat) :
    Session.run fuel payload fs calls = none := by
  unfold Session.run
  rw [Session.start_eq fuel payload hfs, linkFragments_small (by exact h7) (by exact hcount)]
  rfl

/-! ## The verdict -/

/-- Every sequence of calls of a kind runs to its end, and the change is fully assembled there
exactly if every fragment is covered by a call that passed the checks. -/
def Exact (kind : Call → Prop) (payload : SerializedPayload) (fragment_size : Nat) : Prop :=
  ∀ calls : List Call, (∀ c ∈ calls, kind c) →
    ∃ fuel σ, Session.run fuel payload fragment_size calls = some σ ∧
      (σ.change.isFullyAssembled = true ↔
        ∀ m, 1 ≤ m → m ≤ σ.change.fragment_count_ → ∃ c ∈ σ.accepted, c.Covers m)

/-- All calls, with any start number. -/
def AnyStart (_ : Call) : Prop := True

/-- The calls that count fragments from 1. -/
def FromOne (c : Call) : Prop :=
  1 ≤ c.fragment_starting_num

theorem Exact.fromOne (h : Exact AnyStart payload fs) : Exact FromOne payload fs := by
  intro calls _
  exact h calls fun _ _ => trivial

theorem exact_single (hpos : 0 < payload.length) (hlen : payload.length < 2 ^ 32)
    (hfits : payload.length ≤ payload.max_size) (h7 : 7 ≤ payload.max_size)
    (hle : payload.length ≤ fs) (hfs : fs < 2 ^ 16) : Exact FromOne payload fs := by
  intro calls hcalls
  obtain ⟨fuel, σ, hrun, hσ⟩ := Session.run_single payload AnyStart hpos hlen hfits h7 hle hfs
    fun c hc => ⟨trivial, hcalls c hc⟩
  refine ⟨fuel, σ, hrun, ?_⟩
  have hcount := hσ.single.count
  rcases hσ.single.first with ⟨hfirst, _⟩ | hfirst
  · constructor
    · intro hdone
      simp [isFullyAssembled, hfirst, hcount] at hdone
    · intro hall
      obtain ⟨c, hc, hcovers⟩ := hall 1 (Nat.le_refl 1) (by omega)
      exact absurd hcovers ((hσ.missing hfirst).1 c hc)
  · constructor
    · intro _ m hm hle
      obtain ⟨c, hc, _, hstart, hnum, _⟩ := hσ.received hfirst
      refine ⟨c, hc, ?_, ?_⟩ <;> omega
    · intro _
      simp [isFullyAssembled, hfirst, hcount]

theorem exact_empty (hfs : 0 < fs) (hcount : fragmentCount payload.length fs = 0) :
    Exact AnyStart payload fs := by
  intro calls _
  obtain ⟨σ, hrun, _, hzero⟩ := Session.run_empty payload hfs hcount calls
  refine ⟨1, σ, hrun, ?_⟩
  constructor
  · intro _ m hm hle
    omega
  · intro _
    simp [isFullyAssembled, hzero]

theorem not_exact_several (hmany : 2 ≤ fragmentCount payload.length fs) (hfs : 8 ≤ fs)
    (hfs' : fs < 2 ^ 16) (hlen : payload.length < 2 ^ 32)
    (hfits : payload.length ≤ payload.max_size) : ¬ Exact FromOne payload fs := by
  intro hexact
  rcases Session.run_several payload hmany hfs hfs' hlen hfits with
    hnone | ⟨fuel, σ, hrun, hacc, _, hdone, hcount, _⟩ | ⟨i, hi, hpos, hnone⟩
  · -- The call does not return.
    obtain ⟨fuel, σ, hrun, _⟩ := hexact [zeroFragment payload.length fs 1 (by decide) hlen]
      (by simp [zeroFragment, FromOne])
    rw [hnone fuel] at hrun
    cases hrun
  · -- The verdict comes with one fragment, and the second one is not covered.
    obtain ⟨fuel', τ, hrun', hverdict⟩ := hexact
      [zeroFragment payload.length fs 1 (by decide) hlen] (by simp [zeroFragment, FromOne])
    have heq : σ = τ := Session.run_unique hrun hrun'
    subst heq
    obtain ⟨c, hc, hcovers⟩ := hverdict.1 hdone 2 (by omega) (by omega)
    rw [hacc] at hc
    have hcall : c = zeroFragment payload.length fs 1 (by decide) hlen := by simpa using hc
    subst hcall
    have hlt : 2 < 1 + 1 := hcovers.2
    omega
  · -- The second call does not return.
    obtain ⟨fuel, σ, hrun, _⟩ := hexact
      [zeroFragment payload.length fs 1 (by decide) hlen,
        zeroFragment payload.length fs (i + 1) hi hlen] (by simp [zeroFragment, FromOne])
    rw [hnone fuel] at hrun
    cases hrun

/-- A call that starts at fragment number 0, which does not exist. -/
def zeroStart : Call :=
  { incoming_data := { length := 0, data := fun _ => 0 }
    fragment_starting_num := 0
    fragments_in_submessage := 2
    starting_num_lt := by decide
    in_submessage_lt := by decide
    length_lt := by decide }

/-- On one fragment such a call passes the checks and marks nothing. -/
theorem zeroStart_accepted (hpos : 0 < payload.length) (hlen : payload.length < 2 ^ 32)
    (hfits : payload.length ≤ payload.max_size) (h7 : 7 ≤ payload.max_size)
    (hle : payload.length ≤ fs) (hfs : fs < 2 ^ 16) :
    ∃ fuel σ, Session.run fuel payload fs [zeroStart] = some σ ∧
      zeroStart ∈ σ.accepted ∧ σ.change.fragment_count_ = 1 ∧
      σ.change.isFullyAssembled = false := by
  obtain ⟨σ, hσ, hinit, hfirst⟩ := Session.start_single (fun _ => False) hpos hfits h7 hle hfs
  have hs := hinit.single
  have hlast : sub32 (u32 (0 + 2)) 1 = 1 := by decide
  have haccepted : (σ.change.acceptedLength zeroStart).isSome = true := by
    -- The offset of number 0 wraps, and the sum of the last check wraps back.
    have hsum : u32 (u32 (sub32 0 1 * fs) +
        sub32 payload.length (u32 (sub32 0 1 * fs))) = payload.length := by
      generalize hoff : u32 (sub32 0 1 * fs) = off
      have hlt : off < 2 ^ 32 := by
        rw [← hoff]
        exact u32_lt _
      unfold sub32 u32
      omega
    simp [acceptedLength, zeroStart, hlast, hs.count, hs.length, hs.size, hsum]
  have hadd := addFragments_outside 2 σ.change zeroStart (by
    rw [hs.count]
    decide)
  have hstep : Session.step 2 σ zeroStart =
      some
        { change := σ.change
          accepted := σ.accepted ++ [zeroStart]
          returned := σ.returned ++ [σ.change.isFullyAssembled] } := by
    rw [Session.step, hadd]
    simp [haccepted]
  refine ⟨2, _, Option.bind_eq_some_iff.2
    ⟨σ, hσ, ((Session.receiver 2).exec_singleton).2 hstep⟩, by simp, hs.count, ?_⟩
  simp [isFullyAssembled, hfirst, hs.count]

theorem not_exact_zeroStart (hpos : 0 < payload.length) (hlen : payload.length < 2 ^ 32)
    (hfits : payload.length ≤ payload.max_size) (h7 : 7 ≤ payload.max_size)
    (hle : payload.length ≤ fs) (hfs : fs < 2 ^ 16) : ¬ Exact AnyStart payload fs := by
  intro hexact
  obtain ⟨fuel, σ, hrun, hmem, hcount, hnot⟩ := zeroStart_accepted hpos hlen hfits h7 hle hfs
  obtain ⟨fuel', τ, hrun', hverdict⟩ := hexact [zeroStart] fun _ _ => trivial
  have heq : σ = τ := Session.run_unique hrun hrun'
  subst heq
  have hcovers : zeroStart.Covers 1 := by decide
  have hdone : σ.change.isFullyAssembled = true := by
    refine hverdict.2 fun m hm hle => ⟨zeroStart, hmem, ?_⟩
    obtain rfl : m = 1 := by omega
    exact hcovers
  rw [hdone] at hnot
  cases hnot

/-- Calls that count fragments from 1 are exact if and only if there is no fragment, or one
fragment in a buffer its link fits in. -/
theorem exact_fromOne_iff (hlen : payload.length < 2 ^ 32)
    (hfits : payload.length ≤ payload.max_size) (hfs : 8 ≤ fs) (hfs' : fs < 2 ^ 16) :
    Exact FromOne payload fs ↔
      fragmentCount payload.length fs = 0 ∨ (payload.length ≤ fs ∧ 7 ≤ payload.max_size) := by
  have hzero := fragmentCount_zero hlen (show 0 < fs by omega) hfs'
  constructor
  · intro hexact
    rcases fragmentCount_cases (by omega) hfs' hlen with hnone | ⟨-, hseveral⟩ | ⟨hcount, hle⟩
    · exact Or.inl hnone
    · -- Several fragments, whose links overwrite each other.
      exact absurd hexact (not_exact_several hseveral hfs hfs' hlen hfits)
    · refine Or.inr ⟨hle, ?_⟩
      -- One fragment, whose link would be written past the end of the buffer.
      by_contra h7
      obtain ⟨fuel, σ, hrun, _⟩ := hexact [] (by simp)
      rw [run_small (by omega) hcount (by omega) [] fuel] at hrun
      cases hrun
  · rintro (hempty | ⟨hle, h7⟩)
    · exact (exact_empty (by omega) hempty).fromOne
    · rcases Nat.eq_zero_or_pos payload.length with hempty | hpos
      · exact (exact_empty (by omega) (hzero.2 (Or.inl hempty))).fromOne
      · exact exact_single hpos hlen hfits h7 hle hfs'

/-- Reassembly is exact for all calls if and only if there is no fragment, and for the calls that
count fragments from 1 also where there is one fragment, in a buffer its link fits in.  (The count
is 0 for an empty payload, and for a length so close to `2 ^ 32` that rounding it up overflows.) -/
theorem exact_iff (hlen : payload.length < 2 ^ 32) (hfits : payload.length ≤ payload.max_size)
    (hfs : 8 ≤ fs) (hfs' : fs < 2 ^ 16) :
    (Exact AnyStart payload fs ↔
        payload.length = 0 ∨ 2 ^ 32 ≤ payload.length + fs - 1) ∧
      (Exact FromOne payload fs ↔
        payload.length = 0 ∨ 2 ^ 32 ≤ payload.length + fs - 1 ∨
          (payload.length ≤ fs ∧ 7 ≤ payload.max_size)) := by
  have hzero := fragmentCount_zero hlen (show 0 < fs by omega) hfs'
  have hfromOne := exact_fromOne_iff hlen hfits hfs hfs'
  rw [hzero, or_assoc] at hfromOne
  refine ⟨⟨?_, ?_⟩, hfromOne⟩
  · intro hexact
    rcases hfromOne.1 hexact.fromOne with hempty | hsum | ⟨hle, h7⟩
    · exact Or.inl hempty
    · exact Or.inr hsum
    · -- The call that starts at number 0 excludes the single fragment.
      by_contra hcond
      push Not at hcond
      exact not_exact_zeroStart (by omega) hlen hfits h7 hle hfs' hexact
  · intro hcount
    exact exact_empty (by omega) (hzero.2 hcount)

/-- Two fragments of 8 bytes in a buffer of zeros. -/
def twoFragments : SerializedPayload :=
  { length := 16, max_size := 16, data := fun _ => 0 }

/-- The first of two fragments alone makes the change fully assembled. -/
theorem assembled_too_early :
    ∃ σ, Session.run 3 twoFragments 8 [zeroFragment 16 8 1 (by decide) (by decide)] = some σ ∧
      σ.change.isFullyAssembled = true ∧ σ.change.fragment_count_ = 2 ∧
      ¬ ∃ c ∈ σ.accepted, c.Covers 2 := by
  refine ⟨_, rfl, rfl, rfl, ?_⟩
  rintro ⟨c, hc, hcovers⟩
  have hcall : c = zeroFragment 16 8 1 (by decide) (by decide) := List.mem_singleton.1 hc
  subst hcall
  exact absurd hcovers.2 (by decide)

theorem exact_iff_one_fragment :
    Exact FromOne { length := 8, max_size := 8, data := fun _ => 0 } 8 :=
  (@exact_iff { length := 8, max_size := 8, data := fun _ => 0 } 8
    (by decide) (by decide) (by decide) (by decide)).2.2 (Or.inr (Or.inr ⟨by decide, by decide⟩))

/-! ## The bytes -/

/-- The incoming data are the bytes of `P` for the fragments of the call. -/
def SliceOf (P : List UInt8) (fragment_size : Nat) (c : Call) : Prop :=
  1 ≤ c.fragment_starting_num ∧
    c.incoming_data.length =
      min ((c.fragment_starting_num - 1 + c.fragments_in_submessage) * fragment_size) P.length -
        (c.fragment_starting_num - 1) * fragment_size ∧
    ∀ j, j < c.incoming_data.length →
      P[(c.fragment_starting_num - 1) * fragment_size + j]? = some (c.incoming_data.data j)

/-- Every sequence of calls with slices of a payload runs to its end, and the first call that
returns `true` leaves the payload in the buffer, whatever the payload and the buffer. -/
def Reproduces (len max_size fragment_size : Nat) : Prop :=
  ∀ (P : List UInt8) (data : Memory) (calls : List Call), P.length = len →
    (∀ c ∈ calls, SliceOf P fragment_size c) →
    ∃ fuel σ, Session.run fuel { length := len, max_size := max_size, data := data }
        fragment_size calls = some σ ∧
      ∀ earlier, true ∉ earlier → σ.returned = earlier ++ [true] →
        σ.change.serialized_payload.data.load 0 len = P

theorem reproduces_empty (hfs : 0 < fs) : Reproduces 0 max_size fs := by
  intro P data calls hP _
  obtain ⟨σ, hrun, _⟩ := Session.run_empty
    { length := 0, max_size := max_size, data := data } hfs
    (by simp [fragmentCount, u32]; omega) calls
  refine ⟨1, σ, hrun, fun _ _ _ => ?_⟩
  rw [List.length_eq_zero_iff.1 hP]
  rfl

theorem reproduces_single (hpos : 0 < len) (hlen : len < 2 ^ 32) (hfits : len ≤ max_size)
    (h7 : 7 ≤ max_size) (hle : len ≤ fs) (hfs : fs < 2 ^ 16) : Reproduces len max_size fs := by
  intro P data calls hP hcalls
  obtain ⟨fuel, σ, hrun, hσ⟩ := Session.run_single
    { length := len, max_size := max_size, data := data } (SliceOf P fs)
    hpos hlen hfits h7 hle hfs fun c hc => ⟨hcalls c hc, (hcalls c hc).1⟩
  refine ⟨fuel, σ, hrun, ?_⟩
  intro earlier _ hret
  rcases hσ.single.first with ⟨hfirst, _⟩ | hfirst
  · exact absurd (by simp [hret]) (hσ.missing hfirst).2
  · obtain ⟨c, _, ⟨_, hlength, hbytes⟩, hstart, hnum, hload⟩ := hσ.received hfirst
    -- A slice that is the whole payload has its length.
    have hwhole : c.incoming_data.length = len := by
      rw [hlength, hstart, hnum, hP]
      omega
    rw [hload]
    refine List.ext_getElem? ?_
    intro j
    rcases Nat.lt_or_ge j len with hj | hj
    · have hbyte := hbytes j (by omega)
      rw [hstart] at hbyte
      simpa [Memory.load, hj] using hbyte.symm
    · rw [List.getElem?_eq_none (by simpa using hj), List.getElem?_eq_none (by omega)]

theorem sliceOf_zeroFragment {i : Nat} (hi : 1 ≤ i) (hi' : i < 2 ^ 32) (hlen : len < 2 ^ 32) :
    SliceOf (List.replicate len 0) fs (zeroFragment len fs i hi' hlen) := by
  obtain ⟨k, rfl⟩ : ∃ k, i = k + 1 := ⟨i - 1, by omega⟩
  refine ⟨hi, by simp [zeroFragment], ?_⟩
  intro j hj
  have hlt : k * fs + j < len := by
    simp only [zeroFragment, Nat.add_sub_cancel] at hj
    omega
  simp [zeroFragment, hlt]

theorem not_reproduces_several (hmany : 2 ≤ fragmentCount len fs) (hfs : 8 ≤ fs)
    (hfs' : fs < 2 ^ 16) (hlen : len < 2 ^ 32) (hfits : len ≤ max_size) (hlong : fs < len) :
    ¬ Reproduces len max_size fs := by
  intro hrep
  have hfirst : SliceOf (List.replicate len 0) fs (zeroFragment len fs 1 (by decide) hlen) :=
    sliceOf_zeroFragment (by decide) (by decide) hlen
  have hruns := fun calls =>
    hrep (List.replicate len 0) (fun _ => 1) calls (by simp)
  rcases Session.run_several
    { length := len, max_size := max_size, data := fun _ => 1 } hmany hfs hfs' hlen
    hfits with hnone | ⟨fuel, σ, hrun, _, hret, _, _, hbytes⟩ | ⟨i, hi, hpos, hnone⟩
  · obtain ⟨fuel, σ, hrun, _⟩ := hruns [zeroFragment len fs 1 (by decide) hlen] (by simpa)
    rw [hnone fuel] at hrun
    cases hrun
  · -- The byte after the first fragment is still the one the buffer had.
    obtain ⟨fuel', τ, hrun', hbytes'⟩ := hruns [zeroFragment len fs 1 (by decide) hlen] (by simpa)
    have heq : σ = τ := Session.run_unique hrun hrun'
    subst heq
    have hload := hbytes' [] (by simp) hret
    have hbyte := congrArg (fun bytes => bytes[fs]?) hload
    simp [Memory.load, hlong, hbytes fs (Nat.le_refl fs)] at hbyte
  · obtain ⟨fuel, σ, hrun, _⟩ := hruns
      [zeroFragment len fs 1 (by decide) hlen, zeroFragment len fs (i + 1) hi hlen] (by
        simpa [hfirst] using sliceOf_zeroFragment (by omega) hi hlen)
    rw [hnone fuel] at hrun
    cases hrun

/-- A call that brings no fragment. -/
def noFragment : Call :=
  { incoming_data := { length := 0, data := fun _ => 0 }
    fragment_starting_num := 1
    fragments_in_submessage := 0
    starting_num_lt := Nat.one_lt_two_pow (by decide)
    in_submessage_lt := Nat.two_pow_pos 32
    length_lt := Nat.two_pow_pos 32 }

/-- With a count that has overflowed to 0, a call without fragments returns `true` at once. -/
theorem not_reproduces_overflow (hfs : 0 < fs) (hlen : len < 2 ^ 32) (hpos : 0 < len)
    (hcount : fragmentCount len fs = 0) : ¬ Reproduces len max_size fs := by
  intro hrep
  obtain ⟨σ, hstart, hzero, hlength, hbytes, hret⟩ : ∃ σ,
      Session.start 1 { length := len, max_size := max_size, data := fun _ => 1 } fs = some σ ∧
        σ.change.fragment_count_ = 0 ∧ σ.change.serialized_payload.length = len ∧
        σ.change.serialized_payload.data = (fun _ => 1) ∧ σ.returned = [] := by
    have hstart := Session.start_eq 1
      { length := len, max_size := max_size, data := fun _ => 1 } hfs
    rw [linkFragments_empty (by exact hcount) 0, Option.map_some] at hstart
    exact ⟨_, hstart, hcount, rfl, rfl, rfl⟩
  have hlast : sub32 (u32 (1 + 0)) 1 = 0 := by decide
  have hfirst : sub32 1 1 = 0 := by decide
  have hrest : sub32 len 0 = len := sub32_of_le (Nat.zero_le _) hlen
  have haccepted : σ.change.acceptedLength noFragment = some len := by
    simp [acceptedLength, noFragment, hlast, hfirst, hzero, hlength, hrest, u32_of_lt hlen,
      show u32 0 = 0 from rfl]
  have hadd := addFragments_outside 1 σ.change noFragment (by omega)
  have hstep : Session.step 1 σ noFragment =
      some
        { change := σ.change
          accepted := σ.accepted ++ [noFragment]
          returned := [true] } := by
    rw [Session.step, hadd]
    simp [haccepted, hret, isFullyAssembled, hzero]
  obtain ⟨fuel, τ, hrun, hbytes'⟩ := hrep (List.replicate len 0) (fun _ => 1) [noFragment]
    (by simp) (by simp [SliceOf, noFragment])
  have heq := Session.run_unique (Option.bind_eq_some_iff.2
    ⟨σ, hstart, ((Session.receiver 1).exec_singleton).2 hstep⟩) hrun
  subst heq
  have hload := hbytes' [] (by simp) rfl
  have hbyte := congrArg (fun bytes => bytes[0]?) hload
  simp [Memory.load, hpos, hbytes] at hbyte

/-- Reassembly reproduces every payload of this length from every sequence of its slices if and
only if the payload is empty, or is one fragment in a buffer its link fits in. -/
theorem reproduces_iff (hlen : len < 2 ^ 32) (hfits : len ≤ max_size) (hfs : 8 ≤ fs)
    (hfs' : fs < 2 ^ 16) :
    Reproduces len max_size fs ↔ len = 0 ∨ (len ≤ fs ∧ 7 ≤ max_size) := by
  constructor
  · intro hrep
    by_contra hcond
    push Not at hcond
    obtain ⟨hpos, hsmall⟩ := hcond
    rcases fragmentCount_cases (by omega) hfs' hlen with hzero | ⟨hlong, hseveral⟩ | ⟨hcount, hle⟩
    · exact not_reproduces_overflow (by omega) hlen (by omega) hzero hrep
    · exact not_reproduces_several hseveral hfs hfs' hlen hfits hlong hrep
    · -- One fragment, whose link is written past the end of the buffer.
      have h7 : max_size < 7 := by
        have := hsmall hle
        omega
      obtain ⟨fuel, σ, hrun, _⟩ := hrep (List.replicate len 0) (fun _ => 0) [] (by simp) (by simp)
      rw [run_small (by omega) (by simpa using hcount) (by simpa using h7) [] fuel] at hrun
      cases hrun
  · rintro (rfl | ⟨hle, h7⟩)
    · exact reproduces_empty (by omega)
    · rcases Nat.eq_zero_or_pos len with rfl | hpos
      · exact reproduces_empty (by omega)
      · exact reproduces_single hpos hlen hfits h7 hle hfs'

/-- Two fragments of zeros sent into a buffer of ones: the first call returns `true` and the second
half of the buffer is still ones. -/
theorem returned_too_early :
    ∃ σ, Session.run 3 { length := 16, max_size := 16, data := fun _ => 1 } 8
        [zeroFragment 16 8 1 (by decide) (by decide)] = some σ ∧
      σ.returned = [true] ∧
      σ.change.serialized_payload.data.load 0 16 =
        List.replicate 8 0 ++ List.replicate 8 1 := by
  exact ⟨_, rfl, rfl, rfl⟩

theorem reproduces_iff_one_fragment : Reproduces 8 8 8 :=
  (reproduces_iff (by decide) (by decide) (by decide) (by decide)).2
    (Or.inr ⟨by decide, by decide⟩)

end Rtps
end Mozi
