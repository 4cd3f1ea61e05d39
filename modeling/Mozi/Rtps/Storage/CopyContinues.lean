import Mathlib.Data.Set.Basic
import Mozi.Rtps.Storage.ChangeCopy
import Mozi.Rtps.Storage.SmallLists
import Mozi.Rtps.Storage.Twins

/-!
# CopyContinues — reassembly on a copy of a change

`CacheChange::copy` takes over the numbers of a change and the `length` bytes of its payload.  The
links stand in the first seven bytes of the buffer, so the copy of a shorter payload has not all of
them: it goes on like its original only where no link is read any more.
-/

namespace Mozi
namespace Rtps

open Foundation DataStructure

/-! ## Going on -/

/-- An empty set. -/
def FragmentNumberSet.fresh : FragmentNumberSet :=
  ⟨0#32, 255#32, Vector.replicate 8 0#32, 0⟩

/-- A receiver that takes up a change. -/
def Session.resume (ch : CacheChange) : Session :=
  { change := ch, accepted := [], returned := [] }

namespace CacheChange

/-- Further calls return these results and leave these bytes of payload. -/
def Continues (ch : CacheChange) (more : List Call) (returned : List Bool)
    (payload : List UInt8) : Prop :=
  ∃ fuel σ, (Session.receiver fuel).exec (Session.resume ch) more = some σ ∧
    σ.returned = returned ∧
    σ.change.serialized_payload.data.load 0 σ.change.serialized_payload.length = payload

/-- After further calls these numbers are reported to be missing. -/
def Misses (ch : CacheChange) (more : List Call) (frag_sns : FragmentNumberSet)
    (numbers : Set FragmentNumber) : Prop :=
  ∃ fuel σ t, (Session.receiver fuel).exec (Session.resume ch) more = some σ ∧
    σ.change.getMissingFragments fuel frag_sns = some t ∧
    ∀ x, x ∈ numbers ↔ t.isSet x = some true

/-- Whatever calls follow, one change shows what the other one does. -/
structure ContinuesLike (c s : CacheChange) : Prop where
  results : ∀ more returned payload,
    Continues c more returned payload ↔ Continues s more returned payload
  missing : ∀ more frag_sns numbers,
    Misses c more frag_sns numbers ↔ Misses s more frag_sns numbers

/-- A state that `setFragmentSize(fs, true)` and any calls of `addFragments` lead to. -/
def Reached (ch : CacheChange) (payload : SerializedPayload) (fs : Nat) : Prop :=
  ∃ fuel calls σ, Session.run fuel payload fs calls = some σ ∧ σ.change = ch

/-- What the fragment functions see of a change. -/
def Whole.core {Handle Time Params : Type} (w : Whole Handle Time Params) : CacheChange where
  serialized_payload := w.serialized_payload.toSerializedPayload
  fragment_size_ := w.fragment_size_
  fragment_count_ := w.fragment_count_
  first_missing_fragment_ := w.first_missing_fragment_

/-- Every destination into which the change is copied goes on like the change. -/
def Whole.ContinuedByCopies {Handle Time Params : Type} (s : Whole Handle Time Params) : Prop :=
  ∀ granted (d d' : Whole Handle Time Params), d.copy granted s = some (.ok true, d') →
    ContinuesLike d'.core s.core

/-! ## Twins go on alike -/

variable {c s : CacheChange} {len fs : Nat}

theorem Twins.continuesLike (h : Twins len fs c s) (hlen : len < 2 ^ 32) (hfs : fs < 2 ^ 16) :
    ContinuesLike c s := by
  have hstart : Session.SessionTwins len fs (Session.resume c) (Session.resume s) := ⟨h, rfl⟩
  have hpayload : ∀ {σ τ : Session}, Session.SessionTwins len fs σ τ →
      σ.change.serialized_payload.data.load 0 σ.change.serialized_payload.length =
        τ.change.serialized_payload.data.load 0 τ.change.serialized_payload.length := by
    intro σ τ hστ
    rw [hστ.change.length_eq, hστ.change.original.length]
    exact Memory.load_congr fun i hi => by simpa using hστ.change.bytes i hi
  refine ⟨fun more returned payload => ?_, fun more frag_sns numbers => ?_⟩
  · constructor
    · rintro ⟨fuel, σ, hrun, hreturned, hbytes⟩
      obtain ⟨τ, hτ, htwins⟩ := Lockstep.left (hstart.exec hlen hfs more) hrun
      exact ⟨fuel, τ, hτ, by rw [← hreturned, htwins.returned], by rw [← hbytes, hpayload htwins]⟩
    · rintro ⟨fuel, τ, hrun, hreturned, hbytes⟩
      obtain ⟨σ, hσ, htwins⟩ := Lockstep.right (hstart.exec hlen hfs more) hrun
      exact ⟨fuel, σ, hσ, by rw [← hreturned, htwins.returned], by rw [← hbytes, hpayload htwins]⟩
  · constructor
    · rintro ⟨fuel, σ, t, hrun, hreport, hnumbers⟩
      obtain ⟨τ, hτ, htwins⟩ := Lockstep.left (hstart.exec hlen hfs more) hrun
      exact ⟨fuel, τ, t, hτ, by rw [← hreport, htwins.change.getMissingFragments_eq], hnumbers⟩
    · rintro ⟨fuel, τ, t, hrun, hreport, hnumbers⟩
      obtain ⟨σ, hσ, htwins⟩ := Lockstep.right (hstart.exec hlen hfs more) hrun
      exact ⟨fuel, σ, t, hσ, by rw [htwins.change.getMissingFragments_eq, hreport], hnumbers⟩

end CacheChange

/-! ## What a copy takes over -/

namespace EncapsulatedPayload

variable {p ser t : EncapsulatedPayload} {granted with_limit : Bool}

/-- The payload of the source is in the buffer of the destination. -/
structure TookOver (t ser : EncapsulatedPayload) : Prop where
  length_eq : t.length = ser.length
  fits : t.length ≤ t.max_size
  bytes : ∀ x < ser.length, t.data x = ser.data x

theorem copyBytes_tookOver (hlength : p.length = ser.length)
    (hrun : copyBytes p ser = some (.ok true, t)) : TookOver t ser := by
  unfold copyBytes at hrun
  simp only at hrun
  split_ifs at hrun with hempty hroom
  · cases hrun
    exact ⟨hlength, by simp [hempty], fun x hx => by omega⟩
  · cases hrun
    refine ⟨hlength, hroom.2.2.1, fun x hx => ?_⟩
    have hinside : x < (ser.data.load 0 p.length).length := by
      rw [Memory.length_load, hlength]
      exact hx
    have hbyte : p.data.store 0 (ser.data.load 0 p.length) (0 + x) =
        (ser.data.load 0 p.length)[x] := Memory.store_inside hinside
    rw [Nat.zero_add] at hbyte
    simp only [hbyte]
    simp [Memory.load]

theorem reserve_length (granted : Bool) (p : EncapsulatedPayload) (n : Nat) :
    (p.reserve granted n).2.length = p.length := by
  unfold reserve
  split_ifs <;> rfl

theorem copy_tookOver (hrun : p.copy granted ser with_limit = some (.ok true, t)) :
    TookOver t ser := by
  unfold copy at hrun
  simp only at hrun
  split_ifs at hrun with hlong hlimit
  · cases hrun
  · cases hreserve : reserve granted { p with length := ser.length } ser.length with
    | mk outcome q =>
        have hlength := reserve_length granted { p with length := ser.length } ser.length
        rw [hreserve] at hrun hlength
        cases outcome with
        | error e => cases hrun
        | ok u => exact copyBytes_tookOver hlength hrun
  · have hlength : ({ p with length := ser.length } : EncapsulatedPayload).length = ser.length := rfl
    exact copyBytes_tookOver hlength hrun

end EncapsulatedPayload

namespace CacheChange
namespace Whole

open EncapsulatedPayload

variable {Handle Time Params : Type} {s d d' : Whole Handle Time Params} {granted : Bool}
  {payload : SerializedPayload} {fs : Nat}

/-- The numbers are assigned, the payload is copied. -/
theorem copy_core (hrun : d.copy granted s = some (.ok true, d')) :
    d'.core =
        { s.core with serialized_payload := d'.serialized_payload.toSerializedPayload } ∧
      TookOver d'.serialized_payload s.serialized_payload := by
  unfold copy at hrun
  simp only at hrun
  rcases Option.map_eq_some_iff.1 hrun with ⟨⟨outcome, t⟩, hcopy, heq⟩
  obtain ⟨rfl, rfl⟩ := Prod.mk.inj heq
  exact ⟨rfl, copy_tookOver hcopy⟩

/-- The copy is a twin where the links are in the payload, or not needed. -/
theorem copy_twins (hs : Sized s.core payload.length payload.max_size fs)
    (hfits : payload.length ≤ payload.max_size)
    (hreadable : 7 ≤ payload.length ∨ s.core.fragment_count_ ≤ s.core.first_missing_fragment_)
    (hrun : d.copy granted s = some (.ok true, d')) : Twins payload.length fs d'.core s.core := by
  obtain ⟨hcore, htook⟩ := copy_core hrun
  have hlength : s.serialized_payload.length = payload.length := hs.length
  rw [hcore]
  exact
    { copied := ⟨htook.length_eq.trans hlength, rfl, hs.size, hs.count⟩
      original := ⟨hs.length, rfl, hs.size, hs.count⟩
      copied_fits := by
        rw [← hlength, ← htook.length_eq]
        exact htook.fits
      original_fits := by
        rw [hs.max_size]
        exact hfits
      first := rfl
      bytes := fun x hx => htook.bytes x (by rw [hlength]; exact hx)
      readable := hreadable }

/-! ## Destinations that go wrong -/

/-- A destination with a buffer of this size, filled with one byte. -/
def filled (s : Whole Handle Time Params) (room : Nat) (b : UInt8) : Whole Handle Time Params :=
  { s with
    serialized_payload :=
      { length := 0
        max_size := room
        data := fun _ => b
        encapsulation := 0
        allocated := true } }

theorem copy_filled (s : Whole Handle Time Params) (hs : s.serialized_payload.Sound) (b : UInt8)
    {room : Nat} (hpos : 0 < s.serialized_payload.length)
    (hroom : s.serialized_payload.length ≤ room) :
    ∃ d', (filled s room b).copy true s = some (.ok true, d') ∧
      d'.serialized_payload.max_size = room ∧
      ∀ x, s.serialized_payload.length ≤ x → d'.serialized_payload.data x = b := by
  have hle := hs.length_le
  have hallocated := hs.allocated (by omega)
  obtain ⟨t, hcopy, hmax, hbytes⟩ : ∃ t, (filled s room b).serialized_payload.copy true
      s.serialized_payload (!s.is_untyped_) = some (.ok true, t) ∧ t.max_size = room ∧
        ∀ x, s.serialized_payload.length ≤ x → t.data x = b := by
    refine ⟨{ (filled s room b).serialized_payload with
      length := s.serialized_payload.length
      encapsulation := s.serialized_payload.encapsulation
      data := Memory.store (fun _ => b) 0
        (s.serialized_payload.data.load 0 s.serialized_payload.length) }, ?_, rfl, fun x hx => ?_⟩
    · simp only [EncapsulatedPayload.copy, copyBytes, filled]
      rw [if_neg (by omega), if_neg (by omega), if_pos ⟨trivial, hallocated, hroom, hle⟩]
    · have hbehind : 0 + (s.serialized_payload.data.load 0 s.serialized_payload.length).length ≤ x := by
        rw [Memory.length_load]
        omega
      have hbyte : Memory.store (fun _ => b) 0
          (s.serialized_payload.data.load 0 s.serialized_payload.length) x = b :=
        Memory.store_outside (Or.inr hbehind)
      exact hbyte
  refine ⟨{ filled s room b with serialized_payload := t }, ?_, hmax, hbytes⟩
  simp only [copy, hcopy, Option.map_some]
  rfl

end Whole

/-- Where only the link of fragment 0 is followed, the fragments are reported. -/
theorem misses_of_past {ch : CacheChange} {S : Nat} (hfirst : ch.first_missing_fragment_ = 0)
    (hpos : 0 < ch.fragment_count_) (hlink : ch.getNextMissingFragment 0 = some S)
    (hpast : ch.fragment_count_ ≤ S) (frag_sns : FragmentNumberSet) :
    ∃ numbers, Misses ch [] frag_sns numbers := by
  have hwalk : Walk ch ch.first_missing_fragment_ [0] := by
    rw [hfirst]
    exact Walk.step hpos hlink (Walk.stop hpast)
  obtain ⟨t, ht⟩ := hwalk.getMissingFragments_returns frag_sns
  exact ⟨{x | t.isSet x = some true}, _, _, t, rfl, ht, fun x => Iff.rfl⟩

/-- Nothing is reported where the call never comes back or leaves the buffer. -/
theorem not_misses {ch : CacheChange} {frag_sns : FragmentNumberSet} {numbers : Set FragmentNumber}
    (hnone : ∀ fuel, ch.getMissingFragments fuel frag_sns = none) :
    ¬ Misses ch [] frag_sns numbers := by
  rintro ⟨fuel, σ, t, hrun, hreport, -⟩
  cases hrun
  rw [Session.resume, hnone] at hreport
  cases hreport

/-- The first link is outside a buffer of less than seven bytes. -/
theorem getMissingFragments_outside {ch : CacheChange} (hfirst : ch.first_missing_fragment_ = 0)
    (hpos : 0 < ch.fragment_count_) (hsmall : ch.serialized_payload.max_size < 7)
    (frag_sns : FragmentNumberSet) (fuel : Nat) :
    ch.getMissingFragments fuel frag_sns = none := by
  have hlink : ch.getNextMissingFragment 0 = none := by
    unfold getNextMissingFragment
    rw [nextFragmentPointer_zero]
    exact if_neg (by omega)
  unfold getMissingFragments
  rw [hfirst]
  cases frag_sns.base (BitVec.ofNat 32 (0 + 1)) with
  | none => rfl
  | some t =>
      cases fuel with
      | zero => rfl
      | succ fuel =>
          have hbody : listFragment ch (0, t) = none := by
            simp only [listFragment, hlink, Option.bind_eq_bind, Option.bind_none]
            cases t.add (BitVec.ofNat 32 (0 + 1)) <;> rfl
          simp [whileM, hpos, hbody]

namespace Whole

open EncapsulatedPayload

variable {Handle Time Params : Type} {s : Whole Handle Time Params} {payload : SerializedPayload}
  {fs : Nat}

/-! ## When copies go on like their original -/

/-- The original reports its fragments, but with a buffer of the size of the payload the first link
of the copy is not in the buffer. -/
theorem not_continued_of_ends (hs : s.serialized_payload.Sound) {room : Nat}
    (hpos : 0 < s.serialized_payload.length) (hsmall : s.serialized_payload.length < 7)
    (hmissing : s.core.first_missing_fragment_ < s.core.fragment_count_)
    (hends : EndsAtOnce s.core s.serialized_payload.length room fs) : ¬ s.ContinuedByCopies := by
  intro hcopies
  obtain ⟨hfirst, S, hlink, hpast⟩ := hends.link hmissing
  have hcount : 0 < s.core.fragment_count_ := by omega
  obtain ⟨d', hcopy, hroom, -⟩ := copy_filled s hs 0 hpos (Nat.le_refl _)
  obtain ⟨hcore, -⟩ := copy_core hcopy
  have hfirst' : d'.core.first_missing_fragment_ = 0 := by rw [hcore, ← hfirst]
  have hcount' : 0 < d'.core.fragment_count_ := by
    rw [hcore]
    exact hcount
  have hroom' : d'.core.serialized_payload.max_size < 7 := by
    rw [core, hroom]
    exact hsmall
  obtain ⟨numbers, hreport⟩ := misses_of_past hfirst hcount hlink hpast FragmentNumberSet.fresh
  exact not_misses (getMissingFragments_outside hfirst' hcount' hroom' FragmentNumberSet.fresh)
    (((hcopies true _ d' hcopy).missing [] FragmentNumberSet.fresh numbers).2 hreport)

/-- The original never comes back, but one byte behind the payload sends the copy past the end. -/
theorem not_continued_of_loops (hs : s.serialized_payload.Sound) {room : Nat}
    (hpos : 0 < s.serialized_payload.length) (hsmall : s.serialized_payload.length < 7)
    (hcount : 0 < s.core.fragment_count_) (hfew : s.core.fragment_count_ < 7)
    (hloops : LoopsAtOnce s.core s.serialized_payload.length room fs) :
    ¬ s.ContinuedByCopies := by
  intro hcopies
  obtain ⟨d', hcopy, hroom, hfilled⟩ := copy_filled s hs 255 hpos (Nat.le_of_lt hsmall)
  obtain ⟨hcore, -⟩ := copy_core hcopy
  have hfirst' : d'.core.first_missing_fragment_ = 0 := by rw [hcore, ← hloops.first]
  have hcount' : d'.core.fragment_count_ = s.core.fragment_count_ := by rw [hcore]
  have hlink : d'.core.getNextMissingFragment 0 =
      some (d'.core.serialized_payload.data.word32 3) := by
    have h7 : 7 ≤ d'.core.serialized_payload.max_size := Nat.le_of_eq hroom.symm
    rw [getNextMissingFragment_eq h7, nextFragmentPointer_zero]
  have hpast : d'.core.fragment_count_ ≤ d'.core.serialized_payload.data.word32 3 := by
    have hbyte : d'.core.serialized_payload.data (3 + 3) = 255 := hfilled 6 (by omega)
    have hvalue : (255 : UInt8).toNat = 255 := rfl
    rw [hcount', Memory.word32, hbyte, hvalue]
    omega
  obtain ⟨numbers, hreport⟩ := misses_of_past hfirst' (by rw [hcount']; exact hcount) hlink hpast
    FragmentNumberSet.fresh
  exact not_misses (fun fuel => hloops.getMissingFragments hcount FragmentNumberSet.fresh)
    (((hcopies true _ d' hcopy).missing [] FragmentNumberSet.fresh numbers).1 hreport)

/-- With a fragment missing, some copy of a short payload does not go on like it. -/
theorem not_continuedByCopies (hs : s.serialized_payload.Sound) (hfs : fs < 2 ^ 16)
    (hreached : Reached s.core payload fs) (hsmall : payload.length < 7)
    (hmissing : s.core.first_missing_fragment_ < s.core.fragment_count_) :
    ¬ s.ContinuedByCopies := by
  obtain ⟨fuel, calls, σ, hrun, hσ⟩ := hreached
  have hsized : Sized s.core payload.length payload.max_size fs := hσ ▸ Session.run_sized hrun
  have hlength : s.serialized_payload.length = payload.length := hsized.length
  have hfits : payload.length ≤ payload.max_size := by
    rw [← hlength, ← hsized.max_size]
    exact hs.length_le
  have hcount := hsized.count
  have hfew : fragmentCount payload.length fs ≤ payload.length := fragmentCount_le (by omega) hfs
  have hcases := Session.run_small_cases hsmall hfits hfs (by omega) hrun
  rw [hσ, ← hlength] at hcases
  rcases hcases with hends | hloops
  · exact not_continued_of_ends hs (by omega) (by omega) hmissing hends
  · exact not_continued_of_loops hs (by omega) (by omega) (by omega) (by omega) hloops

/-- Copies of a change go on like it exactly where its payload has all the links, or nothing is
missing. -/
theorem continuedByCopies_iff (hs : s.serialized_payload.Sound)
    (hlen : payload.length < 2 ^ 32) (hfs : fs < 2 ^ 16) (hreached : Reached s.core payload fs) :
    s.ContinuedByCopies ↔
      7 ≤ s.serialized_payload.length ∨ s.core.isFullyAssembled = true := by
  have hsized : Sized s.core payload.length payload.max_size fs := by
    obtain ⟨fuel, calls, σ, hrun, hσ⟩ := hreached
    exact hσ ▸ Session.run_sized hrun
  have hlength : s.serialized_payload.length = payload.length := hsized.length
  have hassembled : s.core.isFullyAssembled = true ↔
      s.core.fragment_count_ ≤ s.core.first_missing_fragment_ := by
    simp [isFullyAssembled]
  rw [hlength, hassembled]
  constructor
  · intro hcopies
    by_contra hcond
    exact not_continuedByCopies hs hfs hreached (by omega) (by omega) hcopies
  · intro hcond granted d d' hcopy
    have hfits : payload.length ≤ payload.max_size := by
      rw [← hlength, ← hsized.max_size]
      exact hs.length_le
    exact (copy_twins hsized hfits hcond hcopy).continuesLike hlen hfs

/-- A change whose payload is one missing fragment of `n` bytes, in a buffer of this size. -/
def oneMissing (n room : Nat) : Whole Unit Unit Unit :=
  { zeroChange n with
    serialized_payload :=
      { zeroPayload n with
        max_size := room
        data := Memory.store (fun _ => 0) 3 (Memory.bytes32 1) }
    fragment_size_ := n
    fragment_count_ := 1 }

theorem continuedByCopies_iff_eight :
    (oneMissing 8 8).ContinuedByCopies ↔
      7 ≤ (oneMissing 8 8).serialized_payload.length ∨
        (oneMissing 8 8).core.isFullyAssembled = true := by
  have hreached : Reached (oneMissing 8 8).core (zeros 8).serialized_payload 8 :=
    ⟨2, [], _, rfl, rfl⟩
  exact continuedByCopies_iff ⟨by decide, fun _ => rfl⟩ (by decide) (by decide) hreached

/-- Six bytes in a buffer of seven: the original reports its fragment, the copy in a buffer of six
reads a link that is not in the buffer. -/
theorem copy_of_six :
    ∃ d', (filled (oneMissing 6 7) 6 0).copy true (oneMissing 6 7) = some (.ok true, d') ∧
      (∃ σ, Session.run 2 ⟨6, 7, fun _ => 0⟩ 6 [] = some σ ∧ σ.change = (oneMissing 6 7).core) ∧
      ((oneMissing 6 7).core.getMissingFragments 2 FragmentNumberSet.fresh).isSome = true ∧
      (∀ fuel, d'.core.getMissingFragments fuel FragmentNumberSet.fresh = none) ∧
      ¬ (oneMissing 6 7).ContinuedByCopies := by
  have hsound : (oneMissing 6 7).serialized_payload.Sound := ⟨by decide, fun _ => rfl⟩
  obtain ⟨d', hcopy, hroom, -⟩ := copy_filled (oneMissing 6 7) hsound 0 (show 0 < 6 by decide)
    (Nat.le_refl 6)
  obtain ⟨hcore, -⟩ := copy_core hcopy
  have hfirst : d'.core.first_missing_fragment_ = 0 := by rw [hcore]; rfl
  have hcount : d'.core.fragment_count_ = 1 := by rw [hcore]; rfl
  have hsmall : d'.core.serialized_payload.max_size < 7 := by
    rw [core, hroom]
    decide
  refine ⟨d', hcopy, ⟨_, rfl, rfl⟩, by decide,
    getMissingFragments_outside hfirst (by omega) hsmall FragmentNumberSet.fresh, ?_⟩
  have hreached : Reached (oneMissing 6 7).core ⟨6, 7, fun _ => 0⟩ 6 := ⟨2, [], _, rfl, rfl⟩
  exact not_continuedByCopies hsound (by decide) hreached (by decide) (by decide)

end Whole
end CacheChange

end Rtps
end Mozi
