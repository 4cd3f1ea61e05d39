import Mozi.Foundation.Lockstep
import Mozi.Rtps.Storage.FragmentRange
import Mozi.Rtps.Storage.MissingFragments

/-!
# Twins — two changes with the same numbers and the same payload

A copy of a change has its numbers and the bytes of its payload; behind the payload the buffers
differ.  Where no link reaches behind the payload, or no link is read at all, the two changes go
through further calls in lockstep.
-/

namespace Mozi
namespace Rtps

open Foundation DataStructure

namespace CacheChange

variable {c s : CacheChange} {fuel len fs : Nat}

/-- The same numbers and the same payload, and links that are in the payload or not needed. -/
structure Twins (len fs : Nat) (c s : CacheChange) : Prop where
  copied : Sized c len c.serialized_payload.max_size fs
  original : Sized s len s.serialized_payload.max_size fs
  copied_fits : len ≤ c.serialized_payload.max_size
  original_fits : len ≤ s.serialized_payload.max_size
  first : c.first_missing_fragment_ = s.first_missing_fragment_
  bytes : ∀ x < len, c.serialized_payload.data x = s.serialized_payload.data x
  readable : 7 ≤ len ∨ s.fragment_count_ ≤ s.first_missing_fragment_

theorem Twins.size_eq (h : Twins len fs c s) : c.fragment_size_ = s.fragment_size_ :=
  h.copied.size.trans h.original.size.symm

theorem Twins.count_eq (h : Twins len fs c s) : c.fragment_count_ = s.fragment_count_ :=
  h.copied.count.trans h.original.count.symm

theorem Twins.length_eq (h : Twins len fs c s) :
    c.serialized_payload.length = s.serialized_payload.length :=
  h.copied.length.trans h.original.length.symm

/-- The same bytes are written to both buffers. -/
theorem Twins.store (h : Twins len fs c s) (offset : Nat) (bs : List UInt8) :
    Twins len fs
      { c with
        serialized_payload :=
          { c.serialized_payload with data := c.serialized_payload.data.store offset bs } }
      { s with
        serialized_payload :=
          { s.serialized_payload with data := s.serialized_payload.data.store offset bs } } where
  copied := ⟨h.copied.length, rfl, h.copied.size, h.copied.count⟩
  original := ⟨h.original.length, rfl, h.original.size, h.original.count⟩
  copied_fits := h.copied_fits
  original_fits := h.original_fits
  first := h.first
  bytes := by
    intro x hx
    simp only [Memory.store, h.bytes x hx]
  readable := h.readable

theorem Twins.setFirst (h : Twins len fs c s) (h7 : 7 ≤ len) (first : Nat) :
    Twins len fs { c with first_missing_fragment_ := first }
      { s with first_missing_fragment_ := first } where
  copied := ⟨h.copied.length, rfl, h.copied.size, h.copied.count⟩
  original := ⟨h.original.length, rfl, h.original.size, h.original.count⟩
  copied_fits := h.copied_fits
  original_fits := h.original_fits
  first := rfl
  bytes := h.bytes
  readable := Or.inl h7

/-! ## Links -/

theorem Twins.getLink (h : Twins len fs c s) (h7 : 7 ≤ len) (i : Nat) :
    c.getNextMissingFragment i = s.getNextMissingFragment i := by
  have hslot := s.nextFragmentPointer_le i
  have hpointer : c.nextFragmentPointer i = s.nextFragmentPointer i := by
    rw [nextFragmentPointer, nextFragmentPointer, h.size_eq]
  have hword : c.serialized_payload.data.word32 (s.nextFragmentPointer i) =
      s.serialized_payload.data.word32 (s.nextFragmentPointer i) :=
    Memory.word32_congr fun k hk => h.bytes _ (by omega)
  rw [getNextMissingFragment_eq (Nat.le_trans h7 h.copied_fits),
    getNextMissingFragment_eq (Nat.le_trans h7 h.original_fits), hpointer, hword]

theorem Twins.setLink (h : Twins len fs c s) (h7 : 7 ≤ len) (i next : Nat) :
    Option.Rel (Twins len fs) (c.setNextMissingFragment i next)
      (s.setNextMissingFragment i next) := by
  have hpointer : c.nextFragmentPointer i = s.nextFragmentPointer i := by
    rw [nextFragmentPointer, nextFragmentPointer, h.size_eq]
  rw [setNextMissingFragment_eq (Nat.le_trans h7 h.copied_fits),
    setNextMissingFragment_eq (Nat.le_trans h7 h.original_fits), hpointer]
  exact Option.Rel.some (h.store (s.nextFragmentPointer i) (Memory.bytes32 next))

theorem Twins.skipReceived_eq (h : Twins len fs c s) (h7 : 7 ≤ len) (index last : Nat)
    (changed : Bool) :
    c.skipReceived fuel index last changed = s.skipReceived fuel index last changed := by
  unfold skipReceived
  simp only [h.getLink h7]

/-! ## `receivedFragments` -/

/-- Two searches at the same place of their lists. -/
structure SearchTwins (len fs : Nat) (p q : Search) : Prop where
  current : p.current_frag = q.current_frag
  changed : p.at_least_one_changed = q.at_least_one_changed
  done : p.done = q.done
  change : Twins len fs p.change q.change

theorem SearchTwins.step {initial last : Nat} {p q : Search} (h : SearchTwins len fs p q)
    (h7 : 7 ≤ len) :
    Option.Rel (SearchTwins len fs) (searchStep fuel initial last p)
      (searchStep fuel initial last q) := by
  obtain ⟨hcurrent, hchanged, hdone, hchange⟩ := h
  unfold searchStep
  rw [hchange.getLink h7, hcurrent, hchanged]
  cases q.change.getNextMissingFragment q.current_frag with
  | none => exact Option.Rel.none
  | some next =>
      simp only [Option.bind_some]
      split_ifs with hnext
      · rw [hchange.skipReceived_eq h7]
        cases q.change.skipReceived fuel next last q.at_least_one_changed with
        | none => exact Option.Rel.none
        | some r =>
            simp only [Option.bind_some]
            split_ifs with hr
            · refine Lockstep.map (hchange.setLink h7 q.current_frag r.1) fun c' s' hlinked => ?_
              exact ⟨rfl, rfl, rfl, hlinked⟩
            · exact Option.Rel.some ⟨rfl, rfl, rfl, hchange⟩
      · exact Option.Rel.some ⟨rfl, rfl, hdone, hchange⟩

/-- The same result, and twins again. -/
def ResultTwins (len fs : Nat) (r r' : Bool × CacheChange) : Prop :=
  r.1 = r'.1 ∧ Twins len fs r.2 r'.2

theorem Twins.received_links (h : Twins len fs c s) (h7 : 7 ≤ len) (initial num : Nat) :
    Option.Rel (ResultTwins len fs) (c.receivedFragments fuel initial num)
      (s.receivedFragments fuel initial num) := by
  unfold receivedFragments
  simp only [h.size_eq, h.count_eq, h.first, h.skipReceived_eq h7]
  generalize (if u32 (initial + num) > s.fragment_count_ then s.fragment_count_
    else u32 (initial + num)) = last
  split_ifs with hguard hhead
  · -- The head of the list moves.
    cases s.skipReceived fuel s.first_missing_fragment_ last false with
    | none => exact Option.Rel.none
    | some r =>
        have hfirst := h.setFirst h7 r.1
        rw [h.size_eq, h.count_eq] at hfirst
        exact Option.Rel.some ⟨rfl, hfirst⟩
  · -- A link in the list is changed.
    have hsearch : Option.Rel (SearchTwins len fs)
        (whileM (fun p : Search => !p.done && decide (p.current_frag < initial))
          (searchStep fuel initial last) fuel ⟨s.first_missing_fragment_, false, false, c⟩)
        (whileM (fun p : Search => !p.done && decide (p.current_frag < initial))
          (searchStep fuel initial last) fuel ⟨s.first_missing_fragment_, false, false, s⟩) :=
      Lockstep.whileM (fun p q hpq => by simp only [hpq.done, hpq.current])
        (fun p q hpq _ => hpq.step h7) fuel ⟨rfl, rfl, rfl, h⟩
    exact Lockstep.map hsearch fun p q hpq => ⟨hpq.changed, hpq.change⟩
  · exact Option.Rel.some ⟨rfl, h⟩

/-- Where nothing is missing no link is read, and nothing changes. -/
theorem receivedFragments_assembled {ch : CacheChange}
    (h : ch.fragment_count_ ≤ ch.first_missing_fragment_) (fuel initial num : Nat) :
    ch.receivedFragments fuel initial num =
      if ch.fragment_size_ > 0 ∧ initial < ch.fragment_count_ ∧ fuel = 0 then none
      else some (false, ch) := by
  unfold receivedFragments
  by_cases hguard : ch.fragment_size_ > 0 ∧ initial < ch.fragment_count_
  · simp only [if_pos hguard, if_pos (show initial ≤ ch.first_missing_fragment_ by omega)]
    generalize hlast : (if u32 (initial + num) > ch.fragment_count_ then ch.fragment_count_
      else u32 (initial + num)) = last
    have hle : last ≤ ch.first_missing_fragment_ := by
      rw [← hlast]
      split_ifs <;> omega
    cases fuel with
    | zero =>
        rw [if_pos ⟨hguard.1, hguard.2, rfl⟩]
        rfl
    | succ fuel =>
        rw [if_neg (by simp), skipReceived_past hle]
        rfl
  · rw [if_neg hguard, if_neg fun hall => hguard ⟨hall.1, hall.2.1⟩]

theorem Twins.received (h : Twins len fs c s) (fuel initial num : Nat) :
    Option.Rel (ResultTwins len fs) (c.receivedFragments fuel initial num)
      (s.receivedFragments fuel initial num) := by
  rcases h.readable with h7 | hdone
  · exact h.received_links h7 initial num
  · have hdone' : c.fragment_count_ ≤ c.first_missing_fragment_ := by
      rw [h.count_eq, h.first]
      exact hdone
    rw [receivedFragments_assembled hdone', receivedFragments_assembled hdone, h.size_eq,
      h.count_eq]
    split_ifs
    · exact Option.Rel.none
    · exact Option.Rel.some ⟨rfl, h⟩

/-! ## `addFragments` -/

variable {call : Call} {n : Nat}

theorem Twins.acceptedLength_eq (h : Twins len fs c s) (call : Call) :
    c.acceptedLength call = s.acceptedLength call := by
  unfold acceptedLength
  simp only [h.size_eq, h.count_eq, h.length_eq]

theorem Twins.isFullyAssembled_eq (h : Twins len fs c s) :
    c.isFullyAssembled = s.isFullyAssembled := by
  unfold isFullyAssembled
  rw [h.first, h.count_eq]

/-- The `memcpy` of an accepted call stays in the payload of both. -/
theorem Twins.stored {r r' : Bool × CacheChange} (h : ResultTwins len fs r r')
    (hrange : r'.1 = true →
      u32 (sub32 call.fragment_starting_num 1 * r'.2.fragment_size_) + n ≤ len) :
    Option.Rel (ResultTwins len fs) (storeFragments call n r) (storeFragments call n r') := by
  obtain ⟨hflag, htwins⟩ := h
  unfold storeFragments
  rw [hflag, htwins.size_eq]
  split_ifs with hcopies
  · have hend := hrange hcopies
    have hroom := htwins.copied_fits
    have hroom' := htwins.original_fits
    unfold copyIn
    rw [if_pos (by omega), if_pos (by omega)]
    have hstore := htwins.store (u32 (sub32 call.fragment_starting_num 1 * r'.2.fragment_size_))
      (call.incoming_data.data.load 0 n)
    exact Option.Rel.some ⟨hstore.isFullyAssembled_eq, hstore⟩
  · exact Option.Rel.some ⟨htwins.isFullyAssembled_eq, htwins⟩

theorem Twins.addFragments (h : Twins len fs c s) (hlen : len < 2 ^ 32) (hfs : fs < 2 ^ 16)
    (call : Call) :
    Option.Rel (ResultTwins len fs) (c.addFragments fuel call) (s.addFragments fuel call) := by
  unfold CacheChange.addFragments
  rw [h.acceptedLength_eq]
  cases haccepted : s.acceptedLength call with
  | none => exact Option.Rel.some ⟨rfl, h⟩
  | some n =>
      simp only
      have hreceived := h.received fuel (sub32 call.fragment_starting_num 1)
        call.fragments_in_submessage
      rcases Lockstep.outcomes hreceived with ⟨hc, hs⟩ | ⟨r, r', hc, hs, hresult⟩
      · rw [hc, hs]
        exact Option.Rel.none
      · rw [hc, hs]
        refine Twins.stored hresult fun hcopies => ?_
        obtain ⟨b, ch⟩ := r'
        obtain rfl : b = true := hcopies
        have hpos : 0 < fs := by
          -- Without a fragment size there is no fragment to mark.
          have hbelow := (receivedFragments_marked hs).1
          rw [h.original.count] at hbelow
          by_contra hzero
          obtain rfl : fs = 0 := by omega
          simp [fragmentCount] at hbelow
        have hrange : Copies fuel s call
            (u32 (sub32 call.fragment_starting_num 1 * ch.fragment_size_)) n :=
          ⟨haccepted, ch, hs, rfl⟩
        have hend := (hrange.range h.original hlen hpos hfs).end_eq
        simp only
        omega

/-! ## Missing fragments -/

theorem Twins.getMissingFragments_eq (h : Twins len fs c s) (frag_sns : FragmentNumberSet) :
    c.getMissingFragments fuel frag_sns = s.getMissingFragments fuel frag_sns := by
  unfold getMissingFragments
  rw [h.first, h.count_eq]
  rcases h.readable with h7 | hdone
  · have hbody : listFragment c = listFragment s := by
      funext p
      simp only [listFragment, h.getLink h7]
    rw [hbody]
  · -- The loop ends before its first round.
    cases frag_sns.base (BitVec.ofNat 32 (s.first_missing_fragment_ + 1)) with
    | none => rfl
    | some t =>
        cases fuel with
        | zero => rfl
        | succ fuel =>
            simp only [Option.bind_eq_bind, Option.bind_some]
            rw [whileM_stop (by simpa using hdone), whileM_stop (by simpa using hdone)]

end CacheChange

namespace Session

open CacheChange

variable {σ τ : Session} {fuel len fs : Nat}

/-- Two receivers that have returned the same. -/
structure SessionTwins (len fs : Nat) (σ τ : Session) : Prop where
  change : Twins len fs σ.change τ.change
  returned : σ.returned = τ.returned

theorem SessionTwins.step (h : SessionTwins len fs σ τ) (hlen : len < 2 ^ 32) (hfs : fs < 2 ^ 16)
    (call : Call) :
    Option.Rel (SessionTwins len fs) (Session.step fuel σ call) (Session.step fuel τ call) :=
  Lockstep.map (h.change.addFragments hlen hfs call) fun r r' hresult =>
    { change := hresult.2
      returned := by rw [h.returned, hresult.1] }

/-- Twins are twins after every sequence of calls that is applied to both. -/
theorem SessionTwins.exec (h : SessionTwins len fs σ τ) (hlen : len < 2 ^ 32) (hfs : fs < 2 ^ 16)
    (calls : List Call) :
    Option.Rel (SessionTwins len fs) ((receiver fuel).exec σ calls)
      ((receiver fuel).exec τ calls) :=
  Lockstep.exec (fun _ _ call hστ => hστ.step hlen hfs call) calls h

end Session

end Rtps
end Mozi
