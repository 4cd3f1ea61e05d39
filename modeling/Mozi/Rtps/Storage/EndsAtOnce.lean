import Mozi.Rtps.Storage.FragmentRange
import Mozi.Rtps.Storage.MissingFragments

/-!
# EndsAtOnce — lists whose first link leads past the end

Where the link of fragment 0 leads past the last fragment, no call ever follows a second link: the
first missing fragment is 0 until a call brings it, and past the end from then on.  All calls
return, and every index that is visited is followed by a larger one.
-/

namespace Mozi
namespace Rtps

open Foundation DataStructure

namespace CacheChange

variable {ch : CacheChange} {fuel i j len room fs : Nat}

/-! ## Visits -/

/-- The indices that `getMissingFragments` and `addFragments` follow links from. -/
inductive Visits (ch : CacheChange) : Nat → Prop where
  | first : Visits ch ch.first_missing_fragment_
  | next {i j : Nat} :
      Visits ch i → i < ch.fragment_count_ → ch.getNextMissingFragment i = some j → Visits ch j

/-- Until the end is reached, every visited index is followed by a larger one. -/
def LinksIncrease (ch : CacheChange) : Prop :=
  ∀ i, Visits ch i → i < ch.fragment_count_ → ∃ j, ch.getNextMissingFragment i = some j ∧ i < j

theorem Visits.of_first (h : ch.first_missing_fragment_ = i) : Visits ch i := by
  rw [← h]
  exact Visits.first

theorem LinksIncrease.lt (h : LinksIncrease ch) (hi : Visits ch i)
    (hlt : i < ch.fragment_count_) (hnext : ch.getNextMissingFragment i = some j) : i < j := by
  obtain ⟨j', hj, hij⟩ := h i hi hlt
  rw [hnext] at hj
  cases hj
  exact hij

theorem LinksIncrease.walk (h : LinksIncrease ch) (hi : Visits ch i) : ∃ l, Walk ch i l := by
  induction hm : ch.fragment_count_ - i using Nat.strongRecOn generalizing i with
  | _ m ih =>
      rcases Nat.lt_or_ge i ch.fragment_count_ with hlt | hge
      · obtain ⟨j, hnext, hij⟩ := h i hi hlt
        obtain ⟨l, hl⟩ := ih (ch.fragment_count_ - j) (by omega) (Visits.next hi hlt hnext) rfl
        exact ⟨i :: l, Walk.step hlt hnext hl⟩
      · exact ⟨[], Walk.stop hge⟩

theorem LinksIncrease.getMissingFragments_returns (h : LinksIncrease ch)
    (frag_sns : FragmentNumberSet) :
    ∃ fuel t, ch.getMissingFragments fuel frag_sns = some t := by
  obtain ⟨l, hl⟩ := h.walk Visits.first
  obtain ⟨t, ht⟩ := hl.getMissingFragments_returns frag_sns
  exact ⟨l.length + 1, t, ht⟩

/-! ## One link -/

/-- Nothing is received and the only link leads past the end, or nothing is missing. -/
structure EndsAtOnce (ch : CacheChange) (len room fs : Nat) : Prop where
  sized : Sized ch len room fs
  first : (ch.first_missing_fragment_ = 0 ∧
      ∃ S, ch.getNextMissingFragment 0 = some S ∧ ch.fragment_count_ ≤ S) ∨
    ch.fragment_count_ ≤ ch.first_missing_fragment_

/-- The link of a first missing fragment. -/
theorem EndsAtOnce.link (h : EndsAtOnce ch len room fs)
    (hlt : ch.first_missing_fragment_ < ch.fragment_count_) :
    ch.first_missing_fragment_ = 0 ∧
      ∃ S, ch.getNextMissingFragment 0 = some S ∧ ch.fragment_count_ ≤ S := by
  rcases h.first with hfirst | hdone
  · exact hfirst
  · omega

theorem EndsAtOnce.linksIncrease (h : EndsAtOnce ch len room fs) : LinksIncrease ch := by
  -- Only the first missing fragment is visited before the end.
  have hvisits : ∀ i, Visits ch i →
      i = ch.first_missing_fragment_ ∨ ch.fragment_count_ ≤ i := by
    intro i hi
    induction hi with
    | first =>
        exact Or.inl rfl
    | @next i j _ hlt hnext ih =>
        rcases ih with rfl | hge
        · obtain ⟨hzero, S, hS, hpast⟩ := h.link hlt
          rw [hzero, hS] at hnext
          cases hnext
          exact Or.inr hpast
        · omega
  intro i hi hlt
  rcases hvisits i hi with rfl | hge
  · obtain ⟨hzero, S, hS, hpast⟩ := h.link hlt
    exact ⟨S, by rw [hzero]; exact hS, by omega⟩
  · omega

/-- A search whose first link leads past the range changes nothing. -/
theorem searchStep_past {initial last : Nat} (hlink : ch.getNextMissingFragment 0 = some j)
    (hin : initial ≤ j) (hpast : last ≤ j) :
    searchStep (fuel + 1) initial last ⟨0, false, false, ch⟩ = some ⟨0, false, true, ch⟩ := by
  simp only [searchStep, hlink, Option.bind_some]
  rw [if_pos hin, skipReceived_past hpast]
  rfl

/-- The head of the list moves past the end, or nothing changes. -/
theorem EndsAtOnce.received (h : EndsAtOnce ch len room fs) (initial num fuel : Nat) :
    ch.receivedFragments (fuel + 2) initial num = some (false, ch) ∨
      ∃ S, ch.fragment_count_ ≤ S ∧
        ch.receivedFragments (fuel + 2) initial num =
          some (true, { ch with first_missing_fragment_ := S }) := by
  unfold receivedFragments
  simp only
  by_cases hguard : ch.fragment_size_ > 0 ∧ initial < ch.fragment_count_
  · rw [if_pos hguard]
    generalize hlast : (if u32 (initial + num) > ch.fragment_count_ then ch.fragment_count_
      else u32 (initial + num)) = last
    have hle : last ≤ ch.fragment_count_ := by
      rw [← hlast]
      split_ifs <;> omega
    rcases Nat.lt_or_ge ch.first_missing_fragment_ initial with hbehind | hhead
    · -- The search in the list finds the end at once.
      obtain ⟨hzero, S, hS, hpast⟩ := h.link (by omega)
      have hinitial : 0 < initial := by omega
      have hsearch : searchStep (fuel + 2) initial last ⟨0, false, false, ch⟩ =
          some ⟨0, false, true, ch⟩ :=
        searchStep_past hS (by omega) (by omega)
      left
      rw [if_neg (by omega), hzero, whileM_step (by simpa using hinitial) hsearch,
        whileM_stop (by simp)]
      rfl
    · rw [if_pos hhead]
      rcases Nat.lt_or_ge ch.first_missing_fragment_ last with hlt | hge
      · -- One link is followed, to the end.
        obtain ⟨hzero, S, hS, hpast⟩ := h.link (by omega)
        refine Or.inr ⟨S, hpast, ?_⟩
        rw [hzero] at hlt ⊢
        rw [skipReceived_link hlt hS (by omega)]
        rfl
      · left
        rw [skipReceived_past hge]
        rfl
  · rw [if_neg hguard]
    exact Or.inl rfl

/-- Every call returns and leaves such a list. -/
theorem EndsAtOnce.addFragments (h : EndsAtOnce ch len room fs) (hlen : len < 2 ^ 32)
    (hfits : len ≤ room) (hfs : 0 < fs) (hfs' : fs < 2 ^ 16) (call : Call) (fuel : Nat) :
    ∃ r, ch.addFragments (fuel + 2) call = some r ∧ EndsAtOnce r.2 len room fs := by
  cases haccepted : ch.acceptedLength call with
  | none =>
      exact ⟨(false, ch), by simp [CacheChange.addFragments, haccepted], h⟩
  | some n =>
      rcases h.received (sub32 call.fragment_starting_num 1) call.fragments_in_submessage fuel with
        hfalse | ⟨S, hpast, htrue⟩
      · refine ⟨(ch.isFullyAssembled, ch), ?_, h⟩
        simp [CacheChange.addFragments, haccepted, hfalse, storeFragments]
      · have hcopies : Copies (fuel + 2) ch call
            (u32 (sub32 call.fragment_starting_num 1 * ch.fragment_size_)) n :=
          ⟨haccepted, _, htrue, rfl⟩
        have hend := (hcopies.range h.sized hlen hfs hfs').end_eq
        have hroom : u32 (sub32 call.fragment_starting_num 1 * ch.fragment_size_) + n ≤
            ch.serialized_payload.max_size := by
          rw [h.sized.max_size]
          omega
        obtain ⟨ch', hch', hadd⟩ := hcopies.addFragments_eq
        rw [htrue] at hch'
        cases hch'
        rw [hadd, copyIn, if_pos hroom]
        exact ⟨_, rfl, ⟨h.sized.length, h.sized.max_size, h.sized.size, h.sized.count⟩,
          Or.inr hpast⟩

end CacheChange

namespace Session

open CacheChange

variable {payload : SerializedPayload} {fs len room : Nat} {calls : List Call} {σ τ : Session}

theorem exec_endsAtOnce (h : EndsAtOnce σ.change len room fs) (hlen : len < 2 ^ 32)
    (hfits : len ≤ room) (hfs : 0 < fs) (hfs' : fs < 2 ^ 16) (calls : List Call) :
    ∃ τ, (receiver 2).exec σ calls = some τ ∧ EndsAtOnce τ.change len room fs := by
  refine (receiver 2).exec_total (I := fun σ => EndsAtOnce σ.change len room fs)
    (P := fun _ _ => True) ?_ h ((receiver 2).along_of_forall_mem (Q := fun _ => True)
      fun _ _ => trivial)
  rintro σ call hσ -
  obtain ⟨r, hr, hnext⟩ := hσ.addFragments hlen hfits hfs hfs' call 0
  exact ⟨_, by rw [receiver_step, Session.step, hr]; rfl, hnext⟩

/-- The list that `setFragmentSize` builds, with the link of fragment 0. -/
theorem start_first (payload : SerializedPayload) (hfs : 0 < fs)
    (hpos : 0 < fragmentCount payload.length fs) (h7 : 7 ≤ payload.max_size)
    (hcount : fragmentCount payload.length fs + 1 < 2 ^ 32) :
    ∃ fuel σ, start fuel payload fs = some σ ∧
      Sized σ.change payload.length payload.max_size fs ∧
      σ.change.first_missing_fragment_ = 0 ∧ σ.accepted = [] ∧
      σ.change.getNextMissingFragment 0 =
        some (firstLink fs (fragmentCount payload.length fs)) := by
  obtain ⟨fuel, ch, hlink, hsame, -⟩ := linkFragments_returns
    { serialized_payload := payload
      fragment_size_ := fs
      fragment_count_ := fragmentCount payload.length fs
      first_missing_fragment_ := 0 } h7 hcount
  have hfirst := linkFragments_first hpos hcount hlink
  have hstart := start_eq fuel payload hfs
  rw [hlink, Option.map_some] at hstart
  refine ⟨fuel, _, hstart, ⟨hsame.length, hsame.max_size, hsame.size, hsame.count⟩, hsame.first,
    rfl, ?_⟩
  rw [getNextMissingFragment_eq (by rw [hsame.max_size]; exact h7), nextFragmentPointer_zero,
    hfirst]

end Session

end Rtps
end Mozi
