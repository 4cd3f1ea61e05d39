import Mozi.Rtps.Storage.EndsAtOnce

/-!
# SmallLists — the states of a payload of less than seven bytes

Such a payload has at most six fragments, and building the list leaves fragment 0 linked past the
end or to itself.  In the second case no call that follows a link comes back, so a state that is
reached is the one that `setFragmentSize` left.
-/

namespace Mozi
namespace Rtps

open Foundation DataStructure

namespace CacheChange

variable {ch : CacheChange} {fuel len room fs : Nat}

/-- Nothing is received, and the first missing fragment is linked to itself. -/
structure LoopsAtOnce (ch : CacheChange) (len room fs : Nat) : Prop where
  sized : Sized ch len room fs
  first : ch.first_missing_fragment_ = 0
  link : ch.getNextMissingFragment 0 = some 0

/-- The head can be skipped only if no link is followed. -/
theorem LoopsAtOnce.skipReceived (h : LoopsAtOnce ch len room fs) {last : Nat} {q : Nat × Bool}
    (hrun : ch.skipReceived fuel 0 last false = some q) : q = (0, false) := by
  have hend := whileM_invariant (I := fun p : Nat × Bool => p.1 = 0 ∧ (0 < last ∨ p = (0, false)))
    ?_ ⟨rfl, Or.inr rfl⟩ hrun
  · obtain ⟨⟨hzero, hcases⟩, hstop⟩ := hend
    rcases hcases with hlast | heq
    · rw [hzero] at hstop
      exact absurd hlast (by simpa using hstop)
    · exact heq
  · rintro p q ⟨hp, -⟩ hcond hstep
    rw [hp, h.link] at hstep
    cases hstep
    exact ⟨rfl, Or.inl (by simpa [hp] using hcond)⟩

/-- The search for the link before the fragments goes round for ever. -/
theorem LoopsAtOnce.search (h : LoopsAtOnce ch len room fs) {initial last : Nat}
    (hpos : 0 < initial) :
    whileM (fun p : Search => !p.done && decide (p.current_frag < initial))
      (searchStep fuel initial last) fuel ⟨0, false, false, ch⟩ = none := by
  refine whileM_diverges (J := fun p : Search => p = ⟨0, false, false, ch⟩) ?_ ?_ rfl fuel
  · rintro p rfl
    simpa using hpos
  · rintro p q rfl hstep
    simp only [searchStep, h.link, Option.bind_some] at hstep
    rw [if_neg (by omega)] at hstep
    cases hstep
    rfl

/-- A search in such a list never comes back, a call at its head only if it follows no link. -/
theorem LoopsAtOnce.received (h : LoopsAtOnce ch len room fs) {initial num : Nat}
    {r : Bool × CacheChange} (hrun : ch.receivedFragments fuel initial num = some r) :
    r = (false, ch) := by
  unfold receivedFragments at hrun
  simp only at hrun
  by_cases hguard : ch.fragment_size_ > 0 ∧ initial < ch.fragment_count_
  · rw [if_pos hguard] at hrun
    generalize (if u32 (initial + num) > ch.fragment_count_ then ch.fragment_count_
      else u32 (initial + num)) = last at hrun
    rw [h.first] at hrun
    split_ifs at hrun with hhead
    · rcases Option.map_eq_some_iff.1 hrun with ⟨q, hq, rfl⟩
      rw [h.skipReceived hq, ← h.first]
    · rcases Option.map_eq_some_iff.1 hrun with ⟨q, hq, -⟩
      rw [h.search (Nat.lt_of_not_le hhead)] at hq
      cases hq
  · rw [if_neg hguard] at hrun
    cases hrun
    rfl

/-- A call that comes back changes nothing. -/
theorem LoopsAtOnce.addFragments (h : LoopsAtOnce ch len room fs) {call : Call}
    {r : Bool × CacheChange} (hrun : ch.addFragments fuel call = some r) : r.2 = ch := by
  unfold CacheChange.addFragments at hrun
  cases haccepted : ch.acceptedLength call with
  | none =>
      rw [haccepted] at hrun
      cases hrun
      rfl
  | some n =>
      rw [haccepted] at hrun
      rcases Option.bind_eq_some_iff.1 hrun with ⟨q, hq, hstore⟩
      rw [h.received hq] at hstore
      cases hstore
      rfl

/-- Asking for the missing fragments never comes back either. -/
theorem LoopsAtOnce.getMissingFragments (h : LoopsAtOnce ch len room fs)
    (hpos : 0 < ch.fragment_count_) (frag_sns : FragmentNumberSet) :
    ch.getMissingFragments fuel frag_sns = none := by
  unfold CacheChange.getMissingFragments
  rw [h.first]
  cases frag_sns.base (BitVec.ofNat 32 (0 + 1)) with
  | none => rfl
  | some t =>
      simp only [Option.bind_eq_bind, Option.bind_some]
      rw [whileM_diverges (J := fun p : Nat × FragmentNumberSet => p.1 = 0) ?_ ?_ rfl fuel]
      · rfl
      · rintro p hp
        simpa [hp] using hpos
      · rintro p q hp hstep
        simp only [listFragment, hp, h.link, Option.bind_eq_bind, Option.bind_eq_some_iff] at hstep
        obtain ⟨r, -, next, hnext, hq⟩ := hstep
        cases hnext
        cases hq
        rfl

end CacheChange

namespace Session

open CacheChange

variable {payload : SerializedPayload} {fs fuel : Nat} {calls : List Call} {σ : Session}

/-- The numbers in every state of a run, for every fragment size. -/
theorem run_sized (h : Session.run fuel payload fs calls = some σ) :
    Sized σ.change payload.length payload.max_size fs := by
  rcases Option.bind_eq_some_iff.1 h with ⟨τ, hstart, hexec⟩
  refine exec_sized ?_ hexec
  unfold Session.start at hstart
  rcases Option.map_eq_some_iff.1 hstart with ⟨ch, hset, rfl⟩
  rcases Nat.eq_zero_or_pos fs with rfl | hfs
  · -- Without a fragment size there is no fragment.
    cases hset
    exact ⟨rfl, rfl, rfl, by simp [fragmentCount]⟩
  · exact setFragmentSize_sized hfs hset

theorem run_small_cases (hsmall : payload.length < 7) (hfits : payload.length ≤ payload.max_size)
    (hfs' : fs < 2 ^ 16) (hpos : 0 < fragmentCount payload.length fs)
    (h : Session.run fuel payload fs calls = some σ) :
    EndsAtOnce σ.change payload.length payload.max_size fs ∨
      LoopsAtOnce σ.change payload.length payload.max_size fs := by
  have hfs : 0 < fs := by
    by_contra hzero
    obtain rfl : fs = 0 := by omega
    simp [fragmentCount] at hpos
  have hlen : payload.length < 2 ^ 32 := by omega
  obtain ⟨m, hm⟩ : ∃ m, fragmentCount payload.length fs = m + 1 :=
    ⟨fragmentCount payload.length fs - 1, by omega⟩
  have hfew := fragmentCount_le hlen hfs'
  rcases Option.bind_eq_some_iff.1 h with ⟨σ₀, hstart, hexec⟩
  have h7 : 7 ≤ payload.max_size := by
    by_contra hless
    rw [start_eq fuel payload hfs, linkFragments_small (by simpa using hless) hpos] at hstart
    cases hstart
  obtain ⟨fuel', τ, hstart', hs, hfirst, -, hlink⟩ :=
    start_first payload hfs hpos h7 (by omega)
  obtain rfl := start_unique hstart hstart'
  rw [hm, firstLink_small (by omega)] at hlink
  split_ifs at hlink with hslot
  · left
    have hends : EndsAtOnce σ₀.change payload.length payload.max_size fs :=
      ⟨hs, Or.inl ⟨hfirst, m + 1, hlink, by rw [hs.count, hm]⟩⟩
    obtain ⟨τ, hτ, hkept⟩ := exec_endsAtOnce hends hlen hfits hfs hfs' calls
    rw [exec_unique hexec hτ]
    exact hkept
  · right
    refine (receiver fuel).exec_preserves
      (I := fun σ => LoopsAtOnce σ.change payload.length payload.max_size fs)
      (fun σ call τ hσ hstep => ?_) ⟨hs, hfirst, hlink⟩ hexec
    rw [receiver_step, Session.step] at hstep
    rcases Option.map_eq_some_iff.1 hstep with ⟨r, hr, rfl⟩
    simp only [hσ.addFragments hr]
    exact hσ

end Session

end Rtps
end Mozi
