import Mozi.Rtps.Storage.MissingFragments
import Mozi.Rtps.Storage.EndsAtOnce
import Mozi.Rtps.Storage.Reassembly

/-!
# MissingReport — when the list of missing fragments is right

The links of fragments 0 and 4 are the same four bytes, so no list that ends goes through both: from
five fragments on, number 5 is never reported while it is missing.  With fewer the first link leads
to itself or past the end.  Only one fragment is listed as it should be.
-/

namespace Mozi
namespace Rtps

open Foundation DataStructure CacheChange

namespace Session

variable {σ : Session} {f m : Nat}

/-! ## The report -/

/-- The fragment exists, and no accepted call covers it. -/
def Missing (σ : Session) (f : Nat) : Prop :=
  1 ≤ f ∧ f ≤ σ.change.fragment_count_ ∧ ∀ c ∈ σ.accepted, ¬ c.Covers f

/-- `getMissingFragments` returns and leaves the missing fragments of the 256 numbers from the
smallest one on, and an empty set where none is missing. -/
def Reports (σ : Session) : Prop :=
  ∀ frag_sns, ∃ fuel t, σ.change.getMissingFragments fuel frag_sns = some t ∧
    ((∀ f, ¬ σ.Missing f) → ∀ x, t.isSet x = some false) ∧
    ∀ m, IsLeast {f | σ.Missing f} m → ∀ x : FragmentNumber,
      t.isSet x = some true ↔ σ.Missing x.toNat ∧ m ≤ x.toNat ∧ x.toNat ≤ m + 255

theorem reports_past (hpast : σ.change.fragment_count_ ≤ σ.change.first_missing_fragment_)
    (hnone : ∀ f, ¬ σ.Missing f) : Reports σ := by
  intro frag_sns
  obtain ⟨t, ht, hempty⟩ := getMissingFragments_past hpast 0 frag_sns
  refine ⟨1, t, ht, fun _ => hempty, ?_⟩
  intro m hm
  exact absurd hm.1 (hnone m)

/-- One fragment that is missing is reported. -/
theorem reports_single (hcount : σ.change.fragment_count_ = 1)
    (hfirst : σ.change.first_missing_fragment_ = 0)
    (hlink : σ.change.getNextMissingFragment 0 = some 1)
    (hnone : ∀ c ∈ σ.accepted, ¬ c.Covers 1) : Reports σ := by
  have hmissing : ∀ f, σ.Missing f ↔ f = 1 := by
    intro f
    constructor
    · rintro ⟨hpos, hle, -⟩
      omega
    · rintro rfl
      exact ⟨Nat.le_refl 1, by omega, hnone⟩
  have hwalk : Walk σ.change 0 [0] :=
    Walk.step (by omega) hlink (Walk.stop (by omega))
  intro frag_sns
  obtain ⟨t, ht⟩ := (show Walk σ.change σ.change.first_missing_fragment_ [0] by
    rwa [hfirst]).getMissingFragments_returns frag_sns
  obtain ⟨l, hl, hset⟩ := getMissingFragments_walk (by omega) ht
  rw [hfirst] at hl
  obtain rfl := hl.unique hwalk
  refine ⟨_, t, ht, ?_, ?_⟩
  · intro hall
    exact absurd ((hmissing 1).2 rfl) (hall 1)
  · intro m hm x
    obtain rfl : m = 1 := (hmissing m).1 hm.1
    rw [hset, hmissing, hfirst]
    constructor
    · rintro ⟨i, hi, rfl, -⟩
      obtain rfl : i = 0 := by simpa using hi
      decide
    · rintro ⟨hx, -⟩
      refine ⟨0, by simp, BitVec.eq_of_toNat_eq (by rw [hx]; rfl), by omega, by omega⟩

/-- A number that is reported comes from its index on the walk. -/
theorem mem_of_reported {l : List Nat} (hl : ∀ i ∈ l, i < 2 ^ 32 - 1) (hm : m + 1 < 2 ^ 32)
    (h : ∃ i ∈ l, BitVec.ofNat 32 (m + 1) = BitVec.ofNat 32 (i + 1)) : m ∈ l := by
  obtain ⟨i, hi, heq⟩ := h
  have hlt := hl i hi
  have hnat := congrArg BitVec.toNat heq
  rw [BitVec.toNat_ofNat, BitVec.toNat_ofNat, Nat.mod_eq_of_lt hm,
    Nat.mod_eq_of_lt (by omega)] at hnat
  obtain rfl : m = i := by omega
  exact hi

/-- What is missing at the start, and reported, is visited. -/
theorem visited_of_reports {n : Nat} (h : Reports σ) (hcount : σ.change.fragment_count_ = n)
    (hn : n + 1 < 2 ^ 32) (hfirst : σ.change.first_missing_fragment_ = 0)
    (haccepted : σ.accepted = []) :
    ∃ l, Walk σ.change 0 l ∧ ∀ i, i < n → i < 256 → i ∈ l := by
  have hmissing : ∀ f, σ.Missing f ↔ 1 ≤ f ∧ f ≤ n := by
    intro f
    simp [Missing, hcount, haccepted]
  obtain ⟨fuel, t, ht, -, hleast⟩ := h ⟨0#32, 255#32, Vector.replicate 8 0#32, 0⟩
  obtain ⟨l, hl, hset⟩ := getMissingFragments_walk (by omega) ht
  rw [hfirst] at hl
  refine ⟨l, hl, fun i hi hsmall => ?_⟩
  have hone : IsLeast {f | σ.Missing f} 1 :=
    ⟨(hmissing 1).2 ⟨Nat.le_refl 1, by omega⟩, fun f hf => ((hmissing f).1 hf).1⟩
  have hnat : (BitVec.ofNat 32 (i + 1)).toNat = i + 1 := by
    rw [BitVec.toNat_ofNat, Nat.mod_eq_of_lt (by omega)]
  have hreported := (hleast 1 hone (BitVec.ofNat 32 (i + 1))).2
    ⟨(hmissing _).2 (by rw [hnat]; omega), by rw [hnat]; omega, by rw [hnat]; omega⟩
  obtain ⟨j, hj, heq, -⟩ := (hset _).1 hreported
  refine mem_of_reported (fun k hk => ?_) (by omega) ⟨j, hj, heq⟩
  have hlt := hl.mem_lt hk
  omega

end Session

/-! ## Whole runs -/

open Session

/-- A first link that leads to itself or past the end skips fragment 1. -/
theorem one_not_visited {ch : CacheChange} {l : List Nat} {j : Nat} (hl : Walk ch 0 l)
    (hlink : ch.getNextMissingFragment 0 = some j) (hj : j = 0 ∨ ch.fragment_count_ ≤ j) :
    1 ∉ l := by
  intro hone
  cases hl with
  | stop hend =>
      cases hone
  | step hlt hnext hrest =>
      rw [hlink] at hnext
      cases hnext
      rcases hj with rfl | hpast
      · have hsame := hrest.unique (Walk.step hlt hlink hrest)
        have hlength := congrArg List.length hsame
        simp at hlength
      · obtain rfl := hrest.unique (Walk.stop hpast)
        simp at hone

variable {payload : SerializedPayload} {fs : Nat} {kind : Call → Prop}

/-- `setFragmentSize` returns, and the missing fragments are reported in every state that calls of
a kind lead to. -/
def ReportsMissing (kind : Call → Prop) (payload : SerializedPayload) (fs : Nat) : Prop :=
  (∃ fuel σ, Session.start fuel payload fs = some σ) ∧
    ∀ fuel calls σ, (∀ c ∈ calls, kind c) → Session.run fuel payload fs calls = some σ → Reports σ

theorem ReportsMissing.fromOne (h : ReportsMissing AnyStart payload fs) :
    ReportsMissing FromOne payload fs :=
  ⟨h.1, fun fuel calls σ _ hrun => h.2 fuel calls σ (fun _ _ => trivial) hrun⟩

theorem reportsMissing_empty (hfs : 0 < fs) (hcount : fragmentCount payload.length fs = 0) :
    ReportsMissing AnyStart payload fs := by
  constructor
  · obtain ⟨σ, hrun, -⟩ := run_empty payload hfs hcount []
    rcases Option.bind_eq_some_iff.1 hrun with ⟨τ, hstart, -⟩
    exact ⟨1, τ, hstart⟩
  · intro fuel calls σ _ hrun
    obtain ⟨τ, hrun', -, hzero⟩ := run_empty payload hfs hcount calls
    obtain rfl := run_unique hrun hrun'
    refine reports_past (by omega) ?_
    rintro f ⟨hpos, hle, -⟩
    omega

theorem reportsMissing_single (hpos : 0 < payload.length) (hlen : payload.length < 2 ^ 32)
    (hfits : payload.length ≤ payload.max_size) (h7 : 7 ≤ payload.max_size)
    (hle : payload.length ≤ fs) (hfs : fs < 2 ^ 16) : ReportsMissing FromOne payload fs := by
  constructor
  · obtain ⟨σ, hstart, -⟩ := start_single AnyStart hpos hfits h7 hle hfs
    exact ⟨2, σ, hstart⟩
  · intro fuel calls σ hcalls hrun
    obtain ⟨fuel', τ, hrun', hτ⟩ := run_single payload AnyStart hpos hlen hfits h7 hle hfs
      fun c hc => ⟨trivial, hcalls c hc⟩
    obtain rfl := run_unique hrun hrun'
    have hcount := hτ.single.count
    rcases hτ.single.first with ⟨hfirst, hlink⟩ | hfirst
    · have hnext := getNextMissingFragment_eq hτ.single.max_size 0
      rw [nextFragmentPointer_zero, hlink] at hnext
      exact reports_single hcount hfirst hnext (hτ.missing hfirst).1
    · -- The fragment is there.
      obtain ⟨c, hc, -, hstart, hnum, -⟩ := hτ.received hfirst
      refine reports_past (by omega) ?_
      rintro f ⟨hone, hf, hnone⟩
      refine hnone c hc ⟨?_, ?_⟩ <;> omega

/-- A list of several fragments is wrong from the start. -/
theorem not_reportsMissing_several (hmany : 2 ≤ fragmentCount payload.length fs) (hfs : 8 ≤ fs)
    (hfs' : fs < 2 ^ 16) (hlen : payload.length < 2 ^ 32)
    (hfits : payload.length ≤ payload.max_size) : ¬ ReportsMissing FromOne payload fs := by
  rintro ⟨-, hreports⟩
  obtain ⟨hbelow, -⟩ := fragmentCount_bounds (show 0 < fs by omega)
    (show 0 < fragmentCount payload.length fs by omega) hlen hfs'
  have hmul : (fragmentCount payload.length fs - 1) * 8 ≤
      (fragmentCount payload.length fs - 1) * fs := Nat.mul_le_mul_left _ hfs
  obtain ⟨fuel, σ, hstart, hs, hfirst, haccepted, hlink⟩ := start_first payload
    (show 0 < fs by omega) (by omega) (by omega) (by omega)
  have hrun : Session.run fuel payload fs [] = some σ :=
    Option.bind_eq_some_iff.2 ⟨σ, hstart, rfl⟩
  obtain ⟨l, hl, hvisited⟩ := visited_of_reports (hreports fuel [] σ (by simp) hrun) hs.count
    (by omega) hfirst haccepted
  rcases Nat.lt_or_ge (fragmentCount payload.length fs) 5 with hfew | hfive
  · obtain ⟨k, hk⟩ : ∃ k, fragmentCount payload.length fs = k + 1 :=
      ⟨fragmentCount payload.length fs - 1, by omega⟩
    refine one_not_visited hl hlink ?_ (hvisited 1 (by omega) (by decide))
    rw [hs.count, hk, firstLink_small (by omega)]
    split_ifs
    · exact Or.inr (Nat.le_refl _)
    · exact Or.inl rfl
  · -- Fragment 4 has the link of fragment 0.
    have hfour := hl.eq_of_same_link (hvisited 4 (by omega) (by decide))
      (getNextMissingFragment_congr (by rw [hs.size, slot_four, slot_zero]))
    cases hfour

/-- A call that starts at number 0 covers the only fragment, which stays in the list. -/
theorem not_reportsMissing_zeroStart (hpos : 0 < payload.length) (hlen : payload.length < 2 ^ 32)
    (hfits : payload.length ≤ payload.max_size) (h7 : 7 ≤ payload.max_size)
    (hle : payload.length ≤ fs) (hfs : fs < 2 ^ 16) : ¬ ReportsMissing AnyStart payload fs := by
  rintro ⟨-, hreports⟩
  obtain ⟨fuel, σ, hrun, hmem, hcount, hnot⟩ := zeroStart_accepted hpos hlen hfits h7 hle hfs
  obtain ⟨fuel', t, ht, hempty, -⟩ := hreports fuel [zeroStart] σ (fun _ _ => trivial) hrun
    ⟨0#32, 255#32, Vector.replicate 8 0#32, 0⟩
  have hfirst : σ.change.first_missing_fragment_ = 0 := by
    simp only [isFullyAssembled, decide_eq_false_iff_not] at hnot
    omega
  have hnone : ∀ f, ¬ σ.Missing f := by
    rintro f ⟨hone, hf, hcovers⟩
    obtain rfl : f = 1 := by omega
    exact hcovers zeroStart hmem (by decide)
  obtain ⟨l, hl, hset⟩ := getMissingFragments_walk (by omega) ht
  rw [hfirst] at hl hset
  have hzero : 0 ∈ l := by
    cases hl with
    | stop hend =>
        omega
    | step _ _ _ =>
        exact List.mem_cons_self
  have hreported := (hset 1#32).2 ⟨0, hzero, rfl, by decide, by decide⟩
  rw [hempty hnone] at hreported
  cases hreported

theorem reportsMissing_fromOne_iff (hlen : payload.length < 2 ^ 32)
    (hfits : payload.length ≤ payload.max_size) (hfs : 8 ≤ fs) (hfs' : fs < 2 ^ 16) :
    ReportsMissing FromOne payload fs ↔
      fragmentCount payload.length fs = 0 ∨ (payload.length ≤ fs ∧ 7 ≤ payload.max_size) := by
  have hzero := fragmentCount_zero hlen (show 0 < fs by omega) hfs'
  constructor
  · intro hreports
    rcases fragmentCount_cases (by omega) hfs' hlen with hnone | ⟨-, hseveral⟩ | ⟨hcount, hle⟩
    · exact Or.inl hnone
    · exact absurd hreports (not_reportsMissing_several hseveral hfs hfs' hlen hfits)
    · refine Or.inr ⟨hle, ?_⟩
      -- One fragment, whose link would be written past the end of the buffer.
      by_contra h7
      obtain ⟨⟨fuel, σ, hstart⟩, -⟩ := hreports
      rw [start_eq fuel payload (by omega), linkFragments_small (by simpa using h7) hcount]
        at hstart
      cases hstart
  · rintro (hempty | ⟨hle, h7⟩)
    · exact (reportsMissing_empty (by omega) hempty).fromOne
    · rcases Nat.eq_zero_or_pos payload.length with hempty | hpos
      · exact (reportsMissing_empty (by omega) (hzero.2 (Or.inl hempty))).fromOne
      · exact reportsMissing_single hpos hlen hfits h7 hle hfs'

/-- What is missing is reported after all calls if and only if there is no fragment, and after the
calls that count fragments from 1 also where there is one fragment, in a buffer its link fits in. -/
theorem reportsMissing_iff (payload : SerializedPayload) (hlen : payload.length < 2 ^ 32)
    (hfits : payload.length ≤ payload.max_size) (hfs : 8 ≤ fs) (hfs' : fs < 2 ^ 16) :
    (ReportsMissing AnyStart payload fs ↔
        payload.length = 0 ∨ 2 ^ 32 ≤ payload.length + fs - 1) ∧
      (ReportsMissing FromOne payload fs ↔
        payload.length = 0 ∨ 2 ^ 32 ≤ payload.length + fs - 1 ∨
          (payload.length ≤ fs ∧ 7 ≤ payload.max_size)) := by
  have hzero := fragmentCount_zero hlen (show 0 < fs by omega) hfs'
  have hfromOne := reportsMissing_fromOne_iff hlen hfits hfs hfs'
  rw [hzero, or_assoc] at hfromOne
  refine ⟨⟨?_, ?_⟩, hfromOne⟩
  · intro hreports
    rcases hfromOne.1 hreports.fromOne with hempty | hsum | ⟨hle, h7⟩
    · exact Or.inl hempty
    · exact Or.inr hsum
    · -- The call that starts at number 0 excludes the single fragment.
      by_contra hcond
      push Not at hcond
      exact not_reportsMissing_zeroStart (by omega) hlen hfits h7 hle hfs' hreports
  · intro hcount
    exact reportsMissing_empty (by omega) (hzero.2 hcount)

theorem reportsMissing_one_fragment :
    ReportsMissing FromOne { length := 8, max_size := 8, data := fun _ => 0 } 8 :=
  (@reportsMissing_iff 8 { length := 8, max_size := 8, data := fun _ => 0 }
    (by decide) (by decide) (by decide) (by decide)).2.2 (Or.inr (Or.inr ⟨by decide, by decide⟩))

/-- Two fragments are missing, and only the first one is reported. -/
theorem reports_first_of_two :
    ∃ σ t, Session.run 3 twoFragments 8 [] = some σ ∧
      σ.change.getMissingFragments 2 ⟨0#32, 255#32, Vector.replicate 8 0#32, 0⟩ = some t ∧
      σ.Missing 2 ∧ t.forEach = some [1#32] ∧ ¬ Reports σ := by
  obtain ⟨σ, t, hrun, hget, hcount, hfirst, haccepted, hlink, heach⟩ : ∃ σ t,
      Session.run 3 twoFragments 8 [] = some σ ∧
        σ.change.getMissingFragments 2 ⟨0#32, 255#32, Vector.replicate 8 0#32, 0⟩ = some t ∧
        σ.change.fragment_count_ = 2 ∧ σ.change.first_missing_fragment_ = 0 ∧ σ.accepted = [] ∧
        σ.change.getNextMissingFragment 0 = some 2 ∧ t.forEach = some [1#32] :=
    ⟨_, _, rfl, rfl, rfl, rfl, rfl, by decide, rfl⟩
  refine ⟨σ, t, hrun, hget, ⟨by decide, by omega, by simp [haccepted]⟩, heach, ?_⟩
  intro hreports
  obtain ⟨l, hl, hvisited⟩ := visited_of_reports hreports hcount (by decide) hfirst haccepted
  obtain rfl := hl.unique (Walk.step (by omega) hlink (Walk.stop (by omega)))
  exact absurd (hvisited 1 (by decide) (by decide)) (by decide)

end Rtps
end Mozi
