import Mozi.Rtps.Storage.EndsAtOnce

/-!
# Termination — when receiving and listing fragments terminates

Where the first link does not lead past the end, some calls with zeros as data leave a link that
leads back: a call from fragment 1 on overwrites the link it has just followed to, and with
fragments of at most 3 bytes a call from fragment 2 on overwrites the first link.
-/

namespace Mozi
namespace Rtps

open Foundation DataStructure

namespace CacheChange

variable {ch ch' : CacheChange} {fuel len room fs k S : Nat}

/-! ## A call from fragment 1 on -/

/-- The first `k` fragments, all zeros. -/
def zeroPrefix (fs k : Nat) (hk : k < 2 ^ 32) (hbytes : k * fs < 2 ^ 32) : Call where
  incoming_data :=
    { length := k * fs
      data := fun _ => 0 }
  fragment_starting_num := 1
  fragments_in_submessage := k
  starting_num_lt := one_lt_u32
  in_submessage_lt := hk
  length_lt := hbytes

@[simp] theorem zeroPrefix_index (hk : k < 2 ^ 32) (hbytes : k * fs < 2 ^ 32) :
    sub32 (zeroPrefix fs k hk hbytes).fragment_starting_num 1 = 0 := by
  show sub32 1 1 = 0
  rfl

theorem Sized.accepted_zeroPrefix (hs : Sized ch len room fs) (hlen : len < 2 ^ 32)
    (hfs : 0 < fs) (hfs' : fs < 2 ^ 16) (hk : k < 2 ^ 32) (hbytes : k * fs < 2 ^ 32)
    (hinner : k < fragmentCount len fs) :
    ch.acceptedLength (zeroPrefix fs k hk hbytes) = some (k * fs) := by
  have hsum : 0 + k = k := Nat.zero_add k
  refine (hs.acceptedLength_eq hlen hfs hfs' (i := 0) (m := k) rfl rfl (by omega)
    (by omega)).trans ?_
  rw [hsum, if_pos hinner]
  exact if_pos (Nat.le_refl (k * fs))

/-- One link is followed, to the fragment after the call's. -/
theorem Sized.received_zeroPrefix (hs : Sized ch len room fs) (hfs : 0 < fs)
    (hfirst : ch.first_missing_fragment_ = 0) (hlink : ch.getNextMissingFragment 0 = some k)
    (hpos : 0 < k) (hk : k < 2 ^ 32) (hinner : k < fragmentCount len fs) (fuel : Nat) :
    ch.receivedFragments (fuel + 2) 0 k =
      some (true, { ch with first_missing_fragment_ := k }) := by
  have hsize : 0 < ch.fragment_size_ := by
    rw [hs.size]
    exact hfs
  have hcount := hs.count
  rw [receivedFragments_head hsize hfirst (by omega) (by omega) (by omega), Nat.zero_add,
    skipReceived_link hpos hlink (Nat.le_refl k)]
  rfl

/-- The first `k` fragments reach over the link of fragment `k`. -/
theorem slot_covered (hk : 0 < k) (hfs : 4 ≤ fs) (hslot : slot fs k < 3) :
    slot fs k + 4 ≤ k * fs := by
  rcases Nat.lt_or_ge fs 6 with hnarrow | hwide
  · obtain rfl | rfl : fs = 4 ∨ fs = 5 := by omega
    · unfold slot at hslot
      omega
    · unfold slot at hslot ⊢
      omega
  · have hmul : 1 * 6 ≤ k * fs := Nat.mul_le_mul hk hwide
    omega

/-- Afterwards the fragment that is missing first has a link to fragment 0. -/
theorem Sized.zeroPrefix_leads_back (hs : Sized ch len room fs) (hlen : len < 2 ^ 32)
    (hfs : 0 < fs) (hfs' : fs < 2 ^ 16) (hfits : len ≤ room)
    (hfirst : ch.first_missing_fragment_ = 0) (hlink : ch.getNextMissingFragment 0 = some k)
    (hpos : 0 < k) (hk : k < 2 ^ 32) (hbytes : k * fs < 2 ^ 32)
    (hinner : k < fragmentCount len fs) (hle : k * fs ≤ len)
    (hcovers : slot fs k + 4 ≤ k * fs) (fuel : Nat) :
    ∃ b ch', ch.addFragments (fuel + 2) (zeroPrefix fs k hk hbytes) = some (b, ch') ∧
      ch'.first_missing_fragment_ = k ∧ ch'.getNextMissingFragment k = some 0 := by
  have hreceived := hs.received_zeroPrefix hfs hfirst hlink hpos hk hinner fuel
  have hcopies : Copies (fuel + 2) ch (zeroPrefix fs k hk hbytes) 0 (k * fs) := by
    refine ⟨hs.accepted_zeroPrefix hlen hfs hfs' hk hbytes hinner,
      { ch with first_missing_fragment_ := k }, ?_, ?_⟩
    · rw [zeroPrefix_index]
      exact hreceived
    · rw [zeroPrefix_index, Nat.zero_mul]
      rfl
  have hroom : 0 + k * fs ≤ ch.serialized_payload.max_size := by
    rw [hs.max_size]
    omega
  obtain ⟨ch', hch', hadd⟩ := hcopies.addFragments_eq
  rw [zeroPrefix_index] at hch'
  cases hreceived.symm.trans hch'
  rw [hadd, copyIn, if_pos hroom]
  refine ⟨_, _, rfl, rfl, ?_⟩
  unfold getNextMissingFragment
  simp only [nextFragmentPointer_eq, hs.size]
  rw [if_pos (by omega)]
  congr 1
  simp only [zeroPrefix, Memory.load_zeros]
  exact Memory.word32_store_zeros (Nat.zero_le _) (by omega)

/-! ## A call from fragment 2 on -/

/-- All fragments but the first one, all zeros. -/
def zeroRest (len fs n : Nat) (hn : n < 2 ^ 32) (hlen : len < 2 ^ 32) : Call where
  incoming_data :=
    { length := len - fs
      data := fun _ => 0 }
  fragment_starting_num := 2
  fragments_in_submessage := n - 1
  starting_num_lt := two_lt_u32
  in_submessage_lt := Nat.lt_of_le_of_lt (Nat.sub_le n 1) hn
  length_lt := Nat.lt_of_le_of_lt (Nat.sub_le len fs) hlen

@[simp] theorem zeroRest_index {n : Nat} (hn : n < 2 ^ 32) (hlen : len < 2 ^ 32) :
    sub32 (zeroRest len fs n hn hlen).fragment_starting_num 1 = 1 := by
  show sub32 2 1 = 1
  rfl

theorem Sized.accepted_zeroRest (hs : Sized ch len room fs) (hlen : len < 2 ^ 32)
    (hfs : 0 < fs) (hfs' : fs < 2 ^ 16) {n : Nat} (hcount : fragmentCount len fs = n)
    (hn : n < 2 ^ 32) (hmany : 2 ≤ n) :
    ch.acceptedLength (zeroRest len fs n hn hlen) = some (len - fs) := by
  have hsum : 1 + (n - 1) = n := by omega
  refine (hs.acceptedLength_eq hlen hfs hfs' (i := 1) (m := n - 1) rfl rfl (by omega)
    (by omega)).trans ?_
  rw [hcount, hsum, if_neg (Nat.lt_irrefl n), if_pos rfl, Nat.one_mul]

/-- A skip that starts below the end of its range follows a link. -/
theorem skipReceived_moves {index last j : Nat} {changed b : Bool} (hlt : index < last)
    (h : ch.skipReceived fuel index last changed = some (j, b)) : b = true := by
  cases fuel with
  | zero =>
      cases h
  | succ fuel =>
      simp only [skipReceived, whileM, decide_eq_true hlt, if_true] at h
      rcases Option.bind_eq_some_iff.1 h with ⟨t, ht, hrest⟩
      rcases Option.map_eq_some_iff.1 ht with ⟨next, -, rfl⟩
      refine (whileM_invariant (I := fun p : Nat × Bool => p.2 = true) ?_ rfl hrest).1
      rintro p q - - hq
      rcases Option.map_eq_some_iff.1 hq with ⟨next, -, rfl⟩
      rfl

/-- A search whose first link leads into the range changes that link, and nothing else. -/
theorem searchStep_found {initial last : Nat} {q : Search}
    (hlink : ch.getNextMissingFragment 0 = some S) (hin : initial ≤ S) (hlt : S < last)
    (h : searchStep fuel initial last ⟨0, false, false, ch⟩ = some q) :
    q.done = true ∧ q.at_least_one_changed = true ∧
      q.change.first_missing_fragment_ = ch.first_missing_fragment_ := by
  simp only [searchStep, hlink, Option.bind_some] at h
  rw [if_pos hin] at h
  rcases Option.bind_eq_some_iff.1 h with ⟨⟨j, b⟩, hskip, hset⟩
  obtain rfl := skipReceived_moves hlt hskip
  rcases Option.map_eq_some_iff.1 hset with ⟨c, hc, rfl⟩
  refine ⟨rfl, rfl, ?_⟩
  unfold setNextMissingFragment at hc
  simp only at hc
  split_ifs at hc
  cases hc
  rfl

/-- A call that returns has marked its fragments behind the first one, which stays missing. -/
theorem Sized.received_zeroRest (hs : Sized ch len room fs) (hfs : 0 < fs) {n : Nat} {b : Bool}
    (hcount : fragmentCount len fs = n) (hn : n < 2 ^ 32)
    (hfirst : ch.first_missing_fragment_ = 0) (hlink : ch.getNextMissingFragment 0 = some S)
    (hpos : 0 < S) (hS : S < n) (h : ch.receivedFragments fuel 1 (n - 1) = some (b, ch')) :
    b = true ∧ ch'.first_missing_fragment_ = 0 := by
  have hlast : u32 (1 + (n - 1)) = n := by
    rw [show 1 + (n - 1) = n by omega, u32_of_lt hn]
  have hguard : ch.fragment_size_ > 0 ∧ 1 < ch.fragment_count_ := by
    rw [hs.size, hs.count]
    omega
  unfold receivedFragments at h
  rw [if_pos hguard] at h
  simp only [hlast, hs.count, hcount, hfirst] at h
  rw [if_neg (by omega), if_neg (by omega)] at h
  rcases Option.map_eq_some_iff.1 h with ⟨p, hp, hr⟩
  cases hr
  cases fuel with
  | zero =>
      cases hp
  | succ fuel =>
      -- One round, which leaves the loop.
      simp only [whileM] at hp
      rw [if_pos (by simp)] at hp
      rcases Option.bind_eq_some_iff.1 hp with ⟨q, hq, hrest⟩
      obtain ⟨hdone, hchanged, hsame⟩ := searchStep_found hlink hpos hS hq
      cases fuel with
      | zero =>
          cases hrest
      | succ fuel =>
          rw [whileM_stop (by simp [hdone])] at hrest
          cases hrest
          exact ⟨hchanged, hsame.trans hfirst⟩

/-- With fragments of at most 3 bytes the first link leads to fragment 0 afterwards. -/
theorem Sized.zeroRest_leads_back (hs : Sized ch len room fs) (hlen : len < 2 ^ 32)
    (hfs : 0 < fs) (hsmall : fs ≤ 3) {n : Nat} (hcount : fragmentCount len fs = n)
    (hn : n < 2 ^ 32) (h7 : 7 ≤ len) (hfirst : ch.first_missing_fragment_ = 0)
    (hlink : ch.getNextMissingFragment 0 = some S) (hpos : 0 < S) (hS : S < n)
    {r : Bool × CacheChange}
    (h : ch.addFragments fuel (zeroRest len fs n hn hlen) = some r) :
    r.2.first_missing_fragment_ = 0 ∧ r.2.getNextMissingFragment 0 = some 0 := by
  have haccepted := hs.accepted_zeroRest hlen hfs (by omega) hcount hn (by omega)
  unfold addFragments at h
  rw [haccepted] at h
  rcases Option.bind_eq_some_iff.1 h with ⟨⟨b, ch'⟩, hreceived, hstore⟩
  have hsame := receivedFragments_sizes hreceived
  rw [zeroRest_index] at hreceived
  obtain ⟨rfl, hzero⟩ :=
    hs.received_zeroRest hfs hcount hn hfirst hlink hpos hS hreceived
  have hoff : u32 (sub32 (zeroRest len fs n hn hlen).fragment_starting_num 1 *
      ch'.fragment_size_) = fs := by
    rw [hsame.size, hs.size, zeroRest_index, Nat.one_mul, u32_of_lt (by omega)]
  simp only [storeFragments, if_true, hoff] at hstore
  rcases Option.map_eq_some_iff.1 hstore with ⟨c, hcopy, rfl⟩
  unfold copyIn at hcopy
  split_ifs at hcopy with hroom
  cases hcopy
  refine ⟨hzero, ?_⟩
  unfold getNextMissingFragment
  simp only [nextFragmentPointer_eq, slot_zero]
  rw [if_pos (by omega)]
  congr 1
  simp only [zeroRest, Memory.load_zeros]
  exact Memory.word32_store_zeros hsmall (by omega)

end CacheChange

/-! ## When everything terminates -/

open CacheChange Session

variable {payload : SerializedPayload} {fs fuel : Nat} {σ : Session}

/-- Every sequence of calls runs to its end; there `getMissingFragments` returns, and every visited
index is followed by a larger one until the end is reached. -/
def Terminates (payload : SerializedPayload) (fs : Nat) : Prop :=
  ∀ calls, ∃ fuel σ, Session.run fuel payload fs calls = some σ ∧
    (∀ frag_sns, ∃ fuel t, σ.change.getMissingFragments fuel frag_sns = some t) ∧
    LinksIncrease σ.change

/-- There is no fragment; or the links fit in the buffer, the loop that writes them ends, and the
first link leads past the last fragment. -/
def ListEnds (len max_size fs : Nat) : Prop :=
  fragmentCount len fs = 0 ∨
    7 ≤ max_size ∧ fragmentCount len fs + 1 < 2 ^ 32 ∧
      fragmentCount len fs ≤ firstLink fs (fragmentCount len fs)

instance (len max_size fs : Nat) : Decidable (ListEnds len max_size fs) :=
  inferInstanceAs (Decidable (_ ∨ _))

theorem start_endsAtOnce (hfs : 0 < fs) (h : ListEnds payload.length payload.max_size fs) :
    ∃ fuel σ, Session.start fuel payload fs = some σ ∧
      EndsAtOnce σ.change payload.length payload.max_size fs := by
  rcases Nat.eq_zero_or_pos (fragmentCount payload.length fs) with hzero | hpos
  · have hstart := start_eq 1 payload hfs
    rw [linkFragments_empty (by exact hzero) 0, Option.map_some] at hstart
    exact ⟨1, _, hstart, ⟨rfl, rfl, rfl, rfl⟩, Or.inr (Nat.le_of_eq hzero)⟩
  · rcases h with hzero | ⟨h7, hcount, hlink⟩
    · omega
    · obtain ⟨fuel, σ, hstart, hs, hfirst, -, hnext⟩ := start_first payload hfs hpos h7 hcount
      exact ⟨fuel, σ, hstart, hs, Or.inl ⟨hfirst, _, hnext, by rw [hs.count]; exact hlink⟩⟩

theorem terminates_of_listEnds (hlen : payload.length < 2 ^ 32)
    (hfits : payload.length ≤ payload.max_size) (hfs : 0 < fs) (hfs' : fs < 2 ^ 16)
    (h : ListEnds payload.length payload.max_size fs) : Terminates payload fs := by
  intro calls
  obtain ⟨fuel, σ, hstart, hσ⟩ := start_endsAtOnce hfs h
  obtain ⟨τ, hexec, hτ⟩ := exec_endsAtOnce hσ hlen hfits hfs hfs' calls
  refine ⟨max fuel 2, τ, Option.bind_eq_some_iff.2 ⟨σ, start_mono (Nat.le_max_left _ _) hstart,
    exec_mono (Nat.le_max_right _ _) hexec⟩, ?_, hτ.linksIncrease⟩
  exact hτ.linksIncrease.getMissingFragments_returns

namespace Terminates

theorem start (h : Terminates payload fs) (hstart : Session.start fuel payload fs = some σ) :
    LinksIncrease σ.change := by
  obtain ⟨fuel', τ, hrun, -, hincrease⟩ := h []
  have hexec := exec_of_run hstart hrun
  cases hexec
  exact hincrease

theorem step (h : Terminates payload fs) (hstart : Session.start fuel payload fs = some σ)
    (call : Call) :
    ∃ fuel r, σ.change.addFragments (fuel + 2) call = some r ∧ LinksIncrease r.2 := by
  obtain ⟨fuel', τ, hrun, -, hincrease⟩ := h [call]
  have hexec := ((receiver fuel').exec_singleton).1 (exec_of_run hstart hrun)
  rcases Option.map_eq_some_iff.1 hexec with ⟨r, hr, rfl⟩
  exact ⟨fuel', r, addFragments_mono (Nat.le_add_right fuel' 2) hr, hincrease⟩

/-- The list of a payload with fragments fits in its buffer, and the loop that builds it ends. -/
theorem list_built (h : Terminates payload fs) (hfs : 0 < fs)
    (hpos : 0 < fragmentCount payload.length fs) :
    7 ≤ payload.max_size ∧ fragmentCount payload.length fs + 1 < 2 ^ 32 := by
  obtain ⟨fuel, σ, hrun, -⟩ := h []
  rcases Option.bind_eq_some_iff.1 hrun with ⟨τ, hstart, -⟩
  rw [start_eq fuel payload hfs] at hstart
  constructor
  · by_contra h7
    rw [linkFragments_small (by simpa using h7) hpos] at hstart
    cases hstart
  · by_contra hmax
    have hlt := fragmentCount_lt payload.length fs
    have hcount : fragmentCount payload.length fs = 2 ^ 32 - 1 := by omega
    rw [linkFragments_diverges hcount] at hstart
    cases hstart

/-- A list as it has been built, with a link from fragment 0 to a fragment before the end. -/
structure InnerLink (payload : SerializedPayload) (fs k : Nat) (σ : Session) : Prop where
  start : ∃ fuel, Session.start fuel payload fs = some σ
  sized : Sized σ.change payload.length payload.max_size fs
  first : σ.change.first_missing_fragment_ = 0
  link : σ.change.getNextMissingFragment 0 = some k
  inner : k < fragmentCount payload.length fs

theorem InnerLink.lt_count {k : Nat} (hk : InnerLink payload fs k σ) :
    k < σ.change.fragment_count_ := by
  rw [hk.sized.count]
  exact hk.inner

theorem InnerLink.count_pos {k : Nat} (hk : InnerLink payload fs k σ) :
    0 < σ.change.fragment_count_ :=
  Nat.lt_of_le_of_lt (Nat.zero_le k) hk.lt_count

variable {k : Nat}

/-- The link leads forward. -/
theorem link_pos (h : Terminates payload fs) (hk : InnerLink payload fs k σ) : 0 < k := by
  obtain ⟨fuel, hstart⟩ := hk.start
  exact (h.start hstart).lt (Visits.of_first hk.first) hk.count_pos hk.link

/-- It leads to no fragment whose link is that of fragment 0. -/
theorem slot_lt_three (h : Terminates payload fs) (hk : InnerLink payload fs k σ) :
    slot fs k < 3 := by
  by_contra hge
  have hslot : slot fs k = 3 := Nat.le_antisymm (slot_le fs k) (Nat.not_lt.1 hge)
  have hself : σ.change.getNextMissingFragment k = some k := by
    rw [← hk.link]
    refine getNextMissingFragment_congr ?_
    rw [hk.sized.size, hslot, slot_zero]
  have hvisited : Visits σ.change k := Visits.next (Visits.of_first hk.first) hk.count_pos hk.link
  obtain ⟨fuel, hstart⟩ := hk.start
  exact Nat.lt_irrefl k ((h.start hstart).lt hvisited hk.lt_count hself)

/-- With fragments of more than 3 bytes, the data of the first `k` ones overwrite the link of
fragment `k`. -/
theorem fs_le_three (h : Terminates payload fs) (hk : InnerLink payload fs k σ)
    (hlen : payload.length < 2 ^ 32) (hfits : payload.length ≤ payload.max_size)
    (hfs' : fs < 2 ^ 16) (hlast : (fragmentCount payload.length fs - 1) * fs < payload.length) :
    fs ≤ 3 := by
  by_contra hwide
  have hcount := fragmentCount_lt payload.length fs
  have hpos := h.link_pos hk
  have hinner := hk.inner
  have hcovers : slot fs k + 4 ≤ k * fs := slot_covered hpos (by omega) (h.slot_lt_three hk)
  have hbytes : k * fs ≤ (fragmentCount payload.length fs - 1) * fs :=
    Nat.mul_le_mul_right fs (by omega)
  obtain ⟨fuel, hstart⟩ := hk.start
  obtain ⟨fuel', r, hr, hincrease⟩ := h.step hstart (zeroPrefix fs k (by omega) (by omega))
  obtain ⟨b, ch', hadd, hnext, hback⟩ := hk.sized.zeroPrefix_leads_back hlen (by omega) hfs' hfits
    hk.first hk.link hpos (by omega) (by omega) hinner (by omega) hcovers fuel'
  rw [hadd] at hr
  cases hr
  have hbelow : k < ch'.fragment_count_ := by
    rw [(addFragments_sizes hadd).count]
    exact hk.lt_count
  exact Nat.not_lt_zero k (hincrease.lt (Visits.of_first hnext) hbelow hback)

/-- With fragments of at most 3 bytes, there are less than 256: the data of the others would
overwrite the link of fragment 0. -/
theorem count_lt_256 (h : Terminates payload fs) (hk : InnerLink payload fs k σ)
    (hlen : payload.length < 2 ^ 32) (hfs : 0 < fs) (hsmall : fs ≤ 3)
    (hlast : (fragmentCount payload.length fs - 1) * fs < payload.length) :
    fragmentCount payload.length fs < 256 := by
  by_contra hmany
  have hcount := fragmentCount_lt payload.length fs
  have hle : (fragmentCount payload.length fs - 1) * 1 ≤
      (fragmentCount payload.length fs - 1) * fs := Nat.mul_le_mul_left _ hfs
  obtain ⟨fuel, hstart⟩ := hk.start
  obtain ⟨fuel', r, hr, hincrease⟩ := h.step hstart
    (zeroRest payload.length fs (fragmentCount payload.length fs) hcount hlen)
  obtain ⟨hnext, hback⟩ := hk.sized.zeroRest_leads_back hlen hfs hsmall rfl hcount (by omega)
    hk.first hk.link (h.link_pos hk) hk.inner hr
  have hbelow : 0 < r.2.fragment_count_ := by
    rw [(addFragments_sizes hr).count]
    exact hk.count_pos
  exact Nat.lt_irrefl 0 (hincrease.lt (Visits.of_first hnext) hbelow hback)

/-- The link of fragment 0 leads past the last fragment. -/
theorem link_past (h : Terminates payload fs) (hlen : payload.length < 2 ^ 32)
    (hfits : payload.length ≤ payload.max_size) (hfs : 0 < fs) (hfs' : fs < 2 ^ 16)
    (hpos : 0 < fragmentCount payload.length fs) :
    fragmentCount payload.length fs ≤ firstLink fs (fragmentCount payload.length fs) := by
  obtain ⟨h7, hcount⟩ := h.list_built hfs hpos
  obtain ⟨fuel, σ, hstart, hs, hfirst, -, hlink⟩ := start_first payload hfs hpos h7 hcount
  obtain ⟨hlast, -⟩ := fragmentCount_bounds hfs hpos hlen hfs'
  by_contra hshort
  have hk : InnerLink payload fs (firstLink fs (fragmentCount payload.length fs)) σ :=
    ⟨⟨fuel, hstart⟩, hs, hfirst, hlink, Nat.not_le.1 hshort⟩
  have hsmall := h.fs_le_three hk hlen hfits hfs' hlast
  have hfew := h.count_lt_256 hk hlen hfs hsmall hlast
  have hkpos := h.link_pos hk
  have hinner := hk.inner
  -- So few fragments are linked past the end or back to fragment 0.
  obtain ⟨n, hn⟩ : ∃ n, fragmentCount payload.length fs = n + 1 :=
    ⟨fragmentCount payload.length fs - 1, by omega⟩
  rw [hn] at hinner hkpos hfew
  rw [firstLink_small hfew] at hinner hkpos
  split_ifs at hinner hkpos <;> omega

end Terminates

/-- All calls terminate, whatever the bytes they bring, if and only if there is no fragment or the
list of one link that is built ends. -/
theorem terminates_iff (payload : SerializedPayload) (hlen : payload.length < 2 ^ 32)
    (hfits : payload.length ≤ payload.max_size) (hfs : 0 < fs) (hfs' : fs < 2 ^ 16) :
    Terminates payload fs ↔ ListEnds payload.length payload.max_size fs := by
  constructor
  · intro h
    rcases Nat.eq_zero_or_pos (fragmentCount payload.length fs) with hzero | hpos
    · exact Or.inl hzero
    · obtain ⟨h7, hcount⟩ := h.list_built hfs hpos
      exact Or.inr ⟨h7, hcount, h.link_past hlen hfits hfs hfs' hpos⟩
  · exact terminates_of_listEnds hlen hfits hfs hfs'

/-- With fragments of a multiple of 4 bytes the list that is built ends. -/
theorem listEnds_of_four_dvd {len max_size : Nat} (h4 : 4 ∣ fs) (h7 : 7 ≤ max_size)
    (hcount : fragmentCount len fs + 1 < 2 ^ 32) : ListEnds len max_size fs := by
  rcases Nat.eq_zero_or_pos (fragmentCount len fs) with hzero | hpos
  · exact Or.inl hzero
  · exact Or.inr ⟨h7, hcount, Nat.le_of_eq
      (firstLink_aligned (by omega) hpos (Nat.dvd_mul_right_of_dvd h4 _)).symm⟩

/-- Below 256 fragments, the list that is built ends exactly where the last link starts at the byte
of the first one. -/
theorem listEnds_small {len max_size n : Nat} (hcount : fragmentCount len fs = n + 1)
    (hn : n + 1 < 256) : ListEnds len max_size fs ↔ 7 ≤ max_size ∧ 4 ∣ fs * n := by
  unfold ListEnds
  rw [hcount, firstLink_small hn, ← slot_eq_three_iff]
  constructor
  · rintro (hzero | ⟨h7, -, hle⟩)
    · omega
    · split_ifs at hle with hslot
      · exact ⟨h7, hslot⟩
      · omega
  · rintro ⟨h7, hslot⟩
    rw [if_pos hslot]
    exact Or.inr ⟨h7, by omega, Nat.le_refl _⟩

/-- Twelve zero bytes, in a buffer of that size. -/
def twelveBytes : SerializedPayload where
  length := 12
  max_size := 12
  data := fun _ => 0

/-- Fragments of 4 bytes are a list that ends, those of 6 bytes are not. -/
theorem terminates_iff_twelve :
    (Terminates twelveBytes 4 ↔ ListEnds twelveBytes.length twelveBytes.max_size 4) ∧
      Terminates twelveBytes 4 ∧ ¬ Terminates twelveBytes 6 := by
  have hfour : Terminates twelveBytes 4 ↔ ListEnds twelveBytes.length twelveBytes.max_size 4 :=
    terminates_iff twelveBytes (by decide) (by decide) (by decide) (by decide)
  have hsix : Terminates twelveBytes 6 ↔ ListEnds twelveBytes.length twelveBytes.max_size 6 :=
    terminates_iff twelveBytes (by decide) (by decide) (by decide) (by decide)
  refine ⟨hfour, hfour.2 (listEnds_of_four_dvd (by decide) (by decide) (by decide)), ?_⟩
  rw [hsix, listEnds_small (n := 1) (by decide) (by decide)]
  decide

/-- With two fragments of 6 bytes the list is a loop as soon as it has been built. -/
theorem not_terminates_six :
    (∃ σ, Session.start 3 twelveBytes 6 = some σ ∧ σ.change.first_missing_fragment_ = 0 ∧
      σ.change.fragment_count_ = 2 ∧ σ.change.getNextMissingFragment 0 = some 0) ∧
      ¬ Terminates twelveBytes 6 := by
  have hloop : ∃ σ, Session.start 3 twelveBytes 6 = some σ ∧
      σ.change.first_missing_fragment_ = 0 ∧ σ.change.fragment_count_ = 2 ∧
      σ.change.getNextMissingFragment 0 = some 0 := ⟨_, rfl, rfl, rfl, by decide⟩
  refine ⟨hloop, fun h => ?_⟩
  obtain ⟨σ, hσ, hfirst, hcount, hlink⟩ := hloop
  obtain ⟨j, hj, hlt⟩ := h.start hσ 0 (Visits.of_first hfirst) (by rw [hcount]; decide)
  rw [hlink] at hj
  cases hj
  omega

end Rtps
end Mozi
