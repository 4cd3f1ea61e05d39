import Mozi.Rtps.Storage.Sizes

/-!
# FirstLink — the link that building the list leaves at fragment 0

The link of fragment `i` is written to the four bytes from `slot fs i` on, one link after another.
What the link of fragment 0, at byte 3, is in the end depends on the fragment size and on the
number of fragments only (`firstLink`).
-/

namespace Mozi
namespace Rtps

open Foundation

/-! ## Bytes of links -/

/-- The offset of the link of fragment `i`. -/
def slot (fs i : Nat) : Nat :=
  (fs * i + 3) % 4

/-- Byte `3 + b` of the buffer after the links of `n` fragments: a byte of the last link that
reaches it. -/
def linkByte (fs b : Nat) : Nat → Nat
  | 0 => 0
  | j + 1 =>
      if b ≤ slot fs j then (j + 1) / 256 ^ (3 + b - slot fs j) % 256 else linkByte fs b j

/-- The link of fragment 0 after the links of `n` fragments. -/
def firstLink (fs n : Nat) : Nat :=
  linkByte fs 0 n + 256 * (linkByte fs 1 n + 256 * (linkByte fs 2 n + 256 * linkByte fs 3 n))

variable {fs n i b : Nat}

theorem slot_le (fs i : Nat) : slot fs i ≤ 3 := by
  unfold slot
  omega

theorem slot_zero (fs : Nat) : slot fs 0 = 3 := rfl

theorem slot_four (fs : Nat) : slot fs 4 = 3 := by
  unfold slot
  omega

theorem slot_eq_three_iff : slot fs i = 3 ↔ 4 ∣ fs * i := by
  unfold slot
  omega

theorem linkByte_aligned (h : slot fs n = 3) (hb : b ≤ 3) :
    linkByte fs b (n + 1) = (n + 1) / 256 ^ b % 256 := by
  rw [linkByte, h, if_pos hb, Nat.add_sub_cancel_left]

/-- Where the last link starts at byte 3, fragment 0 links past the end. -/
theorem firstLink_aligned (hn : n < 2 ^ 32) (hpos : 0 < n) (h : 4 ∣ fs * (n - 1)) :
    firstLink fs n = n := by
  obtain ⟨k, rfl⟩ : ∃ k, n = k + 1 := ⟨n - 1, by omega⟩
  have hslot : slot fs k = 3 := slot_eq_three_iff.2 h
  rw [firstLink, linkByte_aligned hslot (by decide), linkByte_aligned hslot (by decide),
    linkByte_aligned hslot (by decide), linkByte_aligned hslot (by decide)]
  omega

/-- Small numbers have one byte, which the links of other fragments clear. -/
theorem linkByte_high (hn : n < 256) (hb : 1 ≤ b) : linkByte fs b n = 0 := by
  induction n with
  | zero =>
      rfl
  | succ j ih =>
      have hslot := slot_le fs j
      unfold linkByte
      split_ifs with hle
      · obtain ⟨e, he⟩ : ∃ e, 3 + b - slot fs j = e + 1 := ⟨3 + b - slot fs j - 1, by omega⟩
        have hpow : 256 ≤ 256 ^ (e + 1) := Nat.le_self_pow (by omega) 256
        rw [he, Nat.div_eq_of_lt (by omega)]
      · exact ih (by omega)

theorem linkByte_low (hn : n + 1 < 256) :
    linkByte fs 0 (n + 1) = if slot fs n = 3 then n + 1 else 0 := by
  have hslot := slot_le fs n
  unfold linkByte
  rw [if_pos (Nat.zero_le _)]
  split_ifs with h
  · rw [h, Nat.add_zero, Nat.sub_self, Nat.pow_zero, Nat.div_one, Nat.mod_eq_of_lt hn]
  · obtain ⟨e, he⟩ : ∃ e, 3 + 0 - slot fs n = e + 1 := ⟨3 + 0 - slot fs n - 1, by omega⟩
    have hpow : 256 ≤ 256 ^ (e + 1) := Nat.le_self_pow (by omega) 256
    rw [he, Nat.div_eq_of_lt (by omega)]

/-- Below 256 fragments the link of fragment 0 leads past the end or to fragment 0. -/
theorem firstLink_small (hn : n + 1 < 256) :
    firstLink fs (n + 1) = if slot fs n = 3 then n + 1 else 0 := by
  have h₁ : linkByte fs 1 (n + 1) = 0 := linkByte_high hn (by decide)
  have h₂ : linkByte fs 2 (n + 1) = 0 := linkByte_high hn (by decide)
  have h₃ : linkByte fs 3 (n + 1) = 0 := linkByte_high hn (by decide)
  rw [firstLink, h₁, h₂, h₃, linkByte_low hn]
  omega

namespace CacheChange

variable {ch ch' : CacheChange} {fuel : Nat}

/-! ## The buffer -/

theorem nextFragmentPointer_eq (ch : CacheChange) (i : Nat) :
    ch.nextFragmentPointer i = slot ch.fragment_size_ i := by
  have hmask : (ch.fragment_size_ * i + 3) % 2 ^ 64 &&& 3 =
      (ch.fragment_size_ * i + 3) % 2 ^ 64 % 4 :=
    Nat.and_two_pow_sub_one_eq_mod _ 2
  unfold nextFragmentPointer slot
  rw [hmask]
  omega

/-- The links that start at the same byte are the same. -/
theorem getNextMissingFragment_congr {j : Nat}
    (h : slot ch.fragment_size_ i = slot ch.fragment_size_ j) :
    ch.getNextMissingFragment i = ch.getNextMissingFragment j := by
  unfold getNextMissingFragment
  rw [nextFragmentPointer_eq, nextFragmentPointer_eq, h]

/-- One more link, seen at the bytes from 3 to 6. -/
theorem store_link_byte (mem : Memory) (hb : b < 4)
    (hmem : 1 ≤ i → (mem (3 + b)).toNat = linkByte fs b i) :
    (mem.store (slot fs i) (Memory.bytes32 (i + 1)) (3 + b)).toNat = linkByte fs b (i + 1) := by
  have hslot := slot_le fs i
  unfold linkByte
  split_ifs with hle
  · -- The link reaches the byte.
    obtain ⟨k, hk⟩ : ∃ k, k = 3 + b - slot fs i := ⟨_, rfl⟩
    have haddr : 3 + b = slot fs i + k := by omega
    have hlt : k < (Memory.bytes32 (i + 1)).length := by
      rw [Memory.length_bytes32]
      omega
    rw [← hk, haddr, Memory.store_inside hlt, Memory.getElem_bytes32 hlt,
      UInt8.toNat_ofNat']
  · -- It starts too early, and is not the first one.
    have hpos : 1 ≤ i := by
      by_contra hzero
      obtain rfl : i = 0 := by omega
      rw [slot_zero] at hle
      omega
    rw [Memory.store_outside (by rw [Memory.length_bytes32]; omega)]
    exact hmem hpos

/-- The rounds of `linkFragments` before fragment `p.1` have written the links of `p.1 - 1`
fragments. -/
structure LinksWritten (ch : CacheChange) (p : Nat × CacheChange) : Prop where
  sizes : SameSizes ch p.2
  pos : 1 ≤ p.1
  le : p.1 ≤ ch.fragment_count_ + 1
  bytes : ∀ b, b < 4 → 2 ≤ p.1 →
    (p.2.serialized_payload.data (3 + b)).toNat = linkByte ch.fragment_size_ b (p.1 - 1)

theorem LinksWritten.init (ch : CacheChange) : LinksWritten ch (1, ch) where
  sizes := SameSizes.refl ch
  pos := Nat.le_refl 1
  le := Nat.succ_le_succ (Nat.zero_le _)
  bytes := fun _ _ htwo => absurd htwo (Nat.not_le.2 Nat.one_lt_two)

/-- One round writes one link. -/
theorem LinksWritten.step {c : CacheChange} (h : LinksWritten ch (i + 1, c))
    (hi : i < ch.fragment_count_) (hset : c.setNextMissingFragment i (i + 1) = some ch') :
    LinksWritten ch (i + 2, ch') where
  sizes := h.sizes.trans (setNextMissingFragment_sizes hset)
  pos := Nat.succ_pos (i + 1)
  le := Nat.succ_le_succ hi
  bytes := by
    intro b hb _
    have hsize : c.fragment_size_ = ch.fragment_size_ := h.sizes.size
    unfold setNextMissingFragment at hset
    simp only [nextFragmentPointer_eq] at hset
    rw [hsize] at hset
    split_ifs at hset
    cases hset
    exact store_link_byte _ hb fun hpos => h.bytes b hb (Nat.succ_le_succ hpos)

/-- The link of fragment 0 when the list has been built. -/
theorem linkFragments_first (hpos : 0 < ch.fragment_count_)
    (hcount : ch.fragment_count_ + 1 < 2 ^ 32) (h : ch.linkFragments fuel = some ch') :
    ch'.serialized_payload.data.word32 3 = firstLink ch.fragment_size_ ch.fragment_count_ := by
  unfold linkFragments at h
  rcases Option.map_eq_some_iff.1 h with ⟨⟨j, c⟩, hloop, rfl⟩
  have hinv := whileM_invariant (I := LinksWritten ch) ?_ (LinksWritten.init ch) hloop
  · obtain ⟨hwritten, hend⟩ := hinv
    have hlast : j = ch.fragment_count_ + 1 := by
      have hcond : ¬ j ≤ c.fragment_count_ := by simpa using hend
      rw [hwritten.sizes.count] at hcond
      have hle := hwritten.le
      simp only at hle
      omega
    subst hlast
    have hbytes : ∀ b, b < 4 → (c.serialized_payload.data (3 + b)).toNat =
        linkByte ch.fragment_size_ b ch.fragment_count_ :=
      fun b hb => hwritten.bytes b hb (Nat.succ_le_succ hpos)
    rw [Memory.word32, firstLink, ← hbytes 0 (by decide), ← hbytes 1 (by decide),
      ← hbytes 2 (by decide), ← hbytes 3 (by decide)]
  · rintro ⟨j, c⟩ q hwritten hcond hq
    have hj : j ≤ ch.fragment_count_ := by
      have hcond : j ≤ c.fragment_count_ := by simpa using hcond
      rwa [hwritten.sizes.count] at hcond
    obtain ⟨i, rfl⟩ : ∃ i, j = i + 1 := ⟨j - 1, by have := hwritten.pos; simp only at this; omega⟩
    rcases Option.map_eq_some_iff.1 hq with ⟨c', hset, rfl⟩
    have hprev : sub32 (i + 1) 1 = i := sub32_of_le (by omega) (by omega)
    rw [hprev] at hset
    rw [u32_of_lt (by omega)]
    exact hwritten.step hj hset

/-- With the largest count the loop counter wraps before it passes the count. -/
theorem linkFragments_diverges (hcount : ch.fragment_count_ = 2 ^ 32 - 1) (fuel : Nat) :
    ch.linkFragments fuel = none := by
  unfold linkFragments
  rw [whileM_diverges (J := fun p : Nat × CacheChange => SameSizes ch p.2 ∧ p.1 < 2 ^ 32)
    ?_ ?_ ⟨SameSizes.refl ch, Nat.one_lt_two_pow (by decide)⟩ fuel]
  · rfl
  · rintro p ⟨hsame, hlt⟩
    rw [hsame.count, hcount, decide_eq_true_eq]
    omega
  · rintro p q ⟨hsame, -⟩ hq
    rcases Option.map_eq_some_iff.1 hq with ⟨c, hset, rfl⟩
    exact ⟨hsame.trans (setNextMissingFragment_sizes hset), u32_lt _⟩

/-- The list is built where there is no link, or room for the first ones and a count that the loop
counter can pass. -/
theorem linkFragments_returns_iff (hcount : ch.fragment_count_ < 2 ^ 32) :
    (∃ fuel ch', ch.linkFragments fuel = some ch') ↔
      ch.fragment_count_ = 0 ∨
        7 ≤ ch.serialized_payload.max_size ∧ ch.fragment_count_ + 1 < 2 ^ 32 := by
  constructor
  · rintro ⟨fuel, ch', hlinks⟩
    rcases Nat.eq_zero_or_pos ch.fragment_count_ with hzero | hpos
    · exact Or.inl hzero
    · refine Or.inr ⟨?_, ?_⟩
      · by_contra hsmall
        rw [linkFragments_small (Nat.lt_of_not_le hsmall) hpos] at hlinks
        cases hlinks
      · by_contra hlarge
        rw [linkFragments_diverges (by omega)] at hlinks
        cases hlinks
  · rintro (hzero | ⟨hroom, hnext⟩)
    · exact ⟨1, ch, linkFragments_empty hzero 0⟩
    · obtain ⟨fuel, ch', hlinks, -, -⟩ := ch.linkFragments_returns hroom hnext
      exact ⟨fuel, ch', hlinks⟩

end CacheChange

end Rtps
end Mozi
