import Mozi.Rtps.Storage.FragmentRange
import Mozi.Rtps.Storage.FirstLink

/-!
# LinkSlots — the slot of a link and the bytes of its fragment

The link of a fragment that is missing is meant to stand in the bytes of that fragment, where no
other link and no received fragment is.  With `& 3u` for `& ~3u` every slot lies in the first seven
bytes of the buffer, so that holds of a payload of one fragment with at least seven bytes, and of a
payload without fragments.
-/

namespace Mozi
namespace Rtps

open Foundation

namespace CacheChange

variable {ch ch' : CacheChange} {fuel i j len room fs : Nat}

/-- The first byte of a fragment. -/
def fragmentStart (ch : CacheChange) (i : Nat) : Nat :=
  i * ch.fragment_size_

/-- The end of a fragment; the last one may be short. -/
def fragmentEnd (ch : CacheChange) (i : Nat) : Nat :=
  min ((i + 1) * ch.fragment_size_) ch.serialized_payload.length

/-- Every link has the bytes of its own fragment to itself. -/
structure PrivateSlots (ch : CacheChange) : Prop where
  inside : ∀ i < ch.fragment_count_, ch.nextFragmentPointer i + 4 ≤ ch.serialized_payload.max_size
  own : ∀ i < ch.fragment_count_,
    ch.fragmentStart i ≤ ch.nextFragmentPointer i ∧ ch.nextFragmentPointer i + 4 ≤ ch.fragmentEnd i
  apart : ∀ i < ch.fragment_count_, ∀ j < ch.fragment_count_, i ≠ j →
    Apart (ch.nextFragmentPointer i) 4 (ch.nextFragmentPointer j) 4
  link_kept : ∀ i < ch.fragment_count_, ∀ j < ch.fragment_count_, i ≠ j → ∀ next ch',
    ch.setNextMissingFragment i next = some ch' →
      ch'.getNextMissingFragment j = ch.getNextMissingFragment j
  bytes_kept : ∀ i < ch.fragment_count_, ∀ j < ch.fragment_count_, i ≠ j → ∀ next ch',
    ch.setNextMissingFragment i next = some ch' →
      ∀ x, ch.fragmentStart j ≤ x → x < ch.fragmentEnd j →
        ch'.serialized_payload.data x = ch.serialized_payload.data x

/-! ## Slots in their fragments -/

/-- Two fragments share no byte. -/
theorem fragmentEnd_le (ch : CacheChange) (hij : i < j) : ch.fragmentEnd i ≤ ch.fragmentStart j :=
  Nat.le_trans (Nat.min_le_left _ _) (Nat.mul_le_mul_right ch.fragment_size_ hij)

/-- A write to a slot changes the bytes of the slot only. -/
theorem setNextMissingFragment_outside {next x : Nat}
    (h : ch.setNextMissingFragment i next = some ch')
    (hx : x < ch.nextFragmentPointer i ∨ ch.nextFragmentPointer i + 4 ≤ x) :
    ch'.serialized_payload.data x = ch.serialized_payload.data x := by
  unfold setNextMissingFragment at h
  simp only at h
  split_ifs at h
  cases h
  exact Memory.store_outside (by simpa using hx)

/-- The rest follows where each slot lies in its fragment. -/
theorem PrivateSlots.of_own
    (hfits : ch.serialized_payload.length ≤ ch.serialized_payload.max_size)
    (hown : ∀ i < ch.fragment_count_, ch.fragmentStart i ≤ ch.nextFragmentPointer i ∧
      ch.nextFragmentPointer i + 4 ≤ ch.fragmentEnd i) : PrivateSlots ch := by
  have houtside : ∀ i < ch.fragment_count_, ∀ j, i ≠ j → ∀ x,
      ch.fragmentStart j ≤ x → x < ch.fragmentEnd j →
        x < ch.nextFragmentPointer i ∨ ch.nextFragmentPointer i + 4 ≤ x := by
    intro i hi j hij x hstart hend
    obtain ⟨hle, hslot⟩ := hown i hi
    rcases Nat.lt_or_gt_of_ne hij with hlt | hgt
    · have := ch.fragmentEnd_le hlt
      omega
    · have := ch.fragmentEnd_le hgt
      omega
  refine ⟨fun i hi => ?_, hown, fun i hi j hj hij => ?_, fun i hi j hj hij next ch' hset => ?_,
    fun i hi j hj hij next ch' hset x hstart hend =>
      setNextMissingFragment_outside hset (houtside i hi j hij x hstart hend)⟩
  · obtain ⟨-, hslot⟩ := hown i hi
    have hend : ch.fragmentEnd i ≤ ch.serialized_payload.length := Nat.min_le_right _ _
    omega
  · obtain ⟨hle, hslot⟩ := hown j hj
    have hfirst := houtside i hi j hij (ch.nextFragmentPointer j) hle (by omega)
    have hlast := houtside i hi j hij (ch.nextFragmentPointer j + 3) (by omega) (by omega)
    unfold Apart
    omega
  · -- The link is read at the same place, and its bytes are in fragment `j`.
    obtain ⟨hle, hslot⟩ := hown j hj
    have hsizes := setNextMissingFragment_sizes hset
    have hpointer : ch'.nextFragmentPointer j = ch.nextFragmentPointer j := by
      rw [nextFragmentPointer, nextFragmentPointer, hsizes.size]
    have hword : ch'.serialized_payload.data.word32 (ch.nextFragmentPointer j) =
        ch.serialized_payload.data.word32 (ch.nextFragmentPointer j) := by
      refine Memory.word32_congr fun k hk => ?_
      exact setNextMissingFragment_outside hset (houtside i hi j hij _ (by omega) (by omega))
    unfold getNextMissingFragment
    simp only [hpointer, hsizes.max_size, hword]

/-! ## Where the slots are -/

/-- Only fragment 0 can have its slot among its own bytes. -/
theorem ownSlot_iff (hs : Sized ch len room fs) (hfs : 0 < fs) :
    ch.fragmentStart i ≤ ch.nextFragmentPointer i ∧
        ch.nextFragmentPointer i + 4 ≤ ch.fragmentEnd i ↔
      i = 0 ∧ 7 ≤ fs ∧ 7 ≤ len := by
  unfold fragmentStart fragmentEnd
  rw [hs.size, hs.length]
  constructor
  · rintro ⟨hstart, hend⟩
    have hle := ch.nextFragmentPointer_le i
    rcases i with _ | i
    · rw [nextFragmentPointer_zero] at hend
      omega
    · -- A fragment of at most three bytes has no room for four.
      exfalso
      rw [Nat.succ_mul] at hstart
      rw [Nat.succ_mul, Nat.succ_mul] at hend
      rw [nextFragmentPointer_eq, hs.size] at hstart hend hle
      have hsmall : fs = 1 ∨ fs = 2 ∨ fs = 3 := by omega
      unfold slot at hstart hend
      rcases hsmall with rfl | rfl | rfl <;> omega
  · rintro ⟨rfl, hfs7, hlen7⟩
    rw [nextFragmentPointer_zero]
    omega

theorem privateSlots_iff (hs : Sized ch len room fs) (hlen : len < 2 ^ 32) (hfs : 0 < fs)
    (hfs' : fs < 2 ^ 16) (hfits : len ≤ room) :
    PrivateSlots ch ↔ len = 0 ∨ 2 ^ 32 < len + fs ∨ 7 ≤ len ∧ len ≤ fs := by
  have hzero := fragmentCount_zero hlen hfs hfs'
  constructor
  · intro hprivate
    by_contra hcond
    have hpos : 0 < fragmentCount len fs := by omega
    obtain ⟨-, hfs7, hlen7⟩ := (ownSlot_iff hs hfs).1 (hprivate.own 0 (by rw [hs.count]; exact hpos))
    -- With one fragment the payload is no longer than the fragment.
    have hone : fragmentCount len fs ≤ 1 := by
      by_contra hmany
      have := ((ownSlot_iff hs hfs).1 (hprivate.own 1 (by rw [hs.count]; omega))).1
      exact absurd this (by decide)
    have habove := (fragmentCount_bounds hfs hpos hlen hfs').2
    have hmul := Nat.mul_le_mul_right fs hone
    omega
  · intro hcond
    refine PrivateSlots.of_own (by rw [hs.length, hs.max_size]; exact hfits) fun i hi => ?_
    rw [hs.count] at hi
    rw [ownSlot_iff hs hfs]
    rcases hcond with hempty | hover | ⟨hlen7, hle⟩
    · omega
    · omega
    · have hcount := fragmentCount_one hfs (by omega) hle hfs'
      omega

/-- Whatever list is asked for, the slots of the change that `setFragmentSize` leaves are private
exactly where there is no fragment, or one of at least seven bytes. -/
theorem setFragmentSize_privateSlots_iff (ch : CacheChange) (create : Bool)
    (hlen : ch.serialized_payload.length < 2 ^ 32)
    (hfits : ch.serialized_payload.length ≤ ch.serialized_payload.max_size)
    (hfs : 0 < fs) (hfs' : fs < 2 ^ 16) (h : ch.setFragmentSize fuel fs create = some ch') :
    PrivateSlots ch' ↔ ch.serialized_payload.length = 0 ∨
      2 ^ 32 < ch.serialized_payload.length + fs ∨
        7 ≤ ch.serialized_payload.length ∧ ch.serialized_payload.length ≤ fs :=
  privateSlots_iff (setFragmentSize_sized hfs h) hlen hfs hfs' hfits

/-- One fragment of eight bytes. -/
theorem privateSlots_listed :
    PrivateSlots listed ↔ (zeros 8).serialized_payload.length = 0 ∨
      2 ^ 32 < (zeros 8).serialized_payload.length + 8 ∨
        7 ≤ (zeros 8).serialized_payload.length ∧ (zeros 8).serialized_payload.length ≤ 8 := by
  have hset : (zeros 8).setFragmentSize 2 8 true = some listed := rfl
  exact setFragmentSize_privateSlots_iff (zeros 8) true (by decide) (by decide) (by decide)
    (by decide) hset

/-- Two fragments of four bytes have one slot, at byte 3. -/
theorem slots_shared :
    ∃ ch', (zeros 8).setFragmentSize 3 4 true = some ch' ∧ ch'.fragment_count_ = 2 ∧
      ch'.nextFragmentPointer 0 = 3 ∧ ch'.nextFragmentPointer 1 = 3 ∧ ¬ PrivateSlots ch' := by
  refine ⟨_, rfl, rfl, rfl, rfl, fun hprivate => ?_⟩
  have hapart := hprivate.apart 0 (by decide) 1 (by decide) (by decide)
  revert hapart
  decide

end CacheChange

end Rtps
end Mozi
