import Mozi.Foundation.Blocks
import Mozi.Rtps.Common.GuidOrder

/-!
# GuidBlocks — hosts, processes and participants in an ordered container

`isOnSameHostAs` and `isOnSameProcessAs` of `guid.h` compare the first 4 and 8 bytes of the prefix,
and `operator<` orders by the bytes from the first one on.  So in every container that is ordered by
`operator<`, one in which identifiers repeat included, those of one host stand together, inside them
those of one process, and inside these those of one participant (`sorted_blocks`).
-/

namespace Mozi
namespace Rtps
namespace GUID

open Foundation

/-! ## The source -/

def isOnSameHostAs (g other : GUID) : Bool :=
  memcmp (g.guid_prefix.toList.take 4) (other.guid_prefix.toList.take 4) == 0

def isOnSameProcessAs (g other : GUID) : Bool :=
  memcmp (g.guid_prefix.toList.take 8) (other.guid_prefix.toList.take 8) == 0

/-! ## Common beginnings -/

variable {g other : GUID}

/-- The comparison of the first bytes of the prefixes. -/
theorem memcmp_take_iff {n : Nat} (hn : n ≤ 12) :
    (memcmp (g.guid_prefix.toList.take n) (other.guid_prefix.toList.take n) == 0) = true ↔
      g.bytes.take n = other.bytes.take n := by
  have htake : ∀ h : GUID, h.bytes.take n = h.guid_prefix.toList.take n := by
    intro h
    rw [bytes, List.take_append_of_le_length (by simpa using hn)]
  rw [beq_iff_eq, memcmp_eq_zero (by simp), htake, htake]

theorem isOnSameHostAs_iff : isOnSameHostAs g other = true ↔ g.bytes.take 4 = other.bytes.take 4 :=
  memcmp_take_iff (by decide)

theorem isOnSameProcessAs_iff :
    isOnSameProcessAs g other = true ↔ g.bytes.take 8 = other.bytes.take 8 :=
  memcmp_take_iff (by decide)

theorem prefix_eq_iff : GuidPrefix.eq g.guid_prefix other.guid_prefix = true ↔
    g.bytes.take 12 = other.bytes.take 12 := by
  have hall : ∀ h : GUID, h.guid_prefix.toList.take 12 = h.guid_prefix.toList := by
    intro h
    rw [List.take_of_length_le (by simp)]
  have hiff : (memcmp (g.guid_prefix.toList.take 12) (other.guid_prefix.toList.take 12) == 0) =
      true ↔ g.bytes.take 12 = other.bytes.take 12 := memcmp_take_iff (by decide)
  rwa [hall, hall] at hiff

/-- More common bytes are fewer common bytes. -/
theorem take_eq_mono {m n : Nat} (hle : m ≤ n) (h : g.bytes.take n = other.bytes.take n) :
    g.bytes.take m = other.bytes.take m := by
  have htake : ∀ k : GUID, k.bytes.take m = (k.bytes.take n).take m := by
    intro k
    rw [List.take_take, Nat.min_eq_left hle]
  rw [htake, htake, h]

theorem convex_of_take {p : GUID → Bool} {n : Nat}
    (hp : ∀ h, p h = true ↔ g.bytes.take n = h.bytes.take n) :
    Convex (fun a b => lt b a = false) p := by
  intro a b c hab hbc ha hc
  rw [lt_eq, decide_eq_false_iff_not] at hab hbc
  rw [hp] at ha hc ⊢
  have hconnex : ∀ x y : UInt8, ¬ x < y → ¬ y < x → x = y :=
    fun x y hxy hyx => UInt8.le_antisymm (UInt8.not_lt.1 hyx) (UInt8.not_lt.1 hxy)
  rw [take_eq_of_between hconnex hab hbc (ha.symm.trans hc)]
  exact ha

/-! ## Containers -/

/-- In a list that is sorted by `operator<`, where equal identifiers may repeat, those on the host
of `g` are one block, those of its process are one block of this, and those of its participant are
one block of that. -/
theorem sorted_blocks {l : List GUID} (hsorted : l.Pairwise fun a b => lt b a = false) (g : GUID) :
    l.filter (isOnSameHostAs g) <:+: l ∧
      l.filter (isOnSameProcessAs g) <:+: l.filter (isOnSameHostAs g) ∧
      l.filter (fun other => GuidPrefix.eq g.guid_prefix other.guid_prefix) <:+:
        l.filter (isOnSameProcessAs g) := by
  have hhost : Convex (fun a b => lt b a = false) (isOnSameHostAs g) :=
    convex_of_take fun _ => isOnSameHostAs_iff
  have hprocess : Convex (fun a b => lt b a = false) (isOnSameProcessAs g) :=
    convex_of_take fun _ => isOnSameProcessAs_iff
  have hparticipant : Convex (fun a b => lt b a = false)
      (fun other => GuidPrefix.eq g.guid_prefix other.guid_prefix) :=
    convex_of_take fun _ => prefix_eq_iff
  have hprocessHost : ∀ h, isOnSameProcessAs g h = true → isOnSameHostAs g h = true := by
    intro h hh
    exact isOnSameHostAs_iff.2 (take_eq_mono (by decide) (isOnSameProcessAs_iff.1 hh))
  have hparticipantProcess : ∀ h : GUID, GuidPrefix.eq g.guid_prefix h.guid_prefix = true →
      isOnSameProcessAs g h = true := by
    intro h hh
    exact isOnSameProcessAs_iff.2 (take_eq_mono (by decide) (prefix_eq_iff.1 hh))
  refine ⟨filter_block hhost hsorted, ?_, ?_⟩
  · rw [filter_inside l hprocessHost]
    exact filter_block hprocess (hsorted.filter _)
  · rw [filter_inside l hparticipantProcess]
    exact filter_block hparticipant (hsorted.filter _)

/-- An entity twice, another participant of the process, and another host. -/
def fourGuids : List GUID :=
  [ofUint32 #v[1, 0, 0, 0, 2, 0, 0, 0, 0, 0, 0, 1] 0x1c1,
    ofUint32 #v[1, 0, 0, 0, 2, 0, 0, 0, 0, 0, 0, 1] 0x1c1,
    ofUint32 #v[1, 0, 0, 0, 2, 0, 0, 0, 0, 0, 0, 2] 0x1c1,
    ofUint32 #v[7, 0, 0, 0, 2, 0, 0, 0, 0, 0, 0, 1] 0x1c1]

theorem sorted_blocks_four :
    let g := ofUint32 #v[1, 0, 0, 0, 2, 0, 0, 0, 0, 0, 0, 1] 0
    fourGuids.filter (isOnSameHostAs g) <:+: fourGuids ∧
      fourGuids.filter (isOnSameProcessAs g) <:+: fourGuids.filter (isOnSameHostAs g) ∧
      fourGuids.filter (fun other => GuidPrefix.eq g.guid_prefix other.guid_prefix) <:+:
        fourGuids.filter (isOnSameProcessAs g) :=
  sorted_blocks (by decide) _

end GUID
end Rtps
end Mozi
