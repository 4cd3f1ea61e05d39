import Mozi.Foundation.ByteOrder
import Mozi.Foundation.Memcmp
import Mozi.Rtps.Common.Guid

/-!
# GuidOrder — comparing identifiers

The comparisons of `guid.h` and `entity_id.h`, and the conversions between an `EntityId` and its
32-bit number on a little-endian target.  The bytes of an id stand in memory with the most
significant one first, so comparing them as bytes is comparing the numbers.
-/

namespace Mozi
namespace Rtps

open Foundation

/-! ## The source -/

namespace EntityId

def reverse (e : EntityId) : EntityId :=
  #v[e.get 3, e.get 2, e.get 1, e.get 0]

/-- `EntityId(uint32_t)` -/
def ofUint32 (id : UInt32) : EntityId :=
  reverse (littleEndian id)

def toUint32 (e : EntityId) : UInt32 :=
  let res := loadUint32 e
  res >>> 24 ||| (res >>> 8 &&& (0x0000ff00 : UInt32)) |||
    (res <<< 8 &&& (0x00ff0000 : UInt32)) ||| res <<< 24

def cmp (entity1 entity2 : EntityId) : Int :=
  memcmp entity1.toList entity2.toList

/-- `operator<` -/
def lt (e other : EntityId) : Bool :=
  decide (memcmp e.toList other.toList < 0)

/-- `operator==` -/
def eq (id1 id2 : EntityId) : Bool :=
  cmp id1 id2 == 0

/-- `operator!=` -/
def ne (id1 id2 : EntityId) : Bool :=
  !eq id1 id2

/-- `operator==(EntityId&, uint32_t)`: the result, and what is left of the argument, which is
reversed in place before the comparison and after it. -/
def eqUint32 (id1 : EntityId) (id2 : UInt32) : Bool × EntityId :=
  let id1 := reverse id1
  let result := memcmp id1.toList (littleEndian id2).toList == 0
  (result, reverse id1)

end EntityId

namespace GuidPrefix

/-- `operator==` -/
def eq (p prefix2 : GuidPrefix) : Bool :=
  memcmp p.toList prefix2.toList == 0

/-- `operator!=` -/
def ne (p prefix2 : GuidPrefix) : Bool :=
  memcmp p.toList prefix2.toList != 0

/-- `operator<` -/
def lt (p prefix2 : GuidPrefix) : Bool :=
  decide (memcmp p.toList prefix2.toList < 0)

def cmp (prefix1 prefix2 : GuidPrefix) : Int :=
  memcmp prefix1.toList prefix2.toList

end GuidPrefix

namespace GUID

/-- `GUID(const GuidPrefix&, uint32_t)` -/
def ofUint32 (p : GuidPrefix) (id : UInt32) : GUID :=
  { guid_prefix := p
    entity_id := EntityId.ofUint32 id }

/-- `operator==` -/
def eq (g1 g2 : GUID) : Bool :=
  GuidPrefix.eq g1.guid_prefix g2.guid_prefix && EntityId.eq g1.entity_id g2.entity_id

/-- `operator!=` -/
def ne (g1 g2 : GUID) : Bool :=
  GuidPrefix.ne g1.guid_prefix g2.guid_prefix || EntityId.ne g1.entity_id g2.entity_id

/-- `operator<` -/
def lt (g1 g2 : GUID) : Bool :=
  let prefix_cmp := GuidPrefix.cmp g1.guid_prefix g2.guid_prefix
  if prefix_cmp < 0 then true
  else if prefix_cmp > 0 then false
  else EntityId.lt g1.entity_id g2.entity_id

end GUID

/-! ## Entity ids and their numbers -/

namespace EntityId

@[simp] theorem reverse_reverse (e : EntityId) : reverse (reverse e) = e := by
  ext i hi
  have hcases : i = 0 ∨ i = 1 ∨ i = 2 ∨ i = 3 := by omega
  rcases hcases with rfl | rfl | rfl | rfl <;> rfl

/-- The shifts and masks read the bytes from the other end. -/
theorem toUint32_eq (e : EntityId) : toUint32 e = loadUint32 (reverse e) := by
  have h0 : (reverse e)[0] = e[3] := rfl
  have h1 : (reverse e)[1] = e[2] := rfl
  have h2 : (reverse e)[2] = e[1] := rfl
  have h3 : (reverse e)[3] = e[0] := rfl
  refine Word.ext fun j => ?_
  have hlow : Word.bit 0x0000ff00 j = (decide (8 ≤ j) && decide (j - 8 < 8)) :=
    Word.testBit_byteMask 8
  have hhigh : Word.bit 0x00ff0000 j = (decide (16 ≤ j) && decide (j - 16 < 8)) :=
    Word.testBit_byteMask 16
  simp (disch := decide) only [toUint32, Word.bit_or, Word.bit_and, Word.bit_shiftLeft,
    Word.bit_shiftRight, hlow, hhigh, bit_loadUint32, h0, h1, h2, h3]
  grind [byteBit_of_ge]

theorem toUint32_ofUint32 (id : UInt32) : toUint32 (ofUint32 id) = id := by
  rw [toUint32_eq, ofUint32, reverse_reverse, loadUint32_littleEndian]

theorem bigEndian_ofUint32 (id : UInt32) : bigEndian (ofUint32 id).toList = id.toNat := by
  have hbytes : (ofUint32 id).toList =
      [(id >>> 24).toUInt8, (id >>> 16).toUInt8, (id >>> 8).toUInt8, id.toUInt8] := rfl
  have hlt := id.toNat_lt
  rw [hbytes]
  simp [bigEndian, Nat.shiftRight_eq_div_pow]
  omega

theorem eq_iff {id1 id2 : EntityId} : eq id1 id2 = true ↔ id1 = id2 := by
  unfold eq cmp
  rw [beq_iff_eq, memcmp_eq_zero (by simp), Vector.toList_inj]

theorem lt_iff {e other : EntityId} : lt e other = true ↔ e.toList < other.toList := by
  unfold lt
  rw [decide_eq_true_iff, memcmp_neg (by simp)]

theorem lt_ofUint32 (a b : UInt32) : lt (ofUint32 a) (ofUint32 b) = decide (a < b) := by
  unfold lt
  rw [decide_eq_decide, memcmp_neg_iff_bigEndian (by simp), bigEndian_ofUint32, bigEndian_ofUint32,
    UInt32.lt_iff_toNat_lt]

theorem eqUint32_eq (e : EntityId) (id : UInt32) :
    eqUint32 e id = (eq e (ofUint32 id), e) := by
  have hrev : reverse e = littleEndian id ↔ e = ofUint32 id := by
    constructor
    · intro h
      rw [ofUint32, ← h, reverse_reverse]
    · intro h
      rw [h, ofUint32, reverse_reverse]
  have hres : (memcmp (reverse e).toList (littleEndian id).toList == 0) = eq e (ofUint32 id) := by
    rw [Bool.eq_iff_iff, eq_iff, ← hrev, beq_iff_eq, memcmp_eq_zero (by simp), Vector.toList_inj]
  simp only [eqUint32, hres, reverse_reverse]

end EntityId

/-! ## The order -/

namespace GUID

variable {g1 g2 g3 : GUID}

/-- The 16 bytes of an identifier. -/
def bytes (g : GUID) : List UInt8 :=
  g.guid_prefix.toList ++ g.entity_id.toList

@[simp] theorem length_bytes (g : GUID) : g.bytes.length = 16 := by
  simp [bytes]

theorem bytes_inj : g1.bytes = g2.bytes ↔ g1 = g2 := by
  constructor
  · intro h
    obtain ⟨hpre, hentity⟩ := List.append_inj h (by simp)
    cases g1
    cases g2
    simp only [Vector.toList_inj] at hpre hentity
    rw [hpre, hentity]
  · intro h
    rw [h]

theorem eq_iff : eq g1 g2 = true ↔ g1 = g2 := by
  unfold eq GuidPrefix.eq
  rw [Bool.and_eq_true, beq_iff_eq, memcmp_eq_zero (by simp), EntityId.eq_iff, Vector.toList_inj]
  cases g1
  cases g2
  simp

theorem ne_eq_not (g1 g2 : GUID) : ne g1 g2 = !eq g1 g2 := by
  simp [ne, eq, GuidPrefix.ne, GuidPrefix.eq, EntityId.ne, bne, Bool.not_and]

/-- The prefix decides, and the entity id only between identifiers of one prefix. -/
theorem lt_iff : lt g1 g2 = true ↔ memcmp g1.bytes g2.bytes < 0 := by
  have hlength : g1.guid_prefix.toList.length = g2.guid_prefix.toList.length := by simp
  have happend := memcmp_append hlength g1.entity_id.toList g2.entity_id.toList
  unfold lt bytes EntityId.lt GuidPrefix.cmp
  rw [happend]
  grind

theorem lt_eq (g1 g2 : GUID) : lt g1 g2 = decide (g1.bytes < g2.bytes) := by
  rw [Bool.eq_iff_iff, lt_iff, decide_eq_true_iff, memcmp_neg (by simp)]

theorem strictTotal : StrictTotal lt eq := by
  refine ⟨fun g1 g2 => ?_, fun g1 g2 g3 h12 h23 => ?_⟩
  · have heq : eq g1 g2 = true ↔ memcmp g1.bytes g2.bytes = 0 := by
      rw [eq_iff, memcmp_eq_zero (by simp), bytes_inj]
    have hgt : lt g2 g1 = true ↔ 0 < memcmp g1.bytes g2.bytes := by
      rw [lt_iff, memcmp_swap g1.bytes g2.bytes]
      omega
    have hlt : lt g1 g2 = true ↔ memcmp g1.bytes g2.bytes < 0 := lt_iff
    -- One of the three signs.
    rcases Int.lt_trichotomy (memcmp g1.bytes g2.bytes) 0 with h | h | h
    · grind
    · grind
    · grind
  · rw [lt_eq, decide_eq_true_iff] at h12 h23 ⊢
    exact List.lt_trans h12 h23

theorem lt_same_prefix (p : GuidPrefix) (a b : UInt32) :
    lt (ofUint32 p a) (ofUint32 p b) = decide (a < b) := by
  have hself : GuidPrefix.cmp p p = 0 := (memcmp_eq_zero rfl).2 rfl
  simp [lt, ofUint32, hself, EntityId.lt_ofUint32]

/-- `<` on identifiers is the lexicographic order of their 16 bytes, a strict total order with the
equality `==`, and orders the identifiers of one prefix by the numbers of their entities. -/
theorem ordered :
    StrictTotal lt eq ∧
      (∀ g1 g2, lt g1 g2 = decide (g1.bytes < g2.bytes)) ∧
      (∀ g1 g2, ne g1 g2 = !eq g1 g2) ∧
      (∀ id, EntityId.toUint32 (EntityId.ofUint32 id) = id) ∧
      (∀ e id, EntityId.eqUint32 e id = (EntityId.eq e (EntityId.ofUint32 id), e)) ∧
      ∀ p a b, lt (ofUint32 p a) (ofUint32 p b) = decide (a < b) :=
  ⟨strictTotal, lt_eq, ne_eq_not, EntityId.toUint32_ofUint32, EntityId.eqUint32_eq, lt_same_prefix⟩

end GUID
end Rtps
end Mozi
