import Mozi.Foundation.Cdr

/-!
# Property — the serialized size of property lists

`PropertyHelper` and `BinaryPropertyHelper` of `property/property.h` and
`property/binary_property.h`.  Both compute with the running offset in a `size_t`.  The sizes are
compared with the encoding they predict, `encodeProperties` and `encodeBinaryProperties`.

The overload of `PropertyHelper` for sequences is spelled `seriaized_size` in the source, the member
that `propagate()` reads `propagte_`.
-/

namespace Mozi
namespace Rtps

open Foundation Cdr

/-! ## The source -/

structure Property where
  name : List UInt8
  value : List UInt8
  propagate : Bool
deriving DecidableEq

structure BinaryProperty where
  name : List UInt8
  value : List UInt8
  propagate : Bool
deriving DecidableEq

/-- `size()`, a `size_t` -/
def size (bs : List UInt8) : UInt64 :=
  UInt64.ofNat bs.length

def alignment (current_alignment data_size : UInt64) : UInt64 :=
  (data_size - current_alignment % data_size) &&& (data_size - 1)

/-- The offset after a length and `bytes` bytes. -/
def afterBlock (bytes current_alignment : UInt64) : UInt64 :=
  current_alignment + (4 + alignment current_alignment 4 + bytes)

/-- Both helpers on one property, the sizes with their terminators. -/
def propertySize (propagate : Bool) (nameBytes valueBytes current_alignment : UInt64) : UInt64 :=
  if propagate then
    let initial_alignment := current_alignment
    let current_alignment := afterBlock nameBytes current_alignment
    let current_alignment := afterBlock valueBytes current_alignment
    current_alignment - initial_alignment
  else
    0

/-- Both helpers on a sequence. -/
def sequenceSize {P : Type*} (serialized_size : P → UInt64 → UInt64) (properties : List P)
    (current_alignment : UInt64) : UInt64 :=
  let initial_alignment := current_alignment
  let current_alignment := current_alignment + (4 + alignment current_alignment 4)
  properties.foldl (fun c property => c + serialized_size property c) current_alignment -
    initial_alignment

def PropertyHelper.serialized_size (property : Property) (current_alignment : UInt64) : UInt64 :=
  propertySize property.propagate (size property.name + 1) (size property.value + 1)
    current_alignment

def PropertyHelper.seriaized_size (properties : List Property) (current_alignment : UInt64) :
    UInt64 :=
  sequenceSize PropertyHelper.serialized_size properties current_alignment

/-- The value has no terminator. -/
def BinaryPropertyHelper.serialized_size (binary_property : BinaryProperty)
    (current_alignment : UInt64) : UInt64 :=
  propertySize binary_property.propagate (size binary_property.name + 1)
    (size binary_property.value) current_alignment

def BinaryPropertyHelper.serialized_size_sequence (binary_properties : List BinaryProperty)
    (current_alignment : UInt64) : UInt64 :=
  sequenceSize BinaryPropertyHelper.serialized_size binary_properties current_alignment

/-! ## The encoding -/

/-- The fields of the propagated properties after their number. -/
def encodeSequence {P : Type*} (propagate : P → Bool) (fields : P → Writer) (ps : List P) : Writer :=
  seq (uint32 (ps.countP propagate))
    (all (ps.map fun p => if propagate p then fields p else bytes []))

def encodeProperties (ps : List Property) : Writer :=
  encodeSequence Property.propagate (fun p => seq (block (p.name ++ [0])) (block (p.value ++ [0]))) ps

def encodeBinaryProperties (ps : List BinaryProperty) : Writer :=
  encodeSequence BinaryProperty.propagate (fun p => seq (block (p.name ++ [0])) (block p.value)) ps

/-- The size of a sequence predicts its encoding: exactly while the offset stays in a `size_t`,
without regard to what is not propagated, and from the start offset modulo 4 only. -/
structure Predicts {P : Type*} (propagate : P → Bool) (serialized_size : List P → UInt64 → UInt64)
    (encode : List P → Writer) : Prop where
  exact : ∀ ps (a : UInt64), a.toNat + (encode ps a.toNat).length < 2 ^ 64 →
    (serialized_size ps a).toNat = (encode ps a.toNat).length
  dropped : ∀ ps a, serialized_size (ps.filter propagate) a = serialized_size ps a
  aligned : ∀ ps a b, a % 4 = b % 4 → serialized_size ps a = serialized_size ps b

/-! ## One block -/

/-- The padding that the masked difference gives. -/
theorem alignment_ofNat (n : Nat) :
    alignment (UInt64.ofNat n) 4 = UInt64.ofNat ((4 - n % 4) % 4) := by
  have hmod : (UInt64.ofNat n % 4).toNat = n % 4 := by
    rw [UInt64.toNat_mod, UInt64.toNat_ofNat']
    exact Nat.mod_mod_of_dvd n (by decide)
  have hcases : ∀ k < 4, ∀ c : UInt64, c.toNat = k →
      (4 - c) &&& (4 - 1) = UInt64.ofNat ((4 - k) % 4) := by
    intro k hk c hc
    have hck : c = UInt64.ofNat k := by rw [← hc, UInt64.ofNat_toNat]
    rw [hck]
    have hall : ∀ k < 4, (4 - UInt64.ofNat k) &&& (4 - 1) = UInt64.ofNat ((4 - k) % 4) := by decide
    exact hall k hk
  exact hcases (n % 4) (Nat.mod_lt n (by decide)) _ hmod

theorem ofNat_four : UInt64.ofNat 4 = 4 := rfl

theorem advances_uint32 (k : Nat) : Advances (uint32 k) fun c => c + (4 + alignment c 4) := by
  intro n
  simp only [alignment_ofNat, length_uint32, UInt64.ofNat_add, ofNat_four]
  ac_rfl

theorem advances_block (bs : List UInt8) : Advances (block bs) (afterBlock (size bs)) := by
  intro n
  have hblock := (advances_uint32 bs.length).seq (advances_bytes bs)
  rw [afterBlock, size, ← UInt64.add_assoc]
  exact hblock n

theorem size_terminated (bs : List UInt8) : size (bs ++ [0]) = size bs + 1 := by
  rw [size, size, List.length_append, UInt64.ofNat_add]
  rfl

/-! ## One property -/

section Sequences

variable {P : Type*} {propagate : P → Bool} {fields : P → Writer}
  {serialized_size : P → UInt64 → UInt64}

/-- The size of each property is the advance over what it writes. -/
def Measures (propagate : P → Bool) (fields : P → Writer)
    (serialized_size : P → UInt64 → UInt64) : Prop :=
  ∀ p, Advances (if propagate p then fields p else bytes []) fun c => c + serialized_size p c

theorem add_sub_self (c x : UInt64) : c + (x - c) = x := by
  rw [UInt64.add_comm, UInt64.sub_add_cancel]

theorem measures_propertySize (propagate : P → Bool) (name value : P → List UInt8) :
    Measures propagate (fun p => seq (block (name p)) (block (value p)))
      fun p => propertySize (propagate p) (size (name p)) (size (value p)) := by
  intro p
  cases hp : propagate p with
  | true =>
      have hblocks := (advances_block (name p)).seq (advances_block (value p))
      intro n
      simp only [hp, propertySize, if_true, add_sub_self]
      exact hblocks n
  | false =>
      intro n
      simp [hp, propertySize, bytes]

/-! ## Sequences -/

theorem advances_foldl (h : Measures propagate fields serialized_size) (ps : List P) :
    Advances (all (ps.map fun p => if propagate p then fields p else bytes []))
      (ps.foldl fun c p => c + serialized_size p c) := by
  induction ps with
  | nil =>
      intro n
      simp [all, bytes]
  | cons p ps ih => exact (h p).seq ih

theorem advances_encodeSequence (h : Measures propagate fields serialized_size) (ps : List P) :
    Advances (encodeSequence propagate fields ps) fun c =>
      ps.foldl (fun c p => c + serialized_size p c) (c + (4 + alignment c 4)) :=
  (advances_uint32 _).seq (advances_foldl h ps)

theorem sequenceSize_eq (h : Measures propagate fields serialized_size) (ps : List P)
    (a : UInt64) :
    sequenceSize serialized_size ps a =
      UInt64.ofNat (encodeSequence propagate fields ps a.toNat).length :=
  (advances_encodeSequence h ps).length a

/-- What is not propagated is not written. -/
theorem encodeSequence_filter (ps : List P) :
    encodeSequence propagate fields (ps.filter propagate) = encodeSequence propagate fields ps := by
  have hcount : (ps.filter propagate).countP propagate = ps.countP propagate := by
    rw [List.countP_filter, List.countP_congr]
    simp
  have hall : all ((ps.filter propagate).map fun p => if propagate p then fields p else bytes []) =
      all (ps.map fun p => if propagate p then fields p else bytes []) := by
    induction ps with
    | nil => rfl
    | cons p ps ih =>
        cases hp : propagate p <;> simp_all [all]
  rw [encodeSequence, encodeSequence, hcount, hall]

theorem periodic_encodeSequence (hfields : ∀ p, Periodic (fields p)) (ps : List P) :
    Periodic (encodeSequence propagate fields ps) := by
  refine (periodic_uint32 _).seq (periodic_all fun w hw => ?_)
  obtain ⟨p, -, rfl⟩ := List.mem_map.1 hw
  cases propagate p with
  | true => exact hfields p
  | false => exact periodic_bytes []

theorem predicts (h : Measures propagate fields serialized_size)
    (hfields : ∀ p, Periodic (fields p)) :
    Predicts propagate (sequenceSize serialized_size) (encodeSequence propagate fields) where
  exact ps a hfits := by
    rw [sequenceSize_eq h, UInt64.toNat_ofNat', Nat.mod_eq_of_lt (by omega)]
  dropped ps a := by
    rw [sequenceSize_eq h, sequenceSize_eq h, encodeSequence_filter]
  aligned ps a b hab := by
    have hmod : a.toNat % 4 = b.toNat % 4 := by
      have := congrArg UInt64.toNat hab
      simpa [UInt64.toNat_mod] using this
    rw [sequenceSize_eq h, sequenceSize_eq h, periodic_encodeSequence hfields ps _ _ hmod]

end Sequences

/-- Both helpers predict the size of the encoding. -/
theorem serializedSizes_predict :
    Predicts Property.propagate PropertyHelper.seriaized_size encodeProperties ∧
      Predicts BinaryProperty.propagate BinaryPropertyHelper.serialized_size_sequence
        encodeBinaryProperties := by
  constructor
  · refine predicts (fun p => ?_) fun p => (periodic_block _).seq (periodic_block _)
    have hmeasure := measures_propertySize Property.propagate (fun p => p.name ++ [0])
      (fun p => p.value ++ [0]) p
    simpa only [PropertyHelper.serialized_size, size_terminated] using hmeasure
  · refine predicts (fun p => ?_) fun p => (periodic_block _).seq (periodic_block _)
    have hmeasure := measures_propertySize BinaryProperty.propagate (fun p => p.name ++ [0])
      (fun p => p.value) p
    simpa only [BinaryPropertyHelper.serialized_size, size_terminated] using hmeasure

/-- A property, one that is not propagated, and one with an empty value. -/
def mixedProperties : List Property :=
  [⟨[1, 2, 3], [4, 5], true⟩, ⟨[6], [7], false⟩, ⟨[8], [], true⟩]

def mixedBinaryProperties : List BinaryProperty :=
  [⟨[1], [2, 3, 4, 5, 6], true⟩, ⟨[7], [8], false⟩]

theorem serializedSizes_predict_mixed :
    (PropertyHelper.seriaized_size mixedProperties 2).toNat =
        (encodeProperties mixedProperties 2).length ∧
      (encodeProperties mixedProperties 2).length = 35 ∧
      (BinaryPropertyHelper.serialized_size_sequence mixedBinaryProperties 3).toNat =
        (encodeBinaryProperties mixedBinaryProperties 3).length :=
  ⟨serializedSizes_predict.1.exact mixedProperties 2 (by decide), by decide,
    serializedSizes_predict.2.exact mixedBinaryProperties 3 (by decide)⟩

end Rtps
end Mozi
