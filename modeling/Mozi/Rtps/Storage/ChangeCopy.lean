import Mozi.Rtps.Storage.CacheChange
import Mozi.Rtps.Storage.History

/-!
# ChangeCopy — copying payloads and changes

`SerializedPayload::copy` and `reserve` of `serialized_payload.h`, and `CacheChange::copy`.  The
length is assigned before it is compared with the room in the destination, so the copy that is
refused leaves a length beyond the buffer.

An operation gives `none` where it follows a null pointer or leaves a buffer.  `granted` tells
whether the allocator has the memory that is asked for.  `writerGUID` is read as `writer_guid` and
`fragment_coumt_` as `fragment_count_`.
-/

namespace Mozi
namespace Rtps

open DataStructure Foundation

/-! ## The data -/

inductive ChangeKind where
  | ALIVE
  | NOT_ALIVE_DISPOSED
  | NOT_ALIVE_UNREGISTERED
  | NOT_ALIVE_DISPOSED_UNREGISTERED
deriving DecidableEq

/-- A payload with its header. -/
structure EncapsulatedPayload extends SerializedPayload where
  encapsulation : Nat
  /-- `data` is not a null pointer -/
  allocated : Bool

/-- A change with the members that are copied.  Handles, times and parameters are assigned as a
whole. -/
structure CacheChange.Whole (Handle Time Params : Type) extends CacheChange.Key where
  kind : ChangeKind
  instance_handle : Handle
  serialized_payload : EncapsulatedPayload
  is_read : Bool
  source_timestamp : Time
  reception_timestamp : Time
  write_params : Params
  is_untyped_ : Bool
  fragment_size_ : Nat
  fragment_count_ : Nat
  first_missing_fragment_ : Nat

/-- `std::bad_alloc` -/
inductive BadAlloc where
  | bad_alloc

namespace EncapsulatedPayload

/-! ## Copying a payload -/

def reserve (granted : Bool) (p : EncapsulatedPayload) (new_size : Nat) :
    Except BadAlloc Unit × EncapsulatedPayload :=
  if new_size ≤ p.max_size then
    (.ok (), p)
  else if p.allocated = false then
    if granted then
      (.ok (), { p with data := fun _ => 0, allocated := true, max_size := new_size })
    else
      (.error .bad_alloc, p)
  else if granted then
    -- The bytes behind the old ones are cleared.
    (.ok (),
      { p with
        data := p.data.store p.max_size (List.replicate (new_size - p.max_size) 0)
        max_size := new_size })
  else
    (.error .bad_alloc, { p with allocated := false })

/-- The rest of `copy`, where there is room. -/
def copyBytes (p ser : EncapsulatedPayload) : Option (Except BadAlloc Bool × EncapsulatedPayload) :=
  let p := { p with encapsulation := ser.encapsulation }
  if p.length = 0 then
    some (.ok true, p)
  else if p.allocated ∧ ser.allocated ∧ p.length ≤ p.max_size ∧ p.length ≤ ser.max_size then
    some (.ok true, { p with data := p.data.store 0 (ser.data.load 0 p.length) })
  else
    none

def copy (granted : Bool) (p ser : EncapsulatedPayload) (with_limit : Bool) :
    Option (Except BadAlloc Bool × EncapsulatedPayload) :=
  let p := { p with length := ser.length }
  if ser.length > p.max_size then
    if with_limit then
      some (.ok false, p)
    else
      match p.reserve granted ser.length with
      | (.error e, p) => some (.error e, p)
      | (.ok _, p) => copyBytes p ser
  else
    copyBytes p ser

end EncapsulatedPayload

def CacheChange.Whole.copy {Handle Time Params : Type} (granted : Bool)
    (ch change : CacheChange.Whole Handle Time Params) :
    Option (Except BadAlloc Bool × CacheChange.Whole Handle Time Params) :=
  let ch :=
    { ch with
      kind := change.kind
      writer_guid := change.writer_guid
      instance_handle := change.instance_handle
      sequence_number := change.sequence_number
      source_timestamp := change.source_timestamp
      reception_timestamp := change.reception_timestamp
      write_params := change.write_params
      is_read := change.is_read
      fragment_size_ := change.fragment_size_
      fragment_count_ := change.fragment_count_
      first_missing_fragment_ := change.first_missing_fragment_ }
  (ch.serialized_payload.copy granted change.serialized_payload (!change.is_untyped_)).map fun r =>
    (r.1, { ch with serialized_payload := r.2 })

/-! ## Where there is room -/

namespace EncapsulatedPayload

variable {p ser : EncapsulatedPayload} {granted : Bool}

/-- The length stays within the buffer, which is there unless it is empty. -/
structure Sound (p : EncapsulatedPayload) : Prop where
  length_le : p.length ≤ p.max_size
  allocated : 0 < p.max_size → p.allocated = true

/-- A granted request makes room for the new size. -/
theorem reserve_granted (h : p.max_size < n) :
    ∃ t, p.reserve true n = (.ok (), t) ∧ t.length = p.length ∧ t.max_size = n ∧
      t.allocated = true := by
  unfold reserve
  rw [if_neg (by omega)]
  cases hnull : p.allocated with
  | false =>
      exact ⟨_, rfl, rfl, rfl, rfl⟩
  | true =>
      exact ⟨_, rfl, rfl, rfl, rfl⟩

theorem reserve_refused (h : p.max_size < n) :
    ∃ t, p.reserve false n = (.error .bad_alloc, t) := by
  unfold reserve
  rw [if_neg (by omega)]
  cases hnull : p.allocated with
  | false =>
      exact ⟨_, rfl⟩
  | true =>
      exact ⟨_, rfl⟩

/-- The bytes of the source, its length and its encapsulation are in the destination. -/
structure Holds (t ser : EncapsulatedPayload) : Prop where
  length_eq : t.length = ser.length
  encapsulation_eq : t.encapsulation = ser.encapsulation
  bytes_eq : t.data.load 0 t.length = ser.data.load 0 ser.length
  length_le : t.length ≤ t.max_size

theorem copyBytes_holds (p ser : EncapsulatedPayload) (hlength : p.length = ser.length)
    (hroom : p.length ≤ p.max_size) (hser : ser.length ≤ ser.max_size)
    (hbuffers : 0 < ser.length → p.allocated = true ∧ ser.allocated = true) :
    ∃ t, copyBytes p ser = some (.ok true, t) ∧ t.Holds ser := by
  by_cases hempty : p.length = 0
  · refine ⟨{ p with encapsulation := ser.encapsulation }, by simp [copyBytes, hempty], ?_⟩
    exact ⟨hlength, rfl, by simp [hempty, ← hlength], hroom⟩
  · obtain ⟨hdst, hsrc⟩ := hbuffers (by omega)
    refine ⟨{ p with
      encapsulation := ser.encapsulation
      data := p.data.store 0 (ser.data.load 0 p.length) }, ?_, hlength, rfl, ?_, hroom⟩
    · simp only [copyBytes]
      rw [if_neg hempty, if_pos ⟨hdst, hsrc, hroom, by omega⟩]
    · have hload := Memory.load_store_same p.data 0 (ser.data.load 0 p.length)
      rw [Memory.length_load] at hload
      rw [hload, hlength]

/-- Bytes are moved between buffers that are there. -/
theorem copyBytes_buffers {r : Except BadAlloc Bool × EncapsulatedPayload}
    (h : copyBytes p ser = some r) (hpos : 0 < p.length) :
    p.allocated = true ∧ ser.allocated = true := by
  simp only [copyBytes] at h
  split_ifs at h with hempty hroom
  · omega
  · exact ⟨hroom.1, hroom.2.1⟩

/-! ## The result of a copy -/

/-- `copy` returns `false` only where the limit forbids the copy, and then the destination is as
it was; where it returns `true` the destination holds the source. -/
def CopyExact (p ser : EncapsulatedPayload) (with_limit : Bool) : Prop :=
  ∀ granted, ∃ r t, p.copy granted ser with_limit = some (r, t) ∧
    (r = .ok false → with_limit = true ∧ p.max_size < ser.length ∧ t = p) ∧
    (r = .ok true → t.Holds ser) ∧
    (∀ b, r = .ok b → t.length ≤ t.max_size)

/-- The limit does not forbid the copy, and no pointer that it follows is null: that of the source
where there is a byte to copy, and that of the destination where it is not allocated anew. -/
structure Copyable (p ser : EncapsulatedPayload) (with_limit : Bool) : Prop where
  limit : with_limit = true → ser.length ≤ p.max_size
  source : 0 < ser.length → ser.allocated = true
  destination : 0 < ser.length → ser.length ≤ p.max_size → p.allocated = true

/-- The refused copy has assigned the length. -/
theorem copy_refused (h : p.max_size < ser.length) :
    p.copy granted ser true = some (.ok false, { p with length := ser.length }) := by
  simp [copy, h]

/-- So no copy that the limit forbids is exact. -/
theorem CopyExact.limit {with_limit : Bool} (h : CopyExact p ser with_limit)
    (hset : with_limit = true) : ser.length ≤ p.max_size := by
  subst hset
  by_contra hlong
  obtain ⟨r, t, hrun, -, -, hle⟩ := h true
  rw [copy_refused (by omega)] at hrun
  cases hrun
  exact hlong (hle false rfl)

theorem copy_room (granted : Bool) (h : ser.length ≤ p.max_size) (with_limit : Bool) :
    p.copy granted ser with_limit = copyBytes { p with length := ser.length } ser := by
  simp [copy, Nat.not_lt.2 h]

/-- The destination gets a buffer of the length of the source. -/
theorem copy_granted (h : p.max_size < ser.length) :
    ∃ q, p.copy true ser false = copyBytes q ser ∧ q.length = ser.length ∧
      q.max_size = ser.length ∧ q.allocated = true := by
  obtain ⟨q, hq, hlength, hmax, hallocated⟩ :=
    reserve_granted (p := { p with length := ser.length }) h
  exact ⟨q, by simp [copy, h, hq], hlength, hmax, hallocated⟩

theorem copy_thrown (h : p.max_size < ser.length) :
    ∃ t, p.copy false ser false = some (.error .bad_alloc, t) := by
  obtain ⟨t, ht⟩ := reserve_refused (p := { p with length := ser.length }) h
  exact ⟨t, by simp [copy, h, ht]⟩

/-- A copy that may be made throws or makes the destination hold the source. -/
theorem Copyable.copies {with_limit : Bool} (h : Copyable p ser with_limit)
    (hser : ser.length ≤ ser.max_size) (granted : Bool) :
    ∃ r t, p.copy granted ser with_limit = some (r, t) ∧ r ≠ .ok false ∧
      ∀ b, r = .ok b → t.Holds ser := by
  by_cases hroom : ser.length ≤ p.max_size
  · obtain ⟨t, ht, hholds⟩ := copyBytes_holds { p with length := ser.length } ser rfl hroom hser
      fun hpos => ⟨h.destination hpos hroom, h.source hpos⟩
    exact ⟨.ok true, t, by rw [copy_room granted hroom, ht], by simp, fun _ _ => hholds⟩
  · have hlong : p.max_size < ser.length := Nat.lt_of_not_le hroom
    have hwith : with_limit = false := by
      by_contra hset
      exact hroom (h.limit (by simpa using hset))
    subst hwith
    cases granted with
    | false =>
        obtain ⟨t, ht⟩ := copy_thrown (p := p) hlong
        exact ⟨.error .bad_alloc, t, ht, by simp, by simp⟩
    | true =>
        obtain ⟨q, hq, hlength, hmax, hallocated⟩ := copy_granted (p := p) hlong
        obtain ⟨t, ht, hholds⟩ := copyBytes_holds q ser hlength (by rw [hlength, hmax]) hser
          fun hpos => ⟨hallocated, h.source hpos⟩
        exact ⟨.ok true, t, by rw [hq, ht], by simp, fun _ _ => hholds⟩

/-- A copy that the limit does not forbid can be made where it always ends. -/
theorem copyable_of_returns {with_limit : Bool}
    (hlimit : with_limit = true → ser.length ≤ p.max_size)
    (hreturns : ∀ granted, ∃ r, p.copy granted ser with_limit = some r) :
    Copyable p ser with_limit := by
  obtain ⟨r, hrun⟩ := hreturns true
  by_cases hroom : ser.length ≤ p.max_size
  · rw [copy_room true hroom] at hrun
    exact
      { limit := hlimit
        source := fun hpos => (copyBytes_buffers hrun hpos).2
        destination := fun hpos _ => (copyBytes_buffers hrun hpos).1 }
  · have hwith : with_limit = false := by
      by_contra hset
      exact hroom (hlimit (by simpa using hset))
    subst hwith
    obtain ⟨q, hq, hlength, -, -⟩ := copy_granted (p := p) (Nat.lt_of_not_le hroom)
    rw [hq] at hrun
    exact
      { limit := hlimit
        source := fun hpos => (copyBytes_buffers hrun (by omega)).2
        destination := fun _ hle => absurd hle hroom }

theorem copyExact_iff (hser : ser.length ≤ ser.max_size) (with_limit : Bool) :
    CopyExact p ser with_limit ↔ Copyable p ser with_limit := by
  constructor
  · intro hexact
    refine copyable_of_returns hexact.limit fun granted => ?_
    obtain ⟨r, t, hrun, -⟩ := hexact granted
    exact ⟨(r, t), hrun⟩
  · intro hcopyable granted
    obtain ⟨r, t, hrun, hfalse, hholds⟩ := hcopyable.copies hser granted
    exact ⟨r, t, hrun, fun h => absurd h hfalse, fun h => hholds true h,
      fun b h => (hholds b h).length_le⟩

end EncapsulatedPayload

/-! ## Copying a change -/

namespace CacheChange.Whole

open EncapsulatedPayload

variable {Handle Time Params : Type}

/-- Where `copy` returns `false`, the change is as it was. -/
def CopySafe (ch change : CacheChange.Whole Handle Time Params) : Prop :=
  ∀ granted, ∃ r t, ch.copy granted change = some (r, t) ∧ (r = .ok false → t = ch)

/-- The change that is left by a refused copy has the length of the source. -/
theorem copy_refused_length (ch change : CacheChange.Whole Handle Time Params)
    (htyped : change.is_untyped_ = false)
    (hlong : ch.serialized_payload.max_size < change.serialized_payload.length) :
    ∃ t, ch.copy true change = some (.ok false, t) ∧
      t.serialized_payload.length = change.serialized_payload.length := by
  simp only [copy, htyped, Bool.not_false, copy_refused hlong, Option.map_some]
  exact ⟨_, rfl, rfl⟩

/-- So no copy that the limit forbids is safe. -/
theorem CopySafe.limit {ch change : CacheChange.Whole Handle Time Params}
    (hch : ch.serialized_payload.length ≤ ch.serialized_payload.max_size)
    (h : ch.CopySafe change) (htyped : (!change.is_untyped_) = true) :
    change.serialized_payload.length ≤ ch.serialized_payload.max_size := by
  by_contra hlong
  obtain ⟨t, hrefused, hlength⟩ := copy_refused_length ch change (by simpa using htyped)
    (Nat.lt_of_not_le hlong)
  obtain ⟨r, t', hrun, hsame⟩ := h true
  rw [hrefused] at hrun
  cases hrun
  rw [hsame rfl] at hlength
  omega

theorem copySafe_iff (ch change : CacheChange.Whole Handle Time Params)
    (hch : ch.serialized_payload.length ≤ ch.serialized_payload.max_size)
    (hchange : change.serialized_payload.length ≤ change.serialized_payload.max_size) :
    ch.CopySafe change ↔
      Copyable ch.serialized_payload change.serialized_payload (!change.is_untyped_) := by
  constructor
  · intro hsafe
    refine copyable_of_returns (hsafe.limit hch) fun granted => ?_
    obtain ⟨r, t, hrun, -⟩ := hsafe granted
    obtain ⟨⟨r', p⟩, hcopy, -⟩ := Option.map_eq_some_iff.1 hrun
    exact ⟨(r', p), hcopy⟩
  · intro hcopyable granted
    obtain ⟨r, p, hcopy, hfalse, -⟩ := hcopyable.copies hchange granted
    refine ⟨r, _, by simp only [copy, hcopy, Option.map_some]; rfl, ?_⟩
    exact fun h => absurd h hfalse

/-- Copies of a payload and of a change are safe exactly where they can be made. -/
theorem copy_exact_iff (p ser : EncapsulatedPayload) (with_limit : Bool)
    (ch change : CacheChange.Whole Handle Time Params) (hser : ser.length ≤ ser.max_size)
    (hch : ch.serialized_payload.length ≤ ch.serialized_payload.max_size)
    (hchange : change.serialized_payload.length ≤ change.serialized_payload.max_size) :
    (CopyExact p ser with_limit ↔ Copyable p ser with_limit) ∧
      (ch.CopySafe change ↔
        Copyable ch.serialized_payload change.serialized_payload (!change.is_untyped_)) :=
  ⟨copyExact_iff hser with_limit, copySafe_iff ch change hch hchange⟩

/-- A payload of `n` zero bytes that fills its buffer. -/
def zeroPayload (n : Nat) : EncapsulatedPayload where
  length := n
  max_size := n
  data := fun _ => 0
  encapsulation := 1
  allocated := true

/-- A typed change with such a payload. -/
def zeroChange (n : Nat) : CacheChange.Whole Unit Unit Unit where
  writer_guid := GUID.unknown
  sequence_number := ⟨0, 1⟩
  kind := .ALIVE
  instance_handle := ()
  serialized_payload := zeroPayload n
  is_read := false
  source_timestamp := ()
  reception_timestamp := ()
  write_params := ()
  is_untyped_ := false
  fragment_size_ := 0
  fragment_count_ := 0
  first_missing_fragment_ := 0

theorem copy_exact_zero :
    (CopyExact (zeroPayload 8) (zeroPayload 4) true ↔
        Copyable (zeroPayload 8) (zeroPayload 4) true) ∧
      ((zeroChange 8).CopySafe (zeroChange 4) ↔
        Copyable (zeroChange 8).serialized_payload (zeroChange 4).serialized_payload
          (!(zeroChange 4).is_untyped_)) :=
  copy_exact_iff (zeroPayload 8) (zeroPayload 4) true (zeroChange 8) (zeroChange 4)
    (by decide) (by decide) (by decide)

/-- Eight bytes are not copied into four, but the length says that they are there. -/
theorem copy_refused_eight :
    (((zeroPayload 4).copy true (zeroPayload 8) true).map fun r => (r.2.length, r.2.max_size)) =
        some (8, 4) ∧
      ¬ CopyExact (zeroPayload 4) (zeroPayload 8) true ∧
      ¬ (zeroChange 4).CopySafe (zeroChange 8) := by
  refine ⟨rfl, ?_, ?_⟩
  · intro hexact
    exact absurd (hexact.limit rfl) (by decide)
  · intro hsafe
    exact absurd (hsafe.limit (by decide) rfl) (by decide)

end CacheChange.Whole

end Rtps
end Mozi
