import Mozi.Foundation.Heap
import Mozi.Foundation.Machine
import Mozi.Rtps.Storage.ChangeCopy

/-!
# PayloadBuffer — a payload and the heap

`SerializedPayload` of `serialized_payload.h` with `data` as a pointer into the heap: `reserve`,
`reserveFragmented`, `copy` without limit and `empty`, where every request to the allocator may be
refused.  A refused `realloc` frees the block and leaves `max_size`; `reserveFragmented` sets
`max_size` before it asks for the block.

An operation gives `none` where the heap does.
-/

namespace Mozi
namespace Rtps

open Foundation

/-! ## The operations -/

/-- A payload with the heap its buffer lies in. -/
structure PayloadBuffer where
  encapsulation : Nat
  length : Nat
  max_size : Nat
  /-- `none` for a null pointer -/
  data : Option Nat
  heap : Heap

/-- The payload that is copied, with the bytes its pointer leads to. -/
structure PayloadSource where
  encapsulation : Nat
  length : Nat
  data : List UInt8

def CDR_BE : Nat := 0x0000

namespace PayloadBuffer

/-- `SerializedPayload()` -/
def init (heap : Heap) : PayloadBuffer where
  encapsulation := CDR_BE
  length := 0
  max_size := 0
  data := none
  heap := heap

def reserve (p : PayloadBuffer) (new_size : Nat) (reply : Heap.Reply) :
    Option (Except BadAlloc Unit × PayloadBuffer) :=
  if new_size ≤ p.max_size then
    some (.ok (), p)
  else
    match p.data with
    | none =>
        (p.heap.calloc new_size reply).map fun
          | (none, heap) => (.error .bad_alloc, { p with data := none, heap := heap })
          | (some q, heap) =>
              (.ok (), { p with data := some q, heap := heap, max_size := new_size })
    | some old_data =>
        (p.heap.realloc old_data new_size reply).bind fun
          | (none, heap) =>
              (heap.free old_data).map fun heap =>
                (.error .bad_alloc, { p with data := none, heap := heap })
          | (some q, heap) =>
              -- `memset` of what lies behind the old bytes
              (heap.write q p.max_size (List.replicate (new_size - p.max_size) 0)).map fun heap =>
                (.ok (), { p with data := some q, heap := heap, max_size := new_size })

/-- The block that was there is not freed. -/
def reserveFragmented (p : PayloadBuffer) (ser : PayloadSource) (reply : Heap.Reply) :
    Option PayloadBuffer :=
  (p.heap.calloc ser.length reply).map fun r =>
    { p with
      length := ser.length
      max_size := ser.length
      encapsulation := ser.encapsulation
      data := r.1
      heap := r.2 }

/-- The rest of `copy`, where there is room. -/
def copyBytes (p : PayloadBuffer) (ser : PayloadSource) : Option PayloadBuffer :=
  let p := { p with encapsulation := ser.encapsulation }
  if p.length = 0 then
    some p
  else if p.length ≤ ser.data.length then
    p.data.bind fun q =>
      (p.heap.write q 0 (ser.data.take p.length)).map fun heap => { p with heap := heap }
  else
    none

/-- `copy` with `with_limit = false`. -/
def copy (p : PayloadBuffer) (ser : PayloadSource) (reply : Heap.Reply) :
    Option (Except BadAlloc Unit × PayloadBuffer) :=
  let p := { p with length := ser.length }
  if ser.length > p.max_size then
    (p.reserve ser.length reply).bind fun
      | (.error e, p) => some (.error e, p)
      | (.ok _, p) => (p.copyBytes ser).map fun p => (.ok (), p)
  else
    (p.copyBytes ser).map fun p => (.ok (), p)

def empty (p : PayloadBuffer) : Option PayloadBuffer :=
  let p := { p with length := 0, encapsulation := CDR_BE, max_size := 0 }
  match p.data with
  | none => some p
  | some q => (p.heap.free q).map fun heap => { p with data := none, heap := heap }

/-! ## Runs -/

inductive Op where
  | reserve (new_size : Nat) (reply : Heap.Reply)
  | reserveFragmented (ser : PayloadSource) (reply : Heap.Reply)
  | copy (ser : PayloadSource) (reply : Heap.Reply)
  | empty

/-- The state after a call, also where the call throws. -/
def step (p : PayloadBuffer) : Op → Option PayloadBuffer
  | .reserve new_size reply => (p.reserve new_size reply).map Prod.snd
  | .reserveFragmented ser reply => p.reserveFragmented ser reply
  | .copy ser reply => (p.copy ser reply).map Prod.snd
  | .empty => p.empty

def machine : Machine PayloadBuffer Op := ⟨step⟩

/-- The bytes of the block `data` points to. -/
def bytes (p : PayloadBuffer) : List UInt8 :=
  (p.data.bind p.heap).getD []

/-- The declared capacity is there. -/
def Backed (p : PayloadBuffer) : Prop :=
  0 < p.max_size → ∃ q block, p.data = some q ∧ p.heap q = some block ∧ p.max_size ≤ block.length

/-- The old bytes are kept and the rest is zero. -/
structure Keeps (p t : PayloadBuffer) : Prop where
  max_size_le : p.max_size ≤ t.max_size
  old : (p.bytes.take p.max_size).length = p.max_size
  bytes_eq : t.bytes.take t.max_size =
    p.bytes.take p.max_size ++ List.replicate (t.max_size - p.max_size) 0

/-- A buffer with room is only let grow where the memory is there, and so is a fragmented payload
that is not empty. -/
def Granted (p : PayloadBuffer) : Op → Prop
  | .reserve new_size reply => 0 < p.max_size → p.max_size < new_size → reply.block ≠ none
  | .reserveFragmented ser reply => 0 < ser.length → reply.block ≠ none
  | .copy ser reply => 0 < p.max_size → p.max_size < ser.length → reply.block ≠ none
  | .empty => True

/-! ## What an operation does -/

variable {p t : PayloadBuffer} {n : Nat} {reply : Heap.Reply} {ser : PayloadSource}

/-- A pointer that is not null leads to a live block of `max_size` bytes. -/
def Owned (p : PayloadBuffer) : Prop :=
  ∀ q, p.data = some q → ∃ block, p.heap q = some block ∧ block.length = p.max_size

theorem bytes_of_live {q : Nat} {block : List UInt8} (hdata : p.data = some q)
    (hlive : p.heap q = some block) : p.bytes = block := by
  simp [bytes, hdata, hlive]

theorem bytes_of_null (hdata : p.data = none) : p.bytes = [] := by
  simp [bytes, hdata]

/-- With the invariant, the capacity is there where the pointer is not null. -/
theorem Owned.backed_iff (h : p.Owned) : p.Backed ↔ (0 < p.max_size → p.data ≠ none) := by
  constructor
  · intro hbacked hpos hnull
    obtain ⟨q, block, hdata, -, -⟩ := hbacked hpos
    rw [hnull] at hdata
    cases hdata
  · intro hdata hpos
    obtain ⟨q, hq⟩ := Option.ne_none_iff_exists'.1 (hdata hpos)
    obtain ⟨block, hlive, hlength⟩ := h q hq
    exact ⟨q, block, hq, hlive, Nat.le_of_eq hlength.symm⟩

theorem Owned.length_bytes (h : p.Owned) (hbacked : p.Backed) : p.bytes.length = p.max_size := by
  cases hdata : p.data with
  | none =>
      rw [bytes_of_null hdata]
      by_contra hne
      exact h.backed_iff.1 hbacked (Nat.pos_of_ne_zero (Ne.symm hne)) hdata
  | some q =>
      obtain ⟨block, hlive, hlength⟩ := h q hdata
      rw [bytes_of_live hdata hlive, hlength]

/-- The payload after a grow: the old bytes with zeros behind them. -/
structure Grown (p t : PayloadBuffer) (n : Nat) : Prop where
  length_eq : t.length = p.length
  encapsulation_eq : t.encapsulation = p.encapsulation
  max_size_eq : t.max_size = n
  live : ∃ q block, t.data = some q ∧ t.heap q = some block ∧
    block = p.bytes ++ List.replicate (n - p.bytes.length) 0 ∧ block.length = n

/-- The payload after a refusal: the block is gone, the capacity is not. -/
structure Lost (p t : PayloadBuffer) : Prop where
  length_eq : t.length = p.length
  encapsulation_eq : t.encapsulation = p.encapsulation
  max_size_eq : t.max_size = p.max_size
  data_eq : t.data = none

/-- A payload without a block gets its first one from `calloc`. -/
theorem reserve_of_null (hlt : p.max_size < n) (hdata : p.data = none)
    {r : Except BadAlloc Unit} (hrun : p.reserve n reply = some (r, t)) :
    (reply.block = none ∧ r = .error .bad_alloc ∧ Lost p t) ∨
      (reply.block ≠ none ∧ r = .ok () ∧ Grown p t n) := by
  rw [reserve, if_neg (Nat.not_le.2 hlt)] at hrun
  simp only [hdata, Option.map_eq_some_iff] at hrun
  obtain ⟨⟨d, heap⟩, hcalloc, hend⟩ := hrun
  obtain ⟨hreply, -, hnew⟩ := Heap.calloc_cases hcalloc
  cases d with
  | none =>
      cases hend
      exact Or.inl ⟨hreply.symm, rfl, rfl, rfl, rfl, rfl⟩
  | some q =>
      cases hend
      refine Or.inr ⟨by simp [← hreply], rfl, rfl, rfl, rfl, ?_⟩
      exact ⟨q, _, rfl, (hnew q rfl).2, by simp [bytes_of_null hdata], by simp⟩

/-- The block of a payload goes through `realloc`, and what is new of it is set to 0. -/
theorem reserve_of_live (h : p.Owned) (hlt : p.max_size < n) {old_data : Nat}
    (hdata : p.data = some old_data) {r : Except BadAlloc Unit}
    (hrun : p.reserve n reply = some (r, t)) :
    (reply.block = none ∧ r = .error .bad_alloc ∧ Lost p t) ∨
      (reply.block ≠ none ∧ r = .ok () ∧ Grown p t n) := by
  rw [reserve, if_neg (Nat.not_le.2 hlt)] at hrun
  simp only [hdata, Option.bind_eq_some_iff] at hrun
  obtain ⟨⟨d, heap⟩, hrealloc, hend⟩ := hrun
  obtain ⟨hreply, block, hlive, -, hnew⟩ := Heap.realloc_cases hrealloc
  obtain ⟨block', hlive', hsize⟩ := h old_data hdata
  rw [hlive] at hlive'
  cases hlive'
  cases d with
  | none =>
      simp only [Option.map_eq_some_iff] at hend
      obtain ⟨heap', -, hend⟩ := hend
      cases hend
      exact Or.inl ⟨hreply.symm, rfl, rfl, rfl, rfl, rfl⟩
  | some q =>
      simp only [Option.map_eq_some_iff] at hend
      obtain ⟨heap', hwrite, hend⟩ := hend
      cases hend
      obtain ⟨block', hlive', hroom, hwritten⟩ := Heap.write_cases hwrite
      rw [hnew q rfl] at hlive'
      cases hlive'
      refine Or.inr ⟨by simp [← hreply], rfl, rfl, rfl, rfl, ?_⟩
      refine ⟨q, _, rfl, hwritten, ?_, by rw [Heap.length_write hroom]; simp⟩
      rw [bytes_of_live hdata hlive, hsize, ← hsize, Heap.take_resize (by omega),
        List.drop_eq_nil_of_le (by simp; omega), List.append_nil]

/-- The three ends of `reserve`. -/
theorem reserve_cases (h : p.Owned) {r : Except BadAlloc Unit}
    (hrun : p.reserve n reply = some (r, t)) :
    (n ≤ p.max_size ∧ r = .ok () ∧ t = p) ∨
    (p.max_size < n ∧ reply.block = none ∧ r = .error .bad_alloc ∧ Lost p t) ∨
    (p.max_size < n ∧ reply.block ≠ none ∧ r = .ok () ∧ Grown p t n) := by
  by_cases hfits : n ≤ p.max_size
  · rw [reserve, if_pos hfits] at hrun
    cases hrun
    exact Or.inl ⟨hfits, rfl, rfl⟩
  · have hlt : p.max_size < n := Nat.lt_of_not_le hfits
    have hends : (reply.block = none ∧ r = .error .bad_alloc ∧ Lost p t) ∨
        (reply.block ≠ none ∧ r = .ok () ∧ Grown p t n) := by
      cases hdata : p.data with
      | none => exact reserve_of_null hlt hdata hrun
      | some old_data => exact reserve_of_live h hlt hdata hrun
    rcases hends with hlost | hgrown
    · exact Or.inr (Or.inl ⟨hlt, hlost⟩)
    · exact Or.inr (Or.inr ⟨hlt, hgrown⟩)

theorem reserveFragmented_cases (hrun : p.reserveFragmented ser reply = some t) :
    t.max_size = ser.length ∧ (t.data = none ↔ reply.block = none) ∧ t.Owned := by
  unfold reserveFragmented at hrun
  simp only [Option.map_eq_some_iff] at hrun
  obtain ⟨⟨d, heap⟩, hcalloc, hend⟩ := hrun
  obtain ⟨hreply, -, hnew⟩ := Heap.calloc_cases hcalloc
  cases hend
  refine ⟨rfl, by rw [← hreply], ?_⟩
  intro q hq
  exact ⟨_, (hnew q hq).2, by simp⟩

/-- A payload that is not empty goes to the front of the block. -/
structure Written (p t : PayloadBuffer) (ser : PayloadSource) (q : Nat) (block : List UInt8) :
    Prop where
  data_eq : p.data = some q
  was : p.heap q = some block
  size : block.length = p.max_size
  source : p.length ≤ ser.data.length
  fits : p.length ≤ block.length
  now : t.heap q = some (ser.data.take p.length ++ block.drop p.length)
  rest : t = { p with encapsulation := ser.encapsulation, heap := t.heap }

theorem copyBytes_written (h : p.Owned) (hzero : p.length ≠ 0)
    (hrun : p.copyBytes ser = some t) : ∃ q block, Written p t ser q block := by
  simp only [copyBytes, if_neg hzero] at hrun
  split_ifs at hrun with hroom
  simp only [Option.bind_eq_some_iff, Option.map_eq_some_iff] at hrun
  obtain ⟨q, hq, heap, hwrite, hend⟩ := hrun
  obtain ⟨block, hlive, hfits, hwritten⟩ := Heap.write_cases hwrite
  obtain ⟨block', hlive', hsize⟩ := h q hq
  rw [hlive] at hlive'
  cases hlive'
  have htake : (ser.data.take p.length).length = p.length := by
    rw [List.length_take]
    omega
  rw [htake, Nat.zero_add] at hfits hwritten
  rw [List.take_zero, List.nil_append] at hwritten
  cases hend
  exact ⟨q, block, hq, hlive, hsize, hroom, hfits, hwritten, rfl⟩

theorem Written.owned {q : Nat} {block : List UInt8} (h : Written p t ser q block) : t.Owned := by
  intro q' hq'
  rw [h.rest] at hq'
  cases h.data_eq.symm.trans hq'
  refine ⟨_, h.now, ?_⟩
  have hmax : t.max_size = p.max_size := by rw [h.rest]
  have hsize := h.size
  have hsource := h.source
  have hfits := h.fits
  rw [List.length_append, List.length_take, List.length_drop, hmax]
  omega

/-- Writing the bytes changes neither the capacity nor the pointer. -/
theorem copyBytes_cases (h : p.Owned) (hrun : p.copyBytes ser = some t) :
    t.max_size = p.max_size ∧ t.data = p.data ∧ t.Owned := by
  by_cases hzero : p.length = 0
  · simp only [copyBytes, if_pos hzero, Option.some.injEq] at hrun
    subst hrun
    exact ⟨rfl, rfl, h⟩
  · obtain ⟨q, block, hwritten⟩ := copyBytes_written h hzero hrun
    have hrest := hwritten.rest
    exact ⟨by rw [hrest], by rw [hrest], hwritten.owned⟩

theorem Grown.owned (h : Grown p t n) : t.Owned := by
  obtain ⟨q, block, hdata, hlive, -, hlength⟩ := h.live
  intro q' hq'
  cases hdata.symm.trans hq'
  exact ⟨block, hlive, by rw [hlength, h.max_size_eq]⟩

theorem Lost.owned (h : Lost p t) : t.Owned := by
  intro q hq
  rw [h.data_eq] at hq
  cases hq

/-- The ends of `copy`, as `reserve` has them. -/
theorem copy_cases (h : p.Owned) {r : Except BadAlloc Unit}
    (hrun : p.copy ser reply = some (r, t)) :
    t.Owned ∧
      ((ser.length ≤ p.max_size ∧ t.max_size = p.max_size ∧ t.data = p.data) ∨
      (p.max_size < ser.length ∧ reply.block = none ∧ t.max_size = p.max_size ∧ t.data = none) ∨
      (p.max_size < ser.length ∧ reply.block ≠ none ∧ t.data ≠ none)) := by
  have howned : Owned { p with length := ser.length } := h
  simp only [copy] at hrun
  split_ifs at hrun with hgrow
  · rw [Option.bind_eq_some_iff] at hrun
    obtain ⟨⟨r', u⟩, hreserve, hend⟩ := hrun
    rcases reserve_cases howned hreserve with
      ⟨hfits, -, -⟩ | ⟨-, hreply, rfl, hlost⟩ | ⟨-, hreply, rfl, hgrown⟩
    · exact absurd hgrow (Nat.not_lt.2 hfits)
    · cases hend
      exact ⟨hlost.owned, Or.inr (Or.inl ⟨hgrow, hreply, hlost.max_size_eq, hlost.data_eq⟩)⟩
    · simp only [Option.map_eq_some_iff] at hend
      obtain ⟨v, hcopy, hend⟩ := hend
      cases hend
      obtain ⟨-, hdata, hv⟩ := copyBytes_cases hgrown.owned hcopy
      refine ⟨hv, Or.inr (Or.inr ⟨hgrow, hreply, ?_⟩)⟩
      obtain ⟨q, -, hq, -⟩ := hgrown.live
      rw [hdata, hq]
      exact Option.some_ne_none q
  · simp only [Option.map_eq_some_iff] at hrun
    obtain ⟨v, hcopy, hend⟩ := hrun
    cases hend
    obtain ⟨hmax, hdata, hv⟩ := copyBytes_cases howned hcopy
    exact ⟨hv, Or.inl ⟨Nat.le_of_not_lt hgrow, hmax, hdata⟩⟩

theorem empty_cases (hrun : p.empty = some t) : t.max_size = 0 ∧ t.data = none := by
  simp only [empty] at hrun
  cases hdata : p.data with
  | none =>
      simp only [hdata, Option.some.injEq] at hrun
      subst hrun
      exact ⟨rfl, rfl⟩
  | some q =>
      simp only [hdata, Option.map_eq_some_iff] at hrun
      obtain ⟨heap, -, rfl⟩ := hrun
      exact ⟨rfl, rfl⟩

/-! ## Runs -/

theorem owned_of_null (hdata : p.data = none) : p.Owned := by
  intro q hq
  rw [hdata] at hq
  cases hq

theorem owned_init (heap : Heap) : (init heap).Owned := owned_of_null rfl

theorem backed_init (heap : Heap) : (init heap).Backed := fun h => absurd h (Nat.lt_irrefl 0)

theorem Lost.backed_iff (h : Lost p t) : t.Backed ↔ p.max_size = 0 := by
  rw [h.owned.backed_iff, h.max_size_eq, h.data_eq]
  simp

theorem Grown.backed (h : Grown p t n) : t.Backed := by
  rw [h.owned.backed_iff]
  obtain ⟨q, -, hq, -⟩ := h.live
  simp [hq]

theorem reserve_owned (h : p.Owned) {r : Except BadAlloc Unit}
    (hrun : p.reserve n reply = some (r, t)) : t.Owned := by
  rcases reserve_cases h hrun with ⟨-, -, rfl⟩ | ⟨-, -, -, hlost⟩ | ⟨-, -, -, hgrown⟩
  · exact h
  · exact hlost.owned
  · exact hgrown.owned

theorem step_owned (op : Op) (h : p.Owned) (hrun : p.step op = some t) : t.Owned := by
  cases op with
  | reserve n reply =>
      simp only [step, Option.map_eq_some_iff] at hrun
      obtain ⟨⟨r, u⟩, hreserve, rfl⟩ := hrun
      exact reserve_owned h hreserve
  | reserveFragmented ser reply =>
      exact (reserveFragmented_cases hrun).2.2
  | copy ser reply =>
      simp only [step, Option.map_eq_some_iff] at hrun
      obtain ⟨⟨r, u⟩, hcopy, rfl⟩ := hrun
      exact (copy_cases h hcopy).1
  | empty =>
      exact owned_of_null (empty_cases hrun).2

/-- What a refused grow leaves is backed only if there was no room before. -/
theorem refused_iff {m n : Nat} (hlt : m < n) {block : Option Nat} (hblock : block = none) :
    m = 0 ↔ (0 < m → m < n → block ≠ none) := by
  constructor
  · intro hzero hpos
    omega
  · intro hgranted
    by_contra hne
    exact hgranted (Nat.pos_of_ne_zero hne) hlt hblock

/-- A step leaves the capacity backed exactly if its request is granted. -/
theorem step_backed_iff (op : Op) (h : p.Owned) (hbacked : p.Backed) (hrun : p.step op = some t) :
    t.Backed ↔ Granted p op := by
  cases op with
  | reserve n reply =>
      simp only [step, Option.map_eq_some_iff] at hrun
      obtain ⟨⟨r, u⟩, hreserve, rfl⟩ := hrun
      rcases reserve_cases h hreserve with
        ⟨hfits, -, rfl⟩ | ⟨hlt, hreply, -, hlost⟩ | ⟨-, hreply, -, hgrown⟩
      · exact iff_of_true hbacked fun _ hlt => absurd hlt (Nat.not_lt.2 hfits)
      · exact hlost.backed_iff.trans (refused_iff hlt hreply)
      · exact iff_of_true hgrown.backed fun _ _ => hreply
  | reserveFragmented ser reply =>
      obtain ⟨hmax, hdata, howned⟩ := reserveFragmented_cases hrun
      rw [howned.backed_iff, hmax, Granted, ne_eq, ne_eq, hdata]
  | copy ser reply =>
      simp only [step, Option.map_eq_some_iff] at hrun
      obtain ⟨⟨r, u⟩, hcopy, rfl⟩ := hrun
      obtain ⟨howned, hend⟩ := copy_cases h hcopy
      rw [howned.backed_iff]
      rcases hend with ⟨hfits, hmax, hdata⟩ | ⟨hlt, hreply, hmax, hdata⟩ | ⟨-, hreply, hdata⟩
      · rw [hmax, hdata]
        exact iff_of_true (h.backed_iff.1 hbacked) fun _ hlt => absurd hlt (Nat.not_lt.2 hfits)
      · rw [hmax, hdata]
        refine Iff.trans ?_ (refused_iff hlt hreply)
        simp
      · exact iff_of_true (fun _ => hdata) fun _ _ => hreply
  | empty =>
      obtain ⟨hmax, -⟩ := empty_cases hrun
      refine iff_of_true ?_ trivial
      intro hpos
      omega

/-- A `reserve` that returns keeps the bytes. -/
theorem reserve_keeps (h : p.Owned) (hbacked : p.Backed)
    (hrun : p.reserve n reply = some (.ok (), t)) : Keeps p t := by
  have hlength := h.length_bytes hbacked
  have hold : p.bytes.take p.max_size = p.bytes := List.take_of_length_le (Nat.le_of_eq hlength)
  rcases reserve_cases h hrun with ⟨-, -, rfl⟩ | ⟨-, -, hend, -⟩ | ⟨hlt, -, -, hgrown⟩
  · exact ⟨Nat.le_refl _, by rw [hold, hlength], by simp⟩
  · cases hend
  · obtain ⟨q, block, hdata, hlive, hblock, hsize⟩ := hgrown.live
    have hnew : t.bytes = block := bytes_of_live hdata hlive
    refine ⟨by rw [hgrown.max_size_eq]; omega, by rw [hold, hlength], ?_⟩
    rw [hnew, hgrown.max_size_eq, List.take_of_length_le (Nat.le_of_eq hsize), hold, hblock,
      hlength]

/-- In a run that starts with an empty payload, the capacity is backed in every state and every
`reserve` keeps the bytes exactly if every request that needs it is granted. -/
theorem backed_run_iff (heap : Heap) {tr : List Op} {s : PayloadBuffer}
    (hrun : machine.exec (init heap) tr = some s) :
    (∀ tr₁ p, tr₁ <+: tr → machine.exec (init heap) tr₁ = some p →
      p.Backed ∧ ∀ n reply t, p.reserve n reply = some (.ok (), t) → Keeps p t) ↔
      machine.Along Granted (init heap) tr := by
  have hinit : (init heap).Owned ∧ (init heap).Backed := ⟨owned_init heap, backed_init heap⟩
  have hstep : ∀ (p : PayloadBuffer) (op : Op) (t : PayloadBuffer), p.Owned ∧ p.Backed → True →
      machine.step p op = some t → (t.Owned ∧ t.Backed ↔ Granted p op) := by
    intro p op t hp _ ht
    rw [← step_backed_iff op hp.1 hp.2 ht]
    exact and_iff_right (step_owned op hp.1 ht)
  rw [← machine.along_iff_invariant hstep hinit (fun _ _ => trivial) hrun]
  constructor
  · intro hall tr₁ p hpre hp
    have howned : p.Owned := machine.exec_preserves (I := Owned)
      (fun _ op _ hq ht => step_owned op hq ht) hinit.1 hp
    exact ⟨howned, (hall tr₁ p hpre hp).1⟩
  · intro hall tr₁ p hpre hp
    obtain ⟨howned, hbacked⟩ := hall tr₁ p hpre hp
    exact ⟨hbacked, fun n reply t ht => reserve_keeps howned hbacked ht⟩

/-- The answer of an allocator that has the memory. -/
def placed (q : Nat) : Heap.Reply where
  block := some q
  fresh := fun _ => 0

def refused : Heap.Reply where
  block := none
  fresh := fun _ => 0

/-- A run in which the buffer grows twice. -/
def growingRun : List Op :=
  [.reserve 2 (placed 1), .copy ⟨CDR_BE, 3, [7, 8, 9]⟩ (placed 2), .reserve 5 (placed 2), .empty]

theorem backed_run_growing :
    (∀ tr₁ p, tr₁ <+: growingRun → machine.exec (init fun _ => none) tr₁ = some p →
      p.Backed ∧ ∀ n reply t, p.reserve n reply = some (.ok (), t) → Keeps p t) ↔
      machine.Along Granted (init fun _ => none) growingRun :=
  backed_run_iff (fun _ => none)
    (show machine.exec (init fun _ => none) growingRun = some _ from rfl)

/-- A refused `realloc` leaves a capacity of four bytes and a null pointer, and so does a refused
`calloc` of a fragmented payload. -/
theorem refused_not_backed :
    (∃ p, machine.exec (init fun _ => none) [.reserve 4 (placed 1), .reserve 8 refused] = some p ∧
      p.max_size = 4 ∧ p.data = none ∧ ¬ p.Backed) ∧
    (∃ p, machine.exec (init fun _ => none)
        [.reserveFragmented ⟨CDR_BE, 4, [1, 2, 3, 4]⟩ refused] = some p ∧
      p.max_size = 4 ∧ p.data = none ∧ ¬ p.Backed) := by
  refine ⟨⟨_, rfl, rfl, rfl, ?_⟩, ⟨_, rfl, rfl, rfl, ?_⟩⟩
  · intro hbacked
    obtain ⟨q, -, hq, -⟩ := hbacked (by decide)
    cases hq
  · intro hbacked
    obtain ⟨q, -, hq, -⟩ := hbacked (by decide)
    cases hq

/-! ## The payload without the heap -/

/-- `e` is the payload with the bytes in the place of the pointer. -/
structure Views (p : PayloadBuffer) (e : EncapsulatedPayload) : Prop where
  length_eq : e.length = p.length
  max_size_eq : e.max_size = p.max_size
  encapsulation_eq : e.encapsulation = p.encapsulation
  allocated_eq : e.allocated = p.data.isSome
  bytes_eq : e.data.load 0 p.bytes.length = p.bytes

/-- The same for the payload that is copied. -/
structure SourceViews (ser : PayloadSource) (e : EncapsulatedPayload) : Prop where
  length_eq : e.length = ser.length
  max_size_eq : e.max_size = ser.data.length
  encapsulation_eq : e.encapsulation = ser.encapsulation
  allocated_eq : e.allocated = true
  bytes_eq : e.data.load 0 ser.data.length = ser.data

variable {e src : EncapsulatedPayload}

/-- Zeros behind the bytes that are there. -/
theorem load_store_zeros (mem : Memory) (xs : List UInt8) (hxs : mem.load 0 xs.length = xs)
    (k : Nat) :
    (mem.store xs.length (List.replicate k 0)).load 0 (xs.length + k) =
      xs ++ List.replicate k 0 := by
  have hold : (mem.store xs.length (List.replicate k 0)).load 0 xs.length = xs := by
    rw [Memory.load_store_apart (by simp [Apart]), hxs]
  have hnew := Memory.load_store_same mem xs.length (List.replicate k 0)
  rw [List.length_replicate] at hnew
  rw [Memory.load_append, hold, Nat.zero_add, hnew]

theorem Lost.views (hlost : Lost p t) (hviews : Views p e) :
    Views t { e with allocated := false } where
  length_eq := hviews.length_eq.trans hlost.length_eq.symm
  max_size_eq := hviews.max_size_eq.trans hlost.max_size_eq.symm
  encapsulation_eq := hviews.encapsulation_eq.trans hlost.encapsulation_eq.symm
  allocated_eq := by rw [hlost.data_eq]; rfl
  bytes_eq := by rw [bytes_of_null hlost.data_eq]; rfl

theorem Grown.views (hgrown : Grown p t n) (hviews : Views p e) {mem : Memory}
    (hmem : mem.load 0 n = p.bytes ++ List.replicate (n - p.bytes.length) 0) :
    Views t { e with data := mem, allocated := true, max_size := n } := by
  obtain ⟨q, block, hq, hlive, hblock, hsize⟩ := hgrown.live
  refine ⟨?_, hgrown.max_size_eq.symm, ?_, by rw [hq]; rfl, ?_⟩
  · exact hviews.length_eq.trans hgrown.length_eq.symm
  · exact hviews.encapsulation_eq.trans hgrown.encapsulation_eq.symm
  · rw [bytes_of_live hq hlive, hsize, hblock]
    exact hmem

/-- `reserve` without the heap has the same end. -/
theorem reserve_views (h : p.Owned) (hbacked : p.Backed) (hviews : Views p e)
    {r : Except BadAlloc Unit} (hrun : p.reserve n reply = some (r, t)) :
    ∃ e', e.reserve reply.block.isSome n = (r, e') ∧ Views t e' := by
  have hlength := h.length_bytes hbacked
  have hallocated := hviews.allocated_eq
  unfold EncapsulatedPayload.reserve
  rcases reserve_cases h hrun with
    ⟨hfits, rfl, rfl⟩ | ⟨hlt, hreply, rfl, hlost⟩ | ⟨hlt, hreply, rfl, hgrown⟩
  · rw [if_pos (by rw [hviews.max_size_eq]; exact hfits)]
    exact ⟨e, rfl, hviews⟩
  · rw [if_neg (by rw [hviews.max_size_eq]; omega), hreply]
    refine ⟨{ e with allocated := false }, ?_, hlost.views hviews⟩
    cases hnull : e.allocated with
    | false =>
        simp [← hnull]
    | true =>
        rfl
  · rw [if_neg (by rw [hviews.max_size_eq]; omega), Option.isSome_iff_ne_none.2 hreply]
    cases hnull : e.allocated with
    | false =>
        have hempty : p.bytes = [] := by
          refine bytes_of_null ?_
          rw [← Option.isNone_iff_eq_none, ← Option.not_isSome, ← hallocated, hnull]
          rfl
        refine ⟨_, rfl, hgrown.views hviews ?_⟩
        rw [hempty]
        exact Memory.load_zeros 0 n
    | true =>
        have hload := load_store_zeros e.data p.bytes hviews.bytes_eq (n - p.bytes.length)
        rw [show p.bytes.length + (n - p.bytes.length) = n by omega] at hload
        refine ⟨_, rfl, ?_⟩
        have hend := hgrown.views hviews hload
        rwa [hlength, ← hviews.max_size_eq] at hend

/-- The bytes of the source in front of the ones that are there. -/
theorem load_store_front (mem : Memory) (xs ys : List UInt8) (hys : mem.load 0 ys.length = ys)
    (hle : xs.length ≤ ys.length) :
    (mem.store 0 xs).load 0 ys.length = xs ++ ys.drop xs.length := by
  obtain ⟨k, hk⟩ := Nat.exists_eq_add_of_le hle
  have hfront := Memory.load_store_same mem 0 xs
  have hback : (mem.store 0 xs).load (0 + xs.length) k = mem.load (0 + xs.length) k :=
    Memory.load_store_apart (by simp [Apart])
  have hdrop : ys.drop xs.length = mem.load (0 + xs.length) k := by
    rw [hk, Memory.load_append] at hys
    rw [← hys, List.drop_left' (by simp)]
  rw [hk, Memory.load_append, hfront, hback, hdrop]

theorem copyBytes_views (h : p.Owned) (hviews : Views p e) (hser : SourceViews ser src)
    (hrun : p.copyBytes ser = some t) :
    ∃ e', e.copyBytes src = some (.ok true, e') ∧ Views t e' := by
  simp only [EncapsulatedPayload.copyBytes]
  have hlength := hviews.length_eq
  have hmax := hviews.max_size_eq
  by_cases hzero : p.length = 0
  · simp only [copyBytes, if_pos hzero, Option.some.injEq] at hrun
    subst hrun
    rw [if_pos (by omega)]
    exact ⟨_, rfl, hviews.length_eq, hviews.max_size_eq, hser.encapsulation_eq,
      hviews.allocated_eq, hviews.bytes_eq⟩
  · obtain ⟨q, block, hwritten⟩ := copyBytes_written h hzero hrun
    have hdst : e.allocated = true := by rw [hviews.allocated_eq, hwritten.data_eq]; rfl
    have hbytes : p.bytes = block := bytes_of_live hwritten.data_eq hwritten.was
    have hroom := hwritten.source
    have hfits := hwritten.fits
    have hsize := hwritten.size
    have hload : src.data.load 0 e.length = ser.data.take p.length := by
      obtain ⟨k, hk⟩ := Nat.exists_eq_add_of_le hroom
      rw [hlength, ← hser.bytes_eq, hk, Memory.load_append, List.take_left' (by simp)]
    have hsrc := hser.max_size_eq
    rw [if_neg (by omega), if_pos ⟨hdst, hser.allocated_eq, by omega, by omega⟩]
    have htake : (ser.data.take p.length).length = p.length := by
      rw [List.length_take]
      omega
    have hfront := load_store_front e.data (ser.data.take p.length) block
      (by rw [← hbytes]; exact hviews.bytes_eq) (by omega)
    rw [htake] at hfront
    have hrest := hwritten.rest
    have hdata : t.data = some q := by rw [hrest]; exact hwritten.data_eq
    refine ⟨_, rfl, by rw [hrest]; exact hviews.length_eq, by rw [hrest]; exact hviews.max_size_eq,
      by rw [hrest]; exact hser.encapsulation_eq, by rw [hrest]; exact hviews.allocated_eq, ?_⟩
    rw [bytes_of_live hdata hwritten.now, hload, ← hfront]
    simp

/-- `copy` without the heap has the same end. -/
theorem copy_views (h : p.Owned) (hbacked : p.Backed) (hviews : Views p e)
    (hser : SourceViews ser src) {r : Except BadAlloc Unit}
    (hrun : p.copy ser reply = some (r, t)) :
    ∃ e', e.copy reply.block.isSome src false = some (r.map fun _ => true, e') ∧ Views t e' := by
  have howned : Owned { p with length := ser.length } := h
  have hviews' : Views { p with length := ser.length } { e with length := src.length } :=
    ⟨hser.length_eq, hviews.max_size_eq, hviews.encapsulation_eq, hviews.allocated_eq,
      hviews.bytes_eq⟩
  have hsrc := hser.length_eq
  have hmax := hviews.max_size_eq
  simp only [copy] at hrun
  simp only [EncapsulatedPayload.copy]
  split_ifs at hrun with hgrow
  · rw [if_pos (by omega), if_neg (by simp)]
    rw [Option.bind_eq_some_iff] at hrun
    obtain ⟨⟨r', u⟩, hreserve, hend⟩ := hrun
    obtain ⟨e', he', hu⟩ := reserve_views howned hbacked hviews' hreserve
    rw [hsrc] at he' ⊢
    rw [he']
    cases r' with
    | error err =>
        cases hend
        exact ⟨e', rfl, hu⟩
    | ok _ =>
        simp only [Option.map_eq_some_iff] at hend
        obtain ⟨v, hcopy, hend⟩ := hend
        cases hend
        exact copyBytes_views (reserve_owned howned hreserve) hu hser hcopy
  · rw [if_neg (by omega)]
    simp only [Option.map_eq_some_iff] at hrun
    obtain ⟨v, hcopy, hend⟩ := hrun
    cases hend
    exact copyBytes_views howned hviews' hser hcopy

end PayloadBuffer

end Rtps
end Mozi
