import Mathlib.Algebra.Group.Int.Defs
import Mathlib.Algebra.Group.Nat.Defs
import Mathlib.Tactic.Common
import Mozi.Foundation.Loop
import Mozi.Foundation.Machine

/-!
# ObjectPool — a fixed number of cells behind indices and pointers

`core/internal/object_pool.h`, read with the members its misspelt names denote.  The pool is
modelled with the cells it keeps its books in; of the memory behind them only the addresses of the
slots matter.

`live` and `destroyed` record the handles given out and not taken back, and the pointers whose
destructor was called; no call reads them.
-/

namespace Mozi
namespace Internal

open Foundation

/-- Pointers are addresses. -/
def nullptr : Nat := 0

/-- An index returned by the pool; `none` is `NO_INDEX`. -/
abbrev Index := Option Nat

def NO_INDEX : Index := none

/-- An object of type `ObjectPool<T, kCapacity>`: its template arguments and where its first slot
lies. -/
structure PoolLayout where
  kCapacity : Nat
  sizeofT : Nat
  first_ : Nat
  capacity_pos : 0 < kCapacity
  /-- `kCapacity` is an `int`. -/
  capacity_int : kCapacity < 2 ^ 31
  sizeof_pos : 0 < sizeofT
  first_pos : nullptr < first_

namespace PoolLayout

/-- `&values_[index]`. -/
def values_ (P : PoolLayout) (index : Nat) : Nat :=
  P.first_ + index * P.sizeofT

def last_ (P : PoolLayout) : Nat :=
  P.values_ (P.kCapacity - 1)

end PoolLayout

structure Cell where
  isUsed : Bool
  wasConstructed : Bool
  data : Nat
  deriving DecidableEq, Repr

def Cell.init : Cell :=
  { isUsed := false
    wasConstructed := false
    data := nullptr }

namespace ObjectPool

structure State where
  free_index_ : Nat
  size_ : Nat
  cell_ : List Cell
  /-- the indices of the handles given out and not taken back -/
  live : List Nat
  /-- the pointers `~T` was called on -/
  destroyed : List Nat
  deriving DecidableEq, Repr

inductive Action
  | reserve
  | construct
  | add
  | allocate
  | create
  | insert
  | remove (index : Nat) (destruct : Bool)
  /-- `free(ptr, destruct)` -/
  | freeWith (ptr : Nat) (destruct : Bool)
  /-- `free(ptr)` -/
  | free (ptr : Nat)
  deriving DecidableEq, Repr

inductive Result
  | index (i : Index)
  | pointer (p : Nat)
  | void
  deriving DecidableEq, Repr

variable (P : PoolLayout)

namespace State

def init : State :=
  { free_index_ := 0
    size_ := 0
    cell_ := List.replicate P.kCapacity Cell.init
    live := []
    destroyed := [] }

/-! ## The free-cell search -/

/-- The head of the loop of `nextFree`; a read outside the cells is left to the body. -/
def occupied (s : State) (index : Nat) : Bool :=
  match s.cell_[index]? with
  | some cell => cell.isUsed
  | none => true

/-- `free_index_ = (free_index_ + 1) % kCapacity`. -/
def advance (s : State) (index : Nat) : Option Nat :=
  if index < s.cell_.length then some ((index + 1) % P.kCapacity) else none

/-- `nextFree`.  `kCapacity` rounds of its loop are enough, and `none` stands for a loop that has
not ended by then. -/
def nextFree (s : State) : Option (Index × State) :=
  if s.size_ ≥ P.kCapacity then
    some (NO_INDEX, s)
  else
    (whileM s.occupied (s.advance P) P.kCapacity s.free_index_).map fun index =>
      (some index, { s with free_index_ := index })

/-! ## Reserving calls -/

/-- What the reserving calls do with the index they got: fill the cell and count it. -/
def take (s : State) (index : Nat) (fill : Cell → Cell) : Option State :=
  (s.cell_[index]?).map fun cell =>
    { s with
      free_index_ := index
      cell_ := s.cell_.set index (fill cell)
      size_ := (s.size_ + 1) % 2 ^ 64
      live := s.live ++ [index] }

def reserveWith (s : State) (fill : Nat → Cell → Cell) : Option (Index × State) :=
  (s.nextFree P).bind fun r =>
    match r.1 with
    | none => some (NO_INDEX, r.2)
    | some index => (r.2.take index (fill index)).map fun t => (some index, t)

/-- `reserve` leaves `data` as the last tenant of the cell left it. -/
def reserve (s : State) : Option (Index × State) :=
  s.reserveWith P fun _ cell => { cell with isUsed := true, wasConstructed := false }

def construct (s : State) : Option (Index × State) :=
  s.reserveWith P fun index _ =>
    { data := P.values_ index, isUsed := true, wasConstructed := true }

def add (s : State) : Option (Index × State) :=
  s.reserveWith P fun index _ =>
    { data := P.values_ index, isUsed := true, wasConstructed := true }

def get (s : State) (index : Nat) : Nat :=
  match s.cell_[index]? with
  | some cell => if cell.isUsed then cell.data else nullptr
  | none => nullptr

def allocate (s : State) : Option (Nat × State) :=
  (s.reserve P).map fun r =>
    match r.1 with
    | none => (nullptr, r.2)
    | some index => (P.values_ index, r.2)

def create (s : State) : Option (Nat × State) :=
  (s.construct P).map fun r =>
    match r.1 with
    | none => (nullptr, r.2)
    | some index => (r.2.get index, r.2)

def insert (s : State) : Option (Nat × State) :=
  (s.add P).map fun r =>
    match r.1 with
    | none => (nullptr, r.2)
    | some index => (r.2.get index, r.2)

/-! ## Releasing calls -/

/-- `remove`; `none` is an index outside the cells. -/
def remove (s : State) (index : Nat) (destruct : Bool) : Option State :=
  (s.cell_[index]?).map fun cell =>
    if cell.isUsed then
      { s with
        cell_ := s.cell_.set index { cell with isUsed := false }
        size_ := (s.size_ + (2 ^ 64 - 1)) % 2 ^ 64
        live := s.live.filter fun i => i ≠ index
        destroyed := if destruct then s.destroyed ++ [cell.data] else s.destroyed }
    else
      s

def pointerToIndex (s : State) (ptr : Nat) : Index :=
  if ptr < P.first_ ∨ ptr > P.last_ then
    NO_INDEX
  else
    let delta := ptr - P.first_
    if delta % P.sizeofT ≠ 0 then
      NO_INDEX
    else
      let index := delta / P.sizeofT
      match s.cell_[index]? with
      -- `ptr ≤ last_` keeps the index in range.
      | none => NO_INDEX
      | some cell =>
          if cell.isUsed ∧ cell.data ≠ nullptr then
            if cell.data = ptr then some index else NO_INDEX
          else
            some index

def freeWith (s : State) (ptr : Nat) (destruct : Bool) : Option State :=
  match s.pointerToIndex P ptr with
  | none => some s
  | some index => s.remove index destruct

def free (s : State) (ptr : Nat) : Option State :=
  match s.pointerToIndex P ptr with
  | none => some s
  | some index => (s.cell_[index]?).bind fun cell => s.remove index cell.wasConstructed

/-! ## The machine -/

/-- One call: what it returns and the state it leaves. -/
def call (s : State) : Action → Option (Result × State)
  | .reserve => (s.reserve P).map fun r => (.index r.1, r.2)
  | .construct => (s.construct P).map fun r => (.index r.1, r.2)
  | .add => (s.add P).map fun r => (.index r.1, r.2)
  | .allocate => (s.allocate P).map fun r => (.pointer r.1, r.2)
  | .create => (s.create P).map fun r => (.pointer r.1, r.2)
  | .insert => (s.insert P).map fun r => (.pointer r.1, r.2)
  | .remove index destruct => (s.remove index destruct).map fun t => (.void, t)
  | .freeWith ptr destruct => (s.freeWith P ptr destruct).map fun t => (.void, t)
  | .free ptr => (s.free P ptr).map fun t => (.void, t)

end State

/-- The pool as a machine over the calls of its users. -/
def pool : Machine State Action :=
  { step := fun s a => (s.call P a).map Prod.snd }

end ObjectPool
end Internal
end Mozi
