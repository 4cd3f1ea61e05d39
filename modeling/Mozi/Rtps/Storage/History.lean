import Mozi.DataStructure.SequenceNumber
import Mozi.Foundation.Loop
import Mozi.Foundation.RemoveIf
import Mozi.Rtps.Common.Guid

/-!
# History — the changes of an endpoint

`core/communication/transport/dds/rtps/storage/history.cc`, `history.h` and `reader_history.h`.
An iterator of `changes_` is an index, `none` where it is singular.  The result `none` of an
operation is a null pointer that is followed, a singular or past-the-end iterator that is used, or
a loop that is given too few rounds.

`mp_mtx` is read as the member `mp_mtx_`, `ch` and `outer_change` as the parameter of
`removeChange` and of `findChangeNts`, the header `if (; …; …)` of `getChangeNts` as a `for` and
`seq` as `sn`.  `ReaderHistory::removeChangeNts`, which is declared only, is the one of `History`.
-/

namespace Mozi
namespace Rtps

open DataStructure Foundation

/-- A `CacheChange*`. -/
abbrev ChangePtr := Nat

/-- What a history reads of a `CacheChange`. -/
structure CacheChange.Key where
  writer_guid : GUID
  sequence_number : SequenceNumber
deriving DecidableEq

structure History where
  /-- the address of the mutex, `none` for a null pointer -/
  mp_mtx_ : Option Nat
  changes_ : List ChangePtr
  is_history_full_ : Bool
  /-- the calls of `doReleaseCache` so far, in order -/
  released : List ChangePtr
deriving DecidableEq

namespace History

-- The changes the pointers lead to.
variable (deref : ChangePtr → CacheChange.Key)

/-- `std::lock_guard<RecursiveTimedMutex> guard(*mp_mtx_);` -/
def lock (h : History) : Option Unit :=
  h.mp_mtx_.map fun _ => ()

/-- The pure virtual `doReleaseCache`: the history sees the call only. -/
def doReleaseCache (h : History) (change : ChangePtr) : History :=
  { h with released := h.released ++ [change] }

/-! ## Removal -/

def matchesChange (inner_change outer_change : ChangePtr) : Bool :=
  decide ((deref inner_change).sequence_number = (deref outer_change).sequence_number)

def findChangeNts (h : History) (ch : ChangePtr) : Option Nat :=
  if h.mp_mtx_ = none then
    none
  else
    some (h.changes_.findIdx fun inner_change => matchesChange deref inner_change ch)

def removeChangeNts (h : History) (removal : Nat) (release : Bool) : Option (Nat × History) :=
  if h.mp_mtx_ = none then
    some (h.changes_.length, h)
  else if removal = h.changes_.length then
    some (h.changes_.length, h)
  else do
    let change ← h.changes_[removal]?
    let h := { h with is_history_full_ := false }
    let h := if release then h.doReleaseCache change else h
    some (removal, { h with changes_ := h.changes_.eraseIdx removal })

/-- The value is `none` where the end of the function is reached without a `return`. -/
def removeChange (h : History) (change : ChangePtr) : Option (Option Bool × History) := do
  h.lock
  let it ← h.findChangeNts deref change
  if it = h.changes_.length then
    some (some false, h)
  else
    -- Nothing follows: `removeChangeNts` is not called and nothing is returned.
    some (none, h)

/-- The body of `while (!changes_.empty())`. -/
def removeFront (h : History) : Option History := do
  let front ← h.changes_.head?
  let r ← h.removeChange deref front
  some r.2

def removeAllChanges (fuel : Nat) (h : History) : Option (Bool × History) := do
  -- `if (mp_mtx_ = nullptr)` assigns, and the null pointer it yields is false as a condition.
  let h := { h with mp_mtx_ := none }
  if h.mp_mtx_.isSome then
    some (false, h)
  else do
    h.lock
    if !h.changes_.isEmpty then do
      let h ← whileM (fun h : History => !h.changes_.isEmpty) (removeFront deref) fuel h
      some (true, { h with changes_ := [], is_history_full_ := false })
    else
      some (false, h)

/-! ## Lookup -/

/-- The loop of `getChangeNts` from the iterator `it` on: what `*change` is, and the iterator that
is returned. -/
def getChangeLoop (sn : SequenceNumber) (guid : GUID) :
    List ChangePtr → Nat → Option ChangePtr × Nat
  | [], it => (none, it)
  | c :: rest, it =>
      if (deref c).writer_guid = guid then
        if (deref c).sequence_number = sn then
          (some c, it)
        else if SequenceNumber.gt (deref c).sequence_number sn then
          (none, it)
        else
          getChangeLoop sn guid rest (it + 1)
      else
        getChangeLoop sn guid rest (it + 1)

def getChangeNts (h : History) (sn : SequenceNumber) (guid : GUID) (hint : Nat) :
    Option ChangePtr × Nat :=
  getChangeLoop deref sn guid (h.changes_.drop hint) hint

/-- `getChange`: the value returned and `*change`, which is `change₀` before the call. -/
def getChange (h : History) (sn : SequenceNumber) (guid : GUID) (change₀ : Option ChangePtr) :
    Option (Bool × Option ChangePtr) :=
  if h.mp_mtx_ = none then
    some (false, change₀)
  else do
    h.lock
    let r := h.getChangeNts deref sn guid 0
    some (r.1.isSome, r.1)

end History

/-! ## Reader histories -/

structure ReaderHistory extends History where
  mp_reader_ : Option Nat
deriving DecidableEq

namespace ReaderHistory

open History

/-- The body of `while (new_end != changes_.end())`. -/
def removeTail (p : Nat × History) : Option (Nat × History) :=
  p.2.removeChangeNts p.1 true

def removeChangesWithPred (fuel : Nat) (h : ReaderHistory) (pred : ChangePtr → Bool) :
    Option ReaderHistory :=
  -- The two assertions.
  if h.mp_reader_ = none ∨ h.mp_mtx_ = none then
    none
  else do
    h.lock
    let (cells, new_end) := removeIf pred h.changes_
    let r ← whileM (fun p : Nat × History => p.1 != p.2.changes_.length) removeTail fuel
      (new_end, { h.toHistory with changes_ := cells })
    some { h with toHistory := r.2 }

end ReaderHistory

end Rtps
end Mozi
