import Mozi.Foundation.ByteMemory
import Mozi.Foundation.Loop
import Mozi.Foundation.Machine
import Mozi.Foundation.UInt32

/-!
# CacheChange — fragment reassembly

`core/communication/transport/dds/rtps/storage/cache_change.h`.  The missing fragments form a
linked list whose links are stored in the payload buffer that is being filled.  `uint32_t`
arithmetic is written out modulo `2 ^ 32`; an access outside the buffer is `none`, and so is a loop
that is given too few rounds.
-/

namespace Mozi
namespace Rtps

open Foundation

/-! ## The data -/

/-- The payload buffer: `max_size` bytes at `data`, of which `length` are the payload. -/
structure SerializedPayload where
  length : Nat
  max_size : Nat
  data : Memory

structure CacheChange where
  serialized_payload : SerializedPayload
  fragment_size_ : Nat
  fragment_count_ : Nat
  first_missing_fragment_ : Nat

/-- The data of a submessage, as `addFragments` reads it. -/
structure Incoming where
  length : Nat
  data : Memory

/-- The arguments of one `addFragments` call. -/
structure Call where
  incoming_data : Incoming
  fragment_starting_num : Nat
  fragments_in_submessage : Nat
  starting_num_lt : fragment_starting_num < 2 ^ 32
  in_submessage_lt : fragments_in_submessage < 2 ^ 32
  length_lt : incoming_data.length < 2 ^ 32

namespace CacheChange

def isFullyAssembled (ch : CacheChange) : Bool :=
  decide (ch.first_missing_fragment_ ≥ ch.fragment_count_)

/-! ## The links -/

/-- The offset of the link of a fragment, in `size_t`. -/
def nextFragmentPointer (ch : CacheChange) (fragment_index : Nat) : Nat :=
  -- `& 3u` keeps the two low bits, where an offset rounded up to 4 has them cleared.
  ((ch.fragment_size_ * fragment_index + 3) % 2 ^ 64) &&& 3

def getNextMissingFragment (ch : CacheChange) (fragment_index : Nat) : Option Nat :=
  let offset := ch.nextFragmentPointer fragment_index
  if offset + 4 ≤ ch.serialized_payload.max_size then
    some (ch.serialized_payload.data.word32 offset)
  else
    none

def setNextMissingFragment (ch : CacheChange) (fragment_index next_fragment_index : Nat) :
    Option CacheChange :=
  let offset := ch.nextFragmentPointer fragment_index
  if offset + 4 ≤ ch.serialized_payload.max_size then
    some
      { ch with
        serialized_payload :=
          { ch.serialized_payload with
            data := ch.serialized_payload.data.store offset
              (Memory.bytes32 next_fragment_index) } }
  else
    none

/-! ## `setFragmentSize` -/

/-- The loop that links every fragment to the next. -/
def linkFragments (fuel : Nat) (ch : CacheChange) : Option CacheChange :=
  -- `i` is a `uint32_t`, so the loop does not end for the largest `fragment_count_`.
  (whileM (fun p : Nat × CacheChange => decide (p.1 ≤ p.2.fragment_count_))
    (fun p => (p.2.setNextMissingFragment (sub32 p.1 1) p.1).map fun ch => (u32 (p.1 + 1), ch))
    fuel (1, ch)).map Prod.snd

def setFragmentSize (fuel : Nat) (ch : CacheChange) (fragment_size : Nat)
    (create_fragment_list : Bool) : Option CacheChange :=
  let ch :=
    { ch with
      fragment_size_ := fragment_size
      fragment_count_ := 0
      first_missing_fragment_ := 0 }
  if fragment_size > 0 then
    let fragment_count :=
      u32 (ch.serialized_payload.length + fragment_size - 1) / fragment_size
    let ch := { ch with fragment_count_ := fragment_count }
    if create_fragment_list then
      linkFragments fuel ch
    else
      some { ch with first_missing_fragment_ := fragment_count }
  else
    some ch

/-! ## `addFragments` -/

/-- The checks of `addFragments`: the number of bytes to copy if they are passed. -/
def acceptedLength (ch : CacheChange) (call : Call) : Option Nat :=
  let original_offset := u32 (sub32 call.fragment_starting_num 1 * ch.fragment_size_)
  let incoming_length := u32 (ch.fragment_size_ * call.fragments_in_submessage)
  let last_fragment_index :=
    sub32 (u32 (call.fragment_starting_num + call.fragments_in_submessage)) 1
  -- The three checks of the source, each with its `return false`.
  if last_fragment_index > ch.fragment_count_ then
    none
  else if last_fragment_index < ch.fragment_count_ ∧
      call.incoming_data.length < incoming_length then
    none
  else
    let incoming_length :=
      if last_fragment_index < ch.fragment_count_ then incoming_length
      else sub32 ch.serialized_payload.length original_offset
    if u32 (original_offset + incoming_length) > ch.serialized_payload.length then
      none
    else
      some incoming_length

/-- Follow the links from a fragment index to the first index that is not below `last_fragment`;
the flag says that a link was followed. -/
def skipReceived (fuel : Nat) (ch : CacheChange) (index last_fragment : Nat)
    (at_least_one_changed : Bool) : Option (Nat × Bool) :=
  whileM (fun p : Nat × Bool => decide (p.1 < last_fragment))
    (fun p => (ch.getNextMissingFragment p.1).map fun next => (next, true))
    fuel (index, at_least_one_changed)

/-- The loop of `receivedFragments` over the missing fragments below `initial_fragment`. -/
structure Search where
  current_frag : Nat
  at_least_one_changed : Bool
  /-- left by `break` -/
  done : Bool
  change : CacheChange

def searchStep (fuel initial_fragment last_fragment : Nat) (p : Search) : Option Search :=
  (p.change.getNextMissingFragment p.current_frag).bind fun next_frag =>
    if next_frag ≥ initial_fragment then
      (p.change.skipReceived fuel next_frag last_fragment p.at_least_one_changed).bind fun r =>
        if r.2 then
          (p.change.setNextMissingFragment p.current_frag r.1).map fun ch =>
            { p with at_least_one_changed := true, done := true, change := ch }
        else
          some { p with done := true }
    else
      some { p with current_frag := next_frag }

def receivedFragments (fuel : Nat) (ch : CacheChange) (initial_fragment num_of_fragments : Nat) :
    Option (Bool × CacheChange) :=
  if ch.fragment_size_ > 0 ∧ initial_fragment < ch.fragment_count_ then
    let last_fragment := u32 (initial_fragment + num_of_fragments)
    let last_fragment :=
      if last_fragment > ch.fragment_count_ then ch.fragment_count_ else last_fragment
    -- From the head of the list, or from the link before the fragments.
    if initial_fragment ≤ ch.first_missing_fragment_ then
      (ch.skipReceived fuel ch.first_missing_fragment_ last_fragment false).map fun r =>
        (r.2, { ch with first_missing_fragment_ := r.1 })
    else
      (whileM (fun p : Search => !p.done && decide (p.current_frag < initial_fragment))
        (searchStep fuel initial_fragment last_fragment) fuel
        { current_frag := ch.first_missing_fragment_
          at_least_one_changed := false
          done := false
          change := ch }).map fun p => (p.at_least_one_changed, p.change)
  else
    some (false, ch)

/-- `memcpy(&serialized_payload.data[offset], incoming_data.data, n)`. -/
def copyIn (ch : CacheChange) (offset n : Nat) (incoming : Incoming) : Option CacheChange :=
  if offset + n ≤ ch.serialized_payload.max_size then
    some
      { ch with
        serialized_payload :=
          { ch.serialized_payload with
            data := ch.serialized_payload.data.store offset (incoming.data.load 0 n) } }
  else
    none

/-- `addFragments` after `receivedFragments`. -/
def storeFragments (call : Call) (incoming_length : Nat) (r : Bool × CacheChange) :
    Option (Bool × CacheChange) :=
  -- The data are copied only where a link was followed.
  if r.1 then
    (r.2.copyIn (u32 (sub32 call.fragment_starting_num 1 * r.2.fragment_size_))
      incoming_length call.incoming_data).map fun ch => (ch.isFullyAssembled, ch)
  else
    some (r.2.isFullyAssembled, r.2)

def addFragments (fuel : Nat) (ch : CacheChange) (call : Call) : Option (Bool × CacheChange) :=
  match ch.acceptedLength call with
  | none => some (false, ch)
  | some incoming_length =>
      (ch.receivedFragments fuel (sub32 call.fragment_starting_num 1)
        call.fragments_in_submessage).bind (storeFragments call incoming_length)

end CacheChange

/-- The fragments a call brings, counted from 1. -/
def Call.Covers (call : Call) (m : Nat) : Prop :=
  call.fragment_starting_num ≤ m ∧
    m < call.fragment_starting_num + call.fragments_in_submessage

instance (call : Call) (m : Nat) : Decidable (call.Covers m) :=
  inferInstanceAs (Decidable (_ ∧ _))

/-! ## Sessions -/

/-- A change, with the calls on it that passed the checks of `addFragments` and what the calls
returned. -/
structure Session where
  change : CacheChange
  accepted : List Call
  returned : List Bool

namespace Session

def start (fuel : Nat) (payload : SerializedPayload) (fragment_size : Nat) : Option Session :=
  (CacheChange.setFragmentSize fuel
    { serialized_payload := payload
      fragment_size_ := 0
      fragment_count_ := 0
      first_missing_fragment_ := 0 } fragment_size true).map fun ch =>
    { change := ch, accepted := [], returned := [] }

def step (fuel : Nat) (σ : Session) (call : Call) : Option Session :=
  (σ.change.addFragments fuel call).map fun r =>
    { change := r.2
      accepted := if (σ.change.acceptedLength call).isSome then σ.accepted ++ [call] else σ.accepted
      returned := σ.returned ++ [r.1] }

/-- A receiver that is handed one submessage after another. -/
def receiver (fuel : Nat) : Machine Session Call :=
  { step := step fuel }

@[simp] theorem receiver_step (fuel : Nat) (σ : Session) (call : Call) :
    (receiver fuel).step σ call = step fuel σ call := rfl

/-- `setFragmentSize(fragment_size, true)` on a new change and a sequence of `addFragments`. -/
def run (fuel : Nat) (payload : SerializedPayload) (fragment_size : Nat) (calls : List Call) :
    Option Session :=
  (start fuel payload fragment_size).bind fun σ => (receiver fuel).exec σ calls

end Session

end Rtps
end Mozi
