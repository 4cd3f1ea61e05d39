import Mathlib.Data.List.Basic

/-!
# DoubleBufferedQueue — two queues behind a front and a back pointer

`core/common/data_structure/double_buffered_queue.h`.  Producers push to the queue the back
pointer names, the consumer reads and pops the one the front pointer names, and `Swap` empties
the front queue and exchanges the pointers.  Every member function runs under the queue's
mutexes, so each one is a single step of the programs that use it.

`BothEmpty` is read as testing the two queues; the source spells their mutexes there.
-/

namespace Mozi
namespace DataStructure

universe u

/-- The two queue objects a pointer of the class can name. -/
inductive Buffer
  | queue_a
  | queue_b
  deriving DecidableEq, Repr

structure DoubleBufferedQueue (T : Type u) where
  queue_a : List T
  queue_b : List T
  front_queue : Buffer
  back_queue : Buffer
  /-- The constructor and `Swap` keep the two pointers on different queues. -/
  distinct : front_queue ≠ back_queue

namespace DoubleBufferedQueue

variable {T : Type u}

/-- The default constructor: front on `queue_a_`, back on `queue_b_`, both empty. -/
def new : DoubleBufferedQueue T :=
  { queue_a := []
    queue_b := []
    front_queue := .queue_a
    back_queue := .queue_b
    distinct := by decide }

/-- The content of the queue a pointer names. -/
def get (q : DoubleBufferedQueue T) : Buffer → List T
  | .queue_a => q.queue_a
  | .queue_b => q.queue_b

/-- Overwrite the queue a pointer names. -/
def set (q : DoubleBufferedQueue T) (b : Buffer) (xs : List T) : DoubleBufferedQueue T :=
  match b with
  | .queue_a => { q with queue_a := xs }
  | .queue_b => { q with queue_b := xs }

def front (q : DoubleBufferedQueue T) : List T := q.get q.front_queue
def back (q : DoubleBufferedQueue T) : List T := q.get q.back_queue

/-! ## Member functions -/

def Swap (q : DoubleBufferedQueue T) : DoubleBufferedQueue T :=
  let q' := q.set q.front_queue []
  { q' with
    front_queue := q.back_queue
    back_queue := q.front_queue
    distinct := fun h => q.distinct h.symm }

def Push (q : DoubleBufferedQueue T) (item : T) : DoubleBufferedQueue T :=
  q.set q.back_queue (q.back ++ [item])

/-- `front()` of the front queue; `none` where the queue is empty and the call is undefined. -/
def Front (q : DoubleBufferedQueue T) : Option T := q.front.head?

/-- Assignment through the reference `Front()` returns. -/
def setFront (q : DoubleBufferedQueue T) (item : T) : DoubleBufferedQueue T :=
  q.set q.front_queue (item :: q.front.tail)

def Pop (q : DoubleBufferedQueue T) : DoubleBufferedQueue T :=
  q.set q.front_queue q.front.tail

def Empty (q : DoubleBufferedQueue T) : Bool := q.front.isEmpty

def BothEmpty (q : DoubleBufferedQueue T) : Bool := q.front.isEmpty && q.back.isEmpty

/-! ## What each member function does to the two ends -/

@[simp] theorem front_set_front (q : DoubleBufferedQueue T) (xs : List T) :
    (q.set q.front_queue xs).front = xs := by
  rcases q with ⟨a, b, f, k, hd⟩
  cases f <;> rfl

@[simp] theorem back_set_front (q : DoubleBufferedQueue T) (xs : List T) :
    (q.set q.front_queue xs).back = q.back := by
  rcases q with ⟨a, b, f, k, hd⟩
  cases f <;> cases k <;> first | rfl | exact absurd rfl hd

@[simp] theorem front_set_back (q : DoubleBufferedQueue T) (xs : List T) :
    (q.set q.back_queue xs).front = q.front := by
  rcases q with ⟨a, b, f, k, hd⟩
  cases f <;> cases k <;> first | rfl | exact absurd rfl hd

@[simp] theorem back_set_back (q : DoubleBufferedQueue T) (xs : List T) :
    (q.set q.back_queue xs).back = xs := by
  rcases q with ⟨a, b, f, k, hd⟩
  cases k <;> rfl

@[simp] theorem front_new : (new : DoubleBufferedQueue T).front = [] := rfl
@[simp] theorem back_new : (new : DoubleBufferedQueue T).back = [] := rfl

@[simp] theorem front_Swap (q : DoubleBufferedQueue T) : q.Swap.front = q.back := by
  rcases q with ⟨a, b, f, k, hd⟩
  cases f <;> cases k <;> first | rfl | exact absurd rfl hd

@[simp] theorem back_Swap (q : DoubleBufferedQueue T) : q.Swap.back = [] := by
  rcases q with ⟨a, b, f, k, hd⟩
  cases f <;> cases k <;> rfl

@[simp] theorem front_Push (q : DoubleBufferedQueue T) (item : T) :
    (q.Push item).front = q.front := by
  simp [Push]

@[simp] theorem back_Push (q : DoubleBufferedQueue T) (item : T) :
    (q.Push item).back = q.back ++ [item] := by
  simp [Push]

@[simp] theorem front_setFront (q : DoubleBufferedQueue T) (item : T) :
    (q.setFront item).front = item :: q.front.tail := by
  simp [setFront]

@[simp] theorem back_setFront (q : DoubleBufferedQueue T) (item : T) :
    (q.setFront item).back = q.back := by
  simp [setFront]

@[simp] theorem front_Pop (q : DoubleBufferedQueue T) : q.Pop.front = q.front.tail := by
  simp [Pop]

@[simp] theorem back_Pop (q : DoubleBufferedQueue T) : q.Pop.back = q.back := by
  simp [Pop]

theorem Front_eq_some {q : DoubleBufferedQueue T} {item : T} :
    q.Front = some item ↔ ∃ rest, q.front = item :: rest := by
  unfold Front
  cases q.front with
  | nil =>
      simp
  | cons x xs =>
      simp

@[simp] theorem Empty_eq_true {q : DoubleBufferedQueue T} : q.Empty = true ↔ q.front = [] := by
  simp [Empty]

@[simp] theorem Empty_eq_false {q : DoubleBufferedQueue T} :
    q.Empty = false ↔ q.front ≠ [] := by
  simp [Empty]

@[simp] theorem BothEmpty_eq_true {q : DoubleBufferedQueue T} :
    q.BothEmpty = true ↔ q.front = [] ∧ q.back = [] := by
  simp [BothEmpty]

end DoubleBufferedQueue

end DataStructure
end Mozi
