import Mozi.Foundation.Owners
import Mozi.Rtps.Storage.PayloadBuffer

/-!
# PayloadOwnership — many payloads on one heap

Payloads that are constructed, used and destroyed in any order, each with the operations of
`PayloadBuffer`.  No block has two owners, a destructor never frees a block that is not its own, and
the blocks that stay behind are those `reserveFragmented` was called over: `heap_restored_iff`.
-/

namespace Mozi
namespace Rtps

open Foundation

namespace PayloadBuffer

variable {p t : PayloadBuffer} {n : Nat} {reply : Heap.Reply} {ser : PayloadSource}

/-! ## What an operation does to the heap -/

/-- The blocks before and after, for a call that frees what it gives up. -/
def HeapMoves (p t : PayloadBuffer) : Prop :=
  Heap.Moves p.heap t.heap p.data t.data

theorem reserve_moves {r : Except BadAlloc Unit} (hrun : p.reserve n reply = some (r, t)) :
    HeapMoves p t := by
  unfold reserve at hrun
  split_ifs at hrun with hfits
  · cases hrun
    exact Heap.Moves.refl _ _
  · cases hdata : p.data with
    | none =>
        simp only [hdata, Option.map_eq_some_iff] at hrun
        obtain ⟨⟨d, heap⟩, hcalloc, hend⟩ := hrun
        have hmoves := Heap.calloc_moves hcalloc
        unfold HeapMoves
        rw [hdata]
        cases d with
        | none =>
            cases hend
            exact hmoves
        | some q =>
            cases hend
            exact hmoves
    | some old_data =>
        simp only [hdata, Option.bind_eq_some_iff] at hrun
        obtain ⟨⟨d, heap⟩, hrealloc, hend⟩ := hrun
        unfold HeapMoves
        rw [hdata]
        cases d with
        | none =>
            simp only [Option.map_eq_some_iff] at hend
            obtain ⟨heap', hfree, hend⟩ := hend
            obtain ⟨-, bytes, -, hsame, -⟩ := Heap.realloc_cases hrealloc
            rw [hsame rfl] at hfree
            cases hend
            exact Heap.free_moves hfree
        | some q =>
            simp only [Option.map_eq_some_iff] at hend
            obtain ⟨heap', hwrite, hend⟩ := hend
            cases hend
            exact (Heap.realloc_moves hrealloc).trans (Heap.write_moves hwrite)

theorem copyBytes_moves (hrun : p.copyBytes ser = some t) : HeapMoves p t := by
  simp only [copyBytes] at hrun
  split_ifs at hrun with hzero hroom
  · cases hrun
    exact Heap.Moves.refl _ _
  · simp only [Option.bind_eq_some_iff, Option.map_eq_some_iff] at hrun
    obtain ⟨q, hdata, heap, hwrite, hend⟩ := hrun
    cases hend
    unfold HeapMoves
    rw [hdata]
    exact Heap.write_moves hwrite

theorem copy_moves {r : Except BadAlloc Unit} (hrun : p.copy ser reply = some (r, t)) :
    HeapMoves p t := by
  simp only [copy] at hrun
  split_ifs at hrun with hgrow
  · rw [Option.bind_eq_some_iff] at hrun
    obtain ⟨⟨r', u⟩, hreserve, hend⟩ := hrun
    have hfirst : HeapMoves { p with length := ser.length } u := reserve_moves hreserve
    cases r' with
    | error e =>
        cases hend
        exact hfirst
    | ok _ =>
        simp only [Option.map_eq_some_iff] at hend
        obtain ⟨v, hcopy, hend⟩ := hend
        cases hend
        exact Heap.Moves.trans hfirst (copyBytes_moves hcopy)
  · simp only [Option.map_eq_some_iff] at hrun
    obtain ⟨v, hcopy, hend⟩ := hrun
    cases hend
    have hmoves : HeapMoves { p with length := ser.length } t := copyBytes_moves hcopy
    exact hmoves

theorem empty_moves (hrun : p.empty = some t) : HeapMoves p t := by
  simp only [empty] at hrun
  cases hdata : p.data with
  | none =>
      simp only [hdata, Option.some.injEq] at hrun
      subst hrun
      unfold HeapMoves
      rw [hdata]
      exact Heap.Moves.refl _ _
  | some q =>
      simp only [hdata, Option.map_eq_some_iff] at hrun
      obtain ⟨heap, hfree, rfl⟩ := hrun
      unfold HeapMoves
      rw [hdata]
      exact Heap.free_moves hfree

/-- `reserveFragmented` takes a block as if there had been none. -/
theorem reserveFragmented_leaves (hrun : p.reserveFragmented ser reply = some t) :
    Heap.Moves p.heap t.heap none t.data := by
  simp only [reserveFragmented, Option.map_eq_some_iff] at hrun
  obtain ⟨⟨d, heap⟩, hcalloc, hend⟩ := hrun
  cases hend
  exact Heap.calloc_moves hcalloc

/-- The block a step leaves behind. -/
def leftBehind (p : PayloadBuffer) : Op → Option Nat
  | .reserveFragmented _ _ => p.data
  | _ => none

/-- A payload that owns its block can always be emptied. -/
theorem Owned.empty_returns (h : p.Owned) : ∃ t, p.empty = some t := by
  cases hdata : p.data with
  | none =>
      exact ⟨_, by simp only [empty, hdata]; rfl⟩
  | some q =>
      obtain ⟨block, hlive, -⟩ := h q hdata
      obtain ⟨heap, hfree⟩ := Heap.free_of_live (p := q) (h := p.heap) (by rw [hlive]; simp)
      exact ⟨_, by simp only [empty, hdata, hfree]; rfl⟩

end PayloadBuffer

/-! ## Payloads that share a heap -/

/-- The members of a payload, without the heap. -/
structure PayloadFields where
  encapsulation : Nat
  length : Nat
  max_size : Nat
  data : Option Nat

def PayloadFields.on (f : PayloadFields) (heap : Heap) : PayloadBuffer where
  encapsulation := f.encapsulation
  length := f.length
  max_size := f.max_size
  data := f.data
  heap := heap

def PayloadBuffer.fields (p : PayloadBuffer) : PayloadFields where
  encapsulation := p.encapsulation
  length := p.length
  max_size := p.max_size
  data := p.data

structure PayloadHeap where
  heap : Heap
  /-- the payloads that are alive -/
  payloads : Nat → Option PayloadFields
  /-- the blocks that calls have left behind; nothing in the program knows them -/
  leaked : List Nat

namespace PayloadHeap

inductive Action where
  /-- `SerializedPayload()` -/
  | construct (i : Nat)
  /-- `SerializedPayload(len)` -/
  | constructLen (i len : Nat) (reply : Heap.Reply)
  | call (i : Nat) (op : PayloadBuffer.Op)
  /-- `~SerializedPayload()` -/
  | destroy (i : Nat)

/-- The payload that an action is about. -/
def Action.target : Action → Nat
  | .construct i => i
  | .constructLen i _ _ => i
  | .call i _ => i
  | .destroy i => i

def init (heap : Heap) : PayloadHeap where
  heap := heap
  payloads := fun _ => none
  leaked := []

/-- Payload `i` is what a call has left, or gone. -/
def put (s : PayloadHeap) (i : Nat) (p : PayloadBuffer) (alive : Bool) : PayloadHeap :=
  { s with
    heap := p.heap
    payloads := Function.update s.payloads i (if alive then some p.fields else none) }

def leak (s : PayloadHeap) (d : Option Nat) : PayloadHeap :=
  { s with leaked := s.leaked ++ d.toList }

/-- A constructor that throws in its body runs the destructor: the one it delegates to is done. -/
def constructLen (s : PayloadHeap) (i len : Nat) (reply : Heap.Reply) : Option PayloadHeap :=
  ((PayloadBuffer.init s.heap).reserve len reply).bind fun
    | (.ok _, p) => some (s.put i p true)
    | (.error _, p) => p.empty.map fun p => s.put i p false

def step (s : PayloadHeap) : Action → Option PayloadHeap
  | .construct i =>
      if s.payloads i = none then some (s.put i (PayloadBuffer.init s.heap) true) else none
  | .constructLen i len reply =>
      if s.payloads i = none then s.constructLen i len reply else none
  | .call i op =>
      (s.payloads i).bind fun f =>
        ((f.on s.heap).step op).map fun p =>
          (s.put i p true).leak ((f.on s.heap).leftBehind op)
  | .destroy i =>
      (s.payloads i).bind fun f => (f.on s.heap).empty.map fun p => s.put i p false

def machine : Machine PayloadHeap Action := ⟨step⟩

/-! ## The invariant -/

/-- The block that payload `i` holds. -/
def holds (s : PayloadHeap) (i : Nat) : Option Nat :=
  (s.payloads i).bind PayloadFields.data

structure Owns (h₀ : Heap) (s : PayloadHeap) : Prop where
  books : Books h₀ s.heap s.holds s.leaked
  owned : ∀ i f, s.payloads i = some f → (f.on s.heap).Owned

/-- The step calls `reserveFragmented` on a payload with a block. -/
def Leaks (s : PayloadHeap) : Action → Prop
  | .call i (.reserveFragmented _ _) => s.holds i ≠ none
  | _ => False

variable {h₀ : Heap} {s t : PayloadHeap} {i : Nat} {f : PayloadFields} {p : PayloadBuffer}
  {q : PayloadBuffer} {alive : Bool}

theorem holds_of (hi : s.payloads i = some f) : s.holds i = f.data := by
  rw [holds, hi]
  rfl

theorem holds_put (hdata : alive = false → p.data = none) :
    (s.put i p alive).holds = Function.update s.holds i p.data := by
  funext j
  by_cases hj : j = i
  · subst hj
    cases alive with
    | false => simp [holds, put, hdata rfl]
    | true => simp [holds, put, PayloadBuffer.fields]
  · simp [holds, put, Function.update_of_ne hj]

theorem owns_init (h₀ : Heap) : Owns h₀ (init h₀) where
  books := Books.init h₀
  owned := by simp [init]

/-- What another payload holds is still there: the block is live, and neither the old nor the new
one of payload `i`. -/
theorem block_kept (hs : Owns h₀ s) {d : Option Nat}
    (hframe : ∀ a, d ≠ some a → p.data ≠ some a → p.heap a = s.heap a)
    (hfresh : ∀ a, p.data = some a → s.holds i = some a ∨ s.heap a = none)
    (hd : d = s.holds i ∨ d = none) {j a : Nat} (hj : s.holds j = some a) (hne : j ≠ i) :
    p.heap a = s.heap a := by
  have hi : s.holds i ≠ some a := fun hi => hne (hs.books.apart j i a hj hi)
  refine hframe a ?_ (Books.untouched hfresh (hs.books.live_of_holds hj) hi)
  rcases hd with rfl | rfl
  · exact hi
  · simp

/-- After a call payload `i` owns its block, and the others own theirs. -/
theorem owned_put (hs : Owns h₀ s) (hp : alive = true → p.Owned)
    (hkept : ∀ j a, j ≠ i → s.holds j = some a → p.heap a = s.heap a) :
    ∀ j f, (s.put i p alive).payloads j = some f → (f.on p.heap).Owned := by
  intro j f hj
  by_cases hji : j = i
  · subst hji
    simp only [put, Function.update_self] at hj
    split_ifs at hj with halive
    cases hj
    exact hp halive
  · simp only [put, Function.update_of_ne hji] at hj
    intro q hq
    obtain ⟨block, hlive, hlength⟩ := hs.owned j f hj q hq
    refine ⟨block, ?_, hlength⟩
    exact (hkept j q hji (by rw [holds_of hj]; exact hq)).trans hlive

/-- A call that frees what it gives up. -/
theorem owns_put (hs : Owns h₀ s) (hmoves : Heap.Moves s.heap p.heap (s.holds i) p.data)
    (hp : p.Owned) (hdata : alive = false → p.data = none) : Owns h₀ (s.put i p alive) where
  books := by
    have hbooks := hs.books.moves hmoves fun a ha => by
      obtain ⟨block, hlive, -⟩ := hp a ha
      rw [hlive]
      simp
    rw [← holds_put hdata] at hbooks
    exact hbooks
  owned := owned_put hs (fun _ => hp) fun _ _ hne hj =>
    block_kept hs hmoves.frame hmoves.fresh (Or.inl rfl) hj hne

/-- A call that leaves its block behind. -/
theorem owns_leak (hs : Owns h₀ s) (hleaves : Heap.Moves s.heap p.heap none p.data)
    (hp : p.Owned) : Owns h₀ ((s.put i p true).leak (s.holds i)) where
  books := by
    have hbooks := hs.books.leaves (i := i) hleaves fun a ha => by
      obtain ⟨block, hlive, -⟩ := hp a ha
      rw [hlive]
      simp
    have hput : (s.put i p true).holds = Function.update s.holds i p.data := holds_put (by simp)
    rw [← hput] at hbooks
    exact hbooks
  owned := owned_put hs (fun _ => hp) fun _ _ hne hj =>
    block_kept hs hleaves.frame (fun a ha => (hleaves.fresh a ha).imp_left (by simp))
      (Or.inr rfl) hj hne

/-! ## Steps and runs -/

/-- The payload that is constructed holds nothing yet. -/
theorem holds_of_none (hi : s.payloads i = none) : s.holds i = none := by
  rw [holds, hi]
  rfl

/-- What a step does: payload `a.target` is put back after a call that frees what it gives up, or
after one that leaves its block behind. -/
inductive Steps (s : PayloadHeap) (a : Action) : PayloadHeap → Prop where
  | moves (p : PayloadBuffer) (alive : Bool) :
      Heap.Moves s.heap p.heap (s.holds a.target) p.data → p.Owned →
      (alive = false → p.data = none) → ¬ Leaks s a → Steps s a (s.put a.target p alive)
  | leaves (p : PayloadBuffer) :
      Heap.Moves s.heap p.heap none p.data → p.Owned → (Leaks s a ↔ s.holds a.target ≠ none) →
      Steps s a ((s.put a.target p true).leak (s.holds a.target))

theorem steps_constructLen {len : Nat} {reply : Heap.Reply} (hi : s.payloads i = none)
    (hrun : s.constructLen i len reply = some t) : Steps s (.constructLen i len reply) t := by
  simp only [constructLen, Option.bind_eq_some_iff] at hrun
  obtain ⟨⟨r, u⟩, hreserve, hend⟩ := hrun
  have hmoves : Heap.Moves s.heap u.heap (s.holds i) u.data := by
    rw [holds_of_none hi]
    exact PayloadBuffer.reserve_moves hreserve
  have howned := PayloadBuffer.reserve_owned (PayloadBuffer.owned_init s.heap) hreserve
  cases r with
  | ok _ =>
      cases hend
      exact .moves u true hmoves howned (by simp) id
  | error e =>
      simp only [Option.map_eq_some_iff] at hend
      obtain ⟨p, hempty, rfl⟩ := hend
      have hnull := (PayloadBuffer.empty_cases hempty).2
      exact .moves p false (hmoves.trans (PayloadBuffer.empty_moves hempty))
        (PayloadBuffer.owned_of_null hnull) (fun _ => hnull) id

/-- A call that leaves nothing behind. -/
theorem steps_call {op : PayloadBuffer.Op} (hi : s.payloads i = some f)
    (hmoves : PayloadBuffer.HeapMoves (f.on s.heap) p) (howned : p.Owned)
    (hquiet : ¬ Leaks s (.call i op)) : Steps s (.call i op) ((s.put i p true).leak none) := by
  have hsame : (s.put i p true).leak none = s.put i p true := by simp [leak]
  rw [hsame]
  refine .moves p true ?_ howned (by simp) hquiet
  rw [Action.target, holds_of hi]
  exact hmoves

theorem step_cases (hs : Owns h₀ s) {a : Action} (hrun : s.step a = some t) : Steps s a t := by
  cases a with
  | construct i =>
      obtain ⟨hi, heq⟩ := Option.ite_none_right_eq_some.1 hrun
      cases heq
      refine .moves _ true ?_ (PayloadBuffer.owned_init s.heap) (by simp) id
      rw [Action.target, holds_of_none hi]
      exact Heap.Moves.refl _ _
  | constructLen i len reply =>
      obtain ⟨hi, hlen⟩ := Option.ite_none_right_eq_some.1 hrun
      exact steps_constructLen hi hlen
  | call i op =>
      simp only [step, Option.bind_eq_some_iff, Option.map_eq_some_iff] at hrun
      obtain ⟨f, hi, p, hcall, rfl⟩ := hrun
      have howned := PayloadBuffer.step_owned op (hs.owned i f hi) hcall
      cases op with
      | reserve n reply =>
          simp only [PayloadBuffer.step, Option.map_eq_some_iff] at hcall
          obtain ⟨⟨r, u⟩, hreserve, rfl⟩ := hcall
          exact steps_call hi (PayloadBuffer.reserve_moves hreserve) howned id
      | reserveFragmented ser reply =>
          have hbehind : (f.on s.heap).leftBehind (.reserveFragmented ser reply) = s.holds i :=
            (holds_of hi).symm
          rw [hbehind]
          exact .leaves p (PayloadBuffer.reserveFragmented_leaves hcall) howned Iff.rfl
      | copy ser reply =>
          simp only [PayloadBuffer.step, Option.map_eq_some_iff] at hcall
          obtain ⟨⟨r, u⟩, hcopy, rfl⟩ := hcall
          exact steps_call hi (PayloadBuffer.copy_moves hcopy) howned id
      | empty =>
          exact steps_call hi (PayloadBuffer.empty_moves hcall) howned id
  | destroy i =>
      simp only [step, Option.bind_eq_some_iff, Option.map_eq_some_iff] at hrun
      obtain ⟨f, hi, p, hempty, rfl⟩ := hrun
      have hnull := (PayloadBuffer.empty_cases hempty).2
      refine .moves p false ?_ (PayloadBuffer.owned_of_null hnull) (fun _ => hnull) id
      rw [Action.target, holds_of hi]
      exact PayloadBuffer.empty_moves hempty

theorem owns_step (hs : Owns h₀ s) {a : Action} (hrun : s.step a = some t) : Owns h₀ t := by
  cases step_cases hs hrun with
  | moves p alive hmoves howned hnull _ => exact owns_put hs hmoves howned hnull
  | leaves p hleaves howned _ => exact owns_leak hs hleaves howned

/-- A step adds to what is left behind exactly if it leaks. -/
theorem leaked_step (hs : Owns h₀ s) {a : Action} (hrun : s.step a = some t) :
    t.leaked = [] ↔ s.leaked = [] ∧ ¬ Leaks s a := by
  cases step_cases hs hrun with
  | moves p alive _ _ _ hquiet => exact ⟨fun h => ⟨h, hquiet⟩, And.left⟩
  | leaves p _ _ hleaks =>
      rw [hleaks, leak, put, List.append_eq_nil_iff]
      cases s.holds a.target <;> simp

/-- A step leaves the members and the block of every payload it is not about. -/
theorem step_frame (hs : Owns h₀ s) {a : Action} (hrun : s.step a = some t) {j : Nat}
    (hj : j ≠ a.target) :
    t.payloads j = s.payloads j ∧ ∀ q, s.holds j = some q → t.heap q = s.heap q := by
  cases step_cases hs hrun with
  | moves p alive hmoves _ _ _ =>
      exact ⟨Function.update_of_ne hj _ _,
        fun q hq => block_kept hs hmoves.frame hmoves.fresh (Or.inl rfl) hq hj⟩
  | leaves p hleaves _ _ =>
      exact ⟨Function.update_of_ne hj _ _, fun q hq => block_kept hs hleaves.frame
        (fun b hb => (hleaves.fresh b hb).imp_left (by simp)) (Or.inr rfl) hq hj⟩

/-- The destructor of a payload that is alive can run. -/
theorem destroy_returns (hs : Owns h₀ s) (hi : s.payloads i = some f) :
    ∃ t, s.step (.destroy i) = some t := by
  obtain ⟨p, hp⟩ := (hs.owned i f hi).empty_returns
  exact ⟨s.put i p false, by simp [step, hi, hp]⟩

theorem owns_run {tr : List Action} (hrun : machine.exec (init h₀) tr = some s) : Owns h₀ s :=
  machine.exec_preserves (fun _ _ _ hs hstep => owns_step hs hstep) (owns_init h₀) hrun

theorem leaked_run {tr : List Action} (hs : Owns h₀ s) (hrun : machine.exec s tr = some t) :
    t.leaked = [] ↔ s.leaked = [] ∧ machine.Along (fun s a => ¬ Leaks s a) s tr := by
  induction tr generalizing s with
  | nil =>
      cases hrun
      simp
  | cons a tr ih =>
      obtain ⟨u, hstep, hrest⟩ := machine.exec_cons.1 hrun
      rw [ih (owns_step hs hstep) hrest, leaked_step hs hstep]
      constructor
      · rintro ⟨⟨hnil, hquiet⟩, halong⟩
        exact ⟨hnil, Machine.Along.cons machine hstep hquiet halong⟩
      · rintro ⟨hnil, hquiet, halong⟩
        exact ⟨⟨hnil, hquiet⟩, halong u hstep⟩

/-- In every run on any heap: each block that is live is the one of exactly one payload, was there
before, or has been left behind by `reserveFragmented`; every payload can be destroyed; a step
leaves the other payloads and their bytes alone.  When all payloads are gone the heap is what it was
before exactly if `reserveFragmented` was never called on a payload with a block. -/
theorem heap_restored_iff {tr : List Action} (hrun : machine.exec (init h₀) tr = some s) :
    Books h₀ s.heap s.holds s.leaked ∧
      (∀ i f, s.payloads i = some f → ∃ t, s.step (.destroy i) = some t) ∧
      (∀ a t, s.step a = some t → ∀ j, j ≠ a.target →
        t.payloads j = s.payloads j ∧ ∀ q, s.holds j = some q → t.heap q = s.heap q) ∧
      ((∀ i, s.payloads i = none) →
        (s.heap = h₀ ↔ machine.Along (fun s a => ¬ Leaks s a) (init h₀) tr)) := by
  have hs := owns_run hrun
  refine ⟨hs.books, fun _ _ => destroy_returns hs, fun _ _ hstep _ => step_frame hs hstep, ?_⟩
  intro hnone
  rw [hs.books.restored_iff fun i => holds_of_none (hnone i), leaked_run (owns_init h₀) hrun]
  exact and_iff_right rfl

/-- A payload of four bytes is reserved, used for a fragmented one of eight bytes and destroyed. -/
def reservesTwice : List Action :=
  [.constructLen 0 4 ⟨some 16, fun _ => 0⟩,
    .call 0 (.reserveFragmented ⟨0, 8, []⟩ ⟨some 32, fun _ => 0⟩), .destroy 0]

/-- The first block stays behind. -/
theorem heap_restored_iff_reservesTwice :
    ∃ s, machine.exec (init fun _ => none) reservesTwice = some s ∧ s.leaked = [16] ∧
      (∀ i, s.payloads i = none) ∧ s.heap ≠ fun _ => none := by
  obtain ⟨s, hrun, hleaked⟩ :
      ∃ s, machine.exec (init fun _ => none) reservesTwice = some s ∧ s.leaked = [16] :=
    ⟨_, rfl, rfl⟩
  have hnone : ∀ i, s.payloads i = none := by
    intro i
    cases hrun
    simp [put, leak, init]
  obtain ⟨-, -, -, hrestored⟩ := heap_restored_iff hrun
  refine ⟨s, hrun, hleaked, hnone, fun heq => ?_⟩
  have halong := (hrestored hnone).1 heq
  have hnil := ((leaked_run (owns_init _) hrun).2 ⟨rfl, halong⟩)
  rw [hleaked] at hnil
  cases hnil

end PayloadHeap

end Rtps
end Mozi
