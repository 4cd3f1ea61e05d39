import Mathlib.Algebra.Group.Int.Defs
import Mathlib.Algebra.Group.Nat.Defs
import Mathlib.Tactic.Common
import Mozi.Foundation.Machine

/-!
# Semaphore — when permits are conserved

`core/utils/semaphore.h`.  Every member function is one section under `mtx_`, except that `wait`
releases it inside `cv_.wait`; a blocked thread may re-test its predicate at any time, which
covers notifications and spurious wake-ups alike.

`post()` tests `disable_` where `post(int)` tests `!disable_`, so on an enabled semaphore it does
nothing.  `permits_kept_iff` states which runs conserve the permits all the same: those in which
`post()` is called on a disabled semaphore only and no `post(n)` overflows `count_`.

`initial`, `posted` and `waited` record the history since the semaphore was last enabled and are
read by no step.
-/

namespace Mozi
namespace Utils

open Foundation

abbrev ThreadId := Nat

namespace Semaphore

structure State where
  count_ : BitVec 64
  disable_ : Bool
  /-- the threads inside `cv_.wait` -/
  blocked : ThreadId → Bool
  /-- the count the current mode started with -/
  initial : Nat
  /-- the permits posted since, `post()` counting as `post(1)` -/
  posted : Nat
  /-- the waits completed since -/
  waited : Nat

/-- `Semaphore(count)`. -/
def init (count : BitVec 64) : State :=
  { count_ := count
    disable_ := false
    blocked := fun _ => false
    initial := count.toNat
    posted := 0
    waited := 0 }

inductive Action
  | post
  | postN (n : Int)
  | enable
  | disable
  /-- a thread enters `wait` -/
  | wait (i : ThreadId)
  /-- a blocked thread re-tests the predicate of `cv_.wait` -/
  | wake (i : ThreadId)

namespace State

/-- `post()`; the guard is the one of the source. -/
def post (s : State) : State :=
  let s := { s with posted := s.posted + 1 }
  if s.disable_ then { s with count_ := s.count_ + 1 } else s

/-- `post(int n)`; `n` is converted to `size_t`. -/
def postN (s : State) (n : Int) : State :=
  let s := { s with posted := s.posted + n.toNat }
  if !s.disable_ then { s with count_ := s.count_ + BitVec.ofInt 64 n } else s

def enable (s : State) : State :=
  if s.disable_ then
    { s with count_ := 0, disable_ := false, initial := 0, posted := 0, waited := 0 }
  else
    s

/-- `count_ = (size_t) - 1L`. -/
def disable (s : State) : State :=
  if !s.disable_ then { s with count_ := BitVec.ofInt 64 (-1), disable_ := true } else s

/-- The predicate of `cv_.wait`. -/
def ready (s : State) : Bool :=
  s.disable_ || s.count_ ≠ 0

/-- The predicate of `cv_.wait` and, where it holds, `--count_`. -/
def test (s : State) (i : ThreadId) : State :=
  if s.ready then
    { s with
      count_ := s.count_ - 1
      blocked := Function.update s.blocked i false
      waited := s.waited + 1 }
  else
    { s with blocked := Function.update s.blocked i true }

def wait (s : State) (i : ThreadId) : State :=
  if !s.disable_ then s.test i else { s with waited := s.waited + 1 }

end State

def step (s : State) : Action → Option State
  | .post => some s.post
  | .postN n => some (s.postN n)
  | .enable => some s.enable
  | .disable => some s.disable
  | .wait i => if s.blocked i then none else some (s.wait i)
  | .wake i => if s.blocked i then some (s.test i) else none

def semaphore : Machine State Action :=
  { step := step }

/-! ## One section -/

variable {s t : State} {a : Action}

/-- On an enabled semaphore no permit is lost or made up. -/
def Conserved (s : State) : Prop :=
  s.disable_ = false → s.count_.toNat + s.waited = s.initial + s.posted

/-- The condition on a step: `post()` is called on a disabled semaphore only, and `post(n)` on an
enabled one stays within `size_t`. -/
def Keeps (s : State) : Action → Prop
  | .post => s.disable_ = true
  | .postN n => s.disable_ = true ∨ s.count_.toNat + n.toNat < 2 ^ 64
  | _ => True

theorem toNat_add_ofInt (x : BitVec 64) {n : Int} (hn : 0 ≤ n) :
    (x + BitVec.ofInt 64 n).toNat = (x.toNat + n.toNat) % 2 ^ 64 := by
  obtain ⟨k, rfl⟩ := Int.eq_ofNat_of_zero_le hn
  simp [BitVec.toNat_add]

/-- `++` and `--` on a count that does not pass zero. -/
theorem toNat_sub_one {x : BitVec 64} (hx : x ≠ 0) : (x - 1).toNat + 1 = x.toNat := by
  bv_omega

theorem conserved_init (count : BitVec 64) : Conserved (init count) := by
  intro _
  simp [init]

theorem post_conserved (hs : Conserved s) : Conserved s.post ↔ s.disable_ = true := by
  cases hd : s.disable_ with
  | true =>
      simp [Conserved, State.post, hd]
  | false =>
      -- The permit is counted as posted, and `count_` stays as it is.
      have hcount := hs hd
      simp only [Conserved, State.post, hd]
      constructor
      · intro h
        have := h rfl
        simp at this
        omega
      · simp

theorem postN_conserved {n : Int} (hn : 0 ≤ n) (hs : Conserved s) :
    Conserved (s.postN n) ↔ s.disable_ = true ∨ s.count_.toNat + n.toNat < 2 ^ 64 := by
  cases hd : s.disable_ with
  | true =>
      simp [Conserved, State.postN, hd]
  | false =>
      have hcount := hs hd
      have hsum := toNat_add_ofInt s.count_ hn
      have hlt := s.count_.isLt
      simp [Conserved, State.postN, hd, hsum]
      omega

/-- A wait that completes on an enabled semaphore takes a permit. -/
theorem test_conserved (hs : Conserved s) (i : ThreadId) : Conserved (s.test i) := by
  intro hd
  have hd' : s.disable_ = false := by
    unfold State.test at hd
    split at hd <;> exact hd
  have hcount := hs hd'
  by_cases hready : s.ready = true
  · have hpos : s.count_ ≠ 0 := by simpa [State.ready, hd'] using hready
    have hsub := toNat_sub_one hpos
    simp only [State.test, hready, if_true]
    omega
  · simp only [State.test, hready]
    exact hcount

/-- From a state that conserves the permits a step conserves them exactly if it meets the
condition. -/
theorem step_conserved (hs : Conserved s) (ha : ∀ n, a = .postN n → 0 ≤ n)
    (h : step s a = some t) : Conserved t ↔ Keeps s a := by
  cases a with
  | post =>
      cases h
      exact post_conserved hs
  | postN n =>
      cases h
      exact postN_conserved (ha n rfl) hs
  | enable =>
      cases h
      cases hd : s.disable_ <;> simp_all [Keeps, Conserved, State.enable]
  | disable =>
      cases h
      cases hd : s.disable_ <;> simp_all [Keeps, Conserved, State.disable]
  | wait i =>
      obtain ⟨_, rfl⟩ : s.blocked i = false ∧ s.wait i = t := by simpa [step] using h
      simp only [Keeps, iff_true]
      cases hd : s.disable_ with
      | true => simp [Conserved, State.wait, hd]
      | false => simpa [State.wait, hd] using test_conserved hs i
  | wake i =>
      obtain ⟨_, rfl⟩ : s.blocked i = true ∧ s.test i = t := by simpa [step] using h
      simpa [Keeps] using test_conserved hs i

/-- On an enabled semaphore a section that completes a wait has found a permit. -/
theorem step_positive (hd : s.disable_ = false) (h : step s a = some t)
    (hwaited : t.waited = s.waited + 1) : s.count_ ≠ 0 := by
  have htest : ∀ i, (s.test i).waited = s.waited + 1 → s.count_ ≠ 0 := by
    intro i hi
    by_cases hready : s.ready = true
    · simpa [State.ready, hd] using hready
    · simp [State.test, hready] at hi
  cases a with
  | post =>
      cases h
      simp [State.post, hd] at hwaited
  | postN n =>
      cases h
      simp [State.postN, hd] at hwaited
  | enable =>
      cases h
      simp [State.enable, hd] at hwaited
  | disable =>
      cases h
      simp [State.disable, hd] at hwaited
  | wait i =>
      obtain ⟨_, rfl⟩ : s.blocked i = false ∧ s.wait i = t := by simpa [step] using h
      exact htest i (by simpa [State.wait, hd] using hwaited)
  | wake i =>
      obtain ⟨_, rfl⟩ : s.blocked i = true ∧ s.test i = t := by simpa [step] using h
      exact htest i hwaited

/-! ## Runs -/

/-- Permits are conserved in a run of a semaphore constructed with a count. -/
structure PermitsKept (count : BitVec 64) (tr : List Action) : Prop where
  conserved : ∀ tr₁ t, tr₁ <+: tr → semaphore.exec (init count) tr₁ = some t → Conserved t
  positive : ∀ tr₁ a t u, tr₁ ++ [a] <+: tr → semaphore.exec (init count) tr₁ = some t →
    step t a = some u → t.disable_ = false → u.waited = t.waited + 1 → t.count_ ≠ 0

/-- A run conserves the permits exactly if it calls `post()` on a disabled semaphore only and no
`post(n)` takes the count of an enabled one to `2 ^ 64`. -/
theorem permits_kept_iff {count : BitVec 64} {tr : List Action} {s : State}
    (hn : ∀ n, Action.postN n ∈ tr → 0 ≤ n) (hrun : semaphore.exec (init count) tr = some s) :
    PermitsKept count tr ↔ semaphore.Along Keeps (init count) tr := by
  have hlabels : ∀ a ∈ tr, ∀ n, a = .postN n → 0 ≤ n := by
    rintro _ ha n rfl
    exact hn n ha
  have hiff := semaphore.along_iff_invariant (I := Conserved) (P := Keeps)
    (Q := fun a => ∀ n, a = .postN n → 0 ≤ n)
    (fun _ _ _ hs ha ht => step_conserved hs ha ht) (conserved_init count) hlabels hrun
  constructor
  · intro hkept
    exact hiff.1 hkept.conserved
  · intro halong
    exact ⟨hiff.2 halong, fun _ _ _ _ _ _ hstep hd hwaited => step_positive hd hstep hwaited⟩

/-- `post(1)`, a wait, and a `post()` on the disabled semaphore: the permits are conserved. -/
theorem permits_kept_iff_post_one :
    PermitsKept 0 [.postN 1, .wait 0, .disable, .post, .enable] := by
  have hrun : semaphore.exec (init 0) [.postN 1, .wait 0, .disable, .post, .enable] = some _ := rfl
  apply (permits_kept_iff (by simp) hrun).2
  refine Machine.Along.cons _ rfl (Or.inr (by decide)) ?_
  refine Machine.Along.cons _ rfl trivial ?_
  refine Machine.Along.cons _ rfl trivial ?_
  refine Machine.Along.cons _ rfl rfl ?_
  exact Machine.Along.cons _ rfl trivial (semaphore.along_nil _ _)

/-- One `post()` on a new semaphore: no permit arrives, and the waiter stays blocked. -/
theorem post_loses_permit :
    ∃ s, semaphore.exec (init 0) [.wait 0, .post, .wake 0] = some s ∧ s.disable_ = false ∧
      s.blocked 0 = true ∧ s.posted = 1 ∧ s.count_.toNat + s.waited ≠ s.initial + s.posted := by
  exact ⟨_, rfl, rfl, rfl, rfl, by decide⟩

end Semaphore

end Utils
end Mozi
