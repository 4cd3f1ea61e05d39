import Mathlib.Data.Finset.Card
import Mozi.Utils.Semaphore

/-!
# SemaphoreWakeups — no wake-up of a semaphore is lost

`core/utils/semaphore.h` with the notifications of `cv_`.  A blocked thread sleeps until a
notification reaches it or it wakes spuriously, and re-tests the predicate when it gets the lock.
Which sleepers a `notify_one` wakes is open.

Every notified thread may find its permit taken by a thread that has just arrived.  All the same,
while anybody sleeps there are at most as many permits as notified threads
(`no_wakeup_lost`): permits never wait for a thread that nobody wakes.
-/

namespace Mozi
namespace Utils
namespace Semaphore

open Foundation

structure Waiters where
  sem : State
  /-- inside `cv_.wait` -/
  sleeping : Finset ThreadId
  /-- woken, and before their next test of the predicate -/
  notified : Finset ThreadId

/-- The calls, with the threads that their notifications wake. -/
inductive Call
  | post (woken : Finset ThreadId)
  | postN (n : Int) (woken : Finset ThreadId)
  | enable
  | disable
  | wait (i : ThreadId)
  /-- a notified thread, or a sleeping one spuriously, re-tests the predicate -/
  | wake (i : ThreadId)

/-- The call without its notifications. -/
def Call.action : Call → Action
  | .post _ => .post
  | .postN n _ => .postN n
  | .enable => .enable
  | .disable => .disable
  | .wait i => .wait i
  | .wake i => .wake i

namespace Waiters

def init (count : BitVec 64) : Waiters :=
  { sem := Semaphore.init count
    sleeping := ∅
    notified := ∅ }

/-! ## Notifications -/

/-- `n` calls of `cv_.notify_one()` reach `n` sleepers, or all of them. -/
def notify (w : Waiters) (n : Nat) (woken : Finset ThreadId) : Option Waiters :=
  if woken ⊆ w.sleeping ∧ woken.card = min n w.sleeping.card then
    some { w with sleeping := w.sleeping \ woken, notified := w.notified ∪ woken }
  else
    none

/-- `cv_.notify_all()` -/
def notify_all (w : Waiters) : Waiters :=
  { w with sleeping := ∅, notified := w.notified ∪ w.sleeping }

/-- A thread that has tested the predicate sleeps if it is blocked. -/
def settle (w : Waiters) (i : ThreadId) : Waiters :=
  { w with
    sleeping := if w.sem.blocked i then insert i w.sleeping else w.sleeping.erase i
    notified := w.notified.erase i }

def step (w : Waiters) : Call → Option Waiters
  | .post woken => { w with sem := w.sem.post }.notify (if w.sem.disable_ then 1 else 0) woken
  | .postN n woken =>
      { w with sem := w.sem.postN n }.notify (if !w.sem.disable_ then n.toNat else 0) woken
  | .enable => some { w with sem := w.sem.enable }
  | .disable =>
      let t := { w with sem := w.sem.disable }
      some (if !w.sem.disable_ then t.notify_all else t)
  | .wait i => if w.sem.blocked i then none else some ({ w with sem := w.sem.wait i }.settle i)
  | .wake i => if w.sem.blocked i then some ({ w with sem := w.sem.test i }.settle i) else none

def waiters : Machine Waiters Call :=
  { step := step }

@[simp] theorem waiters_step (w : Waiters) (c : Call) : waiters.step w c = w.step c := rfl

variable {w t : Waiters} {c : Call} {i : ThreadId} {n : Nat} {woken : Finset ThreadId}

theorem notify_spec (h : w.notify n woken = some t) :
    woken ⊆ w.sleeping ∧ woken.card = min n w.sleeping.card ∧
      t = { w with sleeping := w.sleeping \ woken, notified := w.notified ∪ woken } := by
  unfold notify at h
  split_ifs at h with hwoken
  cases h
  exact ⟨hwoken.1, hwoken.2, rfl⟩

/-- Without the notifications the calls are those of `semaphore`. -/
theorem step_action (h : w.step c = some t) : semaphore.step w.sem c.action = some t.sem := by
  cases c with
  | post woken =>
      obtain ⟨-, -, rfl⟩ := notify_spec h
      rfl
  | postN n woken =>
      obtain ⟨-, -, rfl⟩ := notify_spec h
      rfl
  | enable =>
      cases h
      rfl
  | disable =>
      cases h
      by_cases hd : w.sem.disable_ <;> simp [hd, Call.action, semaphore, Semaphore.step, notify_all]
  | wait i =>
      simp only [step] at h
      split_ifs at h with hblocked
      cases h
      simp [Call.action, semaphore, Semaphore.step, hblocked, settle]
  | wake i =>
      simp only [step] at h
      split_ifs at h with hblocked
      cases h
      simp [Call.action, semaphore, Semaphore.step, hblocked, settle]

/-! ## The invariant -/

/-- Permits are covered: whoever is blocked sleeps or is notified, and while somebody sleeps there
are no more permits than notified threads. -/
structure Covered (w : Waiters) : Prop where
  blocked_iff : ∀ i, w.sem.blocked i = true ↔ i ∈ w.sleeping ∨ i ∈ w.notified
  apart : Disjoint w.sleeping w.notified
  covered : w.sleeping.Nonempty →
    w.sem.disable_ = false ∧ w.sem.count_.toNat ≤ w.notified.card

/-- A `post(n)` with a negative `n` takes no more permits than there are. -/
def Forward (w : Waiters) : Call → Prop
  | .postN n _ => w.sem.disable_ = true ∨ 0 ≤ w.sem.count_.toNat + n
  | _ => True

theorem covered_init (count : BitVec 64) : Covered (init count) where
  blocked_iff := by simp [init, Semaphore.init]
  apart := by simp [init]
  covered := by simp [init]

/-- New permits come with as many notifications. -/
theorem Covered.notify {sem : State} (hw : Covered w) (hblocked : sem.blocked = w.sem.blocked)
    (hdisable : sem.disable_ = w.sem.disable_)
    (hcount : sem.disable_ = false → sem.count_.toNat ≤ w.sem.count_.toNat + n)
    (h : { w with sem := sem }.notify n woken = some t) : Covered t := by
  obtain ⟨hsub, hcard, rfl⟩ := notify_spec h
  simp only at hsub hcard
  refine
    { blocked_iff := ?_
      apart := ?_
      covered := ?_ }
  · intro i
    simp only [hblocked, hw.blocked_iff, Finset.mem_sdiff, Finset.mem_union]
    constructor
    · rintro (hi | hi)
      · by_cases hin : i ∈ woken
        · exact Or.inr (Or.inr hin)
        · exact Or.inl ⟨hi, hin⟩
      · exact Or.inr (Or.inl hi)
    · rintro (⟨hi, -⟩ | hi | hi)
      · exact Or.inl hi
      · exact Or.inr hi
      · exact Or.inl (hsub hi)
  · exact Finset.disjoint_union_right.2
      ⟨hw.apart.mono_left Finset.sdiff_subset, Finset.sdiff_disjoint⟩
  · rintro ⟨i, hi⟩
    obtain ⟨hi, hnot⟩ := Finset.mem_sdiff.1 hi
    obtain ⟨hd, hle⟩ := hw.covered ⟨i, hi⟩
    have hfew : woken.card < w.sleeping.card :=
      Finset.card_lt_card ⟨hsub, fun hall => hnot (hall hi)⟩
    have hunion : (w.notified ∪ woken).card = w.notified.card + woken.card :=
      Finset.card_union_of_disjoint (hw.apart.symm.mono_right hsub)
    have hsum := hcount (hdisable.trans hd)
    refine ⟨hdisable.trans hd, ?_⟩
    simp only [hunion]
    omega

/-- The count after a `post(n)` that takes no more than there is. -/
theorem toNat_add_ofInt_le {x : BitVec 64} {n : Int} (h : 0 ≤ x.toNat + n) :
    (x + BitVec.ofInt 64 n).toNat ≤ x.toNat + n.toNat := by
  rw [BitVec.toNat_add, BitVec.toNat_ofInt]
  omega

/-- The thread `i` tests the predicate and the others stay where they are. -/
theorem Covered.settle {sem : State} (hw : Covered w)
    (hothers : ∀ j, j ≠ i → sem.blocked j = w.sem.blocked j)
    (hblocked : sem.blocked i = true → sem.disable_ = false ∧ sem.count_.toNat = 0)
    (hfree : sem.blocked i = false → w.sem.disable_ = false → sem.disable_ = false ∧
      sem.count_.toNat ≤ w.sem.count_.toNat - 1) :
    Covered ({ w with sem := sem }.settle i) where
  blocked_iff := by
    intro j
    by_cases hj : j = i
    · subst hj
      cases hb : sem.blocked j <;> simp [Waiters.settle, hb]
    · have hsame := hw.blocked_iff j
      rw [← hothers j hj] at hsame
      cases hb : sem.blocked i <;> simpa [Waiters.settle, hb, hj] using hsame
  apart := by
    have hleft : Disjoint w.sleeping (w.notified.erase i) :=
      hw.apart.mono_right (Finset.erase_subset i _)
    cases hb : sem.blocked i
    · simpa [Waiters.settle, hb] using hleft.mono_left (Finset.erase_subset i _)
    · simpa [Waiters.settle, hb] using hleft
  covered := by
    cases hb : sem.blocked i with
    | true =>
        intro _
        obtain ⟨hd, hzero⟩ := hblocked hb
        exact ⟨hd, by simp [Waiters.settle, hzero]⟩
    | false =>
        rintro ⟨j, hj⟩
        have hj : j ∈ w.sleeping := Finset.mem_of_mem_erase (by simpa [Waiters.settle, hb] using hj)
        obtain ⟨hd, hle⟩ := hw.covered ⟨j, hj⟩
        obtain ⟨hd', hle'⟩ := hfree hb hd
        have herase := Finset.pred_card_le_card_erase (s := w.notified) (a := i)
        refine ⟨hd', ?_⟩
        simp only [Waiters.settle]
        omega

/-- What a test of the predicate finds. -/
theorem Covered.test (hw : Covered w) (i : ThreadId) :
    Covered ({ w with sem := w.sem.test i }.settle i) := by
  refine hw.settle ?_ ?_ ?_
  · intro j hj
    unfold State.test
    split_ifs <;> simp [hj]
  · intro hblocked
    cases hready : w.sem.ready with
    | true =>
        simp [State.test, hready] at hblocked
    | false =>
        have hnot : w.sem.disable_ = false ∧ w.sem.count_ = 0 := by
          simpa [State.ready] using hready
        simp [State.test, hready, hnot]
  · intro hfree hd
    cases hready : w.sem.ready with
    | true =>
        have hpos : w.sem.count_ ≠ 0 := by simpa [State.ready, hd] using hready
        have hsub := toNat_sub_one hpos
        refine ⟨by simp [State.test, hready, hd], ?_⟩
        simp only [State.test, hready, if_true]
        omega
    | false =>
        simp [State.test, hready] at hfree

theorem covered_step (hw : Covered w) (hforward : Forward w c) (h : w.step c = some t) :
    Covered t := by
  cases c with
  | post woken =>
      cases hd : w.sem.disable_ with
      | true =>
          refine hw.notify (by simp [State.post, hd]) (by simp [State.post, hd]) ?_ h
          intro hd'
          simp [State.post, hd] at hd'
      | false =>
          exact hw.notify (by simp [State.post, hd]) (by simp [State.post, hd])
            (fun _ => by simp [State.post, hd]) h
  | postN n woken =>
      cases hd : w.sem.disable_ with
      | true =>
          refine hw.notify (by simp [State.postN, hd]) (by simp [State.postN, hd]) ?_ h
          intro hd'
          simp [State.postN, hd] at hd'
      | false =>
          have hle := toNat_add_ofInt_le (hforward.resolve_left (by simp [hd]))
          exact hw.notify (by simp [State.postN, hd]) (by simp [State.postN, hd])
            (fun _ => by simpa [State.postN, hd] using hle) h
  | enable =>
      cases h
      cases hd : w.sem.disable_ with
      | true =>
          -- Whoever has not re-tested since `disable` finds no permit and sleeps again.
          refine ⟨by simpa [State.enable, hd] using hw.blocked_iff, hw.apart, fun hsleep => ?_⟩
          have henabled := (hw.covered hsleep).1
          rw [hd] at henabled
          cases henabled
      | false =>
          simpa [State.enable, hd] using hw
  | disable =>
      cases h
      cases hd : w.sem.disable_ with
      | true =>
          simpa [State.disable, hd] using hw
      | false =>
          refine ⟨?_, by simp [notify_all], by simp [notify_all]⟩
          intro i
          simpa [State.disable, hd, notify_all, or_comm] using hw.blocked_iff i
  | wait i =>
      simp only [step] at h
      split_ifs at h with hblocked
      cases h
      cases hd : w.sem.disable_ with
      | true =>
          have hwait : w.sem.wait i = { w.sem with waited := w.sem.waited + 1 } := by
            simp [State.wait, hd]
          rw [hwait]
          exact hw.settle (fun _ _ => rfl) (fun hb => absurd hb hblocked)
            (fun _ hd' => by rw [hd] at hd'; cases hd')
      | false =>
          have hwait : w.sem.wait i = w.sem.test i := by simp [State.wait, hd]
          rw [hwait]
          exact hw.test i
  | wake i =>
      simp only [step] at h
      split_ifs at h
      cases h
      exact hw.test i

/-! ## Runs -/

/-- In every run in which `post(n)` takes no more permits than there are: while a thread sleeps, the
semaphore is enabled and has no more permits than notified threads; and where there is a permit or
the semaphore is disabled, the next test of any notified thread completes its wait.  The run is one
of `semaphore`. -/
theorem no_wakeup_lost {count : BitVec 64} {tr : List Call}
    (hforward : waiters.Along Forward (init count) tr) (hexec : waiters.exec (init count) tr = some w) :
    (w.sleeping.Nonempty → w.sem.disable_ = false ∧ w.sem.count_.toNat ≤ w.notified.card) ∧
      (w.sem.ready = true → ∀ i ∈ w.notified, ∃ t, w.step (.wake i) = some t ∧
        t.sem.blocked i = false ∧ t.sleeping = w.sleeping ∧ t.notified = w.notified.erase i) ∧
      semaphore.exec (Semaphore.init count) (tr.map Call.action) = some w.sem := by
  have hw : Covered w := waiters.exec_invariant
    (fun _ _ _ hs ha ht => covered_step hs ha ht) (covered_init count) hforward hexec
  refine ⟨hw.covered, ?_, ?_⟩
  · intro hready i hi
    have hblocked := (hw.blocked_iff i).2 (Or.inr hi)
    have hawake : i ∉ w.sleeping := fun hin => Finset.disjoint_left.1 hw.apart hin hi
    refine ⟨_, if_pos hblocked, ?_, ?_, rfl⟩
    · simp [Waiters.settle, State.test, hready]
    · simp [Waiters.settle, State.test, hready, hawake]
  · exact waiters.exec_map step_action hexec

/-- Two threads sleep, `post(1)` wakes one of them, and a third takes the permit before it. -/
def stolen : List Call :=
  [.wait 0, .wait 1, .postN 1 {0}, .wait 2, .wake 0, .postN 1 {1}]

theorem no_wakeup_lost_stolen :
    ∃ w, waiters.exec (init 0) stolen = some w ∧ w.sleeping = {0} ∧ w.notified = {1} ∧
      w.sem.count_.toNat ≤ w.notified.card ∧
      ∃ t, w.step (.wake 1) = some t ∧ t.sem.blocked 1 = false := by
  have hexec : waiters.exec (init 0) stolen = some _ := rfl
  have hforward : waiters.Along Forward (init 0) stolen :=
    .cons _ rfl trivial (.cons _ rfl trivial (.cons _ rfl (Or.inr (by decide))
      (.cons _ rfl trivial (.cons _ rfl trivial (.cons _ rfl (Or.inr (by decide)) trivial)))))
  obtain ⟨hcovered, hserved, -⟩ := no_wakeup_lost hforward hexec
  obtain ⟨t, ht, hfree, -⟩ := hserved (by decide) 1 (by decide)
  exact ⟨_, hexec, by decide, by decide, (hcovered ⟨0, by decide⟩).2, t, ht, hfree⟩

end Waiters

end Semaphore
end Utils
end Mozi
