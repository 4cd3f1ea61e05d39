import Mozi.Log.KillThread

/-!
# WakeUp — `run` never sleeps on a completed entry

`QueueLog` pushes its entry, sets `work` under `cv_mtx` and notifies afterwards, in three sections
without a common lock; `run` clears `work` before it swaps.  `Covered` is the invariant over all
program points of both sides: an entry whose call has set `work` is covered by the flag or by a
`Swap` that `run` is about to perform.

The sections of `Logger` let `run` re-test its predicate at any time.  `CvState` refines that: it
keeps whether `run` is asleep inside `cv.wait` and which calls have set `work` but not called
`notify_all` yet, so that a notification which comes too early is really lost.
-/

namespace Mozi
namespace Log

open DataStructure Foundation

variable {req : CallId → Request} {s t : State} {a : Action}

/-! ## The condition variable -/

structure CvState where
  base : State
  /-- `run` is blocked inside `cv.wait` and has not been woken -/
  asleep : Bool
  /-- the calls that have left their `work = true` section and not called `notify_all` yet -/
  notifying : CallId → Bool

def CvState.init : CvState :=
  { base := State.init
    asleep := false
    notifying := fun _ => false }

inductive CvAction
  | base (a : Action)
  /-- `cv.notify_all()` at the end of `QueueLog` -/
  | notify_all (c : CallId)
  /-- a wake-up without a notification -/
  | spurious

namespace CvState

/-- A sleeping thread does not re-test its predicate. -/
def blocks (s : CvState) (a : Action) : Bool :=
  match a with
  | .runWake => s.asleep
  | _ => false

/-- Who sleeps after a section: the sections that evaluate the predicate of `run` put it to sleep
where the predicate is false, and `KillThread` notifies when it finds a thread. -/
def sleeps (s : CvState) (a : Action) (t : State) : Bool :=
  match a with
  | .runStart => t.logging_thread = some .waiting
  | .runWake => t.logging_thread = some .waiting
  | .runRelock => t.logging_thread = some .waiting
  | .killCheck => s.asleep && t.logging_thread.isNone
  | _ => s.asleep

def notifies (s : CvState) (a : Action) : CallId → Bool :=
  match a with
  | .queueWork c => Function.update s.notifying c true
  | _ => s.notifying

end CvState

section Machine

variable (req : CallId → Request)

def cvStep (s : CvState) : CvAction → Option CvState
  | .base a =>
      if s.blocks a then
        none
      else
        (step req s.base a).map fun t =>
          { base := t
            asleep := s.sleeps a t
            notifying := s.notifies a }
  | .notify_all c =>
      if s.notifying c then
        some { s with asleep := false, notifying := Function.update s.notifying c false }
      else
        none
  | .spurious => some { s with asleep := false }

/-- The logger with the sleep of `run` made explicit. -/
def cvLogger : Machine CvState CvAction :=
  { step := cvStep req }

end Machine

/-! ## One step of the logger -/

/-- A call returns in its `work = true` section only. -/
theorem step_completes (h : Step req s a t) {c : CallId} (hc : t.callers c = .returned) :
    s.callers c = .returned ∨ a = .queueWork c := by
  rcases step_callers h with ⟨d, rfl, _, heq, _⟩ | ⟨d, _, rfl, _, heq, _⟩ | ⟨d, rfl, _, heq, _⟩ |
    ⟨heq, _⟩
  · have hne : c ≠ d := by rintro rfl; simp [heq] at hc
    exact Or.inl (by simpa [heq, hne] using hc)
  · have hne : c ≠ d := by rintro rfl; simp [heq] at hc
    exact Or.inl (by simpa [heq, hne] using hc)
  · by_cases hcd : c = d
    · exact Or.inr (by rw [hcd])
    · exact Or.inl (by simpa [heq, hcd] using hc)
  · exact Or.inl (heq ▸ hc)

/-- The call has set `work`, and its entry is still in the back queue. -/
structure State.Completed (s : State) (c : CallId) : Prop where
  back : s.InBack c
  returned : s.callers c = .returned

/-- A completed entry was one before the section, or the section completes it. -/
theorem step_completed (h : Step req s a t) (hs : Phases s) {c : CallId} (hc : t.Completed c) :
    (s.Completed c ∧ a ≠ .runSwap) ∨ a = .queueWork c := by
  rcases step_completes h hc.returned with hret | hwork
  · rcases step_inBack h hs hc.back with ⟨hin, hswap⟩ | hstarted
    · exact Or.inl ⟨⟨hin, hret⟩, hswap⟩
    · -- The entry of a call that has returned was not pushed just now.
      simp [hret] at hstarted
  · exact Or.inr hwork

/-- `run` clears `work` only where it goes on to `Swap`. -/
theorem step_work (h : Step req s a t) (hkill : a ≠ .killClear) (hwork : s.work = true) :
    t.work = true ∨ t.logging_thread = some .swapping ∨ t.logging_thread = some .exited := by
  cases h with
  | runStart hpc =>
      rcases s.runHead_spec with ⟨_, heq⟩ | ⟨_, _, heq⟩ | ⟨_, hno, _⟩
      · exact Or.inr (Or.inr (by rw [heq]))
      · exact Or.inr (Or.inl (by rw [heq]))
      · simp [hwork] at hno
  | runWake hpc =>
      rcases s.runWait_spec with ⟨_, heq⟩ | ⟨_, hno, _⟩
      · exact Or.inr (Or.inl (by rw [heq]))
      · simp [hwork] at hno
  | runRelock hpc =>
      rcases State.runHead_spec { s with current_loop := State.bumpLoop s.current_loop } with
        ⟨_, heq⟩ | ⟨_, _, heq⟩ | ⟨_, hno, _⟩
      · exact Or.inr (Or.inr (by rw [State.runRelock, heq]))
      · exact Or.inr (Or.inl (by rw [State.runRelock, heq]))
      · simp [hwork] at hno
  | killClear hpc =>
      exact absurd rfl hkill
  | _ =>
      first
      | exact Or.inl rfl
      | exact Or.inl hwork
      | exact Or.inl (by simpa using hwork)

/-- The point of `run` a label belongs to. -/
def Action.point : Action → Option RunPc
  | .runStart => some .start
  | .runWake => some .waiting
  | .runSwap => some .swapping
  | .runTest => some .draining
  | .runConsume => some .consuming
  | .runPop => some .popping
  | .runRelock => some .relocking
  | _ => none

/-- Without `KillThread` only its own sections take `run` from where it is. -/
theorem step_point (h : Step req s a t) (hidle : s.kill = .idle) {pc : RunPc}
    (hpc : s.logging_thread = some pc) : a.point = some pc ∨ t.logging_thread = some pc := by
  cases h with
  | queueStart hc =>
      rename_i c
      rcases s.queueStart_thread c with ⟨hnone, _⟩ | heq
      · simp [hpc] at hnone
      · exact Or.inr (by rw [heq, hpc])
  | runStart hrun =>
      exact Or.inl (hrun.symm.trans hpc)
  | runWake hrun =>
      exact Or.inl (hrun.symm.trans hpc)
  | runSwap hrun =>
      exact Or.inl (hrun.symm.trans hpc)
  | runTest hrun =>
      exact Or.inl (hrun.symm.trans hpc)
  | runConsume hrun =>
      exact Or.inl (hrun.symm.trans hpc)
  | runPop hrun =>
      exact Or.inl (hrun.symm.trans hpc)
  | runRelock hrun =>
      exact Or.inl (hrun.symm.trans hpc)
  | killReset hrun =>
      simp [hidle] at hrun
  | _ =>
      first
      | exact Or.inr hpc
      | exact Or.inr (by simpa using hpc)

/-- Nothing takes `run` from the point before `Swap` but `Swap`. -/
theorem step_swapping (h : Step req s a t) (hidle : s.kill = .idle) (hswap : a ≠ .runSwap)
    (hpc : s.logging_thread = some .swapping) : t.logging_thread = some .swapping := by
  rcases step_point h hidle hpc with hpoint | hstays
  · cases a <;> simp [Action.point] at hpoint hswap
  · exact hstays

/-- A section of `run` that ends in its wait has found the flag clear. -/
theorem step_waits (h : Step req s a t) (ha : a.point ≠ none)
    (hwait : t.logging_thread = some .waiting) : t.work = false := by
  cases h with
  | runStart hpc =>
      rcases s.runHead_spec with ⟨_, heq⟩ | ⟨_, _, heq⟩ | ⟨_, hno, heq⟩
      · simp [heq] at hwait
      · simp [heq] at hwait
      · simp [heq, hno]
  | runWake hpc =>
      rcases s.runWait_spec with ⟨_, heq⟩ | ⟨_, hno, heq⟩
      · simp [heq] at hwait
      · simp [heq, hno]
  | runSwap hpc =>
      simp [State.runSwap] at hwait
  | runTest hpc =>
      rcases s.runTest_thread with heq | heq <;> simp [heq] at hwait
  | runConsume hpc =>
      simp at hwait
  | runPop hpc =>
      simp [State.runPop] at hwait
  | runRelock hpc =>
      rcases State.runHead_spec { s with current_loop := State.bumpLoop s.current_loop } with
        ⟨_, heq⟩ | ⟨_, _, heq⟩ | ⟨_, hno, heq⟩
      · simp [State.runRelock, heq] at hwait
      · simp [State.runRelock, heq] at hwait
      · rw [State.runRelock, heq]
        exact hno
  | _ =>
      exact absurd rfl ha

/-- The thread, where there is one, runs with logging on and has not left its loop. -/
def Alive (s : State) : Prop :=
  s.logging_thread ≠ none → s.logging = true ∧ s.logging_thread ≠ some .exited

theorem Alive.head {s : State} (hs : Alive s) (hpc : s.logging_thread ≠ none) {loop : Int} :
    Alive { s with current_loop := loop }.runHead := by
  intro _
  have hon := (hs hpc).1
  rcases State.runHead_thread { s with current_loop := loop } with ⟨hoff, _⟩ | ⟨_, heq | heq⟩
  · simp [hon] at hoff
  · exact ⟨by simpa using hon, by rw [heq]; simp⟩
  · exact ⟨by simpa using hon, by rw [heq]; simp⟩

theorem alive_step (h : Step req s a t) (hidle : s.kill = .idle) (hs : Alive s) : Alive t := by
  cases h with
  | queueStart hpc =>
      rename_i c
      rcases s.queueStart_spec c with ⟨_, _, heq⟩ | ⟨_, heq⟩
      · simp [Alive, heq]
      · rw [heq]
        exact hs
  | runStart hpc =>
      exact hs.head (by simp [hpc])
  | runWake hpc =>
      have hon := (hs (by simp [hpc])).1
      intro _
      rcases s.runWait_thread with heq | heq <;> simp [heq, hon]
  | runSwap hpc =>
      have hon := (hs (by simp [hpc])).1
      intro _
      simp [State.runSwap, hon]
  | runTest hpc =>
      have hon := (hs (by simp [hpc])).1
      intro _
      rcases s.runTest_thread with heq | heq <;> simp [heq, hon]
  | runConsume hpc =>
      have hon := (hs (by simp [hpc])).1
      intro _
      simp [hon]
  | runPop hpc =>
      have hon := (hs (by simp [hpc])).1
      intro _
      simp [State.runPop, hon]
  | runRelock hpc =>
      exact hs.head (by simp [hpc])
  | killClear hpc =>
      simp [hidle] at hpc
  | killReset hpc =>
      simp [hidle] at hpc
  | _ =>
      first
      | exact hs
      | simpa [Alive] using hs

/-! ## The invariant of the logger -/

/-- What holds while `KillThread` is not called. -/
structure Covered (s : State) : Prop where
  delivery : Delivery s
  idle : s.kill = .idle
  alive : Alive s
  covered : ∀ c, s.Completed c → s.work = true ∨ s.logging_thread = some .swapping

theorem covered_init : Covered State.init :=
  { delivery := ⟨phases_init, Channel.conserved_empty, tagged_init⟩
    idle := rfl
    alive := by simp [Alive, State.init]
    covered := fun c hc => absurd hc.returned (by simp [State.init]) }

theorem Covered.step (hs : Covered s) (hcall : a ≠ .killCall) (h : Step req s a t) :
    Covered t := by
  have hidle : t.kill = .idle := by
    rcases step_kill h with heq | ⟨ha, _⟩ | ⟨_, hk, _⟩ | ⟨_, hk, _⟩ | ⟨_, hk, _⟩ | ⟨_, hk, _⟩
    · rw [heq, hs.idle]
    · exact absurd ha hcall
    · simp [hs.idle] at hk
    · simp [hs.idle] at hk
    · simp [hs.idle] at hk
    · simp [hs.idle] at hk
  have halive : Alive t := alive_step h hs.idle hs.alive
  refine ⟨delivery_step h hs.delivery, hidle, halive, ?_⟩
  intro c hc
  rcases step_completed h hs.delivery.phases hc with ⟨hbefore, hswap⟩ | rfl
  · rcases hs.covered c hbefore with hwork | hpc
    · have hclear : a ≠ .killClear := by
        rintro rfl
        cases h with
        | killClear hk => simp [hs.idle] at hk
      rcases step_work h hclear hwork with hwork' | hpc' | hexit
      · exact Or.inl hwork'
      · exact Or.inr hpc'
      · exact absurd hexit (halive (by simp [hexit])).2
    · exact Or.inr (step_swapping h hs.idle hswap hpc)
  · -- The section that completes the entry sets the flag.
    cases h with
    | queueWork hpc => exact Or.inl rfl

/-- Where the predicate of `run` is false, no completed entry is queued. -/
theorem Covered.none_completed (hs : Covered s) (hwork : s.work = false)
    (hpc : s.logging_thread ≠ some .swapping) (c : CallId) : ¬ s.Completed c := by
  intro hc
  rcases hs.covered c hc with h | h
  · simp [hwork] at h
  · exact hpc h

/-- An entry of the back queue belongs to a call that has pushed. -/
theorem Delivery.pushed_of_inBack (hs : Delivery s) {c : CallId} (hc : s.InBack c) :
    s.callers c = .pushed ∨ s.callers c = .returned := by
  rcases List.mem_map.1 hc with ⟨item, hitem, rfl⟩
  have hqueued : item ∈ s.channel.queued := List.mem_append_right _ hitem
  have hsent : item ∈ s.pushed := hs.conserved.mem_sent.2 (Or.inr hqueued)
  exact (hs.tagged.mem item.call).1 (List.mem_map_of_mem hsent)

/-- `run` is at a point from which it performs `Swap` before it next waits: whatever the threads
do from here, `run` does not get to its wait without a `Swap`. -/
def SwapsFirst (req : CallId → Request) (s : State) : Prop :=
  ∀ tr t, (∀ a ∈ tr, a ≠ .killCall) → (logger req).exec s tr = some t →
    t.logging_thread = some .waiting → ∃ tr₁ tr₂, tr = tr₁ ++ Action.runSwap :: tr₂

theorem Covered.swapsFirst (hs : Covered s) (hpc : s.logging_thread = some .swapping) :
    SwapsFirst req s := by
  -- By induction on the run: short of its `Swap` the thread stays where it is.
  intro tr
  induction tr generalizing s with
  | nil =>
      intro t _ hrun hwait
      cases hrun
      simp [hpc] at hwait
  | cons a tr ih =>
      intro t hcall hrun hwait
      rcases (Machine.exec_cons _).1 hrun with ⟨s', hs', hrest⟩
      have hstep : Step req s a s' := Step.of_step hs'
      cases ha : a with
      | runSwap =>
          exact ⟨[], tr, rfl⟩
      | _ =>
          have hswap : a ≠ .runSwap := by simp [ha]
          rcases ih (hs.step (hcall a (by simp)) hstep) (step_swapping hstep hs.idle hswap hpc) t
              (fun b hb => hcall b (List.mem_cons_of_mem a hb)) hrest hwait with ⟨tr₁, tr₂, rfl⟩
          exact ⟨a :: tr₁, tr₂, by simp [ha]⟩

/-! ## The sleep of `run` -/

/-- What one step does: a section of the logger, or a wake-up. -/
theorem cvStep_cases {s t : CvState} {x : CvAction} (h : cvStep req s x = some t) :
    (∃ a, x = .base a ∧ s.blocks a = false ∧ Step req s.base a t.base ∧
        t.asleep = s.sleeps a t.base ∧ t.notifying = s.notifies a) ∨
      (t.base = s.base ∧ t.asleep = false) := by
  cases x with
  | base a =>
      by_cases hblock : s.blocks a = true
      · simp [cvStep, hblock] at h
      · obtain ⟨u, hu, rfl⟩ : ∃ u, step req s.base a = some u ∧
            { base := u, asleep := s.sleeps a u, notifying := s.notifies a } = t := by
          simpa [cvStep, hblock] using h
        exact Or.inl ⟨a, rfl, by simpa using hblock, Step.of_step hu, rfl, rfl⟩
  | notify_all c =>
      obtain ⟨_, rfl⟩ : s.notifying c = true ∧
          { s with asleep := false, notifying := Function.update s.notifying c false } = t := by
        simpa [cvStep] using h
      exact Or.inr ⟨rfl, rfl⟩
  | spurious =>
      cases h
      exact Or.inr ⟨rfl, rfl⟩

/-- A thread that sleeps after a section slept before it, or has just found its predicate false. -/
theorem sleeps_cases {s : CvState} {a : Action} {t : State} (h : s.sleeps a t = true) :
    (a.point ≠ none ∧ t.logging_thread = some .waiting) ∨ s.asleep = true := by
  cases a <;> simp_all [CvState.sleeps, Action.point]

/-- While `run` sleeps, every completed entry has its notification under way. -/
structure Sleeping (s : CvState) : Prop where
  covered : Covered s.base
  waiting : s.asleep = true → s.base.logging_thread = some .waiting
  notifying : s.asleep = true → ∀ c, s.base.Completed c → s.notifying c = true

theorem sleeping_init : Sleeping CvState.init :=
  { covered := covered_init
    waiting := by simp [CvState.init]
    notifying := by simp [CvState.init] }

/-- A section calls off no notification. -/
theorem notifies_of_notifying {s : CvState} {c : CallId} (h : s.notifying c = true)
    (a : Action) : s.notifies a c = true := by
  cases a with
  | queueWork d =>
      by_cases hcd : c = d
      · simp [CvState.notifies, hcd]
      · simp [CvState.notifies, hcd, h]
  | _ =>
      exact h

theorem Sleeping.step {s t : CvState} {x : CvAction} (hs : Sleeping s)
    (hcall : x ≠ .base .killCall) (h : cvStep req s x = some t) : Sleeping t := by
  rcases cvStep_cases h with ⟨a, rfl, hblock, hstep, hsleep, hnotify⟩ | ⟨hbase, hawake⟩
  · have hcov : Covered t.base := hs.covered.step (by rintro rfl; exact hcall rfl) hstep
    have hcases : t.asleep = true →
        (a.point ≠ none ∧ t.base.logging_thread = some .waiting) ∨
          (s.asleep = true ∧ t.base.logging_thread = some .waiting) := by
      intro hasleep
      rcases sleeps_cases (hsleep ▸ hasleep) with hentry | hasleep'
      · exact Or.inl hentry
      · -- A sleeping thread has no section of its own: it stays in its wait.
        refine Or.inr ⟨hasleep', ?_⟩
        rcases step_point hstep hs.covered.idle (hs.waiting hasleep') with hpoint | hstays
        · cases a <;> simp [Action.point] at hpoint
          simp [CvState.blocks, hasleep'] at hblock
        · exact hstays
    refine ⟨hcov, ?_, ?_⟩
    · intro hasleep
      rcases hcases hasleep with ⟨_, hwait⟩ | ⟨_, hwait⟩ <;> exact hwait
    · intro hasleep c hc
      rcases hcases hasleep with ⟨hpoint, hwait⟩ | ⟨hasleep', _⟩
      · -- The thread has just found its flag clear.
        have hwork : t.base.work = false := step_waits hstep hpoint hwait
        exact absurd hc (hcov.none_completed hwork (by simp [hwait]) c)
      · rw [hnotify]
        rcases step_completed hstep hs.covered.delivery.phases hc with ⟨hbefore, _⟩ | rfl
        · exact notifies_of_notifying (hs.notifying hasleep' c hbefore) a
        · simp [CvState.notifies]
  · refine ⟨hbase ▸ hs.covered, ?_, ?_⟩
    · simp [hawake]
    · simp [hawake]

theorem sleeping_run {tr : List CvAction} {s : CvState}
    (hcall : ∀ x ∈ tr, x ≠ .base .killCall)
    (hrun : (cvLogger req).exec CvState.init tr = some s) : Sleeping s :=
  (cvLogger req).exec_invariant (P := fun _ x => x ≠ .base .killCall)
    (fun _ _ _ hs hx ht => Sleeping.step hs hx ht) sleeping_init
    ((cvLogger req).along_of_forall_mem hcall) hrun

/-! ## No lost wake-up -/

/-- In every state of a run without `KillThread`: where the back queue is not empty and no call
stands between its push and its `work = true` section, `work` is set or `run` performs `Swap`
before it next waits; a section that puts `run` to sleep leaves no completed entry queued; and
while `run` sleeps, the call of every completed entry has its `notify_all` still to come. -/
theorem no_lost_wakeup {tr : List CvAction} {s : CvState}
    (hcall : ∀ x ∈ tr, x ≠ .base .killCall)
    (hrun : (cvLogger req).exec CvState.init tr = some s) :
    (s.base.logs.back ≠ [] → (∀ c, s.base.callers c ≠ .pushed) →
        s.base.work = true ∨ SwapsFirst req s.base) ∧
      (∀ x t, x ≠ .base .killCall → cvStep req s x = some t → s.asleep = false →
        t.asleep = true → ∀ c, ¬ t.base.Completed c) ∧
      (s.asleep = true → ∀ c, s.base.Completed c → s.notifying c = true) := by
  have hs : Sleeping s := sleeping_run hcall hrun
  refine ⟨?_, ?_, hs.notifying⟩
  · intro hback hpushed
    rcases List.exists_mem_of_ne_nil _ hback with ⟨item, hitem⟩
    have hin : s.base.InBack item.call := List.mem_map_of_mem hitem
    have hreturned : s.base.callers item.call = .returned := by
      rcases hs.covered.delivery.pushed_of_inBack hin with hpc | hpc
      · exact absurd hpc (hpushed _)
      · exact hpc
    rcases hs.covered.covered item.call ⟨hin, hreturned⟩ with hwork | hpc
    · exact Or.inl hwork
    · exact Or.inr (hs.covered.swapsFirst hpc)
  · intro x t hx ht hawake hasleep c
    rcases cvStep_cases ht with ⟨a, rfl, _, hstep, hsleep, _⟩ | ⟨_, hawake'⟩
    · rcases sleeps_cases (hsleep ▸ hasleep) with ⟨hpoint, hwait⟩ | hasleep'
      · exact (hs.step hx ht).covered.none_completed (step_waits hstep hpoint hwait)
          (by simp [hwait]) c
      · simp [hawake] at hasleep'
    · simp [hawake'] at hasleep

/-- `run` goes to sleep before the first call pushes; the call's entry is completed while `run`
still sleeps. -/
def sleepsFirst : List CvAction :=
  [.base (.queueStart 0), .base .runStart, .base (.queuePush 0 "t"), .base (.queueWork 0)]

theorem no_lost_wakeup_first_call :
    ∃ s, (cvLogger sampleRequest).exec CvState.init sleepsFirst = some s ∧ s.asleep = true ∧
      s.base.Completed 0 ∧ s.notifying 0 = true ∧ s.base.work = true := by
  obtain ⟨s, hrun, hasleep, hback, hreturned, hwork⟩ :
      ∃ s, (cvLogger sampleRequest).exec CvState.init sleepsFirst = some s ∧ s.asleep = true ∧
        0 ∈ s.base.logs.back.map Item.call ∧ s.base.callers 0 = .returned ∧
        s.base.work = true :=
    ⟨_, rfl, rfl, by decide, rfl, rfl⟩
  have hcompleted : s.base.Completed 0 := ⟨hback, hreturned⟩
  have hcall : ∀ x ∈ sleepsFirst, x ≠ .base .killCall := by simp [sleepsFirst]
  have hnotify := (no_lost_wakeup hcall hrun).2.2 hasleep 0 hcompleted
  exact ⟨s, hrun, hasleep, hcompleted, hnotify, hwork⟩

end Log
end Mozi
