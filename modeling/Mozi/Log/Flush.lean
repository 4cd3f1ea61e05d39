import Mozi.Log.Buffers

/-!
# Flush — when `Flush` is a barrier

`Flush` waits twice.  Its first wait ends as soon as the front queue is empty; it then remembers
the loop counter and waits until the counter has moved or both queues are empty.  A moved counter
stands for "the thread has swapped and drained since", which is so unless the first wait ended
while the thread was past its `Swap` and short of its counter update: that update then moves the
counter without any `Swap`, and an entry already in the back queue is overtaken.

`flush_barrier_exact` states both directions.
-/

namespace Mozi
namespace Log

open DataStructure Foundation

variable {req : CallId → Request} {s t : State} {a : Action} {E : CallId → Prop}

/-! ## What every step keeps -/

/-- With logging on, a returned call whose entry came after the last `Swap` has left `work` set. -/
def WorkPending (s : State) : Prop :=
  s.logging = true → RunPc.afterSwap s.logging_thread = true →
    ∀ c, s.callers c = .returned → s.InBack c → s.work = true

/-- A section that leaves `logging`, `work`, the callers and the back queue alone, and stays on
the same side of the `Swap`, keeps `WorkPending`. -/
theorem WorkPending.frame (hw : WorkPending s) (hlog : t.logging = s.logging)
    (hwork : t.work = s.work) (hcallers : t.callers = s.callers)
    (hback : t.logs.back = s.logs.back)
    (hpc : RunPc.afterSwap t.logging_thread = true → RunPc.afterSwap s.logging_thread = true) :
    WorkPending t := by
  intro hon hafter c hc hin
  rw [hwork]
  exact hw (hlog ▸ hon) (hpc hafter) c (hcallers ▸ hc) (by simpa [State.InBack, hback] using hin)

theorem workPending_step (h : Step req s a t) (hw : WorkPending s) : WorkPending t := by
  cases h with
  | queueStart hpc =>
      rename_i d
      rcases s.queueStart_spec d with ⟨_, _, heq⟩ | ⟨_, heq⟩
      · -- A thread that was just created is not past a `Swap`.
        intro _ hafter
        simp [heq, RunPc.afterSwap] at hafter
      · intro hon hafter c hc hin
        rw [heq] at hon hafter hc hin ⊢
        have hcd : c ≠ d := by rintro rfl; simp at hc
        exact hw hon hafter c (by simpa [hcd] using hc) hin
  | queuePush hpc =>
      rename_i d timestamp
      intro hon hafter c hc hin
      -- The call that pushes has not returned, so it is not one of the calls spoken about.
      have hcd : c ≠ d := by rintro rfl; simp [State.queuePush] at hc
      refine hw hon hafter c (by simpa [State.queuePush, hcd] using hc) ?_
      simpa [State.InBack, State.queuePush, Request.item, hcd] using hin
  | queueWork hpc =>
      -- The call that returns has set `work`.
      intro _ _ _ _ _
      rfl
  | runStart hpc =>
      intro _ hafter
      rcases s.runHead_thread with ⟨_, heq⟩ | ⟨_, heq | heq⟩ <;>
        simp [heq, RunPc.afterSwap] at hafter
  | runWake hpc =>
      intro _ hafter
      rcases s.runWait_thread with heq | heq <;> simp [heq, RunPc.afterSwap] at hafter
  | runSwap hpc =>
      -- `Swap` leaves nothing in the back queue.
      intro _ _ c _ hin
      simp [State.InBack, State.runSwap] at hin
  | runTest hpc =>
      exact hw.frame (by simp) (by simp) (by simp) (by simp) (by simp [hpc, RunPc.afterSwap])
  | runConsume hpc =>
      exact hw.frame (by simp) (by simp) (by simp) (by simp) (by simp [hpc, RunPc.afterSwap])
  | runPop hpc =>
      exact hw.frame rfl rfl rfl (by simp [State.runPop]) (by simp [hpc, RunPc.afterSwap])
  | runRelock hpc =>
      intro _ hafter
      rcases s.runRelock_thread with ⟨_, heq⟩ | ⟨_, heq | heq⟩ <;>
        simp [heq, RunPc.afterSwap] at hafter
  | killClear hpc =>
      intro hon
      simp [State.killClear] at hon
  | killReset hpc =>
      intro _ hafter
      simp [RunPc.afterSwap] at hafter
  | _ =>
      exact hw.frame (by simp) (by simp) (by simp) (by simp) (by simp)

/-- The counter stays in `0 .. 10000`, so it never meets the initial `last_loop = -1`, and one
update always moves it. -/
def LoopBound (s : State) : Prop :=
  0 ≤ s.current_loop ∧ s.current_loop ≤ 10000

theorem bumpLoop_bound {loop : Int} (h : 0 ≤ loop) :
    0 ≤ State.bumpLoop loop ∧ State.bumpLoop loop ≤ 10000 := by
  unfold State.bumpLoop
  split <;> omega

theorem bumpLoop_ne (loop : Int) : loop ≠ State.bumpLoop loop := by
  unfold State.bumpLoop
  split <;> omega

/-- Only the section after the drain loop writes the counter. -/
theorem step_loop (h : Step req s a t) :
    t.current_loop = s.current_loop ∨
      (s.logging_thread = some .relocking ∧
        t.current_loop = State.bumpLoop s.current_loop) := by
  cases h with
  | runRelock hpc =>
      exact Or.inr ⟨hpc, by simp⟩
  | _ =>
      first
      | exact Or.inl rfl
      | exact Or.inl (by simp)

theorem loopBound_step (h : Step req s a t) (hs : LoopBound s) : LoopBound t := by
  rcases step_loop h with heq | ⟨_, heq⟩
  · exact ⟨heq ▸ hs.1, heq ▸ hs.2⟩
  · have hb := bumpLoop_bound hs.1
    exact ⟨heq ▸ hb.1, heq ▸ hb.2⟩

/-- Sections outside `Flush` leave `flush` alone. -/
theorem step_flush (h : Step req s a t) :
    t.flush = s.flush ∨ (a = .flushCall ∧ t.flush = .called) ∨
      (a = .flushLock ∧ s.flush = .called ∧ t = s.flushLock) ∨
      (∃ i last, a = .flushTest ∧ s.flush = .test i last ∧ t = s.flushTest i last) ∨
      (∃ i last, a = .flushTestBoth ∧ s.flush = .testBoth i last ∧
        t = s.flushTestBoth i last) ∨
      (∃ i last, a = .flushWake ∧ s.flush = .blocked i last ∧ t.flush = .test i last) := by
  cases h with
  | flushCall hpc =>
      exact Or.inr (Or.inl ⟨rfl, rfl⟩)
  | flushLock hpc =>
      exact Or.inr (Or.inr (Or.inl ⟨rfl, hpc, rfl⟩))
  | flushTest hpc =>
      exact Or.inr (Or.inr (Or.inr (Or.inl ⟨_, _, rfl, hpc, rfl⟩)))
  | flushTestBoth hpc =>
      exact Or.inr (Or.inr (Or.inr (Or.inr (Or.inl ⟨_, _, rfl, hpc, rfl⟩))))
  | flushWake hpc =>
      exact Or.inr (Or.inr (Or.inr (Or.inr (Or.inr ⟨_, _, rfl, hpc, rfl⟩))))
  | _ =>
      first
      | exact Or.inl rfl
      | exact Or.inl (by simp)

/-! ## The barrier invariant -/

/-- Since the first wait ended with counter `k`: the set is drained, or the counter has not moved
and no entry of the set is behind a `Swap` that has already happened. -/
def Progress (E : CallId → Prop) (k : Int) (s : State) : Prop :=
  Drained E s ∨
    (s.current_loop = k ∧ (RunPc.afterSwap s.logging_thread = true → BackClear E s))

theorem Progress.step {k : Int} (hE : AllReturned E s) (hs : Phases s) (h : Step req s a t)
    (hp : Progress E k s) : Progress E k t := by
  rcases hp with hd | ⟨hk, hclear⟩
  · exact Or.inl (hd.step hE hs h)
  · rcases step_loop h with hsame | ⟨hpc, _⟩
    · -- A `Swap` in between only helps: it empties the back queue.
      refine Or.inr ⟨hsame ▸ hk, ?_⟩
      intro hafter
      rcases step_afterSwap h hafter with hbefore | rfl
      · exact (hclear hbefore).step hE hs h
      · exact backClear_swap hs h hE
    · -- The counter moves when the drain loop is over: nothing of the set is left.
      have hb : BackClear E s := hclear (by simp [hpc, RunPc.afterSwap])
      have hd : Drained E s := hb.drained hs (by simp [hpc, RunPc.draws])
      exact Or.inl (hd.step hE hs h)

/-- What a `Flush` that has been called with logging on keeps, whatever happens. -/
structure Flushing (E : CallId → Prop) (s : State) : Prop where
  delivery : Delivery s
  work : WorkPending s
  loop : LoopBound s
  on : s.logging = true
  returned : AllReturned E s
  shape :
    match s.flush with
    | .test i last => (i = 0 ∧ last = -1) ∨ i = 1
    | .blocked i last => (i = 0 ∧ last = -1) ∨ i = 1
    | .testBoth i _ => i = 1
    | _ => True

/-- The labels of a run in which logging stays on and `Flush` is called once. -/
def Quiet (a : Action) : Prop :=
  a ≠ .killClear ∧ a ≠ .flushCall

theorem Flushing.step (hs : Flushing E s) (hq : Quiet a) (h : Step req s a t) :
    Flushing E t := by
  refine
    { delivery := delivery_step h hs.delivery
      work := workPending_step h hs.work
      loop := loopBound_step h hs.loop
      on := step_logging h hq.1 hs.on
      returned := hs.returned.step h
      shape := ?_ }
  have hshape := hs.shape
  have hloop := hs.loop
  rcases step_flush h with heq | ⟨ha, _⟩ | ⟨_, hpc, rfl⟩ | ⟨i, last, _, hpc, rfl⟩ |
    ⟨i, last, _, hpc, rfl⟩ | ⟨i, last, _, hpc, heq⟩
  · rw [heq]
    exact hshape
  · exact absurd ha hq.2
  · rcases s.flushLock_spec with ⟨_, heq⟩ | ⟨_, heq⟩ <;> simp [heq]
  · rw [hpc] at hshape
    rcases State.flushTest_spec i last hs.on with ⟨_, _, heq⟩ | ⟨_, hlast, heq⟩ | ⟨_, heq⟩
    · rcases s.flushPass_spec i with ⟨_, heq'⟩ | ⟨_, heq'⟩ <;> simp [heq, heq']
    · -- In the first wait `last` is -1, which the counter never is.
      rcases hshape with ⟨_, hinit⟩ | hi
      · have := hloop.1
        omega
      · simpa [heq] using hi
    · simpa [heq] using hshape
  · rw [hpc] at hshape
    rcases s.flushTestBoth_spec i last with ⟨_, _, heq⟩ | heq
    · rcases s.flushPass_spec i with ⟨_, heq'⟩ | ⟨_, heq'⟩ <;> simp [heq, heq']
    · simpa [heq] using Or.inr hshape
  · rw [hpc] at hshape
    rw [heq]
    exact hshape

/-- The first wait of `Flush` ends at the next evaluation of its predicate. -/
def FirstWaitEnds (s : State) : Prop :=
  (∃ last, s.flush = .test 0 last) ∧ s.logs.front = []

/-- The condition on the step that ends the first wait: the thread is not between its `Swap` and
its counter update, or no entry of the set is in the back queue. -/
def BarrierCond (E : CallId → Prop) (s : State) (a : Action) : Prop :=
  a = .flushTest → FirstWaitEnds s →
    RunPc.afterSwap s.logging_thread = true → BackClear E s

/-- What the second wait and the return of `Flush` stand for. -/
def SecondWait (E : CallId → Prop) (s : State) : Prop :=
  match s.flush with
  | .test i last => i = 1 → Progress E last s
  | .blocked i last => i = 1 → Progress E last s
  | .testBoth _ last => Progress E last s
  | .returned => Drained E s
  | _ => True

/-- A section of another thread keeps whatever the wait stands for. -/
theorem SecondWait.keep (h2 : SecondWait E s) (heq : t.flush = s.flush)
    (hprogress : ∀ k, Progress E k s → Progress E k t) (hdrained : Drained E s → Drained E t) :
    SecondWait E t := by
  unfold SecondWait at h2 ⊢
  rw [heq]
  cases hf : s.flush with
  | test i last =>
      simp only [hf] at h2 ⊢
      exact fun hi => hprogress last (h2 hi)
  | blocked i last =>
      simp only [hf] at h2 ⊢
      exact fun hi => hprogress last (h2 hi)
  | testBoth i last =>
      simp only [hf] at h2 ⊢
      exact hprogress last h2
  | returned =>
      simp only [hf] at h2 ⊢
      exact hdrained h2
  | idle =>
      trivial
  | called =>
      trivial

/-- The first part of the predicate. -/
theorem secondWait_flushTest (hs : Flushing E s) (h2 : SecondWait E s) {i : Nat} {last : Int}
    (hc : BarrierCond E s .flushTest) (hpc : s.flush = .test i last) :
    SecondWait E (s.flushTest i last) := by
  have hshape := hs.shape
  unfold SecondWait at h2 ⊢
  simp only [hpc] at h2 hshape
  rcases State.flushTest_spec i last hs.on with ⟨hfront, hlast, heq⟩ | ⟨_, _, heq⟩ | ⟨_, heq⟩
  · rcases s.flushPass_spec i with ⟨hi, heq'⟩ | ⟨hi, heq'⟩
    · -- The first wait ends: the condition is what `Progress` asks for.
      have hfirst : FirstWaitEnds s := ⟨⟨last, by rw [hpc, hi]⟩, hfront⟩
      simp only [heq, heq']
      exact fun _ => Or.inr ⟨rfl, hc rfl hfirst⟩
    · -- The second wait ends on a moved counter.
      have hi1 : i = 1 := by omega
      simp only [heq, heq']
      rcases h2 hi1 with hd | ⟨hk, _⟩
      · exact hd
      · exact absurd hk.symm hlast
  · rcases hshape with ⟨hi, hinit⟩ | hi
    · have hloop := hs.loop.1
      omega
    · simp only [heq]
      exact h2 hi
  · simp only [heq]
    exact h2

/-- The second part of the predicate. -/
theorem secondWait_flushTestBoth (hs : Flushing E s) (h2 : SecondWait E s) {i : Nat} {last : Int}
    (hpc : s.flush = .testBoth i last) : SecondWait E (s.flushTestBoth i last) := by
  have hshape := hs.shape
  unfold SecondWait at h2 ⊢
  simp only [hpc] at h2 hshape
  rcases s.flushTestBoth_spec i last with ⟨hfront, hback, heq⟩ | heq
  · -- Both queues were found empty, so nothing of the set is left.
    rcases s.flushPass_spec i with ⟨hi, _⟩ | ⟨_, heq'⟩
    · omega
    · simp only [heq, heq']
      intro c _
      simp [State.InFront, State.InBack, hfront, hback]
  · simp only [heq]
    exact fun _ => h2

theorem secondWait_step (hs : Flushing E s) (h2 : SecondWait E s) (hq : Quiet a)
    (hc : BarrierCond E s a) (h : Step req s a t) : SecondWait E t := by
  have hphases := hs.delivery.phases
  have hprogress : ∀ k, Progress E k s → Progress E k t :=
    fun k hp => hp.step hs.returned hphases h
  rcases step_flush h with heq | ⟨ha, _⟩ | ⟨_, hpc, rfl⟩ | ⟨i, last, rfl, hpc, rfl⟩ |
    ⟨i, last, _, hpc, rfl⟩ | ⟨i, last, _, hpc, heq⟩
  · exact h2.keep heq hprogress fun hd => hd.step hs.returned hphases h
  · exact absurd ha hq.2
  · rcases s.flushLock_spec with ⟨hoff, _⟩ | ⟨_, heq⟩
    · simp [hs.on] at hoff
    · simp [SecondWait, heq]
  · exact secondWait_flushTest hs h2 hc hpc
  · exact secondWait_flushTestBoth hs h2 hpc
  · -- A wake-up starts the predicate again.
    unfold SecondWait at h2 ⊢
    simp only [hpc] at h2
    simp only [heq]
    exact fun hi => hprogress last (h2 hi)

/-! ## The overtaking schedule -/

/-- The thread finishes its drain loop, moves the counter and stops short of the next `Swap`,
where `Flush` finds the front queue empty and the counter moved. -/
def overtakeFrom (pc : Option RunPc) : List Action :=
  [.flushTest, .flushTestBoth] ++
    (if pc = some .draining then [.runTest] else []) ++ [.runRelock, .flushWake, .flushTest]

theorem quiet_overtakeFrom (pc : Option RunPc) : ∀ a ∈ overtakeFrom pc, Quiet a := by
  unfold overtakeFrom
  split_ifs <;> simp [Quiet]

theorem exec_overtake {last : Int} (hflush : s.flush = .test 0 last)
    (hlast : last ≠ s.current_loop) (hon : s.logging = true) (hwork : s.work = true)
    (hfront : s.logs.front = []) (hback : s.logs.back ≠ [])
    (hpc : s.logging_thread = some .draining ∨ s.logging_thread = some .relocking) :
    ∃ t, (logger req).exec s (.flushTest :: overtakeFrom s.logging_thread) = some t ∧
      t.flush = .returned ∧ t.logs.back = s.logs.back := by
  have hmoved : s.current_loop ≠ State.bumpLoop s.current_loop := bumpLoop_ne _
  -- The state is written out, and the schedule is run symbolically in both cases.
  refine
    ⟨{ s with
        work := false
        current_loop := State.bumpLoop s.current_loop
        logging_thread := some .swapping
        flush := .returned }, ?_, rfl, rfl⟩
  rcases hpc with hpc | hpc <;>
    simp [overtakeFrom, Machine.exec, step, hpc, hflush, State.flushTest, hon, hfront, hlast,
      State.flushPass, State.flushTestBoth, DoubleBufferedQueue.BothEmpty, hback,
      State.runTest, State.cvFree, State.runRelock, State.runHead, State.runWait, hwork, hmoved]

/-! ## Past the first wait -/

/-- The first wait is over. -/
def PastFirst (s : State) : Prop :=
  match s.flush with
  | .test i _ => i = 1
  | .blocked i _ => i = 1
  | .testBoth _ _ => True
  | .returned => True
  | _ => False

theorem pastFirst_step (hs : Flushing E s) (hp : PastFirst s) (hq : Quiet a)
    (h : Step req s a t) : PastFirst t := by
  have hshape := hs.shape
  unfold PastFirst at hp ⊢
  rcases step_flush h with heq | ⟨ha, _⟩ | ⟨_, hpc, rfl⟩ | ⟨i, last, _, hpc, rfl⟩ |
    ⟨i, last, _, hpc, rfl⟩ | ⟨i, last, _, hpc, heq⟩
  · rw [heq]
    exact hp
  · exact absurd ha hq.2
  · simp [hpc] at hp
  · simp only [hpc] at hp
    rcases State.flushTest_spec i last hs.on with ⟨_, _, heq⟩ | ⟨_, _, heq⟩ | ⟨_, heq⟩
    · rcases s.flushPass_spec i with ⟨hi, _⟩ | ⟨_, heq'⟩
      · omega
      · simp [heq, heq']
    · simp [heq]
    · simpa [heq] using hp
  · simp only [hpc] at hshape
    rcases s.flushTestBoth_spec i last with ⟨_, _, heq⟩ | heq
    · rcases s.flushPass_spec i with ⟨_, heq'⟩ | ⟨_, heq'⟩ <;> simp [heq, heq']
    · simpa [heq] using hshape
  · simp only [hpc] at hp
    rw [heq]
    exact hp

theorem PastFirst.barrierCond (hp : PastFirst s) : BarrierCond E s a := by
  rintro _ ⟨⟨last, hfirst⟩, _⟩
  simp [PastFirst, hfirst] at hp

/-! ## The barrier -/

theorem workPending_reachable (h : (logger req).Reachable .init s) : WorkPending s :=
  h.invariant (by intro hon; simp [State.init] at hon)
    fun _ _ _ hs ht => workPending_step (Step.of_step ht) hs

theorem loopBound_reachable (h : (logger req).Reachable .init s) : LoopBound s :=
  h.invariant (by simp [LoopBound, State.init])
    fun _ _ _ hs ht => loopBound_step (Step.of_step ht) hs

theorem flushing_call {s₀ s₁ : State} (h₀ : (logger req).Reachable .init s₀)
    (hcall : step req s₀ .flushCall = some s₁) (hon : s₁.logging = true) :
    Flushing s₀.HasReturned s₁ ∧ SecondWait s₀.HasReturned s₁ := by
  have h₁ : (logger req).Reachable .init s₁ := h₀.step (a := .flushCall) hcall
  have hstep := Step.of_step hcall
  have hflush : s₁.flush = .called := by
    cases hstep
    rfl
  refine ⟨?_, by simp [SecondWait, hflush]⟩
  exact
    { delivery := delivery_reachable h₁
      work := workPending_reachable h₁
      loop := loopBound_reachable h₁
      on := hon
      returned := AllReturned.step (fun _ hc => hc) hstep
      shape := by simp [hflush] }

theorem flushing_run {tr : List Action} (hs : Flushing E s) (hq : ∀ a ∈ tr, Quiet a)
    (hrun : (logger req).exec s tr = some t) : Flushing E t :=
  (logger req).exec_invariant (P := fun _ a => Quiet a)
    (fun _ _ _ hs hq ht => Flushing.step hs hq (Step.of_step ht)) hs
    ((logger req).along_of_forall_mem hq) hrun

/-- A run of one `Flush` with logging on is a barrier when the step that ends its first wait
meets the condition. -/
theorem flush_barrier {tr : List Action} (hs : Flushing E s) (h2 : SecondWait E s)
    (hq : ∀ a ∈ tr, Quiet a) (hcond : (logger req).Along (BarrierCond E) s tr)
    (hrun : (logger req).exec s tr = some t) (hret : t.flush = .returned) :
    ∀ c, E c → t.Processed c := by
  have hquiet : (logger req).Along (fun _ a => Quiet a) s tr :=
    (logger req).along_of_forall_mem hq
  have hinv : Flushing E t ∧ SecondWait E t :=
    (logger req).exec_invariant (I := fun s => Flushing E s ∧ SecondWait E s)
      (fun _ _ _ hs hP ht =>
        ⟨hs.1.step hP.1 (Step.of_step ht), secondWait_step hs.1 hs.2 hP.1 hP.2 (Step.of_step ht)⟩)
      ⟨hs, h2⟩ (hquiet.and (M := logger req) hcond) hrun
  have hdrained : Drained E t := by
    have h2' := hinv.2
    simpa [SecondWait, hret] using h2'
  exact hdrained.processed hinv.1.delivery hinv.1.returned

/-- After the first wait the condition is never asked for again. -/
theorem along_pastFirst {tr : List Action} (hs : Flushing E s) (hp : PastFirst s)
    (hq : ∀ a ∈ tr, Quiet a) : (logger req).Along (BarrierCond E) s tr := by
  -- The condition speaks about the first wait, which no step of this run comes back to.
  induction tr generalizing s with
  | nil =>
      exact (logger req).along_nil _ s
  | cons a tr ih =>
      refine ⟨hp.barrierCond, ?_⟩
      intro t ht
      have hqa : Quiet a := hq a (by simp)
      exact ih (hs.step hqa (Step.of_step ht)) (pastFirst_step hs hp hqa (Step.of_step ht))
        (fun b hb => hq b (List.mem_cons_of_mem a hb))

/-- The step that ends the first wait leaves the first wait behind. -/
theorem FirstWaitEnds.pastFirst (hs : Flushing E s) (hfirst : FirstWaitEnds s)
    (h : Step req s .flushTest t) : PastFirst t := by
  rcases hfirst with ⟨⟨last, hflush⟩, hfront⟩
  have hshape := hs.shape
  have hloop := hs.loop.1
  cases h with
  | flushTest hpc =>
      rename_i i last'
      have hpc' : i = 0 ∧ last' = last := by
        rw [hflush] at hpc
        cases hpc
        exact ⟨rfl, rfl⟩
      simp only [hflush] at hshape
      rcases State.flushTest_spec i last' hs.on with ⟨_, _, heq⟩ | ⟨_, hlast, _⟩ | ⟨hne, _⟩
      · rcases s.flushPass_spec i with ⟨_, heq'⟩ | ⟨hi, _⟩
        · simp [PastFirst, heq, heq']
        · omega
      · omega
      · exact absurd hfront hne

/-- `Flush` is a barrier in every run in which the step that ends its first wait finds the thread
outside the stretch from `Swap` to the counter update, or no entry of the calls that had returned
in the back queue; and at that step the condition is exact, since otherwise some continuation
returns from `Flush` with such an entry still queued. -/
theorem flush_barrier_exact {s₀ s₁ : State} (h₀ : (logger req).Reachable .init s₀)
    (hcall : step req s₀ .flushCall = some s₁) (hon : s₁.logging = true) :
    (∀ tr t, (∀ a ∈ tr, Quiet a) → (logger req).Along (BarrierCond s₀.HasReturned) s₁ tr →
        (logger req).exec s₁ tr = some t → t.flush = .returned →
        ∀ c, s₀.callers c = .returned → t.Processed c) ∧
      (∀ tr σ, (∀ a ∈ tr, Quiet a) → (logger req).exec s₁ tr = some σ → FirstWaitEnds σ →
        ((∀ tr' t, (∀ a ∈ tr', Quiet a) →
            (logger req).exec σ (.flushTest :: tr') = some t → t.flush = .returned →
            ∀ c, s₀.callers c = .returned → t.Processed c) ↔
          (RunPc.afterSwap σ.logging_thread = true →
            ∀ c, s₀.callers c = .returned → ¬ σ.InBack c))) := by
  rcases flushing_call h₀ hcall hon with ⟨hs₁, h2₁⟩
  refine ⟨fun tr t hq hcond hrun hret => flush_barrier hs₁ h2₁ hq hcond hrun hret, ?_⟩
  intro tr σ hq hrun hfirst
  have hσ : Flushing s₀.HasReturned σ := flushing_run hs₁ hq hrun
  rcases hfirst with ⟨⟨last, hflush⟩, hfront⟩
  have hshape := hσ.shape
  have hloop := hσ.loop.1
  simp only [hflush] at hshape
  constructor
  · -- If an entry is in the back queue, `work` is set, and the thread can overtake it.
    intro hall hafter c hc hin
    have hwork : σ.work = true := hσ.work hσ.on hafter c (hσ.returned c hc) hin
    have hback : σ.logs.back ≠ [] := by
      intro hnil
      simp [State.InBack, hnil] at hin
    have hpc : σ.logging_thread = some .draining ∨ σ.logging_thread = some .relocking := by
      have hloaded := hσ.delivery.phases.loaded
      rcases hthread : σ.logging_thread with _ | pc
      · simp [hthread, RunPc.afterSwap] at hafter
      · cases pc <;> simp_all [RunPc.afterSwap]
    rcases exec_overtake hflush (by omega) hσ.on hwork hfront hback hpc with
      ⟨t, hexec, hret, hkept⟩
    have hproc := hall _ t (quiet_overtakeFrom _) hexec hret c hc
    exact hproc.back (by simpa [State.InBack, hkept] using hin)
  · -- The condition at this one step is the condition along the whole run.
    intro hcond tr' t hq' hexec hret
    have h2 : SecondWait s₀.HasReturned σ := by simp [SecondWait, hflush]
    have hfirst : FirstWaitEnds σ := ⟨⟨last, hflush⟩, hfront⟩
    have hquiet : ∀ a ∈ Action.flushTest :: tr', Quiet a := by
      intro a ha
      rcases List.mem_cons.1 ha with rfl | ha
      · simp [Quiet]
      · exact hq' a ha
    refine flush_barrier hσ h2 hquiet ?_ hexec hret
    refine ⟨fun _ _ => hcond, ?_⟩
    intro σ' hσ'
    have hstep : Step req σ .flushTest σ' := Step.of_step hσ'
    exact along_pastFirst (hσ.step (by simp [Quiet]) hstep) (hfirst.pastFirst hσ hstep) hq'

/-- Up to the call of `Flush`: the thread has swapped and drained the entry of the first call,
and the second call has returned with its entry behind that `Swap`. -/
def overtaken : List Action :=
  firstCall ++
    [.runStart, .runSwap, .runTest, .runConsume, .runPop, .runTest,
      .queueStart 1, .queuePush 1 "t", .queueWork 1]

/-- `Flush` finds the front queue empty, then the counter moved, and returns. -/
def overtaking : List Action :=
  [.flushLock, .flushTest, .flushTest, .flushTestBoth, .runRelock, .flushWake, .flushTest]

/-- `Flush` returns with logging on and an entry queued before it still in the back queue. -/
theorem flush_not_barrier :
    ∃ s₀ s₁ t, (logger sampleRequest).exec .init overtaken = some s₀ ∧
      step sampleRequest s₀ .flushCall = some s₁ ∧
      (logger sampleRequest).exec s₁ overtaking = some t ∧
      s₀.callers 1 = .returned ∧ t.flush = .returned ∧ t.logging = true ∧ t.InBack 1 := by
  refine ⟨_, _, _, rfl, rfl, rfl, rfl, rfl, rfl, ?_⟩
  exact List.mem_map.2 ⟨(sampleRequest 1).item 1 "t", List.mem_singleton.2 rfl, rfl⟩

/-- After the first call, with the thread about to swap, `Flush` waits for the entry. -/
def waited : List Action :=
  [.flushTest, .flushTest, .flushTestBoth, .runSwap, .runTest, .runConsume, .runPop, .flushWake,
    .flushTest, .flushTestBoth]

theorem flush_barrier_exact_first_call :
    ∃ s₀ s₁ σ t, (logger sampleRequest).exec .init (firstCall ++ [.runStart]) = some s₀ ∧
      step sampleRequest s₀ .flushCall = some s₁ ∧
      (logger sampleRequest).exec s₁ [.flushLock] = some σ ∧
      (logger sampleRequest).exec σ waited = some t ∧ t.flush = .returned ∧
      s₀.callers 0 = .returned ∧ t.Processed 0 := by
  obtain ⟨s₀, s₁, σ, t, h₀, h₁, hσ, ht, hret, hreturned, hon, hfirst, hpc⟩ :
      ∃ s₀ s₁ σ t, (logger sampleRequest).exec .init (firstCall ++ [.runStart]) = some s₀ ∧
        step sampleRequest s₀ .flushCall = some s₁ ∧
        (logger sampleRequest).exec s₁ [.flushLock] = some σ ∧
        (logger sampleRequest).exec σ waited = some t ∧ t.flush = .returned ∧
        s₀.callers 0 = .returned ∧ s₁.logging = true ∧ FirstWaitEnds σ ∧
        RunPc.afterSwap σ.logging_thread = false :=
    ⟨_, _, _, _, rfl, rfl, rfl, rfl, rfl, rfl, rfl, ⟨⟨_, rfl⟩, rfl⟩, rfl⟩
  have hexact := (flush_barrier_exact ⟨_, h₀⟩ h₁ hon).2 [.flushLock] σ (by simp [Quiet]) hσ hfirst
  have hbarrier := hexact.2 (by simp [hpc]) waited.tail t (by simp [waited, Quiet]) ht hret
  exact ⟨s₀, s₁, σ, t, h₀, h₁, hσ, ht, hret, hreturned, hbarrier 0 hreturned⟩

end Log
end Mozi
