import Mozi.Log.Buffers

/-!
# KillThread — what stopping the thread loses

`KillThread` clears `logging` and joins the thread.  The thread tests `logging` at the head of its
loop only, so what becomes of the back queue is decided by where the thread is when the flag is
cleared: inside its wait, or on its way from the wait to `Swap`, it swaps and drains once more;
anywhere else it reaches the head of the loop and leaves, and the back queue stays as it is.

`kill_thread_exact` states both directions for every run.
-/

namespace Mozi
namespace Log

open DataStructure Foundation

variable {req : CallId → Request} {s t : State} {a : Action} {E : CallId → Prop} {c : CallId}

/-! ## One step -/

/-- The thread is inside its wait, or past the wait and short of `Swap`. -/
def RunPc.beforeSwap : Option RunPc → Bool
  | some .waiting => true
  | some .swapping => true
  | _ => false

theorem beforeSwap_iff {pc : Option RunPc} :
    RunPc.beforeSwap pc = true ↔ pc = some .waiting ∨ pc = some .swapping := by
  rcases pc with _ | pc
  · simp [RunPc.beforeSwap]
  · cases pc <;> simp [RunPc.beforeSwap]

/-- `KillThread` has cleared the flags and not returned. -/
def KillPc.stopping : KillPc → Bool
  | .cleared => true
  | .joining => true
  | .joined => true
  | _ => false

/-- What a section does to the `KillThread` caller. -/
theorem step_kill (h : Step req s a t) :
    t.kill = s.kill ∨ (a = .killCall ∧ t.kill = .called) ∨
      (a = .killClear ∧ s.kill = .called ∧ t.kill = .cleared) ∨
      (a = .killCheck ∧ s.kill = .cleared ∧ t = s.killCheck) ∨
      (a = .killJoin ∧ s.kill = .joining ∧ s.logging_thread = some .exited ∧
        t = { s with kill := .joined }) ∨
      (a = .killReset ∧ s.kill = .joined ∧
        t = { s with logging_thread := none, kill := .returned }) := by
  cases h with
  | killCall hpc =>
      exact Or.inr (Or.inl ⟨rfl, rfl⟩)
  | killClear hpc =>
      exact Or.inr (Or.inr (Or.inl ⟨rfl, hpc, rfl⟩))
  | killCheck hpc =>
      exact Or.inr (Or.inr (Or.inr (Or.inl ⟨rfl, hpc, rfl⟩)))
  | killJoin hpc hexit =>
      exact Or.inr (Or.inr (Or.inr (Or.inr (Or.inl ⟨rfl, hpc, hexit, rfl⟩))))
  | killReset hpc =>
      exact Or.inr (Or.inr (Or.inr (Or.inr (Or.inr ⟨rfl, hpc, rfl⟩))))
  | _ =>
      first
      | exact Or.inl rfl
      | exact Or.inl (by simp)

/-- A caller that is stopping the thread goes on stopping it until it returns. -/
theorem step_stopping (h : Step req s a t) (ha : a ≠ .killCall)
    (hs : s.kill.stopping = true ∨ s.kill = .returned) :
    t.kill.stopping = true ∨ t.kill = .returned := by
  rcases step_kill h with heq | ⟨hcall, _⟩ | ⟨_, _, heq⟩ | ⟨_, _, rfl⟩ | ⟨_, _, _, rfl⟩ |
    ⟨_, _, rfl⟩
  · rw [heq]
    exact hs
  · exact absurd hcall ha
  · simp [heq, KillPc.stopping]
  · rcases s.killCheck_spec with ⟨_, heq⟩ | ⟨_, heq⟩ <;> simp [heq, KillPc.stopping]
  · simp [KillPc.stopping]
  · simp

/-- The two sections `KillThread` can return from find the thread gone. -/
theorem step_kill_returns (h : Step req s a t) (hs : Phases s) (hpending : s.kill ≠ .returned)
    (hret : t.kill = .returned) :
    (s.logging_thread = none ∨ s.logging_thread = some .exited) ∧
      (s.kill = .cleared ∧ s.logging_thread = none ∨ s.kill = .joined) ∧
      t.logs = s.logs ∧ t.callers = s.callers ∧ RunPc.draws t.logging_thread = false := by
  rcases step_kill h with heq | ⟨_, heq⟩ | ⟨_, _, heq⟩ | ⟨_, hpc, rfl⟩ | ⟨_, _, _, rfl⟩ |
    ⟨_, hpc, rfl⟩
  · exact absurd (heq ▸ hret) hpending
  · simp [heq] at hret
  · simp [heq] at hret
  · rcases s.killCheck_spec with ⟨hnone, heq⟩ | ⟨_, heq⟩
    · exact ⟨Or.inl hnone, Or.inl ⟨hpc, hnone⟩, by simp, by simp, by simp [hnone, RunPc.draws]⟩
    · simp [heq] at hret
  · simp at hret
  · exact ⟨Or.inr (hs.joined hpc), Or.inr hpc, rfl, rfl, rfl⟩

/-! ## The set is drained -/

/-- The back queue holds nothing of the set, or the thread swaps once more before it leaves. -/
def WillDrain (E : CallId → Prop) (s : State) : Prop :=
  BackClear E s ∨ (s.logging = false ∧ RunPc.beforeSwap s.logging_thread = true)

theorem WillDrain.step (hE : AllReturned E s) (hs : Phases s) (h : Step req s a t)
    (hd : WillDrain E s) : WillDrain E t := by
  rcases hd with hclear | ⟨hoff, hbefore⟩
  · exact Or.inl (hclear.step hE hs h)
  · have hsome : s.logging_thread ≠ none := by
      rintro hnone
      simp [hnone, RunPc.beforeSwap] at hbefore
    cases h with
    | queueStart hpc =>
        rename_i d
        rcases s.queueStart_spec d with ⟨_, hnone, _⟩ | ⟨_, heq⟩
        · -- There is a thread, so none is started.
          exact absurd hnone hsome
        · exact Or.inr (by simp [heq, hoff, hbefore])
    | runWake hpc =>
        -- With logging off the wait ends and leads to `Swap`.
        rcases s.runWait_spec with ⟨_, heq⟩ | ⟨hon, _, _⟩
        · exact Or.inr (by simp [heq, hoff, RunPc.beforeSwap])
        · simp [hoff] at hon
    | runSwap hpc =>
        -- This is the `Swap` the invariant promised.
        have hswap : Step req s .runSwap s.runSwap := .runSwap hpc
        exact Or.inl (backClear_swap hs hswap hE)
    | killReset hpc =>
        simp [hs.joined hpc, RunPc.beforeSwap] at hbefore
    | killClear hpc =>
        exact Or.inr ⟨rfl, hbefore⟩
    | runStart hpc | runTest hpc | runConsume hpc | runPop hpc | runRelock hpc =>
        simp [hpc, RunPc.beforeSwap] at hbefore
    | _ =>
        first
        | exact Or.inr ⟨hoff, hbefore⟩
        | exact Or.inr (by simp [hoff, hbefore])

/-! ## An entry is left behind -/

/-- The thread was started anew: logging is on and the join does not end. -/
structure Restarted (s : State) : Prop where
  on : s.logging = true
  alive : s.logging_thread ≠ none
  running : s.logging_thread ≠ some .exited
  not_joined : s.kill ≠ .joined

/-- The head of the loop keeps a thread whose logging is on. -/
theorem Restarted.head (hr : Restarted s) (hlog : t.logging = s.logging) (hkill : t.kill = s.kill)
    (hpc : (s.logging = false ∧ t.logging_thread = some .exited) ∨
      (s.logging = true ∧ (t.logging_thread = some .swapping ∨
        t.logging_thread = some .waiting))) :
    Restarted t := by
  rcases hpc with ⟨hoff, _⟩ | ⟨hon, heq | heq⟩
  · simp [hr.on] at hoff
  · exact ⟨hlog ▸ hon, by simp [heq], by simp [heq], hkill ▸ hr.not_joined⟩
  · exact ⟨hlog ▸ hon, by simp [heq], by simp [heq], hkill ▸ hr.not_joined⟩

theorem Restarted.step (h : Step req s a t) (hkill : s.kill.stopping = true)
    (hr : Restarted s) : Restarted t := by
  have hon := hr.on
  have halive := hr.alive
  have hrunning := hr.running
  have hjoined := hr.not_joined
  cases h with
  | queueStart hpc =>
      rename_i d
      rcases s.queueStart_spec d with ⟨hoff, _⟩ | ⟨_, heq⟩
      · simp [hon] at hoff
      · rw [heq]
        exact ⟨hon, halive, hrunning, hjoined⟩
  | runStart hpc =>
      exact hr.head (by simp) (by simp) s.runHead_thread
  | runRelock hpc =>
      exact hr.head (by simp) (by simp) s.runRelock_thread
  | runWake hpc =>
      exact hr.head (by simp) (by simp) (Or.inr ⟨hon, s.runWait_thread⟩)
  | runSwap hpc =>
      exact ⟨hon, by simp [State.runSwap], by simp [State.runSwap], hjoined⟩
  | runTest hpc =>
      rcases s.runTest_thread with heq | heq <;>
        exact ⟨by simpa using hon, by simp [heq], by simp [heq], by simpa using hjoined⟩
  | runConsume hpc =>
      exact ⟨by simpa using hon, by simp, by simp, by simpa using hjoined⟩
  | runPop hpc =>
      exact ⟨hon, by simp [State.runPop], by simp [State.runPop], hjoined⟩
  | killCall hpc =>
      -- A caller that is stopping the thread is past its call.
      rcases hpc with hpc | hpc <;> simp [hpc, KillPc.stopping] at hkill
  | killClear hpc =>
      simp [hpc, KillPc.stopping] at hkill
  | killCheck hpc =>
      rcases s.killCheck_spec with ⟨hnone, _⟩ | ⟨_, heq⟩
      · exact absurd hnone halive
      · rw [heq]
        exact ⟨hon, halive, hrunning, by simp⟩
  | killJoin hpc hexit =>
      -- The join waits for a thread that logging keeps running.
      exact absurd hexit hrunning
  | killReset hpc =>
      exact absurd hpc hjoined
  | _ =>
      first
      | exact ⟨hon, halive, hrunning, hjoined⟩
      | exact ⟨by simpa using hon, by simpa using halive, by simpa using hrunning,
          by simpa using hjoined⟩

/-- Logging is off, the thread is past its last `Swap`, and the entry is in the back queue. -/
structure Missed (c : CallId) (s : State) : Prop where
  off : s.logging = false
  past : RunPc.beforeSwap s.logging_thread = false
  back : s.InBack c

/-- A missed entry stays missed until `KillThread` returns, unless the thread is started anew. -/
theorem Missed.step (hs : Phases s) (h : Step req s a t) (hm : Missed c s) :
    Missed c t ∨ Restarted t := by
  have hoff := hm.off
  have hpast := hm.past
  have hback : a ≠ .runSwap → t.InBack c := fun ha => step_keeps_back h hs ha hm.back
  cases h with
  | queueStart hpc =>
      rename_i d
      rcases s.queueStart_spec d with ⟨_, hnone, heq⟩ | ⟨_, heq⟩
      · -- The thread is gone and the next `QueueLog` starts another one.
        refine Or.inr ?_
        rw [heq]
        exact ⟨rfl, by simp, by simp, hs.not_joined (by simp [hnone])⟩
      · refine Or.inl ⟨by rw [heq]; exact hoff, by rw [heq]; exact hpast, hback (by simp)⟩
  | runStart hpc =>
      rcases s.runHead_thread with ⟨_, heq⟩ | ⟨hon, _⟩
      · exact Or.inl ⟨by simpa using hoff, by simp [heq, RunPc.beforeSwap], hback (by simp)⟩
      · simp [hoff] at hon
  | runRelock hpc =>
      rcases s.runRelock_thread with ⟨_, heq⟩ | ⟨hon, _⟩
      · exact Or.inl ⟨by simpa using hoff, by simp [heq, RunPc.beforeSwap], hback (by simp)⟩
      · simp [hoff] at hon
  | runWake hpc =>
      -- A thread in its wait would still swap.
      simp [hpc, RunPc.beforeSwap] at hpast
  | runSwap hpc =>
      simp [hpc, RunPc.beforeSwap] at hpast
  | runTest hpc =>
      rcases s.runTest_thread with heq | heq <;>
        exact Or.inl ⟨by simpa using hoff, by simp [heq, RunPc.beforeSwap], hback (by simp)⟩
  | killClear hpc =>
      exact Or.inl ⟨rfl, hpast, hback (by simp)⟩
  | runConsume hpc =>
      exact Or.inl ⟨by simpa using hoff, by simp [RunPc.beforeSwap], hback (by simp)⟩
  | runPop hpc =>
      exact Or.inl ⟨hoff, rfl, hback (by simp)⟩
  | killReset hpc =>
      exact Or.inl ⟨hoff, rfl, hback (by simp)⟩
  | _ =>
      first
      | exact Or.inl ⟨hoff, hpast, hback (by simp)⟩
      | exact Or.inl ⟨by simpa using hoff, by simpa using hpast, hback (by simp)⟩

/-! ## The return of `KillThread` -/

/-- What a run from the clearing of the flags to the return of `KillThread` keeps. -/
def Stopping (I : State → Prop) (s : State) : Prop :=
  s.kill = .returned ∨ (s.kill.stopping = true ∧ Delivery s ∧ I s)

theorem Stopping.step {I : State → Prop}
    (hInv : ∀ s a t, s.kill.stopping = true → Delivery s → Step req s a t → I s → I t)
    (ha : a ≠ .killCall) (h : Step req s a t) (hs : Stopping I s) : Stopping I t := by
  -- Once returned, `kill` changes with the next call only.
  rcases hs with hret | ⟨hkill, hd, hi⟩
  · rcases step_kill h with heq | ⟨hcall, _⟩ | ⟨_, hpc, _⟩ | ⟨_, hpc, _⟩ | ⟨_, hpc, _⟩ | ⟨_, hpc, _⟩
    · exact Or.inl (heq.trans hret)
    · exact absurd hcall ha
    all_goals simp [hret] at hpc
  · rcases step_stopping h ha (Or.inl hkill) with hkill' | hret
    · exact Or.inr ⟨hkill', delivery_step h hd, hInv s a t hkill hd h hi⟩
    · exact Or.inl hret

/-- The invariant still holds where `KillThread` returns from. -/
theorem Stopping.run {I : State → Prop}
    (hInv : ∀ s a t, s.kill.stopping = true → Delivery s → Step req s a t → I s → I t)
    {tr : List Action} (hs : Stopping I s) (hq : ∀ a ∈ tr, a ≠ .killCall)
    (hrun : (logger req).exec s tr = some t) (hpending : t.kill ≠ .returned) :
    Delivery t ∧ I t := by
  have ht : Stopping I t :=
    (logger req).exec_invariant (P := fun _ a => a ≠ .killCall)
      (fun _ _ _ hs ha ht => Stopping.step hInv ha (Step.of_step ht) hs) hs
      ((logger req).along_of_forall_mem hq) hrun
  rcases ht with hret | ⟨_, hd, hi⟩
  · exact absurd hret hpending
  · exact ⟨hd, hi⟩

/-- An entry missed where the flags are cleared is still queued when `KillThread` returns: a
restarted thread would keep the join from ending. -/
theorem Missed.not_processed {σ τ : State} {tr : List Action} (hm : Missed c σ)
    (hσ : Delivery σ) (hkill : σ.kill.stopping = true) (hq : ∀ b ∈ tr, b ≠ .killCall)
    (hrun : (logger req).exec σ tr = some τ) (hpending : τ.kill ≠ .returned)
    (hlast : Step req τ a t) (hret : t.kill = .returned) : ¬ t.Processed c := by
  have hstopping := Stopping.run (I := fun s => Missed c s ∨ Restarted s)
    (fun s a t hkill hd h hi => hi.elim (Missed.step hd.phases h)
      fun hr => Or.inr (hr.step h hkill))
    (Or.inr ⟨hkill, hσ, Or.inl hm⟩) hq hrun hpending
  rcases hstopping with ⟨hτ, hmissed | hr⟩
  · have hlogs := (step_kill_returns hlast hτ.phases hpending hret).2.2.1
    intro hprocessed
    exact hprocessed.back (by simpa [State.InBack, hlogs] using hmissed.back)
  · have hgone := (step_kill_returns hlast hτ.phases hpending hret).1
    exact (hgone.elim hr.alive hr.running).elim

/-- Where the thread swaps once more, or there is nothing of the set to swap, the set is processed
when `KillThread` returns. -/
theorem WillDrain.processed {σ τ : State} {tr : List Action} (hd : WillDrain E σ)
    (hE : AllReturned E σ) (hσ : Delivery σ) (hkill : σ.kill.stopping = true)
    (hq : ∀ b ∈ tr, b ≠ .killCall) (hrun : (logger req).exec σ tr = some τ)
    (hpending : τ.kill ≠ .returned) (hlast : Step req τ a t) (hret : t.kill = .returned) :
    ∀ c, E c → t.Processed c := by
  have hstopping := Stopping.run (I := fun s => AllReturned E s ∧ WillDrain E s)
    (fun s a t _ hd h hi => ⟨hi.1.step h, hi.2.step hi.1 hd.phases h⟩)
    (Or.inr ⟨hkill, hσ, hE, hd⟩) hq hrun hpending
  rcases hstopping with ⟨hτ, hEτ, hdτ⟩
  have hreturns := step_kill_returns hlast hτ.phases hpending hret
  have hclear : BackClear E τ := by
    -- The thread that is joined is not on its way to `Swap`.
    rcases hdτ with hclear | ⟨_, hpc⟩
    · exact hclear
    · rcases hreturns.1 with hnone | hexit
      · simp [hnone, RunPc.beforeSwap] at hpc
      · simp [hexit, RunPc.beforeSwap] at hpc
  have ht : Delivery t := delivery_step hlast hτ
  have hdrained := (hclear.step hEτ hτ.phases hlast).drained ht.phases hreturns.2.2.2.2
  exact hdrained.processed ht (hEτ.step hlast)

/-- In every run the entries queued before a `KillThread` are processed when it returns if and
only if, where it clears the flags, the thread is inside its wait or on its way from there to
`Swap`, or none of these entries is in the back queue. -/
theorem kill_thread_exact {s₀ s₁ σ σ' τ : State} {trA trB : List Action}
    (h₀ : (logger req).Reachable .init s₀) (hcall : step req s₀ .killCall = some s₁)
    (hbefore : (logger req).exec s₁ trA = some σ) (hclear : step req σ .killClear = some σ')
    (hafter : (logger req).exec σ' trB = some τ) (hq : ∀ b ∈ trB, b ≠ .killCall)
    (hpending : τ.kill ≠ .returned) (hlast : step req τ a = some t)
    (hret : t.kill = .returned) :
    (∀ c, s₀.callers c = .returned → t.Processed c) ↔
      (σ.logging_thread = some .waiting ∨ σ.logging_thread = some .swapping ∨
        ∀ c, s₀.callers c = .returned → ¬ σ.InBack c) := by
  have h₁ : (logger req).Reachable .init s₁ := h₀.step (a := .killCall) hcall
  have hσ : Delivery σ := delivery_reachable (h₁.exec hbefore)
  have hstep := Step.of_step hclear
  have hσ' : Delivery σ' := delivery_step hstep hσ
  have hlaststep := Step.of_step hlast
  -- `killClear` moves neither the thread nor the queues.
  obtain rfl : σ' = σ.killClear := by
    cases hstep
    rfl
  have hkill : σ.killClear.kill.stopping = true := rfl
  constructor
  · intro hall
    by_contra hcond
    push Not at hcond
    rcases hcond with ⟨hwaiting, hswapping, c, hc, hin⟩
    have hpast : RunPc.beforeSwap σ.logging_thread = false := by
      rw [Bool.eq_false_iff, ne_eq, beforeSwap_iff]
      exact fun h => h.elim hwaiting hswapping
    have hmissed : Missed c σ.killClear := ⟨rfl, hpast, hin⟩
    exact hmissed.not_processed hσ' hkill hq hafter hpending hlaststep hret (hall c hc)
  · intro hcond
    have hreturned : AllReturned s₀.HasReturned σ.killClear := by
      have hs₁ : AllReturned s₀.HasReturned s₁ :=
        AllReturned.step (fun _ hc => hc) (Step.of_step hcall)
      exact (hs₁.run hbefore).step hstep
    have hdrain : WillDrain s₀.HasReturned σ.killClear := by
      rcases hcond with hpc | hpc | hclear
      · exact Or.inr ⟨rfl, beforeSwap_iff.2 (Or.inl hpc)⟩
      · exact Or.inr ⟨rfl, beforeSwap_iff.2 (Or.inr hpc)⟩
      · exact Or.inl hclear
    exact hdrain.processed hreturned hσ' hkill hq hafter hpending hlaststep hret

/-- The first call starts the thread and returns; `KillThread` clears the flags before the thread
has reached its loop, and returns with the entry still in the back queue. -/
theorem kill_thread_leaves_entry :
    ∃ s₀ s₁ σ τ t, (logger sampleRequest).exec .init firstCall = some s₀ ∧
      step sampleRequest s₀ .killCall = some s₁ ∧
      step sampleRequest s₁ .killClear = some σ ∧
      (logger sampleRequest).exec σ [.runStart, .killCheck, .killJoin] = some τ ∧
      step sampleRequest τ .killReset = some t ∧
      s₀.callers 0 = .returned ∧ t.kill = .returned ∧ t.InBack 0 := by
  refine ⟨_, _, _, _, _, rfl, rfl, rfl, rfl, rfl, rfl, rfl, ?_⟩
  exact List.mem_map.2 ⟨(sampleRequest 0).item 0 "t", List.mem_singleton.2 rfl, rfl⟩

/-- The thread swaps and drains the entry of the first call once more, and is joined. -/
def drained : List Action :=
  [.runSwap, .runTest, .runConsume, .runPop, .runTest, .runRelock, .killCheck, .killJoin]

theorem kill_thread_exact_first_call :
    ∃ s₀ s₁ σ τ t, (logger sampleRequest).exec .init (firstCall ++ [.runStart]) = some s₀ ∧
      step sampleRequest s₀ .killCall = some s₁ ∧
      step sampleRequest s₁ .killClear = some σ ∧
      (logger sampleRequest).exec σ drained = some τ ∧
      step sampleRequest τ .killReset = some t ∧
      s₀.callers 0 = .returned ∧ t.Processed 0 := by
  obtain ⟨s₀, s₁, σ, τ, t, h₀, hcall, hclear, hafter, hlast, hreturned, hpc, hpending, hret⟩ :
      ∃ s₀ s₁ σ τ t, (logger sampleRequest).exec .init (firstCall ++ [.runStart]) = some s₀ ∧
        step sampleRequest s₀ .killCall = some s₁ ∧
        step sampleRequest s₁ .killClear = some σ ∧
        (logger sampleRequest).exec σ drained = some τ ∧
        step sampleRequest τ .killReset = some t ∧
        s₀.callers 0 = .returned ∧ s₁.logging_thread = some .swapping ∧
        τ.kill = .joined ∧ t.kill = .returned :=
    ⟨_, _, _, _, _, rfl, rfl, rfl, rfl, rfl, rfl, rfl, rfl, rfl⟩
  have hstay : (logger sampleRequest).exec s₁ [] = some s₁ := rfl
  have hexact := kill_thread_exact ⟨_, h₀⟩ hcall hstay hclear hafter
    (by simp [drained]) (by simp [hpending]) hlast hret
  exact ⟨s₀, s₁, σ, τ, t, h₀, hcall, hclear, hafter, hlast, hreturned,
    hexact.2 (Or.inr (Or.inl hpc)) 0 hreturned⟩

end Log
end Mozi
