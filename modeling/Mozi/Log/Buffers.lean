import Mozi.Log.Delivery

/-!
# Buffers — how an entry moves between the two queues

The barriers of the logger (`Flush`, `KillThread`) speak about a fixed set of calls that have
returned.  Their entries can only move one way: from the back queue to the front at a `Swap`, and
out of the front at a `Pop`.  The module states this for one step, and the stability of "no entry
of the set is queued" that follows.
-/

namespace Mozi
namespace Log

open DataStructure Foundation

variable {req : CallId → Request} {s t : State} {a : Action} {E : CallId → Prop}

/-! ## One step -/

/-- What a section does to the tags in the two queues. -/
theorem step_tags (h : Step req s a t) (hs : Phases s) :
    (∃ c, s.callers c = .started ∧
        t.logs.front.map Item.call = s.logs.front.map Item.call ∧
        t.logs.back.map Item.call = s.logs.back.map Item.call ++ [c]) ∨
      (a = .runSwap ∧ t.logs.front = s.logs.back ∧ t.logs.back = []) ∨
      (t.logs.front.map Item.call = (s.logs.front.map Item.call).tail ∧
        t.logs.back = s.logs.back) ∨
      (t.logs.front.map Item.call = s.logs.front.map Item.call ∧ t.logs.back = s.logs.back) := by
  cases h with
  | queuePush hpc =>
      rename_i c timestamp
      exact Or.inl ⟨c, hpc, by simp [State.queuePush], by simp [State.queuePush, Request.item]⟩
  | runSwap hpc =>
      exact Or.inr (Or.inl ⟨rfl, by simp [State.runSwap], by simp [State.runSwap]⟩)
  | runConsume hpc =>
      -- `preprocess` may change the entry, not its tag.
      rcases List.exists_cons_of_ne_nil (hs.loaded (Or.inl hpc)) with ⟨item, rest, hfront⟩
      rcases State.runConsume_spec hfront with ⟨entry, delivered, heq⟩
      exact Or.inr (Or.inr (Or.inr ⟨by simp [heq, hfront], by simp⟩))
  | runPop hpc =>
      exact Or.inr (Or.inr (Or.inl ⟨by simp [State.runPop], by simp [State.runPop]⟩))
  | _ =>
      first
      | exact Or.inr (Or.inr (Or.inr ⟨rfl, rfl⟩))
      | exact Or.inr (Or.inr (Or.inr (by simp)))

/-- An entry enters the front queue from the back queue only. -/
theorem step_inFront (h : Step req s a t) (hs : Phases s) {c : CallId} (hc : t.InFront c) :
    s.InFront c ∨ s.InBack c := by
  unfold State.InFront State.InBack at *
  rcases step_tags h hs with ⟨d, _, hf, _⟩ | ⟨_, hf, _⟩ | ⟨hf, _⟩ | ⟨hf, _⟩
  · exact Or.inl (hf ▸ hc)
  · exact Or.inr (hf ▸ hc)
  · exact Or.inl (List.mem_of_mem_tail (hf ▸ hc))
  · exact Or.inl (hf ▸ hc)

/-- An entry enters the back queue by its own `Push` only. -/
theorem step_inBack (h : Step req s a t) (hs : Phases s) {c : CallId} (hc : t.InBack c) :
    (s.InBack c ∧ a ≠ .runSwap) ∨ s.callers c = .started := by
  unfold State.InBack at *
  rcases step_tags h hs with ⟨d, hd, _, hb⟩ | ⟨_, _, hb⟩ | ⟨_, hb⟩ | ⟨_, hb⟩
  · -- The push of the call itself, or an older entry.
    rw [hb, List.mem_append] at hc
    rcases hc with hc | hc
    · refine Or.inl ⟨hc, ?_⟩
      rintro rfl
      cases h with
      | runSwap hpc =>
          simp [State.runSwap] at hb
    · have hcd : c = d := by simpa using hc
      exact Or.inr (hcd ▸ hd)
  · -- `Swap` leaves the back queue empty.
    simp [hb] at hc
  · refine Or.inl ⟨hb ▸ hc, ?_⟩
    rintro rfl
    cases h with
    | runSwap hpc =>
        simp [State.runSwap] at hc
  · refine Or.inl ⟨hb ▸ hc, ?_⟩
    rintro rfl
    cases h with
    | runSwap hpc =>
        simp [State.runSwap] at hc

/-- Only `Swap` takes an entry out of the back queue. -/
theorem step_keeps_back (h : Step req s a t) (hs : Phases s) (ha : a ≠ .runSwap) {c : CallId}
    (hc : s.InBack c) : t.InBack c := by
  unfold State.InBack at *
  rcases step_tags h hs with ⟨d, _, _, hb⟩ | ⟨hswap, _⟩ | ⟨_, hb⟩ | ⟨_, hb⟩
  · rw [hb]
    exact List.mem_append_left _ hc
  · exact absurd hswap ha
  · exact hb ▸ hc
  · exact hb ▸ hc

/-- The thread is between its `Swap` and its counter update. -/
def RunPc.afterSwap : Option RunPc → Bool
  | some .draining => true
  | some .consuming => true
  | some .popping => true
  | some .relocking => true
  | _ => false

theorem step_afterSwap (h : Step req s a t) (ht : RunPc.afterSwap t.logging_thread = true) :
    RunPc.afterSwap s.logging_thread = true ∨ a = .runSwap := by
  cases h with
  | queueStart hpc =>
      rename_i c
      rcases s.queueStart_thread c with ⟨_, heq⟩ | heq
      · simp [heq, RunPc.afterSwap] at ht
      · exact Or.inl (by simpa [heq] using ht)
  | runStart hpc =>
      -- The head of the loop leads into the wait, to `Swap`, or out of the function.
      rcases s.runHead_thread with ⟨_, heq⟩ | ⟨_, heq | heq⟩ <;> simp [heq, RunPc.afterSwap] at ht
  | runWake hpc =>
      rcases s.runWait_thread with heq | heq <;> simp [heq, RunPc.afterSwap] at ht
  | runSwap hpc =>
      exact Or.inr rfl
  | runTest hpc =>
      exact Or.inl (by simp [hpc, RunPc.afterSwap])
  | runConsume hpc =>
      exact Or.inl (by simp [hpc, RunPc.afterSwap])
  | runPop hpc =>
      exact Or.inl (by simp [hpc, RunPc.afterSwap])
  | runRelock hpc =>
      exact Or.inl (by simp [hpc, RunPc.afterSwap])
  | killReset hpc =>
      simp [RunPc.afterSwap] at ht
  | _ =>
      first
      | exact Or.inl ht
      | exact Or.inl (by simpa using ht)

/-- Only `KillThread` turns logging off. -/
theorem step_logging (h : Step req s a t) (hkill : a ≠ .killClear) (hon : s.logging = true) :
    t.logging = true := by
  cases h with
  | queueStart hpc =>
      rename_i c
      rcases s.queueStart_spec c with ⟨_, _, heq⟩ | ⟨_, heq⟩ <;> simp [heq, hon]
  | killClear hpc =>
      exact absurd rfl hkill
  | _ =>
      first
      | exact hon
      | simpa using hon

/-! ## A set of returned calls -/

/-- The calls that have returned. -/
def State.HasReturned (s : State) (c : CallId) : Prop :=
  s.callers c = .returned

/-- No entry of the set is in the back queue. -/
def BackClear (E : CallId → Prop) (s : State) : Prop :=
  ∀ c, E c → ¬ s.InBack c

/-- No entry of the set is in either queue. -/
def Drained (E : CallId → Prop) (s : State) : Prop :=
  ∀ c, E c → ¬ s.InFront c ∧ ¬ s.InBack c

/-- Every call of the set has returned. -/
def AllReturned (E : CallId → Prop) (s : State) : Prop :=
  ∀ c, E c → s.callers c = .returned

theorem AllReturned.step (hE : AllReturned E s) (h : Step req s a t) : AllReturned E t :=
  fun c hc => step_returned h (hE c hc)

theorem AllReturned.run {tr : List Action} (hE : AllReturned E s)
    (hrun : (logger req).exec s tr = some t) : AllReturned E t :=
  (logger req).exec_preserves (I := AllReturned E)
    (fun _ _ _ hs ht => AllReturned.step hs (Step.of_step ht)) hE hrun

theorem BackClear.step (hE : AllReturned E s) (hs : Phases s) (h : Step req s a t)
    (hb : BackClear E s) : BackClear E t := by
  -- Only its own `Push` puts an entry into the back queue, and that is over for these calls.
  intro c hc hin
  rcases step_inBack h hs hin with ⟨hin', _⟩ | hstarted
  · exact hb c hc hin'
  · simp [hE c hc] at hstarted

/-- A `Swap` leaves the back queue empty. -/
theorem backClear_swap (hs : Phases s) (h : Step req s .runSwap t) (hE : AllReturned E s) :
    BackClear E t := by
  intro c hc hin
  rcases step_inBack h hs hin with ⟨_, hne⟩ | hstarted
  · exact hne rfl
  · simp [hE c hc] at hstarted

theorem Drained.step (hE : AllReturned E s) (hs : Phases s) (h : Step req s a t)
    (hd : Drained E s) : Drained E t := by
  intro c hc
  refine ⟨?_, BackClear.step hE hs h (fun c hc => (hd c hc).2) c hc⟩
  intro hin
  rcases step_inFront h hs hin with hin' | hin'
  · exact (hd c hc).1 hin'
  · exact (hd c hc).2 hin'

/-- Outside the drain loop a clear back queue is all there is to ask. -/
theorem BackClear.drained (hb : BackClear E s) (hs : Phases s)
    (hpc : RunPc.draws s.logging_thread = false) : Drained E s := by
  intro c hc
  refine ⟨?_, hb c hc⟩
  simp [State.InFront, hs.drained hpc]

theorem Drained.processed (hd : Drained E s) (hs : Delivery s) (hE : AllReturned E s) :
    ∀ c, E c → s.Processed c :=
  fun c hc => hs.processed (hE c hc) (hd c hc).1 (hd c hc).2

end Log
end Mozi
