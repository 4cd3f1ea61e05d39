import Mozi.Foundation.Channel
import Mozi.Log.Step

/-!
# Delivery — the logger refines a first-in first-out channel

`Push` sends on the channel, handing an item to `preprocess` receives it, and every other section
leaves the channel alone (`step_simulates`).  The phase invariant carries the one fact the queue
class does not give by itself: outside the drain loop the front queue is empty, so the item
`Swap` would throw away never exists, across thread exit, `KillThread` and restart.
-/

namespace Mozi
namespace Log

open DataStructure Foundation

variable {req : CallId → Request} {s t : State} {a : Action}

/-! ## Abstraction to the channel -/

/-- The part of the front queue `run` has not read yet. -/
def State.pending (s : State) : List Item :=
  if s.logging_thread = some .popping then s.logs.front.tail else s.logs.front

def State.channel (s : State) : Channel Item :=
  { sent := s.pushed
    received := s.taken
    queued := s.pending ++ s.logs.back }

/-! ## The phase invariant -/

/-- The thread is inside the drain loop. -/
def RunPc.draws : Option RunPc → Bool
  | some .draining => true
  | some .consuming => true
  | some .popping => true
  | _ => false

structure Phases (s : State) : Prop where
  drained : RunPc.draws s.logging_thread = false → s.logs.front = []
  loaded : s.logging_thread = some .consuming ∨ s.logging_thread = some .popping →
    s.logs.front ≠ []
  joining : s.kill = .joining → s.logging_thread ≠ none
  joined : s.kill = .joined → s.logging_thread = some .exited

theorem phases_init : Phases State.init :=
  { drained := fun _ => rfl
    loaded := by simp [State.init]
    joining := by simp [State.init]
    joined := by simp [State.init] }

/-- A thread that is not done cannot have been joined. -/
theorem Phases.not_joined (hs : Phases s) (hpc : s.logging_thread ≠ some .exited) :
    s.kill ≠ .joined :=
  fun hkill => hpc (hs.joined hkill)

/-- `run` goes on to another point, and leaves the front queue as that point needs it. -/
theorem Phases.advance (hs : Phases s) {pc : RunPc} (halive : s.logging_thread ≠ some .exited)
    (hpc : t.logging_thread = some pc) (hkill : t.kill = s.kill)
    (hdrained : RunPc.draws (some pc) = false → t.logs.front = [])
    (hloaded : pc = .consuming ∨ pc = .popping → t.logs.front ≠ []) : Phases t :=
  { drained := by simpa [hpc] using hdrained
    loaded := by simpa [hpc] using hloaded
    joining := by simp [hpc]
    joined := fun hjoined => absurd (hkill ▸ hjoined) (hs.not_joined halive) }

/-- Outside the drain loop `run` may move to any point outside it. -/
theorem Phases.move (hs : Phases s) {pc : RunPc} {work : Bool} {loop : Int}
    (hfrom : RunPc.draws s.logging_thread = false) (halive : s.logging_thread ≠ some .exited)
    (hto : RunPc.draws (some pc) = false) :
    Phases { s with current_loop := loop, work := work, logging_thread := some pc } := by
  refine hs.advance halive rfl rfl (fun _ => hs.drained hfrom) ?_
  -- A point outside the drain loop is neither `consuming` nor `popping`.
  rintro (rfl | rfl) <;> simp [RunPc.draws] at hto

theorem Phases.runHead (hs : Phases s) {loop : Int}
    (hfrom : RunPc.draws s.logging_thread = false) (halive : s.logging_thread ≠ some .exited) :
    Phases { s with current_loop := loop }.runHead := by
  rcases State.runHead_spec { s with current_loop := loop } with
    ⟨_, heq⟩ | ⟨_, _, heq⟩ | ⟨_, _, heq⟩ <;>
  · rw [heq]
    exact hs.move hfrom halive rfl

/-- A section that leaves the front queue and both threads where they are. -/
theorem Phases.frame (hs : Phases s) (hfront : t.logs.front = s.logs.front)
    (hpc : t.logging_thread = s.logging_thread) (hkill : t.kill = s.kill) : Phases t :=
  { drained := by simpa [hfront, hpc] using hs.drained
    loaded := by simpa [hfront, hpc] using hs.loaded
    joining := by simpa [hkill, hpc] using hs.joining
    joined := by simpa [hkill, hpc] using hs.joined }

theorem phases_step (h : Step req s a t) (hs : Phases s) : Phases t := by
  cases h with
  | queueStart hpc =>
      rename_i c
      rcases s.queueStart_spec c with ⟨_, hnone, heq⟩ | ⟨_, heq⟩
      · rw [heq]
        -- Without a thread the front queue is as the last one left it.
        have hfront : s.logs.front = [] := hs.drained (by simp [hnone, RunPc.draws])
        exact hs.advance (by simp [hnone]) rfl rfl (fun _ => hfront) (by simp)
      · rw [heq]
        exact hs.frame rfl rfl rfl
  | queuePush hpc =>
      exact hs.frame (by simp [State.queuePush]) rfl rfl
  | runStart hpc =>
      exact hs.runHead (by simp [hpc, RunPc.draws]) (by simp [hpc])
  | runWake hpc =>
      rcases s.runWait_spec with ⟨_, heq⟩ | ⟨_, _, heq⟩ <;>
      · rw [heq]
        exact hs.move (by simp [hpc, RunPc.draws]) (by simp [hpc]) rfl
  | runSwap hpc =>
      -- From here to the end of the drain loop the front queue may hold anything.
      exact hs.advance (by simp [hpc]) rfl rfl (by simp [RunPc.draws]) (by simp)
  | runTest hpc =>
      -- The loop ends where the front queue is empty, and that is what `drained` asks for.
      rcases s.runTest_spec with ⟨hfront, heq⟩ | ⟨hfront, heq⟩
      · rw [heq]
        exact hs.advance (by simp [hpc]) rfl rfl (fun _ => hfront) (by simp)
      · rw [heq]
        exact hs.advance (by simp [hpc]) rfl rfl (by simp [RunPc.draws]) (fun _ => hfront)
  | runConsume hpc =>
      rcases List.exists_cons_of_ne_nil (hs.loaded (Or.inl hpc)) with ⟨item, rest, hfront⟩
      rcases State.runConsume_spec hfront with ⟨entry, delivered, heq⟩
      rw [heq]
      exact hs.advance (by simp [hpc]) rfl rfl (by simp [RunPc.draws]) (by simp)
  | runPop hpc =>
      exact hs.advance (by simp [hpc]) rfl rfl (by simp [RunPc.draws]) (by simp)
  | runRelock hpc =>
      exact hs.runHead (by simp [hpc, RunPc.draws]) (by simp [hpc])
  | flushLock hpc =>
      exact hs.frame (by simp) (by simp) (by simp)
  | flushTest hpc =>
      exact hs.frame (by simp) (by simp) (by simp)
  | flushTestBoth hpc =>
      exact hs.frame (by simp) (by simp) (by simp)
  | killCall hpc =>
      exact ⟨hs.drained, hs.loaded, by simp, by simp⟩
  | killClear hpc =>
      exact ⟨hs.drained, hs.loaded, by simp [State.killClear], by simp [State.killClear]⟩
  | killCheck hpc =>
      rcases s.killCheck_spec with ⟨_, heq⟩ | ⟨hsome, heq⟩
      · rw [heq]
        exact ⟨hs.drained, hs.loaded, by simp, by simp⟩
      · rw [heq]
        exact ⟨hs.drained, hs.loaded, fun _ => hsome, by simp⟩
  | killJoin hpc hexit =>
      exact ⟨hs.drained, hs.loaded, by simp, fun _ => hexit⟩
  | killReset hpc =>
      -- `joined` says that the thread had exited, so it had drained the front queue.
      have hfront : s.logs.front = [] := hs.drained (by simp [hs.joined hpc, RunPc.draws])
      exact ⟨fun _ => hfront, by simp, by simp, by simp⟩
  | _ =>
      exact hs.frame rfl rfl rfl

/-! ## Refinement -/

/-- A section that leaves the queue and the history alone, and does not pass the point between
`preprocess` and `Pop`, is a stutter of the channel. -/
theorem channel_stutter (hlogs : t.logs = s.logs) (hpushed : t.pushed = s.pushed)
    (htaken : t.taken = s.taken)
    (hpc : t.logging_thread = some .popping ↔ s.logging_thread = some .popping) :
    Channel.Step s.channel t.channel := by
  have heq : t.channel = s.channel := by
    simp [State.channel, State.pending, hlogs, hpushed, htaken, hpc]
  rw [heq]
  exact .stutter _

/-- Every section of the logger is a step of the channel. -/
theorem step_simulates (h : Step req s a t) (hs : Phases s) :
    Channel.Step s.channel t.channel := by
  cases h with
  | queueStart hpc =>
      rename_i c
      refine channel_stutter (by simp) (by simp) (by simp) ?_
      rcases s.queueStart_thread c with ⟨hnone, heq⟩ | heq <;> simp [*]
  | queuePush hpc =>
      rename_i c timestamp
      have hsend := Channel.Step.send s.channel ((req c).item c timestamp)
      simpa [State.channel, State.pending, State.queuePush] using hsend
  | runStart hpc =>
      refine channel_stutter (by simp) (by simp) (by simp) ?_
      rcases s.runHead_thread with ⟨_, heq⟩ | ⟨_, heq | heq⟩ <;> simp [heq, hpc]
  | runWake hpc =>
      refine channel_stutter (by simp) (by simp) (by simp) ?_
      rcases s.runWait_thread with heq | heq <;> simp [heq, hpc]
  | runSwap hpc =>
      -- The front queue is empty, so what `Swap` discards is nothing.
      have hfront : s.logs.front = [] := hs.drained (by simp [hpc, RunPc.draws])
      have heq : s.runSwap.channel = s.channel := by
        simp [State.channel, State.pending, State.runSwap, hpc, hfront]
      rw [heq]
      exact .stutter _
  | runTest hpc =>
      refine channel_stutter (by simp) (by simp) (by simp) ?_
      rcases s.runTest_thread with heq | heq <;> simp [heq, hpc]
  | runConsume hpc =>
      -- The head of the front queue is received here; it stays in the queue until `Pop`.
      rcases List.exists_cons_of_ne_nil (hs.loaded (Or.inl hpc)) with ⟨item, rest, hfront⟩
      rcases State.runConsume_spec hfront with ⟨entry, delivered, heq⟩
      have hqueued : s.channel.queued = item :: (rest ++ s.logs.back) := by
        simp [State.channel, State.pending, hpc, hfront]
      have hrecv := Channel.Step.receive s.channel item _ hqueued
      rw [heq]
      simpa [State.channel, State.pending, hfront] using hrecv
  | runPop hpc =>
      -- What `Pop` removes was received with `preprocess`.
      have heq : s.runPop.channel = s.channel := by
        simp [State.channel, State.pending, State.runPop, hpc]
      rw [heq]
      exact .stutter _
  | runRelock hpc =>
      refine channel_stutter (by simp) (by simp) (by simp) ?_
      rcases s.runRelock_thread with ⟨_, heq⟩ | ⟨_, heq | heq⟩ <;> simp [heq, hpc]
  | flushLock hpc =>
      exact channel_stutter (by simp) (by simp) (by simp) (by simp)
  | flushTest hpc =>
      exact channel_stutter (by simp) (by simp) (by simp) (by simp)
  | flushTestBoth hpc =>
      exact channel_stutter (by simp) (by simp) (by simp) (by simp)
  | killCheck hpc =>
      exact channel_stutter (by simp) (by simp) (by simp) (by simp)
  | killReset hpc =>
      exact channel_stutter rfl rfl rfl (by simp [hs.joined hpc])
  | _ =>
      exact channel_stutter rfl rfl rfl Iff.rfl

/-! ## Tags -/

/-- The call's entry is in the front queue. -/
def State.InFront (s : State) (c : CallId) : Prop :=
  c ∈ s.logs.front.map Item.call

/-- The call's entry is in the back queue. -/
def State.InBack (s : State) (c : CallId) : Prop :=
  c ∈ s.logs.back.map Item.call

/-- The call's entry has been handed to `preprocess` and popped: it is in neither buffer. -/
structure State.Processed (s : State) (c : CallId) : Prop where
  taken : c ∈ s.taken.map Item.call
  front : ¬ s.InFront c
  back : ¬ s.InBack c

/-- What a section does to the callers and to the history of pushes. -/
theorem step_callers (h : Step req s a t) :
    (∃ c, a = .queueStart c ∧ s.callers c = .idle ∧
        t.callers = Function.update s.callers c .started ∧ t.pushed = s.pushed) ∨
      (∃ c timestamp, a = .queuePush c timestamp ∧ s.callers c = .started ∧
        t.callers = Function.update s.callers c .pushed ∧
        t.pushed = s.pushed ++ [(req c).item c timestamp]) ∨
      (∃ c, a = .queueWork c ∧ s.callers c = .pushed ∧
        t.callers = Function.update s.callers c .returned ∧ t.pushed = s.pushed) ∨
      (t.callers = s.callers ∧ t.pushed = s.pushed) := by
  cases h with
  | queueStart hpc =>
      exact Or.inl ⟨_, rfl, hpc, by simp, by simp⟩
  | queuePush hpc =>
      exact Or.inr (Or.inl ⟨_, _, rfl, hpc, rfl, rfl⟩)
  | queueWork hpc =>
      exact Or.inr (Or.inr (Or.inl ⟨_, rfl, hpc, rfl, rfl⟩))
  | _ =>
      first
      | exact Or.inr (Or.inr (Or.inr ⟨rfl, rfl⟩))
      | exact Or.inr (Or.inr (Or.inr (by simp)))

/-- A call that has returned stays returned. -/
theorem step_returned (h : Step req s a t) {c : CallId} (hc : s.callers c = .returned) :
    t.callers c = .returned := by
  rcases step_callers h with ⟨d, _, hd, heq, _⟩ | ⟨d, _, _, hd, heq, _⟩ | ⟨d, _, hd, heq, _⟩ |
    ⟨heq, _⟩
  · have hne : c ≠ d := by rintro rfl; simp [hc] at hd
    simp [heq, hne, hc]
  · have hne : c ≠ d := by rintro rfl; simp [hc] at hd
    simp [heq, hne, hc]
  · have hne : c ≠ d := by rintro rfl; simp [hc] at hd
    simp [heq, hne, hc]
  · rw [heq]
    exact hc

/-- Each call pushes one entry, in its second section. -/
structure Tagged (s : State) : Prop where
  mem : ∀ c, c ∈ s.pushed.map Item.call ↔ s.callers c = .pushed ∨ s.callers c = .returned
  nodup : (s.pushed.map Item.call).Nodup

theorem tagged_init : Tagged State.init :=
  { mem := by simp [State.init]
    nodup := by simp [State.init] }

theorem tagged_step (h : Step req s a t) (hs : Tagged s) : Tagged t := by
  rcases step_callers h with ⟨d, _, hd, heq, hp⟩ | ⟨d, ts, _, hd, heq, hp⟩ | ⟨d, _, hd, heq, hp⟩ |
    ⟨heq, hp⟩
  · -- The start check: the call has pushed nothing.
    refine ⟨?_, by rw [hp]; exact hs.nodup⟩
    intro c
    rw [hp, heq, hs.mem c]
    by_cases hcd : c = d
    · subst hcd
      simp [hd]
    · simp [hcd]
  · -- The push: the tag of the call is new.
    have hfresh : d ∉ s.pushed.map Item.call := by
      rw [hs.mem d, hd]
      simp
    have htag : ((req d).item d ts).call = d := rfl
    refine ⟨?_, ?_⟩
    · intro c
      rw [hp, heq, List.map_append, List.mem_append, hs.mem c]
      by_cases hcd : c = d
      · subst hcd
        simp [htag]
      · simp [hcd, htag]
    · rw [hp, List.map_append]
      simpa [htag] using List.nodup_append.2
        ⟨hs.nodup, by simp, by
          intro x hx y hy
          have hy' : y = d := by simpa using hy
          rintro rfl
          exact hfresh (hy' ▸ hx)⟩
  · refine ⟨?_, by rw [hp]; exact hs.nodup⟩
    intro c
    rw [hp, heq, hs.mem c]
    by_cases hcd : c = d
    · subst hcd
      simp [hd]
    · simp [hcd]
  · refine ⟨?_, by rw [hp]; exact hs.nodup⟩
    intro c
    rw [hp, heq, hs.mem c]

/-! ## Every reachable state -/

/-- What holds of the queue in every reachable state, across exit and restart of the thread. -/
structure Delivery (s : State) : Prop where
  phases : Phases s
  conserved : s.channel.Conserved
  tagged : Tagged s

theorem delivery_step (h : Step req s a t) (hs : Delivery s) : Delivery t :=
  { phases := phases_step h hs.phases
    conserved := (step_simulates h hs.phases).conserved hs.conserved
    tagged := tagged_step h hs.tagged }

theorem delivery_reachable (h : (logger req).Reachable .init s) : Delivery s :=
  h.invariant ⟨phases_init, Channel.conserved_empty, tagged_init⟩
    fun _ _ _ hs ht => delivery_step (Step.of_step ht) hs

/-- An entry that was pushed and is in neither buffer has been taken. -/
theorem Delivery.processed (hs : Delivery s) {c : CallId} (hc : s.callers c = .returned)
    (hfront : ¬ s.InFront c) (hback : ¬ s.InBack c) : s.Processed c := by
  refine ⟨?_, hfront, hback⟩
  rcases List.mem_map.1 ((hs.tagged.mem c).2 (Or.inr hc)) with ⟨item, hitem, rfl⟩
  -- By conservation the item was received or is still under way in one of the two queues.
  rcases (hs.conserved.mem_sent).1 hitem with htaken | hqueued
  · exact List.mem_map_of_mem htaken
  · rcases List.mem_append.1 hqueued with hpending | hin
    · have hmem : item ∈ s.logs.front := by
        unfold State.pending at hpending
        split at hpending
        · exact List.mem_of_mem_tail hpending
        · exact hpending
      exact absurd (List.mem_map_of_mem hmem) hfront
    · exact absurd (List.mem_map_of_mem hin) hback

/-- In every reachable state `Swap` finds the front queue empty, and what `run` has taken from
the front is a prefix of what was pushed: what is missing from it is still queued, in order, and
no call's entry occurs twice. -/
theorem delivery_exactly_once_fifo (h : (logger req).Reachable .init s) :
    (∀ t, step req s .runSwap = some t → s.logs.front = [] ∧ t.logs.front = s.logs.back) ∧
      s.taken <+: s.pushed ∧
      s.pushed = s.taken ++ (s.pending ++ s.logs.back) ∧
      (s.pushed.map Item.call).Nodup := by
  have hs := delivery_reachable h
  refine ⟨?_, hs.conserved.received_prefix, hs.conserved, hs.tagged.nodup⟩
  intro t ht
  cases Step.of_step ht with
  | runSwap hpc =>
      exact ⟨hs.phases.drained (by simp [hpc, RunPc.draws]), by simp [State.runSwap]⟩

/-- Requests for concrete schedules. -/
def sampleRequest : CallId → Request := fun _ =>
  { message := "m"
    context := { filename := none, line := 1, function := none, category := none }
    kind := .INFO }

/-- The first call: it starts the thread, pushes and returns. -/
def firstCall : List Action :=
  [.queueStart 0, .queuePush 0 "t", .queueWork 0]

/-- After the first call, with the thread about to swap, the entry waits in the back queue. -/
theorem delivery_exactly_once_fifo_first_call :
    ∃ s, (logger sampleRequest).exec .init (firstCall ++ [.runStart]) = some s ∧
      s.logging_thread = some .swapping ∧ s.logs.back ≠ [] ∧ s.taken <+: s.pushed := by
  have hrun : (logger sampleRequest).exec .init (firstCall ++ [.runStart]) = some _ := rfl
  exact ⟨_, hrun, rfl, by decide, (delivery_exactly_once_fifo ⟨_, hrun⟩).2.1⟩

end Log
end Mozi
