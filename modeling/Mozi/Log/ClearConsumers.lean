import Mozi.Log.Consumers

/-!
# ClearConsumers — nothing queued before the call is lost to the consumers it removes

`ClearConsumers` waits until both queues are empty under `cv_mtx`.  What was pushed before the call
has then been popped, so it has been handed to the consumers that were registered by then; what is
pushed afterwards may reach them or not.  After the return they write nothing more.
-/

namespace Mozi
namespace Log

open DataStructure Foundation

variable {req : CallId → Request} {a : Action}

/-! ## What is handed out -/

/-- An item on its way to the consumers, with the configuration and the consumers it meets. -/
structure Handing where
  consumers : List OStreamConsumer
  config : Config
  item : Item

namespace Handing

/-- The entry that `preprocess` lets through. -/
def entry? (h : Handing) : Option Entry :=
  admitted h.config h.item.entry

/-- The lines that it adds to a stream. -/
def lines (st : Stream) (h : Handing) : List String :=
  h.entry?.toList.flatMap (linesOf st h.consumers)

end Handing

/-- What a step hands to `preprocess`. -/
def System.handing (x : System) : SystemAction → List Handing
  | .logger .runConsume =>
      x.logger.logs.Front.toList.map fun item => ⟨x.consumers, x.logger.config, item⟩
  | _ => []

/-- What a run hands to `preprocess`, in order. -/
def handings (req : CallId → Request) : System → List SystemAction → List Handing
  | _, [] => []
  | x, b :: tr =>
      x.handing b ++
        match (system req).step x b with
        | some y => handings req y tr
        | none => []

/-- The items were handed out between two states: this became of them. -/
structure Hands (x y : System) (hs : List Handing) : Prop where
  taken : y.logger.taken = x.logger.taken ++ hs.map Handing.item
  delivered : y.logger.delivered = x.logger.delivered ++ hs.filterMap Handing.entry?
  out : ∀ st, y.out st = x.out st ++ hs.flatMap (Handing.lines st)

theorem Hands.none {x y : System} (htaken : y.logger.taken = x.logger.taken)
    (hdelivered : y.logger.delivered = x.logger.delivered) (hout : y.out = x.out) :
    Hands x y [] :=
  { taken := by simp [htaken]
    delivered := by simp [hdelivered]
    out := by simp [hout] }

theorem Hands.trans {x y z : System} {hs hs' : List Handing} (h : Hands x y hs)
    (h' : Hands y z hs') : Hands x z (hs ++ hs') :=
  { taken := by rw [h'.taken, h.taken, List.append_assoc, List.map_append]
    delivered := by rw [h'.delivered, h.delivered, List.append_assoc, List.filterMap_append]
    out := fun st => by rw [h'.out, h.out, List.append_assoc, List.flatMap_append] }

/-! ## Sections that hand out nothing -/

theorem runHead_delivered (s : State) : s.runHead.delivered = s.delivered := by
  unfold State.runHead State.runWait
  split_ifs <;> rfl

theorem flushPass_delivered (s : State) (i : Nat) : (s.flushPass i).delivered = s.delivered := by
  unfold State.flushPass
  split_ifs <;> rfl

theorem section_delivered {s t : State} (h : Step req s a t) (ha : a ≠ .runConsume) :
    t.delivered = s.delivered := by
  cases h with
  | runConsume hpc => exact absurd rfl ha
  | queueStart hpc =>
      unfold State.queueStart
      dsimp only
      split_ifs <;> rfl
  | runStart hpc => exact runHead_delivered s
  | runWake hpc =>
      unfold State.runWait
      split_ifs <;> rfl
  | runTest hpc =>
      unfold State.runTest
      split_ifs <;> rfl
  | runRelock hpc => exact runHead_delivered _
  | flushLock hpc =>
      unfold State.flushLock
      split_ifs <;> rfl
  | flushTest hpc =>
      unfold State.flushTest
      split_ifs
      · exact flushPass_delivered s _
      · rfl
      · exact flushPass_delivered s _
      · rfl
  | flushTestBoth hpc =>
      unfold State.flushTestBoth
      split_ifs
      · exact flushPass_delivered s _
      · rfl
  | killCheck hpc =>
      unfold State.killCheck
      split_ifs <;> rfl
  | _ => rfl

theorem section_taken {s t : State} (h : Step req s a t) (ha : a ≠ .runConsume) :
    t.taken = s.taken := by
  cases h with
  | runConsume hpc => exact absurd rfl ha
  | _ =>
      first
      | rfl
      | simp

theorem section_pushed {s t : State} (h : Step req s a t) : s.pushed <+: t.pushed := by
  rcases step_callers h with ⟨_, _, _, _, heq⟩ | ⟨_, _, _, _, _, heq⟩ | ⟨_, _, _, _, heq⟩ |
    ⟨_, heq⟩
  · exact heq ▸ List.prefix_rfl
  · exact heq ▸ List.prefix_append _ _
  · exact heq ▸ List.prefix_rfl
  · exact heq ▸ List.prefix_rfl

/-! ## The system -/

variable {x y : System} {b : SystemAction}

theorem handing_consumers {h : Handing} (hmem : h ∈ x.handing b) : h.consumers = x.consumers := by
  unfold System.handing at hmem
  split at hmem
  · obtain ⟨item, -, rfl⟩ := List.mem_map.1 hmem
    rfl
  · cases hmem

/-- The front of the queue goes to the consumers that are registered. -/
theorem consume_hands {item : Item} (hfront : x.logger.logs.Front = some item) :
    Hands x { x.afterSection .runConsume with logger := x.logger.runConsume }
      [⟨x.consumers, x.logger.config, item⟩] := by
  have haccepted : x.logger.accepted = admitted x.logger.config item.entry := by
    simp [State.accepted, hfront]
  refine
    { taken := by simp [State.runConsume, hfront]
      delivered := ?_
      out := ?_ }
  · simp only [State.runConsume, hfront, List.filterMap_cons, List.filterMap_nil, Handing.entry?,
      admitted]
    split_ifs <;> simp
  · intro st
    simp only [System.afterSection, haccepted, List.flatMap_singleton, Handing.lines,
      Handing.entry?]
    cases admitted x.logger.config item.entry with
    | none => simp
    | some entry => simp [foldl_Consume]

/-- What a section does to the streams, and to the consumers unless it is `Reset`. -/
theorem section_spec (hd : Delivery x.logger) (h : (system req).step x (.logger a) = some y) :
    Log.Step req x.logger a y.logger ∧ y.clear = x.clear ∧
      Hands x y (x.handing (.logger a)) ∧ (a ≠ .configure .Reset → y.consumers = x.consumers) := by
  simp only [system, System.step] at h
  split_ifs at h with hcv
  obtain ⟨logger, hstep, rfl⟩ := Option.map_eq_some_iff.1 h
  have hsection := Step.of_step hstep
  by_cases ha : a = .runConsume
  · subst ha
    cases hsection with
    | runConsume hpc =>
      -- The loop has tested the front queue, and only the loop pops.
      obtain ⟨item, rest, hfront⟩ := List.exists_cons_of_ne_nil (hd.phases.loaded (Or.inl hpc))
      have hread : x.logger.logs.Front = some item :=
        DoubleBufferedQueue.Front_eq_some.2 ⟨rest, hfront⟩
      have hhanding : x.handing (.logger .runConsume) =
          [⟨x.consumers, x.logger.config, item⟩] := by
        simp [System.handing, hread]
      rw [hhanding]
      refine ⟨.runConsume hpc, ?_, consume_hands hread, fun _ => ?_⟩
      · simp only [System.afterSection]
        split <;> rfl
      · simp only [System.afterSection]
        split <;> rfl
  · have hhanding : x.handing (.logger a) = [] := by
      cases a with
      | runConsume => exact absurd rfl ha
      | _ => rfl
    have hafter : (x.afterSection a).clear = x.clear ∧ (x.afterSection a).out = x.out ∧
        (a ≠ .configure .Reset → (x.afterSection a).consumers = x.consumers) := by
      cases a with
      | runConsume => exact absurd rfl ha
      | configure op =>
          cases op with
          | Reset => exact ⟨rfl, rfl, fun hne => absurd rfl hne⟩
          | _ => exact ⟨rfl, rfl, fun _ => rfl⟩
      | _ => exact ⟨rfl, rfl, fun _ => rfl⟩
    rw [hhanding]
    exact ⟨hsection, hafter.1,
      Hands.none (section_taken hsection ha) (section_delivered hsection ha) hafter.2.1,
      hafter.2.2⟩

/-- A step that is no section leaves the logger and the streams alone. -/
theorem step_frame (hb : ∀ a, b ≠ .logger a) (h : (system req).step x b = some y) :
    y.logger = x.logger ∧ y.out = x.out := by
  cases b with
  | logger a => exact absurd rfl (hb a)
  | clearTest =>
      obtain ⟨_, heq⟩ := Option.ite_none_right_eq_some.1 h
      cases heq
      unfold System.clearTest
      split_ifs <;> exact ⟨rfl, rfl⟩
  | _ =>
      obtain ⟨_, heq⟩ := Option.ite_none_right_eq_some.1 h
      cases heq
      exact ⟨rfl, rfl⟩

/-- A step hands out what `handing` says. -/
theorem step_hands (hd : Delivery x.logger) (h : (system req).step x b = some y) :
    Hands x y (x.handing b) := by
  cases b with
  | logger a =>
      obtain ⟨_, _, hhands, _⟩ := section_spec hd h
      exact hhands
  | _ =>
      obtain ⟨hlogger, hout⟩ := step_frame (by simp) h
      exact Hands.none (by rw [hlogger]) (by rw [hlogger]) hout

theorem delivery_next (hd : Delivery x.logger) (h : (system req).step x b = some y) :
    Delivery y.logger := by
  cases b with
  | logger a =>
      obtain ⟨hsection, _, _, _⟩ := section_spec hd h
      exact delivery_step hsection hd
  | _ =>
      obtain ⟨hlogger, _⟩ := step_frame (by simp) h
      exact hlogger ▸ hd

/-- And so does a run. -/
theorem run_hands {tr : List SystemAction} (hd : Delivery x.logger)
    (h : (system req).exec x tr = some y) : Hands x y (handings req x tr) := by
  induction tr generalizing x with
  | nil =>
      cases h
      exact Hands.none rfl rfl rfl
  | cons b tr ih =>
      obtain ⟨z, hz, hrest⟩ := ((system req).exec_cons).1 h
      have hfirst : handings req x (b :: tr) = x.handing b ++ handings req z tr := by
        simp [handings, hz]
      rw [hfirst]
      exact (step_hands hd hz).trans (ih (delivery_next hd hz) hrest)

/-- What holds of every system, whoever has called what. -/
theorem delivery_system {s : System} (h : (system req).Reachable .init s) : Delivery s.logger := by
  have hinit : Delivery System.init.logger :=
    ⟨phases_init, Channel.conserved_empty, tagged_init⟩
  exact h.invariant (I := fun s => Delivery s.logger) hinit fun _ _ _ hd hstep =>
    delivery_next hd hstep

/-- A call of `ClearConsumers` was made in `s`. -/
structure Clearing (s x : System) : Prop where
  delivery : Delivery x.logger
  pushed : s.logger.pushed <+: x.logger.pushed
  /-- past the wait, all that was there at the call has been handed out -/
  passed : x.clear = .passed → s.logger.pushed <+: x.logger.taken

/-- Both queues are empty: what was pushed has been taken. -/
theorem taken_of_bothEmpty {s : State} (hs : Delivery s) (hempty : s.logs.BothEmpty = true) :
    s.taken = s.pushed := by
  simp only [DoubleBufferedQueue.BothEmpty, Bool.and_eq_true, List.isEmpty_iff] at hempty
  have hconserved : s.pushed = s.taken ++ (s.pending ++ s.logs.back) := hs.conserved
  have hpending : s.pending = [] := by
    unfold State.pending
    split
    · rw [hempty.1]
      rfl
    · exact hempty.1
  rw [hconserved, hpending, hempty.2]
  simp

theorem clearing_step {s : System} (hx : Clearing s x) (h : (system req).step x b = some y) :
    Clearing s y := by
  cases b with
  | logger a =>
      obtain ⟨hsection, hclear, hhands, -⟩ := section_spec hx.delivery h
      refine
        { delivery := delivery_step hsection hx.delivery
          pushed := hx.pushed.trans (section_pushed hsection)
          passed := ?_ }
      intro hpassed
      rw [hhands.taken]
      exact (hx.passed (hclear ▸ hpassed)).trans (List.prefix_append _ _)
  | RegisterConsumer consumer =>
      obtain ⟨_, heq⟩ := Option.ite_none_right_eq_some.1 h
      cases heq
      exact ⟨hx.delivery, hx.pushed, hx.passed⟩
  | clearTest =>
      obtain ⟨_, heq⟩ := Option.ite_none_right_eq_some.1 h
      cases heq
      unfold System.clearTest
      split_ifs with hempty
      -- The test passes where both queues are empty, so nothing pushed is left in them.
      · refine { hx with passed := fun _ => ?_ }
        rw [taken_of_bothEmpty hx.delivery hempty]
        exact hx.pushed
      · exact { hx with passed := nofun }
  | _ =>
      obtain ⟨_, heq⟩ := Option.ite_none_right_eq_some.1 h
      cases heq
      exact ⟨hx.delivery, hx.pushed, nofun⟩

/-- The step registers no consumer. -/
def AddsNone : SystemAction → Prop
  | .RegisterConsumer _ => False
  | .logger (.configure .Reset) => False
  | _ => True

/-- Without consumers nothing is written. -/
theorem silent_step (hd : Delivery x.logger) (hnone : x.consumers = []) (hq : AddsNone b)
    (h : (system req).step x b = some y) : y.consumers = [] ∧ y.out = x.out := by
  constructor
  · cases b with
    | logger a =>
        obtain ⟨-, -, -, hconsumers⟩ := section_spec hd h
        refine (hconsumers ?_).trans hnone
        rintro rfl
        exact hq
    | RegisterConsumer consumer => exact hq.elim
    | clearTest =>
        obtain ⟨_, heq⟩ := Option.ite_none_right_eq_some.1 h
        cases heq
        unfold System.clearTest
        split_ifs <;> exact hnone
    | clearConsumers =>
        obtain ⟨_, heq⟩ := Option.ite_none_right_eq_some.1 h
        cases heq
        rfl
    | _ =>
        obtain ⟨_, heq⟩ := Option.ite_none_right_eq_some.1 h
        cases heq
        exact hnone
  · funext st
    have hlines : (x.handing b).flatMap (Handing.lines st) = [] := by
      refine List.flatMap_eq_nil_iff.2 fun hand hmem => ?_
      simp [Handing.lines, handing_consumers hmem, hnone, linesOf]
    rw [(step_hands hd h).out st, hlines, List.append_nil]

/-- In every run, when `ClearConsumers` returns everything that was pushed before it was called has
been handed to `preprocess`; meanwhile every stream has gained the lines of what was let through, in
order, from each consumer that was registered when it was; and from then on nothing is written until
a consumer is registered again. -/
theorem clearConsumers_loses_nothing {s s₁ t u : System} {tr tr' : List SystemAction}
    (hs : (system req).Reachable .init s) (hcall : (system req).step s .clearCall = some s₁)
    (hrun : (system req).exec s₁ (tr ++ [.clearConsumers]) = some t)
    (hadds : ∀ b ∈ tr', AddsNone b) (hlater : (system req).exec t tr' = some u) :
    s.logger.pushed <+: t.logger.taken ∧
      Hands s t (handings req s₁ (tr ++ [.clearConsumers])) ∧
      t.consumers = [] ∧ u.consumers = [] ∧ u.out = t.out := by
  have hd := delivery_system hs
  have hd₁ := delivery_next hd hcall
  obtain ⟨_, heq⟩ := Option.ite_none_right_eq_some.1 hcall
  cases heq
  have hstart : Clearing s { s with clear := .called } :=
    { delivery := hd
      pushed := List.prefix_rfl
      passed := nofun }
  have hcalled : Hands s { s with clear := .called } [] := Hands.none rfl rfl rfl
  have hhands := hcalled.trans (run_hands hd₁ hrun)
  obtain ⟨x, hmiddle, hclear⟩ := ((system req).exec_append).1 hrun
  have hx : Clearing s x :=
    (system req).exec_preserves (fun _ _ _ hx hstep => clearing_step hx hstep) hstart hmiddle
  obtain ⟨⟨hpassed, _⟩, heq⟩ :=
    Option.ite_none_right_eq_some.1 (((system req).exec_singleton).1 hclear)
  cases heq
  let cleared : System := { x with consumers := [], clear := .returned }
  have hcleared : Delivery cleared.logger ∧ cleared.consumers = [] ∧ cleared.out = x.out :=
    ⟨hx.delivery, rfl, rfl⟩
  -- From the return on there are no consumers, so the streams stay what they were.
  have hu : Delivery u.logger ∧ u.consumers = [] ∧ u.out = x.out :=
    (system req).exec_invariant
      (I := fun y => Delivery y.logger ∧ y.consumers = [] ∧ y.out = x.out)
      (fun _ _ _ hy hq hstep =>
        have hnext := silent_step hy.1 hy.2.1 hq hstep
        ⟨delivery_next hy.1 hstep, hnext.1, hnext.2.trans hy.2.2⟩)
      hcleared ((system req).along_of_forall_mem hadds) hlater
  exact ⟨hx.passed hpassed, hhands, rfl, hu.2.1, hu.2.2⟩

/-- One entry is queued. -/
def queuesOne : List SystemAction :=
  [.logger (.queueStart 0), .logger (.queuePush 0 "t"), .logger (.queueWork 0)]

/-- The first test of `ClearConsumers` finds the entry, and a consumer is registered during the
wait; the second test finds nothing. -/
def drainsOne : List SystemAction :=
  [.logger .runStart, .clearLock, .clearTest, .RegisterConsumer (StdErrConsumer .ERROR),
    .logger .runSwap, .logger .runTest, .logger .runConsume, .logger .runPop, .logger .runTest,
    .logger .runRelock, .clearWake, .clearTest]

/-- An entry that is queued and handed out too late. -/
def queuesLate : List SystemAction :=
  [.logger (.queueStart 1), .logger (.queuePush 1 "u"), .logger (.queueWork 1), .logger .runWake,
    .logger .runSwap, .logger .runTest, .logger .runConsume]

theorem clearConsumers_loses_nothing_one :
    ∃ s s₁ t u, (system sampleRequest).exec .init queuesOne = some s ∧
      (system sampleRequest).step s .clearCall = some s₁ ∧
      (system sampleRequest).exec s₁ (drainsOne ++ [.clearConsumers]) = some t ∧
      (system sampleRequest).exec t queuesLate = some u ∧
      (t.out .cout).length = 2 ∧ s.logger.pushed <+: t.logger.taken ∧ u.out = t.out := by
  obtain ⟨s, s₁, t, u, hs, hcall, hrun, hlater, hlines⟩ :
      ∃ s s₁ t u, (system sampleRequest).exec .init queuesOne = some s ∧
        (system sampleRequest).step s .clearCall = some s₁ ∧
        (system sampleRequest).exec s₁ (drainsOne ++ [.clearConsumers]) = some t ∧
        (system sampleRequest).exec t queuesLate = some u ∧ (t.out .cout).length = 2 :=
    ⟨_, _, _, _, rfl, rfl, rfl, rfl, rfl⟩
  have hadds : ∀ b ∈ queuesLate, AddsNone b := by
    simp [queuesLate, AddsNone]
  obtain ⟨hpushed, _, _, _, hout⟩ :=
    clearConsumers_loses_nothing ⟨queuesOne, hs⟩ hcall hrun hadds hlater
  exact ⟨s, s₁, t, u, hs, hcall, hrun, hlater, hlines, hpushed, hout⟩

end Log
end Mozi
