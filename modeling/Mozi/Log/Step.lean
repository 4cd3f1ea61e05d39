import Mozi.Log.Logger

/-!
# Step — what one step of the logger can do

`Step` is the relational form of `step`: one constructor per section, with the guard of the
section as its premises.  The invariants of the following modules go by cases on it.  The frame
lemmas say which fields a section leaves alone.
-/

namespace Mozi
namespace Log

open DataStructure Foundation

variable {req : CallId → Request} {s t : State} {a : Action}

inductive Step (req : CallId → Request) : State → Action → State → Prop
  | queueStart {s : State} {c : CallId} (hpc : s.callers c = .idle) :
      Step req s (.queueStart c) (s.queueStart c)
  | queuePush {s : State} {c : CallId} {timestamp : String} (hpc : s.callers c = .started) :
      Step req s (.queuePush c timestamp) (s.queuePush (req c) c timestamp)
  | queueWork {s : State} {c : CallId} (hpc : s.callers c = .pushed) :
      Step req s (.queueWork c) (s.queueWork c)
  | runStart {s : State} (hpc : s.logging_thread = some .start) :
      Step req s .runStart s.runHead
  | runWake {s : State} (hpc : s.logging_thread = some .waiting) :
      Step req s .runWake s.runWait
  | runSwap {s : State} (hpc : s.logging_thread = some .swapping) :
      Step req s .runSwap s.runSwap
  | runTest {s : State} (hpc : s.logging_thread = some .draining) :
      Step req s .runTest s.runTest
  | runConsume {s : State} (hpc : s.logging_thread = some .consuming) :
      Step req s .runConsume s.runConsume
  | runPop {s : State} (hpc : s.logging_thread = some .popping) :
      Step req s .runPop s.runPop
  | runRelock {s : State} (hpc : s.logging_thread = some .relocking) :
      Step req s .runRelock s.runRelock
  | flushCall {s : State} (hpc : s.flush = .idle ∨ s.flush = .returned) :
      Step req s .flushCall { s with flush := .called }
  | flushLock {s : State} (hpc : s.flush = .called) :
      Step req s .flushLock s.flushLock
  | flushTest {s : State} {i : Nat} {last : Int} (hpc : s.flush = .test i last) :
      Step req s .flushTest (s.flushTest i last)
  | flushTestBoth {s : State} {i : Nat} {last : Int} (hpc : s.flush = .testBoth i last) :
      Step req s .flushTestBoth (s.flushTestBoth i last)
  | flushWake {s : State} {i : Nat} {last : Int} (hpc : s.flush = .blocked i last) :
      Step req s .flushWake { s with flush := .test i last }
  | killCall {s : State} (hpc : s.kill = .idle ∨ s.kill = .returned) :
      Step req s .killCall { s with kill := .called }
  | killClear {s : State} (hpc : s.kill = .called) :
      Step req s .killClear s.killClear
  | killCheck {s : State} (hpc : s.kill = .cleared) :
      Step req s .killCheck s.killCheck
  | killJoin {s : State} (hpc : s.kill = .joining) (hexit : s.logging_thread = some .exited) :
      Step req s .killJoin { s with kill := .joined }
  | killReset {s : State} (hpc : s.kill = .joined) :
      Step req s .killReset { s with logging_thread := none, kill := .returned }
  | configure {s : State} {op : ConfigOp} (hpc : s.logging_thread ≠ some .popping) :
      Step req s (.configure op) { s with config := op.apply s.config }

theorem Step.of_step (h : step req s a = some t) : Step req s a t := by
  -- The guards of `step` become premises.
  -- That `cv_mtx` is free is left out: no invariant needs it.
  cases a with
  | queueStart c =>
      obtain ⟨hg, rfl⟩ : (s.callers c = .idle ∧ s.cvFree) ∧ s.queueStart c = t := by
        simpa [step] using h
      exact .queueStart hg.1
  | queuePush c timestamp =>
      obtain ⟨hg, rfl⟩ : s.callers c = .started ∧ s.queuePush (req c) c timestamp = t := by
        simpa [step] using h
      exact .queuePush hg
  | queueWork c =>
      obtain ⟨hg, rfl⟩ : (s.callers c = .pushed ∧ s.cvFree) ∧ s.queueWork c = t := by
        simpa [step] using h
      exact .queueWork hg.1
  | runStart =>
      obtain ⟨hg, rfl⟩ : (s.logging_thread = some .start ∧ s.cvFree) ∧ s.runHead = t := by
        simpa [step] using h
      exact .runStart hg.1
  | runWake =>
      obtain ⟨hg, rfl⟩ : (s.logging_thread = some .waiting ∧ s.cvFree) ∧ s.runWait = t := by
        simpa [step] using h
      exact .runWake hg.1
  | runSwap =>
      obtain ⟨hg, rfl⟩ : s.logging_thread = some .swapping ∧ s.runSwap = t := by
        simpa [step] using h
      exact .runSwap hg
  | runTest =>
      obtain ⟨hg, rfl⟩ : s.logging_thread = some .draining ∧ s.runTest = t := by
        simpa [step] using h
      exact .runTest hg
  | runConsume =>
      obtain ⟨hg, rfl⟩ : s.logging_thread = some .consuming ∧ s.runConsume = t := by
        simpa [step] using h
      exact .runConsume hg
  | runPop =>
      obtain ⟨hg, rfl⟩ : s.logging_thread = some .popping ∧ s.runPop = t := by
        simpa [step] using h
      exact .runPop hg
  | runRelock =>
      obtain ⟨hg, rfl⟩ : (s.logging_thread = some .relocking ∧ s.cvFree) ∧ s.runRelock = t := by
        simpa [step] using h
      exact .runRelock hg.1
  | flushCall =>
      obtain ⟨hg, rfl⟩ : (s.flush = .idle ∨ s.flush = .returned) ∧
          { s with flush := .called } = t := by
        simpa [step] using h
      exact .flushCall hg
  | flushLock =>
      obtain ⟨hg, rfl⟩ : s.flush = .called ∧ s.flushLock = t := by
        simpa [step] using h
      exact .flushLock hg
  | flushTest =>
      cases hpc : s.flush <;> simp [step, hpc] at h
      subst h
      exact .flushTest hpc
  | flushTestBoth =>
      cases hpc : s.flush <;> simp [step, hpc] at h
      subst h
      exact .flushTestBoth hpc
  | flushWake =>
      cases hpc : s.flush <;> simp [step, hpc] at h
      subst h
      exact .flushWake hpc
  | killCall =>
      obtain ⟨hg, rfl⟩ : (s.kill = .idle ∨ s.kill = .returned) ∧
          { s with kill := .called } = t := by
        simpa [step] using h
      exact .killCall hg
  | killClear =>
      obtain ⟨hg, rfl⟩ : (s.kill = .called ∧ s.cvFree) ∧ s.killClear = t := by
        simpa [step] using h
      exact .killClear hg.1
  | killCheck =>
      obtain ⟨hg, rfl⟩ : s.kill = .cleared ∧ s.killCheck = t := by
        simpa [step] using h
      exact .killCheck hg
  | killJoin =>
      obtain ⟨hg, rfl⟩ : (s.kill = .joining ∧ s.logging_thread = some .exited) ∧
          { s with kill := .joined } = t := by
        simpa [step] using h
      exact .killJoin hg.1 hg.2
  | killReset =>
      obtain ⟨hg, rfl⟩ : s.kill = .joined ∧
          { s with logging_thread := none, kill := .returned } = t := by
        simpa [step] using h
      exact .killReset hg
  | configure op =>
      obtain ⟨hg, rfl⟩ : ¬ s.logging_thread = some .popping ∧
          { s with config := op.apply s.config } = t := by
        simpa [step] using h
      exact .configure hg

/-! ## What each branching section does -/

namespace State

theorem queueStart_spec (s : State) (c : CallId) :
    (s.logging = false ∧ s.logging_thread = none ∧
        s.queueStart c =
          { s with
            callers := Function.update s.callers c .started
            logging := true
            logging_thread := some .start }) ∨
      ((s.logging = true ∨ s.logging_thread ≠ none) ∧
        s.queueStart c = { s with callers := Function.update s.callers c .started }) := by
  -- The start check is one condition of two parts; where it fails, either part may be the reason.
  by_cases hstart : (!s.logging && s.logging_thread.isNone) = true
  · have hfields : s.logging = false ∧ s.logging_thread = none := by simpa using hstart
    exact Or.inl ⟨hfields.1, hfields.2, by simp [queueStart, hfields]⟩
  · refine Or.inr ⟨?_, by simp [queueStart, hstart]⟩
    cases hlog : s.logging
    · exact Or.inr (by simpa [hlog] using hstart)
    · exact Or.inl rfl

theorem runWait_spec (s : State) :
    ((s.logging = false ∨ s.work = true) ∧
        s.runWait = { s with work := false, logging_thread := some .swapping }) ∨
      (s.logging = true ∧ s.work = false ∧
        s.runWait = { s with logging_thread := some .waiting }) := by
  cases hlog : s.logging <;> cases hwork : s.work <;> simp [runWait, hlog, hwork]

theorem runHead_spec (s : State) :
    (s.logging = false ∧ s.runHead = { s with logging_thread := some .exited }) ∨
      (s.logging = true ∧ s.work = true ∧
        s.runHead = { s with work := false, logging_thread := some .swapping }) ∨
      (s.logging = true ∧ s.work = false ∧
        s.runHead = { s with logging_thread := some .waiting }) := by
  cases hlog : s.logging <;> cases hwork : s.work <;> simp [runHead, runWait, hlog, hwork]

theorem runTest_spec (s : State) :
    (s.logs.front = [] ∧ s.runTest = { s with logging_thread := some .relocking }) ∨
      (s.logs.front ≠ [] ∧ s.runTest = { s with logging_thread := some .consuming }) := by
  by_cases hempty : s.logs.front = []
  · exact Or.inl ⟨hempty, by simp [runTest, hempty]⟩
  · exact Or.inr ⟨hempty, by simp [runTest, hempty]⟩

theorem runConsume_spec {s : State} {item : Item} {rest : List Item}
    (hfront : s.logs.front = item :: rest) :
    ∃ entry delivered,
      s.runConsume =
        { s with
          logs := s.logs.setFront { item with entry := entry }
          taken := s.taken ++ [item]
          delivered := delivered
          logging_thread := some .popping } := by
  have hread : s.logs.Front = some item := DoubleBufferedQueue.Front_eq_some.2 ⟨rest, hfront⟩
  let verdict := preprocess s.config item.entry
  exact ⟨verdict.2, if verdict.1 then s.delivered ++ [verdict.2] else s.delivered,
    by simp [runConsume, hread, verdict]⟩

theorem flushPass_spec (s : State) (i : Nat) :
    (i = 0 ∧ s.flushPass i = { s with flush := .test 1 s.current_loop }) ∨
      (i ≠ 0 ∧ s.flushPass i = { s with flush := .returned }) := by
  rcases Nat.eq_zero_or_pos i with rfl | hpos
  · exact Or.inl ⟨rfl, rfl⟩
  · have hlast : ¬ i + 1 < 2 := by omega
    exact Or.inr ⟨by omega, by simp [flushPass, hlast]⟩

theorem flushLock_spec (s : State) :
    (s.logging = false ∧ s.flushLock = { s with flush := .returned }) ∨
      ((s.logging = true ∨ s.logging_thread ≠ none) ∧
        s.flushLock = { s with flush := .test 0 (-1) }) := by
  by_cases hkilled : (!s.logging && s.logging_thread.isNone) = true
  · have hfields : s.logging = false ∧ s.logging_thread = none := by simpa using hkilled
    exact Or.inl ⟨hfields.1, by simp [flushLock, hfields]⟩
  · refine Or.inr ⟨?_, by simp [flushLock, hkilled]⟩
    cases hlog : s.logging
    · exact Or.inr (by simpa [hlog] using hkilled)
    · exact Or.inl rfl

/-- With logging on, the first part of the predicate ends the wait, blocks or goes on. -/
theorem flushTest_spec {s : State} (i : Nat) (last : Int) (hon : s.logging = true) :
    (s.logs.front = [] ∧ last ≠ s.current_loop ∧ s.flushTest i last = s.flushPass i) ∨
      (s.logs.front = [] ∧ last = s.current_loop ∧
        s.flushTest i last = { s with flush := .testBoth i last }) ∨
      (s.logs.front ≠ [] ∧ s.flushTest i last = { s with flush := .blocked i last }) := by
  -- Logging is on, so the front queue and the counter decide.
  by_cases hempty : s.logs.front = []
  · by_cases hloop : last = s.current_loop
    · exact Or.inr (Or.inl ⟨hempty, hloop, by simp [flushTest, hon, hempty, hloop]⟩)
    · exact Or.inl ⟨hempty, hloop, by simp [flushTest, hon, hempty, hloop]⟩
  · exact Or.inr (Or.inr ⟨hempty, by simp [flushTest, hon, hempty]⟩)

theorem flushTestBoth_spec (s : State) (i : Nat) (last : Int) :
    (s.logs.front = [] ∧ s.logs.back = [] ∧ s.flushTestBoth i last = s.flushPass i) ∨
      s.flushTestBoth i last = { s with flush := .blocked i last } := by
  by_cases hempty : s.logs.BothEmpty = true
  · have hboth := DoubleBufferedQueue.BothEmpty_eq_true.1 hempty
    exact Or.inl ⟨hboth.1, hboth.2, by simp [flushTestBoth, hempty]⟩
  · exact Or.inr (by simp [flushTestBoth, hempty])

theorem killCheck_spec (s : State) :
    (s.logging_thread = none ∧ s.killCheck = { s with kill := .returned }) ∨
      (s.logging_thread ≠ none ∧ s.killCheck = { s with kill := .joining }) := by
  cases hthread : s.logging_thread with
  | none =>
      exact Or.inl ⟨rfl, by simp [killCheck, hthread]⟩
  | some pc =>
      exact Or.inr ⟨by simp, by simp [killCheck, hthread]⟩

/-! ## What a branching section leaves alone -/

@[simp] theorem queueStart_frame (s : State) (c : CallId) :
    (s.queueStart c).logs = s.logs ∧ (s.queueStart c).work = s.work ∧
      (s.queueStart c).current_loop = s.current_loop ∧
      (s.queueStart c).callers = Function.update s.callers c .started ∧
      (s.queueStart c).flush = s.flush ∧ (s.queueStart c).kill = s.kill ∧
      (s.queueStart c).pushed = s.pushed ∧ (s.queueStart c).taken = s.taken := by
  rcases s.queueStart_spec c with ⟨_, _, heq⟩ | ⟨_, heq⟩ <;> simp [heq]

@[simp] theorem runWait_frame (s : State) :
    s.runWait.logs = s.logs ∧ s.runWait.logging = s.logging ∧
      s.runWait.current_loop = s.current_loop ∧ s.runWait.callers = s.callers ∧
      s.runWait.flush = s.flush ∧ s.runWait.kill = s.kill ∧
      s.runWait.pushed = s.pushed ∧ s.runWait.taken = s.taken := by
  unfold runWait
  split_ifs <;> simp

@[simp] theorem runHead_frame (s : State) :
    s.runHead.logs = s.logs ∧ s.runHead.logging = s.logging ∧
      s.runHead.current_loop = s.current_loop ∧ s.runHead.callers = s.callers ∧
      s.runHead.flush = s.flush ∧ s.runHead.kill = s.kill ∧
      s.runHead.pushed = s.pushed ∧ s.runHead.taken = s.taken := by
  unfold runHead
  split_ifs <;> simp

@[simp] theorem runTest_frame (s : State) :
    s.runTest.logs = s.logs ∧ s.runTest.logging = s.logging ∧ s.runTest.work = s.work ∧
      s.runTest.current_loop = s.current_loop ∧ s.runTest.callers = s.callers ∧
      s.runTest.flush = s.flush ∧ s.runTest.kill = s.kill ∧
      s.runTest.pushed = s.pushed ∧ s.runTest.taken = s.taken := by
  unfold runTest
  split_ifs <;> simp

@[simp] theorem runConsume_frame (s : State) :
    s.runConsume.logs.back = s.logs.back ∧ s.runConsume.logging = s.logging ∧
      s.runConsume.work = s.work ∧ s.runConsume.current_loop = s.current_loop ∧
      s.runConsume.logging_thread = some .popping ∧ s.runConsume.callers = s.callers ∧
      s.runConsume.flush = s.flush ∧ s.runConsume.kill = s.kill ∧
      s.runConsume.pushed = s.pushed := by
  unfold runConsume
  split <;> simp

@[simp] theorem runRelock_frame (s : State) :
    s.runRelock.logs = s.logs ∧ s.runRelock.logging = s.logging ∧
      s.runRelock.current_loop = bumpLoop s.current_loop ∧ s.runRelock.callers = s.callers ∧
      s.runRelock.flush = s.flush ∧ s.runRelock.kill = s.kill ∧
      s.runRelock.pushed = s.pushed ∧ s.runRelock.taken = s.taken := by
  simp [runRelock]

@[simp] theorem flushPass_frame (s : State) (i : Nat) :
    (s.flushPass i).logs = s.logs ∧ (s.flushPass i).logging = s.logging ∧
      (s.flushPass i).work = s.work ∧ (s.flushPass i).current_loop = s.current_loop ∧
      (s.flushPass i).logging_thread = s.logging_thread ∧
      (s.flushPass i).callers = s.callers ∧ (s.flushPass i).kill = s.kill ∧
      (s.flushPass i).pushed = s.pushed ∧ (s.flushPass i).taken = s.taken := by
  unfold flushPass
  split_ifs <;> simp

@[simp] theorem flushLock_frame (s : State) :
    s.flushLock.logs = s.logs ∧ s.flushLock.logging = s.logging ∧
      s.flushLock.work = s.work ∧ s.flushLock.current_loop = s.current_loop ∧
      s.flushLock.logging_thread = s.logging_thread ∧
      s.flushLock.callers = s.callers ∧ s.flushLock.kill = s.kill ∧
      s.flushLock.pushed = s.pushed ∧ s.flushLock.taken = s.taken := by
  unfold flushLock
  split_ifs <;> simp

@[simp] theorem flushTest_frame (s : State) (i : Nat) (last : Int) :
    (s.flushTest i last).logs = s.logs ∧ (s.flushTest i last).logging = s.logging ∧
      (s.flushTest i last).work = s.work ∧
      (s.flushTest i last).current_loop = s.current_loop ∧
      (s.flushTest i last).logging_thread = s.logging_thread ∧
      (s.flushTest i last).callers = s.callers ∧ (s.flushTest i last).kill = s.kill ∧
      (s.flushTest i last).pushed = s.pushed ∧ (s.flushTest i last).taken = s.taken := by
  unfold flushTest
  split_ifs <;> simp

@[simp] theorem flushTestBoth_frame (s : State) (i : Nat) (last : Int) :
    (s.flushTestBoth i last).logs = s.logs ∧ (s.flushTestBoth i last).logging = s.logging ∧
      (s.flushTestBoth i last).work = s.work ∧
      (s.flushTestBoth i last).current_loop = s.current_loop ∧
      (s.flushTestBoth i last).logging_thread = s.logging_thread ∧
      (s.flushTestBoth i last).callers = s.callers ∧ (s.flushTestBoth i last).kill = s.kill ∧
      (s.flushTestBoth i last).pushed = s.pushed ∧
      (s.flushTestBoth i last).taken = s.taken := by
  unfold flushTestBoth
  split_ifs <;> simp

@[simp] theorem killCheck_frame (s : State) :
    s.killCheck.logs = s.logs ∧ s.killCheck.logging = s.logging ∧
      s.killCheck.work = s.work ∧ s.killCheck.current_loop = s.current_loop ∧
      s.killCheck.logging_thread = s.logging_thread ∧ s.killCheck.callers = s.callers ∧
      s.killCheck.flush = s.flush ∧ s.killCheck.pushed = s.pushed ∧
      s.killCheck.taken = s.taken := by
  unfold killCheck
  split_ifs <;> simp

/-- The sections of `run` that take `cv_mtx` leave the thread outside the drain loop. -/
theorem runWait_thread (s : State) :
    s.runWait.logging_thread = some .swapping ∨ s.runWait.logging_thread = some .waiting := by
  rcases s.runWait_spec with ⟨_, heq⟩ | ⟨_, _, heq⟩ <;> simp [heq]

theorem runHead_thread (s : State) :
    (s.logging = false ∧ s.runHead.logging_thread = some .exited) ∨
      (s.logging = true ∧ (s.runHead.logging_thread = some .swapping ∨
        s.runHead.logging_thread = some .waiting)) := by
  rcases s.runHead_spec with ⟨hoff, heq⟩ | ⟨hon, _, heq⟩ | ⟨hon, _, heq⟩ <;> simp [*]

theorem runRelock_thread (s : State) :
    (s.logging = false ∧ s.runRelock.logging_thread = some .exited) ∨
      (s.logging = true ∧ (s.runRelock.logging_thread = some .swapping ∨
        s.runRelock.logging_thread = some .waiting)) :=
  runHead_thread { s with current_loop := bumpLoop s.current_loop }

theorem runTest_thread (s : State) :
    s.runTest.logging_thread = some .relocking ∨ s.runTest.logging_thread = some .consuming := by
  rcases s.runTest_spec with ⟨_, heq⟩ | ⟨_, heq⟩ <;> simp [heq]

theorem queueStart_thread (s : State) (c : CallId) :
    (s.logging_thread = none ∧ (s.queueStart c).logging_thread = some .start) ∨
      (s.queueStart c).logging_thread = s.logging_thread := by
  rcases s.queueStart_spec c with ⟨_, hnone, heq⟩ | ⟨_, heq⟩
  · exact Or.inl ⟨hnone, by rw [heq]⟩
  · exact Or.inr (by rw [heq])

end State

end Log
end Mozi
