import Mathlib.Tactic.Common
import Mozi.Foundation.Machine
import Mozi.DataStructure.DoubleBufferedQueue

/-!
# Logger — the asynchronous logger as a machine

`core/log/logger.cc`.  One logging thread (`Logger::run`), any number of `QueueLog` calls, one
`Flush` caller, one `KillThread` caller and the configuration setters share `resources_`.

A step is one section under a mutex.  The sections under `cv_mtx` of `run`, `QueueLog` and
`KillThread` touch nothing another mutex guards, so each is one step that needs `cv_mtx` free.
`Flush` holds `cv_mtx` while it tests the queues; those tests take the queue mutexes, so `Swap`,
`Push` and `Pop` may come between them, and each test is a step of its own.  A thread blocked in
`cv.wait` may re-test its predicate at any time, which covers notifications and spurious
wake-ups alike.

`pushed`, `taken` and `delivered` record the history of the queue and are read by no step.
-/

namespace Mozi
namespace Log

open DataStructure Foundation

/-! ## Entries and their configuration -/

/-- A `const char*`; `none` is the null pointer. -/
abbrev CString := Option String

inductive Kind
  | ERROR
  | WARNING
  | INFO
  deriving DecidableEq, Repr

structure Context where
  filename : CString
  line : Int
  function : CString
  category : CString
  deriving DecidableEq, Repr

structure Entry where
  message : String
  context : Context
  kind : Kind
  timestamp : String
  deriving DecidableEq, Repr

/-- The verdict of `regex_search` with one filter. -/
abbrev Filter := CString → Bool

/-- The part of `resources_` under `config_mtx` that `preprocess` reads. -/
structure Config where
  filenames : Bool
  functions : Bool
  category_filter : Option Filter
  filename_filter : Option Filter
  error_string_filter : Option Filter

def Config.init : Config :=
  { filenames := false
    functions := true
    category_filter := none
    filename_filter := none
    error_string_filter := none }

/-- The setters of the configuration, each one section under `config_mtx`. -/
inductive ConfigOp
  | ReportFilenames (report : Bool)
  | ReportFunctions (report : Bool)
  | SetCategoryFilter (filter : Filter)
  | SetFilenameFilter (filter : Filter)
  | SetErrorStringFilter (filter : Filter)
  | Reset

def ConfigOp.apply (cfg : Config) : ConfigOp → Config
  | ReportFilenames report => { cfg with filenames := report }
  | ReportFunctions report => { cfg with functions := report }
  | SetCategoryFilter filter => { cfg with category_filter := some filter }
  | SetFilenameFilter filter => { cfg with filename_filter := some filter }
  | SetErrorStringFilter filter => { cfg with error_string_filter := some filter }
  | Reset => Config.init

/-- `filter && !regex_search(s, *filter)`: the filter is set and rejects the text. -/
def rejects (filter : Option Filter) (s : CString) : Bool :=
  match filter with
  | some f => !f s
  | none => false

/-- `Logger::preprocess`: the verdict and the entry as it is left in the queue. -/
def preprocess (cfg : Config) (entry : Entry) : Bool × Entry :=
  if rejects cfg.category_filter entry.context.category then
    (false, entry)
  else if rejects cfg.filename_filter entry.context.filename then
    (false, entry)
  else if rejects cfg.error_string_filter (some entry.message) then
    (false, entry)
  else
    let entry :=
      if cfg.filenames then entry
      else { entry with context := { entry.context with filename := none } }
    let entry :=
      if cfg.functions then entry
      else { entry with context := { entry.context with function := none } }
    (true, entry)

/-! ## The threads -/

/-- `QueueLog` calls are numbered; the number tags the entry the call pushes. -/
abbrev CallId := Nat

structure Item where
  call : CallId
  entry : Entry
  deriving DecidableEq, Repr

/-- The arguments of a `QueueLog` call. -/
structure Request where
  message : String
  context : Context
  kind : Kind

/-- The entry `QueueLog` builds, tagged with its call. -/
def Request.item (req : Request) (c : CallId) (timestamp : String) : Item :=
  { call := c
    entry :=
      { message := req.message
        context := req.context
        kind := req.kind
        timestamp := timestamp } }

/-- Where a `QueueLog` call stands. -/
inductive CallerPc
  | idle
  /-- past the start check -/
  | started
  /-- past `logs.Push` -/
  | pushed
  /-- past `work = true` and the notification -/
  | returned
  deriving DecidableEq, Repr

/-- Where `Logger::run` stands. -/
inductive RunPc
  /-- created, `cv_mtx` not taken yet -/
  | start
  /-- inside `cv.wait`, `cv_mtx` released -/
  | waiting
  /-- `work` cleared and `cv_mtx` released, before `logs.Swap()` -/
  | swapping
  /-- at the head of the drain loop -/
  | draining
  /-- `Empty()` answered false -/
  | consuming
  /-- consumers called, before `Pop()` -/
  | popping
  /-- `Empty()` answered true, before `guard.lock()` -/
  | relocking
  /-- the thread function has returned -/
  | exited
  deriving DecidableEq, Repr

/-- Where the `Flush` caller stands; `i` is the loop variable, `last` is `last_loop`. -/
inductive FlushPc
  | idle
  | called
  /-- `cv_mtx` held, about to evaluate the wait predicate -/
  | test (i : Nat) (last : Int)
  /-- `cv_mtx` held, about to evaluate `BothEmpty()` -/
  | testBoth (i : Nat) (last : Int)
  /-- inside `cv.wait`, `cv_mtx` released -/
  | blocked (i : Nat) (last : Int)
  | returned
  deriving DecidableEq, Repr

/-- Where the `KillThread` caller stands. -/
inductive KillPc
  | idle
  | called
  /-- the flags are cleared -/
  | cleared
  /-- inside `logging_thread->join()` -/
  | joining
  /-- joined, before `logging_thread.reset()` -/
  | joined
  | returned
  deriving DecidableEq, Repr

/-! ## The state -/

structure State where
  logs : DoubleBufferedQueue Item
  logging : Bool
  work : Bool
  current_loop : Int
  /-- `none` is the null pointer; otherwise where the thread it owns stands. -/
  logging_thread : Option RunPc
  config : Config
  callers : CallId → CallerPc
  flush : FlushPc
  kill : KillPc
  /-- the items `Push` has appended, in order -/
  pushed : List Item
  /-- the items `run` has read from the front and handed to `preprocess`, in order -/
  taken : List Item
  /-- the entries the consumers have been given -/
  delivered : List Entry

def State.init : State :=
  { logs := DoubleBufferedQueue.new
    logging := false
    work := false
    current_loop := 0
    logging_thread := none
    config := Config.init
    callers := fun _ => .idle
    flush := .idle
    kill := .idle
    pushed := []
    taken := []
    delivered := [] }

inductive Action
  | queueStart (c : CallId)
  | queuePush (c : CallId) (timestamp : String)
  | queueWork (c : CallId)
  | runStart
  | runWake
  | runSwap
  | runTest
  | runConsume
  | runPop
  | runRelock
  | flushCall
  | flushLock
  | flushTest
  | flushTestBoth
  | flushWake
  | killCall
  | killClear
  | killCheck
  | killJoin
  | killReset
  | configure (op : ConfigOp)

namespace State

/-- No thread is inside a section that keeps `cv_mtx` over several steps. -/
def cvFree (s : State) : Bool :=
  match s.flush with
  | .test _ _ => false
  | .testBoth _ _ => false
  | _ => true

/-! ## `QueueLog` -/

/-- The first section of `QueueLog`: start the logging thread if there is none. -/
def queueStart (s : State) (c : CallId) : State :=
  let s := { s with callers := Function.update s.callers c .started }
  if !s.logging && s.logging_thread.isNone then
    { s with logging := true, logging_thread := some .start }
  else
    s

/-- `logs.Push(Entry{message, context, kind, timestamp})`. -/
def queuePush (s : State) (req : Request) (c : CallId) (timestamp : String) : State :=
  { s with
    callers := Function.update s.callers c .pushed
    logs := s.logs.Push (req.item c timestamp)
    pushed := s.pushed ++ [req.item c timestamp] }

def queueWork (s : State) (c : CallId) : State :=
  { s with
    callers := Function.update s.callers c .returned
    work := true }

/-! ## `run` -/

/-- `cv.wait` with the predicate `!logging || work`, and `work = false` once it holds. -/
def runWait (s : State) : State :=
  if !s.logging || s.work then
    { s with work := false, logging_thread := some .swapping }
  else
    { s with logging_thread := some .waiting }

/-- The head of `while (logging)`, reached with `cv_mtx` held. -/
def runHead (s : State) : State :=
  if s.logging then s.runWait else { s with logging_thread := some .exited }

def runSwap (s : State) : State :=
  { s with logs := s.logs.Swap, logging_thread := some .draining }

/-- `while (!logs.Empty())`. -/
def runTest (s : State) : State :=
  if s.logs.Empty then
    { s with logging_thread := some .relocking }
  else
    { s with logging_thread := some .consuming }

/-- `preprocess(logs.Front())` and, where it accepts, the consumers. -/
def runConsume (s : State) : State :=
  match s.logs.Front with
  | none => { s with logging_thread := some .popping }
  | some item =>
      let verdict := preprocess s.config item.entry
      { s with
        logs := s.logs.setFront { item with entry := verdict.2 }
        taken := s.taken ++ [item]
        delivered := if verdict.1 then s.delivered ++ [verdict.2] else s.delivered
        logging_thread := some .popping }

def runPop (s : State) : State :=
  { s with logs := s.logs.Pop, logging_thread := some .draining }

/-- `if (++current_loop > 10000) current_loop = 0`. -/
def bumpLoop (loop : Int) : Int :=
  if loop + 1 > 10000 then 0 else loop + 1

/-- From `guard.lock()` through the notification to the next head of the loop. -/
def runRelock (s : State) : State :=
  { s with current_loop := bumpLoop s.current_loop }.runHead

/-! ## `Flush` -/

/-- `cv.wait` has returned in iteration `i`: `last_loop = current_loop` and the next iteration. -/
def flushPass (s : State) (i : Nat) : State :=
  if i + 1 < 2 then
    { s with flush := .test (i + 1) s.current_loop }
  else
    { s with flush := .returned }

/-- `Flush` up to the first evaluation of its wait predicate. -/
def flushLock (s : State) : State :=
  if !s.logging && s.logging_thread.isNone then
    { s with flush := .returned }
  else
    { s with flush := .test 0 (-1) }

/-- `!logging || (logs.Empty() && (last_loop != current_loop || ..` up to `BothEmpty()`. -/
def flushTest (s : State) (i : Nat) (last : Int) : State :=
  if !s.logging then
    s.flushPass i
  else if !s.logs.Empty then
    { s with flush := .blocked i last }
  else if last ≠ s.current_loop then
    s.flushPass i
  else
    { s with flush := .testBoth i last }

def flushTestBoth (s : State) (i : Nat) (last : Int) : State :=
  if s.logs.BothEmpty then
    s.flushPass i
  else
    { s with flush := .blocked i last }

/-! ## `KillThread` -/

def killClear (s : State) : State :=
  { s with logging := false, work := false, kill := .cleared }

/-- `if (logging_thread)` and the notification. -/
def killCheck (s : State) : State :=
  if s.logging_thread.isSome then
    { s with kill := .joining }
  else
    { s with kill := .returned }

end State

/-! ## The machine -/

section Machine

-- The arguments of each `QueueLog` call.
variable (req : CallId → Request)

def step (s : State) : Action → Option State
  | .queueStart c =>
      if s.callers c = .idle ∧ s.cvFree then some (s.queueStart c) else none
  | .queuePush c timestamp =>
      if s.callers c = .started then some (s.queuePush (req c) c timestamp) else none
  | .queueWork c =>
      if s.callers c = .pushed ∧ s.cvFree then some (s.queueWork c) else none
  | .runStart =>
      if s.logging_thread = some .start ∧ s.cvFree then some s.runHead else none
  | .runWake =>
      if s.logging_thread = some .waiting ∧ s.cvFree then some s.runWait else none
  | .runSwap =>
      if s.logging_thread = some .swapping then some s.runSwap else none
  | .runTest =>
      if s.logging_thread = some .draining then some s.runTest else none
  | .runConsume =>
      if s.logging_thread = some .consuming then some s.runConsume else none
  | .runPop =>
      if s.logging_thread = some .popping then some s.runPop else none
  | .runRelock =>
      if s.logging_thread = some .relocking ∧ s.cvFree then some s.runRelock else none
  | .flushCall =>
      if s.flush = .idle ∨ s.flush = .returned then some { s with flush := .called } else none
  | .flushLock =>
      if s.flush = .called then some s.flushLock else none
  | .flushTest =>
      match s.flush with
      | .test i last => some (s.flushTest i last)
      | _ => none
  | .flushTestBoth =>
      match s.flush with
      | .testBoth i last => some (s.flushTestBoth i last)
      | _ => none
  | .flushWake =>
      match s.flush with
      | .blocked i last => some { s with flush := .test i last }
      | _ => none
  | .killCall =>
      if s.kill = .idle ∨ s.kill = .returned then some { s with kill := .called } else none
  | .killClear =>
      if s.kill = .called ∧ s.cvFree then some s.killClear else none
  | .killCheck =>
      if s.kill = .cleared then some s.killCheck else none
  | .killJoin =>
      if s.kill = .joining ∧ s.logging_thread = some .exited then
        some { s with kill := .joined }
      else
        none
  | .killReset =>
      if s.kill = .joined then
        some { s with logging_thread := none, kill := .returned }
      else
        none
  | .configure op =>
      -- `run` keeps `config_mtx` from `preprocess` to `Pop`.
      if s.logging_thread ≠ some .popping then
        some { s with config := op.apply s.config }
      else
        none

/-- The logger as a machine over the sections of its threads. -/
def logger : Machine State Action :=
  { step := step req }

@[simp] theorem logger_step (s : State) (a : Action) : (logger req).step s a = step req s a := rfl

end Machine

end Log
end Mozi
