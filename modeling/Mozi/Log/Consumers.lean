import Mozi.Log.Delivery

/-!
# Consumers — where the entries go, and who may take the consumers away

`RegisterConsumer`, `ClearConsumers` and `Reset` of `core/log/logger.cc` beside the threads of
`Logger`, and the consumers of `ostream_consumer.cc`, `stdout_consumer.cc` and `stderr_consumer.cc`.
`run` calls the consumers under `config_mtx`; `ClearConsumers` waits under `cv_mtx` until both
queues are empty and takes `config_mtx` with `cv_mtx` still held.

A consumer writes and flushes one line for each entry.  `FileConsumer` is no `LogConsumer` in the
source; other streams are there for consumers that the user registers.
-/

namespace Mozi
namespace Log

open DataStructure Foundation

/-! ## One line -/

namespace LogConsumer

def C_DEF : String := "\x1b[m"
def C_B_RED : String := "\x1b[31;1m"
def C_B_GREEN : String := "\x1b[32;1m"
def C_B_YELLOW : String := "\x1b[33;1m"
def C_B_BLUE : String := "\x1b[34;1m"
def C_CYAN : String := "\x1b[36m"
def C_WHITE : String := "\x1b[37m"
def C_B_WHITE : String := "\x1b[37;1m"

def printTimestamp (entry : Entry) (color : Bool) : String :=
  (if color then C_B_WHITE else "") ++ entry.timestamp

/-- The category of the macros is never null; a null one would leave the stream broken. -/
def printHeader (entry : Entry) (color : Bool) : String :=
  let c_b_color :=
    if !color then ""
    else match entry.kind with
      | .ERROR => C_B_RED
      | .WARNING => C_B_YELLOW
      | .INFO => C_B_GREEN
  let white := if color then C_B_WHITE else ""
  let kind := match entry.kind with
    | .ERROR => "ERRPR"
    | .WARNING => "WARNING"
    | .INFO => "INFO"
  c_b_color ++ "[" ++ white ++ entry.context.category.getD "" ++ c_b_color ++ c_b_color ++ " " ++
    kind ++ "] "

def printContext (entry : Entry) (color : Bool) : String :=
  (if color then C_B_BLUE else "") ++
    (match entry.context.filename with
      | some filename => " (" ++ filename ++ ":" ++ toString entry.context.line ++ ")"
      | none => "") ++
    match entry.context.function with
      | some function => " -> Function " ++ (if color then C_CYAN else "") ++ function
      | none => ""

def printMessage (entry : Entry) (color : Bool) : String :=
  (if color then C_WHITE else "") ++ entry.message

def printNewLine (color : Bool) : String :=
  (if color then C_DEF else "") ++ "\n"

end LogConsumer

/-! ## Consumers -/

/-- The value of the enumerator. -/
def Kind.value : Kind → Nat
  | ERROR => 0
  | WARNING => 1
  | INFO => 2

inductive Stream
  | cout
  | cerr
  | other (n : Nat)
  deriving DecidableEq, Repr

/-- An object of a class derived from `OStreamConsumer`, by its virtual function. -/
structure OStreamConsumer where
  getStream : Entry → Stream

def StdoutConsumer : OStreamConsumer :=
  { getStream := fun _ => .cout }

def StdErrConsumer (stderr_threshold_ : Kind) : OStreamConsumer :=
  { getStream := fun entry =>
      if entry.kind.value ≤ stderr_threshold_.value then .cerr else .cout }

/-- The lines each stream has been given. -/
abbrev Output := Stream → List String

/-- What `OStreamConsumer::Consume` writes. -/
def consumeLine (entry : Entry) : String :=
  LogConsumer.printTimestamp entry true ++ LogConsumer.printHeader entry true ++
    LogConsumer.printMessage entry true ++ LogConsumer.printContext entry true ++
    LogConsumer.printNewLine true

def OStreamConsumer.Consume (out : Output) (entry : Entry) (consumer : OStreamConsumer) : Output :=
  Function.update out (consumer.getStream entry)
    (out (consumer.getStream entry) ++ [consumeLine entry])

/-! ## The system -/

/-- Where the `ClearConsumers` caller stands. -/
inductive ClearPc
  | idle
  | called
  /-- `cv_mtx` held, about to evaluate `BothEmpty()` -/
  | test
  /-- inside `cv.wait`, `cv_mtx` released -/
  | blocked
  /-- past the wait with `cv_mtx` held, before `config_mtx` -/
  | passed
  | returned
  deriving DecidableEq, Repr

structure System where
  logger : State
  consumers : List OStreamConsumer
  out : Output
  clear : ClearPc

/-- The constructor of `Resources`, without `STDOUTERR_LOG_CONSUMER`. -/
def System.init : System :=
  { logger := State.init
    consumers := [StdoutConsumer]
    out := fun _ => []
    clear := .idle }

inductive SystemAction
  /-- a section of the other threads -/
  | logger (a : Action)
  | RegisterConsumer (consumer : OStreamConsumer)
  | clearCall
  | clearLock
  | clearTest
  | clearWake
  /-- `consumers.clear()` under both mutexes, and the return -/
  | clearConsumers

/-- The section begins by taking `cv_mtx`. -/
def Action.locksCv : Action → Bool
  | .queueStart _ => true
  | .queueWork _ => true
  | .runStart => true
  | .runWake => true
  | .runRelock => true
  | .flushLock => true
  | .flushWake => true
  | .killClear => true
  | _ => false

/-- `ClearConsumers` holds `cv_mtx`. -/
def ClearPc.holdsCv : ClearPc → Bool
  | .test => true
  | .passed => true
  | _ => false

/-- The entry that `preprocess` lets through, as it leaves it. -/
def admitted (cfg : Config) (entry : Entry) : Option Entry :=
  let verdict := preprocess cfg entry
  if verdict.1 then some verdict.2 else none

/-- What the consumers are given of the front of the queue. -/
def State.accepted (s : State) : Option Entry :=
  s.logs.Front.bind fun item => admitted s.config item.entry

namespace System

/-- The effect of a section on the consumers and their streams. -/
def afterSection (s : System) : Action → System
  | .runConsume =>
      match s.logger.accepted with
      | some entry =>
          { s with out := s.consumers.foldl (fun out c => c.Consume out entry) s.out }
      | none => s
  | .configure .Reset => { s with consumers := [StdoutConsumer] }
  | _ => s

/-- `ClearConsumers` evaluates its predicate. -/
def clearTest (s : System) : System :=
  if s.logger.logs.BothEmpty then { s with clear := .passed } else { s with clear := .blocked }

variable (req : CallId → Request)

def step (s : System) : SystemAction → Option System
  | .logger a =>
      if a.locksCv && s.clear.holdsCv then none
      else (Log.step req s.logger a).map fun logger => { s.afterSection a with logger := logger }
  | .RegisterConsumer consumer =>
      if s.logger.logging_thread ≠ some .popping then
        some { s with consumers := s.consumers ++ [consumer] }
      else
        none
  | .clearCall =>
      if s.clear = .idle ∨ s.clear = .returned then some { s with clear := .called } else none
  | .clearLock =>
      if s.clear = .called ∧ s.logger.cvFree then some { s with clear := .test } else none
  | .clearTest => if s.clear = .test then some s.clearTest else none
  | .clearWake =>
      if s.clear = .blocked ∧ s.logger.cvFree then some { s with clear := .test } else none
  | .clearConsumers =>
      if s.clear = .passed ∧ s.logger.logging_thread ≠ some .popping then
        some { s with consumers := [], clear := .returned }
      else
        none

end System

/-- The logger with its consumers as a machine. -/
def system (req : CallId → Request) : Machine System SystemAction :=
  { step := System.step req }

/-! ## What one step writes -/

/-- The lines of one stream when the consumers are given an entry. -/
def linesOf (st : Stream) (consumers : List OStreamConsumer) (entry : Entry) : List String :=
  (consumers.filter fun c => c.getStream entry = st).map fun _ => consumeLine entry

theorem foldl_Consume (consumers : List OStreamConsumer) (entry : Entry) (out : Output)
    (st : Stream) :
    consumers.foldl (fun out c => c.Consume out entry) out st =
      out st ++ linesOf st consumers entry := by
  induction consumers generalizing out with
  | nil => simp [linesOf]
  | cons c cs ih =>
      rw [List.foldl_cons, ih]
      by_cases hst : c.getStream entry = st
      · subst hst
        simp [OStreamConsumer.Consume, linesOf]
      · have hne : st ≠ c.getStream entry := fun heq => hst heq.symm
        simp [OStreamConsumer.Consume, linesOf, hst, hne]

end Log
end Mozi
