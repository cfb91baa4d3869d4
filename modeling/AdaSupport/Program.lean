import AdaSupport.Program.Request

/-!
# Programs

A program is a list of steps: calls of builtins, and threads that run to their end before the next
step. It runs as a process with its own console; the **managed** form asks for a flush at exit.

* `runAll`: the steps of one thread.
* `Program.run`: a whole program, its answers, what its devices received, and its exit status. A
  fault ends the process at once with what was written before it delivered.
-/

namespace AdaSupport.Program

/-- A step of a thread. -/
inductive Step where
  | compute (op : Operation) (target : Option String)
  | request (r : Request) (target : Option String)
  | thread (steps : List Step)

/-- The answers of a thread's steps and the process afterwards. -/
structure Trace where
  answers : List Answer
  process : Process
  /-- Whether a fault ended the process. -/
  stopped : Bool

mutual

/-- Perform one step. A fault in a thread stops the step that started it. -/
def Step.run : Step → Thread → Process → Progress
  | .compute op target, t, p =>
    let o := op.run t
    .answering o.answer o.value target { t with memory := o.memory } p
  | .request r target, t, p => r.run target t p
  | .thread steps, t, p =>
    let trace := runAll steps .fresh p
    if trace.stopped then .stopped trace.process
    else .running (.answers trace.answers) t trace.process

/-- Perform steps in order, up to a fault. -/
def runAll : List Step → Thread → Process → Trace
  | [], _, p => ⟨[], p, false⟩
  | s :: rest, t, p =>
    match s.run t p with
    | .stopped p => ⟨[], p, true⟩
    | .running a t p =>
      let trace := runAll rest t p
      { trace with answers := a :: trace.answers }

end

/-- The status of a program that reached its end. -/
def successCode : Nat := 0

/-- The surroundings of a program: what it can read, which devices work, and the words that random
numbers are drawn from. -/
structure Environment where
  input : Stream
  outputWorks : Bool
  errorsWork : Bool
  words : Nat → UInt32

/-- The process at its start. -/
def Process.start (env : Environment) (managed : Bool) : Process where
  output := .fresh env.outputWorks
  errors := .fresh env.errorsWork
  input := env.input
  asked := []
  words := env.words
  drawn := 0
  registered := managed
  finalized := false

/-- The process at its exit. A fault always flushes; otherwise the flush takes place if it was asked
for and has not been used up. -/
def Process.exit (p : Process) (fault : Bool) : Process :=
  if fault then p.flush else if p.registered then p.finalize else p

/-- What a program leaves behind. -/
structure Result where
  answers : List Answer
  output : Bytes
  errors : Bytes
  exitCode : Nat

/-- Run a program. -/
def run (env : Environment) (managed : Bool) (steps : List Step) : Result :=
  let trace := runAll steps .fresh (.start env managed)
  let p := trace.process.exit trace.stopped
  { answers := trace.answers
    output := p.output.device.received
    errors := p.errors.received
    exitCode := if trace.stopped then Fault.exitCode else successCode }

end AdaSupport.Program
