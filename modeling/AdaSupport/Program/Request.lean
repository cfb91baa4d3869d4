import AdaSupport.Bytes.Utf8
import AdaSupport.Console
import AdaSupport.Fault
import AdaSupport.Generator
import AdaSupport.Program.Operation
import AdaSupport.Stream.Reader

/-!
# Requests to the process

The builtins that deal with what all threads share: the console, random numbers and the end of the
program.

* `Process`: the state that threads share.
* `Process.ask`: read from the input. Reads flush standard output first, so that what was put on it
  is seen before the input is awaited.
* `Request.run`: perform a request. A fault writes its report and stops the process.
-/

namespace AdaSupport.Program

/-- What the threads of a program share. -/
structure Process where
  output : Output
  errors : Device
  input : Stream
  /-- Standard output as it stood each time the input was asked. -/
  asked : List Output
  /-- The words that draws are taken from. -/
  words : Nat → UInt32
  /-- The number of draws taken. -/
  drawn : Nat
  /-- Whether the exit-time flush has been asked for. -/
  registered : Bool
  /-- Whether the exit-time flush has been used up. -/
  finalized : Bool

namespace Process

/-- Put a text on standard output. -/
def put (p : Process) (t : Text) (line : Bool) : Process := { p with output := p.output.put t line }

/-- Flush standard output. -/
def flush (p : Process) : Process := { p with output := p.output.flush.2 }

/-- Write a line to standard error. -/
def errorLine (p : Process) (line : String) : Process :=
  { p with errors := (p.errors.write (Utf8.bytes line ++ [Bytes.newline])).2 }

/-- Flush standard output, but only the first time. -/
def finalize (p : Process) : Process :=
  if p.finalized then p else { p.flush with finalized := true }

/-- Ask the input, and note how standard output stands at that moment. -/
def ask {α : Type} (p : Process) (read : Stream → α × Stream) : α × Process :=
  let (r, input) := read p.input
  (r, { p with input, asked := p.asked ++ [p.output] })

/-- Take a draw. -/
def draw (p : Process) : Draw × Process :=
  (Draw.ofWord (p.words p.drawn), { p with drawn := p.drawn + 1 })

end Process

/-- A builtin that deals with the process. -/
inductive Request where
  | put (s : TextArgument) (line : Bool)
  | putInteger (v : IntegerArgument)
  | putReal (v : RealArgument)
  | newLine
  /-- Set up a line buffer that starts with the given bytes. -/
  | buffer (bytes : Bytes)
  | getLine (s : TextArgument)
  | getInteger
  | getReal
  | debug (s : TextArgument)
  | debugInteger (s : TextArgument) (v : IntegerArgument)
  | debugReal (s : TextArgument) (v : RealArgument)
  | randomInteger (a b : IntegerArgument)
  | randomReal
  | fault (category : Fault.Category) (s : TextArgument)
  | flush
  | finalize
  | registerFinalizer
  deriving DecidableEq, Repr

/-- What has become of a thread and its process after a step. -/
inductive Progress where
  | running (answer : Answer) (thread : Thread) (process : Process)
  | stopped (process : Process)

/-- A message argument as text. -/
def TextArgument.message (a : TextArgument) (t : Thread) : String := Utf8.display (a.text t).bytes

/-- Go on with an answer, its value stored in the target variable. -/
def Progress.answering (answer : Answer) (value : Option Value) (target : Option String)
    (t : Thread) (p : Process) : Progress :=
  .running answer (t.assign target value) p

/-- Read a line to the place that a pointer refers to. -/
def Process.getLine (p : Process) (m : Memory) (dest : Pointer) : Memory × Process :=
  let (bs, p) := p.flush.ask fun s => (s.readLine (m.window dest Stream.lineCapacity)).2
  (m.overwrite dest bs, p)

/-- Perform a request; `target` is the variable that keeps its value. -/
def Request.run (r : Request) (target : Option String) (t : Thread) (p : Process) : Progress :=
  match r with
  | .put s line => .running .nothing t (p.put (s.text t) line)
  | .putInteger v => .running .nothing t (p.put (some (Numeral.ofInteger (v.value t))) false)
  | .putReal v => .running .nothing t (p.put (some (Numeral.ofReal (v.value t))) false)
  | .newLine => .running .nothing t (p.put (some []) true)
  | .buffer bs =>
    let (ptr, m) := t.memory.allocate Stream.lineCapacity bs
    .answering .nothing (some (.pointer ptr)) target { t with memory := m } p
  | .getLine s =>
    match s.pointer? t with
    | none => .running .nothing t p
    | some ptr =>
      let (m, p) := p.getLine t.memory ptr
      .running (.text (m.text ptr)) { t with memory := m } p
  | .getInteger =>
    match target with
    | none => .running .nothing t p
    | some name =>
      let (r, p) := p.flush.ask Stream.readInteger
      let v := r.getD (t.integer name)
      .answering (.integer v) (some (.integer v)) target t p
  | .getReal =>
    match target with
    | none => .running .nothing t p
    | some name =>
      let (r, p) := p.flush.ask Stream.readReal
      let v := r.getD (t.real name)
      .answering (.real v) (some (.real v)) target t p
  | .debug s => .running .nothing t (p.errorLine (Diagnostic.line (s.message t) none))
  | .debugInteger s v =>
    let text := Utf8.display (Numeral.ofInteger (v.value t))
    .running .nothing t (p.errorLine (Diagnostic.line (s.message t) (some text)))
  | .debugReal s v =>
    let text := Utf8.display (Numeral.ofReal (v.value t))
    .running .nothing t (p.errorLine (Diagnostic.line (s.message t) (some text)))
  | .randomInteger a b =>
    let a := a.value t
    let b := b.value t
    let (d, p) := p.draw
    let v := d.integer a b
    let holds := min a.toInt b.toInt ≤ v.toInt ∧ v.toInt ≤ max a.toInt b.toInt
    .answering (.inRange holds) (some (.integer v)) target t p
  | .randomReal =>
    let (d, p) := p.draw
    let v := d.real
    let holds := !v.negative && v.pattern < Binary64.pattern (.ofInteger 1)
    .answering (.inRange holds) (some (.real v)) target t p
  | .fault category s => .stopped (p.errorLine (Fault.report ⟨category, s.message t⟩))
  | .flush => .running .nothing t p.flush
  | .finalize => .running .nothing t p.finalize
  | .registerFinalizer => .running .nothing t { p with registered := true }

end AdaSupport.Program
