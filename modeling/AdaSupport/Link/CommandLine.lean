import AdaSupport.Link.Session

/-!
# The command line

`entry FILE` prints the entry procedure of a module file; `link FILE` links it. Options may stand
before and behind the file name, `--` ends them, and `--version` is answered as soon as it is read.

* `Arguments.parse`: the command that the arguments ask for.
* `CommandLine.run`: perform it on a host.
-/

namespace AdaSupport.Link

/-- The words that select a command. -/
inductive Subcommand where
  | entry
  | link
  | completions
  deriving DecidableEq, Repr

/-- The word itself. -/
def Subcommand.word : Subcommand → String
  | .entry => "entry"
  | .link => "link"
  | .completions => "completions"

/-- The command that a word selects. -/
def Subcommand.ofWord? (w : Bytes) : Option Subcommand :=
  [.entry, .link, .completions].find? fun c => Utf8.bytes c.word == w

/-- The shells for which completions exist. -/
def shells : List String := ["bash", "elvish", "fish", "powershell", "zsh"]

/-- Whether a command takes a word as its operand: a file name that is not empty, or the name of a
shell. -/
def Subcommand.takes (c : Subcommand) (w : Bytes) : Bool :=
  match c with
  | .completions => shells.any fun s => Utf8.bytes s == w
  | _ => w != []

/-- The options that take a value. -/
inductive Key where
  | output
  | entry
  | runtime
  | compiler
  deriving DecidableEq, Repr

/-- The option of a long name. Only linking has options. -/
def Subcommand.key? (c : Subcommand) (name : Bytes) : Option Key :=
  if c ≠ .link then none
  else if name = Utf8.bytes "output" then some .output
  else if name = Utf8.bytes "entry" then some .entry
  else if name = Utf8.bytes "runtime" then some .runtime
  else if name = Utf8.bytes "cc" then some .compiler
  else none

namespace Arguments

/-- What has been read of the arguments. -/
structure Fields where
  input : Option Bytes
  output : Option Bytes
  entry : Option String
  runtime : Option Bytes
  compiler : Option String
  skipBuild : Bool
  deriving DecidableEq, Repr

/-- Nothing read yet. -/
def Fields.empty : Fields := ⟨none, none, none, none, none, false⟩

/-- The verdict on a list of arguments. -/
inductive Verdict where
  /-- The arguments are not understood. -/
  | usage
  /-- The version is asked for. -/
  | version
  | complete (f : Fields)
  deriving DecidableEq, Repr

/-- A path value: it is given once and not empty. -/
def path? (old : Option Bytes) (v : Bytes) : Option Bytes :=
  if old.isSome ∨ v = [] then none else some v

/-- A text value: it is given once and well-formed. -/
def text? (old : Option String) (v : Bytes) : Option String :=
  if old.isSome then none else (Utf8.decode? v).map String.ofList

/-- Set the value of an option. -/
def Fields.set? (f : Fields) (k : Key) (v : Bytes) : Option Fields :=
  match k with
  | .output => (path? f.output v).map fun p => { f with output := some p }
  | .entry => (text? f.entry v).map fun s => { f with entry := some s }
  | .runtime => (path? f.runtime v).map fun p => { f with runtime := some p }
  | .compiler => (text? f.compiler v).map fun s => { f with compiler := some s }

/-- Set the operand of a command: it is given once and one that the command takes. -/
def Fields.setInput? (f : Fields) (c : Subcommand) (v : Bytes) : Option Fields :=
  if f.input.isNone && c.takes v then some { f with input := some v } else none

/-- The dash. -/
def dash : UInt8 := 45

/-- The equals sign. -/
def equals : UInt8 := 61

/-- Whether a word is read as an option: it starts with a dash and goes on. -/
def isOption (w : Bytes) : Bool := w.head? == some dash && w != [dash]

/-- What an option word asks for. -/
inductive Request where
  | version
  | skipBuild
  /-- An option with the value joined to it, if there is one. -/
  | value (k : Key) (joined : Option Bytes)
  | unknown
  deriving DecidableEq, Repr

/-- A long option, read behind its two dashes. -/
def longRequest (c : Subcommand) (body : Bytes) : Request :=
  let name := body.takeWhile (· != equals)
  let joined := if name.length < body.length then some (body.drop (name.length + 1)) else none
  match c.key? name with
  | some k => .value k joined
  | none =>
    if body = Utf8.bytes "version" then .version
    else if c = .link ∧ body = Utf8.bytes "skip-runtime-build" then .skipBuild
    else .unknown

/-- A short option, read behind its dash. -/
def shortRequest (c : Subcommand) (body : Bytes) : Request :=
  match body with
  | [] => .unknown
  | b :: rest =>
    if b = 86 then .version
    else if b = 111 ∧ c = .link then
      .value .output (if rest = [] then none
        else if rest.head? = some equals then some (rest.drop 1) else some rest)
    else .unknown

/-- What an option word asks for. -/
def request (c : Subcommand) (w : Bytes) : Request :=
  if w.take 2 = [dash, dash] then longRequest c (w.drop 2) else shortRequest c (w.drop 1)

/-- Read operands only. -/
def readOperands (c : Subcommand) : List Bytes → Fields → Verdict
  | [], f => .complete f
  | w :: rest, f =>
    match f.setInput? c w with
    | some f => readOperands c rest f
    | none => .usage

/-- Read the arguments of a command. -/
def read (c : Subcommand) : List Bytes → Fields → Verdict
  | [], f => .complete f
  | w :: rest, f =>
    if w = [dash, dash] then readOperands c rest f
    else if isOption w then
      match request c w with
      | .version => .version
      | .unknown => .usage
      | .skipBuild => if f.skipBuild then .usage else read c rest { f with skipBuild := true }
      | .value k (some v) =>
        match f.set? k v with
        | some f => read c rest f
        | none => .usage
      | .value k none =>
        match rest with
        | [] => .usage
        | v :: rest =>
          if isOption v then .usage
          else
            match f.set? k v with
            | some f => read c rest f
            | none => .usage
    else
      match f.setInput? c w with
      | some f => read c rest f
      | none => .usage

/-- What a command line asks for. -/
inductive Command where
  | usage
  /-- Print the version, of a command if one was named. -/
  | version (c : Option Subcommand)
  | entry (input : Bytes)
  | link (job : Job)
  deriving DecidableEq, Repr

/-- The compiler driver: from the option, else from the environment, else the usual one. -/
def compiler? (f : Fields) (environment : Option Bytes) : Option String :=
  match f.compiler, environment with
  | some s, _ => some s
  | none, some v => (Utf8.decode? v).map String.ofList
  | none, none => some "clang"

/-- The command of complete arguments. A file name is required; completions themselves are not
provided. -/
def command (c : Subcommand) (f : Fields) (environment : Option Bytes) : Command :=
  match c, f.input with
  | .entry, some input => .entry input
  | .link, some input =>
    match compiler? f environment with
    | none => .usage
    | some compiler => .link ⟨input, f.output, f.entry, f.runtime, f.skipBuild, compiler⟩
  | _, _ => .usage

/-- The command that a command line asks for. The environment may name the compiler driver. -/
def parse (arguments : List Bytes) (environment : Option Bytes) : Command :=
  match arguments with
  | [] => .usage
  | w :: rest =>
    match Subcommand.ofWord? w with
    | some c =>
      match read c rest .empty with
      | .usage => .usage
      | .version => .version (some c)
      | .complete f => command c f environment
    | none => if isOption w ∧ request .entry w = .version then .version none else .usage

end Arguments

namespace CommandLine

/-- How a command ends: its arguments are not understood, or it has run. -/
inductive Reply where
  | usage
  | finished (exitCode : Nat) (output errors : String) (runs : List Run)
  deriving DecidableEq, Repr

/-- The name of the command. -/
def name : String := "adalink"

/-- The version line, of a subcommand if one was named. -/
def version (c : Option Subcommand) : String :=
  match c with
  | none => name ++ " 0.1.0\n"
  | some c => name ++ "-" ++ c.word ++ " 0.1.0\n"

/-- The reply of an action: it ends with status zero, or with its error on standard error. -/
def reply (a : Action Unit) : Reply :=
  match a.perform with
  | (.ok (), s) => .finished 0 s.printed "" s.runs
  | (.error e, s) => .finished 1 s.printed ("Error: " ++ e.detail ++ "\n") s.runs

/-- Perform a command. -/
def perform (host : Host) : Arguments.Command → Reply
  | .usage => .usage
  | .version c => .finished 0 (version c) "" []
  | .entry input => reply (entryInFile host input >>= say)
  | .link job => reply (link host job)

/-- Run a command line. -/
def run (host : Host) (arguments : List Bytes) (environment : Option Bytes) : Reply :=
  perform host (Arguments.parse arguments environment)

end CommandLine

end AdaSupport.Link
