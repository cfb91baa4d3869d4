import AdaSupport.Entry
import AdaSupport.Link.Error
import AdaSupport.Link.Options

/-!
# Linking on a host

A session records what is printed and which tools run while the steps of linking are taken; the
record stays when a step fails.

* `entryInFile`: find the entry procedure of a module file.
* `checkCompiler`: ask the compiler driver for its version.
* `buildRuntime`: build the support library.
* `linkProgram`: check all names, then run the compiler driver.
* `link`: the whole command.
-/

namespace AdaSupport.Link

/-- A run of a tool: the name it was started by, the program that was found, and its arguments. -/
structure Run where
  tool : String
  program : Bytes
  arguments : List String
  deriving DecidableEq, Repr

/-- What has been printed and which tools have run. -/
structure Session where
  printed : String
  runs : List Run
  deriving DecidableEq, Repr

/-- Nothing yet. -/
def Session.fresh : Session := ⟨"", []⟩

/-- A step of linking. -/
abbrev Action := ExceptT Error (StateM Session)

/-- The result of an action and the session afterwards. -/
def Action.perform {α : Type} (a : Action α) : Except Error α × Session :=
  StateT.run (ExceptT.run a) .fresh

/-- Print a line. -/
def say (line : String) : Action Unit :=
  modify fun s => { s with printed := s.printed ++ line ++ "\n" }

/-- Run a tool; `explain` says what it means that it cannot be started. -/
def startTool (host : Host) (tool : String) (arguments : List String)
    (explain : StartError → ToolError) : Action Completion :=
  match host.start tool arguments with
  | .error e => throw (.tool tool (explain e))
  | .ok c => do
    modify fun s => { s with runs := s.runs ++ [⟨tool, c.program, arguments⟩] }
    pure c

/-- The entry procedure that a module file defines. -/
def entryInFile (host : Host) (path : Bytes) : Action String :=
  match host.read path with
  | .error e => throw (.unreadable path e)
  | .ok bs =>
    match Utf8.decode? bs with
    | none => throw (.unreadable path .notText)
    | some text =>
      match Entry.find? text with
      | none => throw (.noEntry path)
      | some name => pure name

/-- The first line of a text, without the carriage return that may stand before its newline. -/
def firstLine (text : List Char) : List Char :=
  let line := text.takeWhile (· != '\n')
  if line.length < text.length ∧ line.getLast? = some '\r' then line.dropLast else line

/-- The line by which the compiler driver names itself. Its exit status does not matter. -/
def checkCompiler (host : Host) (compiler : String) : Action String := do
  let c ← startTool host compiler ["--version"] .missing
  let text := Utf8.repaired c.output
  pure (if text = [] then "unknown" else String.ofList (firstLine text))

/-- The tool that builds the support library. -/
def buildTool : String := "cargo"

/-- Build the support library and give its place. -/
def buildRuntime (host : Host) : Action Bytes := do
  let c ← startTool host buildTool buildArguments .notStarted
  if c.status = .code 0 then pure (Utf8.bytes defaultRuntime)
  else throw (.tool buildTool (.buildFailed c.status))

/-- Refuse a path that is not accepted. -/
def checkPath (path : Bytes) : Action Unit :=
  match Path.fault? path with
  | some fault => throw (.invalidPath path fault)
  | none => pure ()

/-- Refuse a text that is no name. -/
def checkName (name : String) : Action Unit :=
  if Entry.isName name then pure () else throw (.invalidName name)

/-- Check paths and entry name, then link. -/
def linkProgram (host : Host) (o : Options) : Action Unit := do
  checkPath o.input
  checkPath o.runtime
  checkPath o.output
  checkName o.entry
  let c ← startTool host o.compiler (o.arguments host.target) .notStarted
  if c.status = .code 0 then pure () else throw (.tool o.compiler (.failed c.status))

/-- What the link command is asked to do. -/
structure Job where
  input : Bytes
  output : Option Bytes
  entry : Option String
  runtime : Option Bytes
  skipBuild : Bool
  compiler : String
  deriving DecidableEq, Repr

/-- The entry procedure that was asked for or is found. -/
def Job.findEntry (host : Host) (job : Job) : Action String :=
  match job.entry with
  | some name => pure name
  | none => do
    let name ← entryInFile host job.input
    say ("Using '" ++ name ++ "' as main procedure")
    pure name

/-- The support library that was asked for, or else the usual one, built unless that is skipped. -/
def Job.findRuntime (host : Host) (job : Job) : Action Bytes :=
  match job.runtime with
  | some path => pure path
  | none =>
    if job.skipBuild then pure (Utf8.bytes defaultRuntime)
    else do
      say "Building runtime..."
      buildRuntime host

/-- The link command. -/
def link (host : Host) (job : Job) : Action Unit := do
  let output := job.output.getD (Path.defaultOutput job.input)
  let entry ← job.findEntry host
  let version ← checkCompiler host job.compiler
  say ("Using " ++ version)
  let runtime ← job.findRuntime host
  say "Linking..."
  linkProgram host ⟨job.input, runtime, output, entry, job.compiler⟩
  say ("\n✅ Successfully linked ./" ++ Utf8.display output)
  say ("Run it with: ./" ++ Utf8.display output)

end AdaSupport.Link
