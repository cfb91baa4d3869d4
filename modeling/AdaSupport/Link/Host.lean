import AdaSupport.Bytes

/-!
# The host

What linking needs of the machine it runs on: reading files and starting tools. A host is given by
these two functions, so that linking itself is a pure function of it.
-/

namespace AdaSupport.Link

/-- The causes for which the operating system refuses a request. -/
inductive SystemError where
  | notFound
  | permissionDenied
  | notADirectory
  | isADirectory
  | nameTooLong
  deriving DecidableEq, Repr

namespace SystemError

/-- The number of the cause. -/
def code : SystemError → Nat
  | .notFound => 2
  | .permissionDenied => 13
  | .notADirectory => 20
  | .isADirectory => 21
  | .nameTooLong => 36

/-- The cause in words. -/
def text : SystemError → String
  | .notFound => "No such file or directory"
  | .permissionDenied => "Permission denied"
  | .notADirectory => "Not a directory"
  | .isADirectory => "Is a directory"
  | .nameTooLong => "File name too long"

/-- The name of the cause. -/
def kind : SystemError → String
  | .notFound => "NotFound"
  | .permissionDenied => "PermissionDenied"
  | .notADirectory => "NotADirectory"
  | .isADirectory => "IsADirectory"
  | .nameTooLong => "InvalidFilename"

/-- The cause in words and with its number. -/
def message (e : SystemError) : String := e.text ++ " (os error " ++ toString e.code ++ ")"

end SystemError

/-- Why a file could not be read as text. -/
inductive ReadError where
  | system (e : SystemError)
  | zeroInName
  | notText
  deriving DecidableEq, Repr

/-- The cause in words. -/
def ReadError.message : ReadError → String
  | .system e => e.message
  | .zeroInName => "file name contained an unexpected NUL byte"
  | .notText => "stream did not contain valid UTF-8"

/-- Why a tool could not be started. -/
inductive StartError where
  | system (e : SystemError)
  | zeroInArgument
  deriving DecidableEq, Repr

/-- The cause in words. -/
def StartError.message : StartError → String
  | .system e => e.message
  | .zeroInArgument => "nul byte found in provided data"

/-- How a tool ended: by itself with a status of eight bits, or by a signal. -/
inductive Status where
  | code (n : UInt8)
  | signal (n : Nat)
  deriving DecidableEq, Repr

/-- The names of the signals that have one, numbered from one on. -/
def signalNames : List String :=
  ["SIGHUP", "SIGINT", "SIGQUIT", "SIGILL", "SIGTRAP", "SIGABRT", "SIGBUS", "SIGFPE", "SIGKILL",
    "SIGUSR1", "SIGSEGV", "SIGUSR2", "SIGPIPE", "SIGALRM", "SIGTERM", "SIGSTKFLT", "SIGCHLD",
    "SIGCONT", "SIGSTOP", "SIGTSTP", "SIGTTIN", "SIGTTOU", "SIGURG", "SIGXCPU", "SIGXFSZ",
    "SIGVTALRM", "SIGPROF", "SIGWINCH", "SIGIO", "SIGPWR", "SIGSYS"]

/-- The name of a signal in brackets, nothing when it has none. -/
def signalSuffix : Nat → String
  | 0 => ""
  | n + 1 =>
    match signalNames[n]? with
    | some name => " (" ++ name ++ ")"
    | none => ""

/-- How a tool ended, in words. -/
def Status.message : Status → String
  | .code n => "exit status: " ++ toString n.toNat
  | .signal n => "signal: " ++ toString n ++ signalSuffix n

/-- A finished run of a tool: the program that was found, what it printed, and how it ended. -/
structure Completion where
  program : Bytes
  output : Bytes
  status : Status
  deriving DecidableEq, Repr

/-- A machine that reads files and runs tools. -/
structure Host where
  /-- The name of the operating system. -/
  target : String
  /-- The bytes of a file. -/
  read : Bytes → Except ReadError Bytes
  /-- Run a tool with arguments. -/
  start : String → List String → Except StartError Completion

end AdaSupport.Link
