import AdaSupport.Bytes.Utf8
import AdaSupport.Link.Host
import AdaSupport.Path

/-!
# Hosts given by a directory

A working directory laid out with files, directories and tools, and the host that it makes. Tools
named without a slash are looked up in its directory `bin`. Nothing is known of what lies outside
the working directory, so nothing is found there.

* `Layout.resolve`: follow a path, segment by segment.
* `Layout.host`: the host of a layout.
-/

namespace AdaSupport.Link

/-- A tool: what it prints and how it ends when asked for its version, how it ends otherwise, and
whether it may be run. -/
structure Tool where
  version : Bytes
  versionCode : UInt8
  status : Status
  executable : Bool
  deriving DecidableEq, Repr

/-- What a name in a directory stands for. -/
inductive Item where
  | file (text : Bytes)
  | directory
  | tool (t : Tool)
  deriving DecidableEq, Repr

/-- Named items; a later one replaces an earlier one of the same name. -/
structure Layout where
  items : List (Bytes × Item)
  deriving DecidableEq, Repr

namespace Layout

/-- The directory in which tools are looked up. -/
def toolDirectory : Bytes := Utf8.bytes "bin"

/-- The segments of a name that lead somewhere. -/
def steps (name : Bytes) : List Bytes :=
  (Path.segments name).filter fun s => s != [] && s != Path.here

/-- What stands at a place of the working directory, with the name it was given. A directory exists
as soon as something is in it. -/
def item? (l : Layout) (place : List Bytes) : Option (Bytes × Item) :=
  match l.items.reverse.find? fun i => steps i.1 == place with
  | some i => some i
  | none =>
    if place = [toolDirectory] ∨ l.items.any fun i => place.isPrefixOf (steps i.1) then
      some ([], .directory)
    else none

/-- The longest name of a segment. -/
def maxSegment : Nat := 255

/-- The length from which on a path is refused as a whole. -/
def maxPath : Nat := 4096

/-- Follow segments from a directory on; `none` is any directory outside. -/
def follow (l : Layout) : Option (List Bytes) → List Bytes → Except SystemError (Bytes × Item)
  | _, [] => .ok ([], .directory)
  | here, s :: rest =>
    if s = [] ∨ s = Path.here then l.follow here rest
    else if s = Path.parent then
      l.follow (match here with
        | some (d :: ds) => some (d :: ds).dropLast
        | _ => none) rest
    else if maxSegment < s.length then .error .nameTooLong
    else
      match here with
      | none => .error .notFound
      | some dir =>
        match l.item? (dir ++ [s]) with
        | none => .error .notFound
        | some (_, .directory) => l.follow (some (dir ++ [s])) rest
        | some found => if rest = [] then .ok found else .error .notADirectory

/-- Follow a path. -/
def resolve (l : Layout) (path : Bytes) : Except SystemError (Bytes × Item) :=
  if path = [] then .error .notFound
  else if maxPath ≤ path.length then .error .nameTooLong
  else l.follow (if path.head? = some Path.slash then none else some []) (Path.segments path)

/-- The bytes of a file. -/
def read (l : Layout) (path : Bytes) : Except ReadError Bytes :=
  if 0 ∈ path then .error .zeroInName
  else
    match l.resolve path with
    | .error e => .error (.system e)
    | .ok (_, .directory) => .error (.system .isADirectory)
    | .ok (_, .file text) => .ok text
    | .ok (_, .tool _) => .ok []

/-- The run of a tool. -/
def complete (program : Bytes) (t : Tool) (arguments : List String) : Completion :=
  if arguments.head? = some "--version" then ⟨program, t.version, .code t.versionCode⟩
  else ⟨program, [], t.status⟩

/-- Run a tool. -/
def start (l : Layout) (tool : String) (arguments : List String) :
    Except StartError Completion :=
  let name := Utf8.bytes tool
  if 0 ∈ name ∨ arguments.any (fun a => a.toList.contains (Char.ofNat 0)) then
    .error .zeroInArgument
  else if name = [] then .error (.system .notFound)
  else
    let path := if Path.slash ∈ name then name else toolDirectory ++ Path.slash :: name
    match l.resolve path with
    | .error e => .error (.system e)
    | .ok (program, .tool t) =>
      if t.executable then .ok (complete program t arguments)
      else .error (.system .permissionDenied)
    | .ok _ => .error (.system .permissionDenied)

/-- The host of a layout. -/
def host (l : Layout) : Host := ⟨"linux", l.read, l.start⟩

end Layout

end AdaSupport.Link
