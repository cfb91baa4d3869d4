import AdaSupport.Bytes.Utf8

/-!
# Paths

A path is a byte string whose segments are divided by slashes.

* `Path.components`: what a path is made of once repeated slashes are passed over.
* `Path.fault?`: why a path is refused: it could be taken for an option, or leads upward.
* `Path.stem?`: the name of a file without its extension.
* `Path.defaultOutput`: the name of the program made from a file.
-/

namespace AdaSupport.Path

/-- The slash. -/
def slash : UInt8 := 47

/-- The segments of a path, empty ones included. -/
def segments : Bytes → List Bytes
  | [] => [[]]
  | b :: rest =>
    if b = slash then [] :: segments rest
    else
      match segments rest with
      | [] => [[b]]
      | s :: more => (b :: s) :: more

/-- The segment that stands for the directory itself. -/
def here : Bytes := [46]

/-- The segment that leads upward. -/
def parent : Bytes := [46, 46]

/-! ## Components -/

/-- A component of a path: the root, the directory itself, the one above it, or a name. -/
inductive Component where
  | root
  | here
  | parent
  | named (name : Bytes)
  deriving DecidableEq, Repr

/-- A component written out. -/
def Component.bytes : Component → Bytes
  | .root => [slash]
  | .here => Path.here
  | .parent => Path.parent
  | .named name => name

/-- The component that a segment stands for. An empty segment and the directory itself stand for
none. -/
def Component.ofSegment? (s : Bytes) : Option Component :=
  if s = [] ∨ s = Path.here then none
  else if s = Path.parent then some .parent
  else some (.named s)

/-- The components of a path. Only in front is there a root or the directory itself. -/
def components (p : Bytes) : List Component :=
  let front : List Component :=
    if p.head? = some slash then [.root]
    else if (segments p).head? = some here then [.here]
    else []
  front ++ (segments p).filterMap Component.ofSegment?

/-! ## Accepted paths -/

/-- Why a path is refused. -/
inductive Fault where
  | leadingDash
  | parentSegment
  deriving DecidableEq, Repr

/-- The reason in words. -/
def Fault.reason : Fault → String
  | .leadingDash => "cannot start with '-'"
  | .parentSegment => "cannot contain '..'"

/-- Why a path is refused, if it is. A dash in front of the text shown for the path is reported
first, a component that leads upward second. -/
def fault? (p : Bytes) : Option Fault :=
  if (Utf8.repaired p).head? = some '-' then some .leadingDash
  else if (components p).any (fun c => c.bytes == parent) then some .parentSegment
  else none

/-! ## Names of files -/

/-- The last component of a path, if it is a name. -/
def name? (p : Bytes) : Option Bytes :=
  match (components p).getLast? with
  | some (.named name) => some name
  | _ => none

/-- A name without its extension: what stands before the last dot, and the whole name when nothing
does. -/
def withoutExtension (name : Bytes) : Bytes :=
  let front := (name.reverse.dropWhile (· != 46)).drop 1
  if front = [] then name else front.reverse

/-- The name of a file without its extension. -/
def stem? (p : Bytes) : Option Bytes := (name? p).map withoutExtension

/-- The name of the program made from a file: its stem when that is well-formed text, and `output`
otherwise. -/
def defaultOutput (p : Bytes) : Bytes :=
  match stem? p with
  | some s => if (Utf8.decode? s).isSome then s else Utf8.bytes "output"
  | none => Utf8.bytes "output"

end AdaSupport.Path
