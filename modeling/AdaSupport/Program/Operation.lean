import AdaSupport.Numeral.Printed
import AdaSupport.Numeral.Scanned
import AdaSupport.Program.Memory

/-!
# Operations on a thread's own memory

The builtins that compute: on text, on numbers, and between the two. They neither read nor write
the console.

* `Operation.run`: the answer that is shown, the value that a variable may keep, and the memory
  afterwards.
-/

namespace AdaSupport.Program

/-- What a step shows. -/
inductive Answer where
  | nothing
  | integer (v : Int32)
  | real (v : Binary64)
  /-- A real of which the last places are not specified. -/
  | approximate (v : Binary64)
  | text (bytes : Bytes)
  /-- Whether a random number lies in its range. -/
  | inRange (holds : Bool)
  /-- The answers of a thread. -/
  | answers (list : List Answer)

/-- The functions whose last places are not specified. -/
inductive Elementary where
  | sin
  | cos
  | tan
  | exp
  | log
  deriving DecidableEq, Repr

/-- The function itself. -/
def Elementary.apply : Elementary → Binary64 → Binary64
  | .sin => Binary64.sin
  | .cos => Binary64.cos
  | .tan => Binary64.tan
  | .exp => Binary64.exp
  | .log => Binary64.log

/-- A builtin that computes. -/
inductive Operation where
  | length (s : TextArgument)
  | substring (s : TextArgument) (start length : IntegerArgument)
  | concat (s t : TextArgument)
  | toUpper (s : TextArgument)
  | toLower (s : TextArgument)
  | integerText (v : IntegerArgument)
  | realText (v : RealArgument)
  | textInteger (s : TextArgument)
  | textReal (s : TextArgument)
  | integerReal (v : IntegerArgument)
  | realInteger (v : RealArgument)
  | absInteger (v : IntegerArgument)
  | absReal (v : RealArgument)
  | sqrt (v : RealArgument)
  | power (x y : RealArgument)
  | elementary (f : Elementary) (v : RealArgument)
  /-- Show the text at a pointer. -/
  | peek (s : TextArgument)
  deriving DecidableEq, Repr

/-- The outcome of an operation. -/
structure Outcome where
  answer : Answer
  value : Option Value
  memory : Memory

namespace Outcome

/-- An integer result. -/
def ofInteger (m : Memory) (v : Int32) : Outcome := ⟨.integer v, some (.integer v), m⟩

/-- A real result. -/
def ofReal (m : Memory) (v : Binary64) : Outcome := ⟨.real v, some (.real v), m⟩

/-- A real result of which the last places are not specified. -/
def ofApproximate (m : Memory) (v : Binary64) : Outcome := ⟨.approximate v, some (.real v), m⟩

/-- A text result, left in its slot. -/
def ofText (m : Memory) (s : Slot) (result : Bytes) : Outcome :=
  let (p, m) := m.leave s result
  ⟨.text (m.text p), some (.pointer p), m⟩

end Outcome

/-- Perform an operation. -/
def Operation.run (op : Operation) (t : Thread) : Outcome :=
  let m := t.memory
  match op with
  | .length s => .ofInteger m (s.text t).length
  | .substring s i n => .ofText m .substring ((s.text t).substring (i.value t) (n.value t))
  | .concat r s => .ofText m .concat ((r.text t).concat (s.text t))
  | .toUpper s => .ofText m .upper (s.text t).toUpper
  | .toLower s => .ofText m .lower (s.text t).toLower
  | .integerText v => .ofText m .integer (Numeral.ofInteger (v.value t))
  | .realText v => .ofText m .real (Numeral.ofReal (v.value t))
  | .textInteger s => .ofInteger m (Numeral.toInteger (s.text t))
  | .textReal s => .ofReal m (Numeral.toReal (s.text t))
  | .integerReal v => .ofReal m (.ofInteger (v.value t))
  | .realInteger v => .ofInteger m (v.value t).toInteger
  | .absInteger v => .ofInteger m (v.value t).abs
  | .absReal v => .ofReal m (v.value t).abs
  | .sqrt v => .ofReal m (v.value t).sqrt
  | .power x y => .ofApproximate m ((x.value t).pow (y.value t))
  | .elementary f v => .ofApproximate m (f.apply (v.value t))
  | .peek s =>
    match s.text t with
    | some bs => ⟨.text bs, none, m⟩
    | none => ⟨.nothing, none, m⟩

end AdaSupport.Program
