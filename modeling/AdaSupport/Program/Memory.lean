import AdaSupport.Binary64
import AdaSupport.Slot
import AdaSupport.Text

/-!
# Values and memory of a thread

A program's values are integers, reals and pointers. A pointer refers to a byte of a result slot or
of a buffer that the program owns; text is read through it up to the first zero byte, so what a
pointer shows changes when its slot is written again.

* `Memory.text`: the text that a pointer shows now.
* `Memory.leave`: leave a result in its slot and point to it.
* `Thread`: memory and variables. Every thread has its own slots.
-/

namespace AdaSupport.Program

/-- A stretch of bytes that pointers can refer to. -/
inductive Region where
  | slot (s : Slot)
  | buffer (index : Nat)
  deriving DecidableEq, Repr

/-- A byte of a region. -/
structure Pointer where
  region : Region
  offset : Nat
  deriving DecidableEq, Repr

/-- The pointer `n` bytes further on. -/
def Pointer.advance (p : Pointer) (n : Nat) : Pointer := { p with offset := p.offset + n }

/-- A value of a program. -/
inductive Value where
  | integer (v : Int32)
  | real (v : Binary64)
  | pointer (v : Pointer)
  deriving DecidableEq, Repr

/-! ## Memory -/

/-- The slots and buffers of a thread. -/
structure Memory where
  slots : Slots
  buffers : List Bytes
  deriving DecidableEq, Repr

namespace Memory

/-- Empty slots and no buffer. -/
def fresh : Memory := ⟨.empty, []⟩

/-- The bytes of a region. -/
def get (m : Memory) : Region → Bytes
  | .slot s => m.slots.get s
  | .buffer i => m.buffers.getD i []

/-- The memory with the bytes of one region replaced. -/
def set (m : Memory) (r : Region) (bs : Bytes) : Memory :=
  match r with
  | .slot s => { m with slots := m.slots.set s bs }
  | .buffer i => { m with buffers := m.buffers.set i bs }

/-- The text that a pointer shows. -/
def text (m : Memory) (p : Pointer) : Bytes := Bytes.cString ((m.get p.region).drop p.offset)

/-- At most `n` bytes from a pointer on. -/
def window (m : Memory) (p : Pointer) (n : Nat) : Bytes := ((m.get p.region).drop p.offset).take n

/-- The memory with the bytes from a pointer on overwritten. -/
def overwrite (m : Memory) (p : Pointer) (bs : Bytes) : Memory :=
  let old := m.get p.region
  m.set p.region (old.take p.offset ++ bs ++ old.drop (p.offset + bs.length))

/-- Leave a result in its slot and point to it. -/
def leave (m : Memory) (s : Slot) (result : Bytes) : Pointer × Memory :=
  (⟨.slot s, 0⟩, { m with slots := m.slots.store s result })

/-- A new buffer of `size` bytes that starts with the given ones and goes on with zeros. -/
def allocate (m : Memory) (size : Nat) (bs : Bytes) : Pointer × Memory :=
  (⟨.buffer m.buffers.length, 0⟩,
    { m with buffers := m.buffers ++ [bs ++ List.replicate (size - bs.length) 0] })

end Memory

/-! ## Threads -/

/-- The memory and the variables of a thread. -/
structure Thread where
  memory : Memory
  bindings : List (String × Value)
  deriving DecidableEq, Repr

namespace Thread

/-- A thread that has just started. -/
def fresh : Thread := ⟨.fresh, []⟩

/-- The value of a variable. -/
def value? (t : Thread) (name : String) : Option Value := t.bindings.lookup name

/-- The integer in a variable, zero when it holds none. -/
def integer (t : Thread) (name : String) : Int32 :=
  match t.value? name with
  | some (.integer v) => v
  | _ => 0

/-- The real in a variable, zero when it holds none. -/
def real (t : Thread) (name : String) : Binary64 :=
  match t.value? name with
  | some (.real v) => v
  | _ => .zero

/-- The pointer in a variable, null when it holds none. -/
def pointer? (t : Thread) (name : String) : Option Pointer :=
  match t.value? name with
  | some (.pointer p) => some p
  | _ => none

/-- Store a value in the target variable, if there are both. -/
def assign (t : Thread) (target : Option String) (v : Option Value) : Thread :=
  match target, v with
  | some name, some v => { t with bindings := (name, v) :: t.bindings }
  | _, _ => t

end Thread

/-! ## Arguments -/

/-- A text argument: null, a text of its own, or a place that a variable points to. -/
inductive TextArgument where
  | null
  | literal (bytes : Bytes)
  | stored (name : String) (offset : Nat)
  deriving DecidableEq, Repr

/-- An integer argument. -/
inductive IntegerArgument where
  | literal (v : Int32)
  | stored (name : String)
  deriving DecidableEq, Repr

/-- A real argument. -/
inductive RealArgument where
  | literal (v : Binary64)
  | stored (name : String)
  deriving DecidableEq, Repr

/-- The place that an argument points to. -/
def TextArgument.pointer? (a : TextArgument) (t : Thread) : Option Pointer :=
  match a with
  | .stored name offset => (t.pointer? name).map (·.advance offset)
  | _ => none

/-- The text that an argument shows, absent for null. -/
def TextArgument.text (a : TextArgument) (t : Thread) : Text :=
  match a with
  | .literal bs => some (Bytes.cString bs)
  | _ => (a.pointer? t).map t.memory.text

/-- The value of an integer argument. -/
def IntegerArgument.value (a : IntegerArgument) (t : Thread) : Int32 :=
  match a with
  | .literal v => v
  | .stored name => t.integer name

/-- The value of a real argument. -/
def RealArgument.value (a : RealArgument) (t : Thread) : Binary64 :=
  match a with
  | .literal v => v
  | .stored name => t.real name

end AdaSupport.Program
