import AdaSupport.Bytes

/-!
# Result slots

An operation that returns text leaves it in a slot of its own and hands out a reference to it. The
text stays there, followed by a zero byte, until the operation runs again.

* `Slots.store`: leave a text in a slot, cut to what fits in front of the zero byte. The bytes
  behind it keep what an earlier, longer text left there.
* `get_store_of_ne`: the other slots are not touched.
-/

namespace AdaSupport

/-- The slots, one for each operation that returns text. -/
inductive Slot where
  | substring
  | concat
  | upper
  | lower
  | integer
  | real
  deriving DecidableEq, Repr

namespace Slot

/-- The number of bytes in every slot. -/
def size : Nat := 1024

/-- The number of bytes that a number's text and its zero byte may take. -/
def numericSize : Nat := 64

/-- The number of bytes that a text in the slot and its zero byte may take. -/
def capacity : Slot → Nat
  | .integer | .real => numericSize
  | _ => size

end Slot

/-- The contents of the six slots. -/
structure Slots where
  substring : Bytes
  concat : Bytes
  upper : Bytes
  lower : Bytes
  integer : Bytes
  real : Bytes
  deriving DecidableEq, Repr

namespace Slots

/-- Slots that hold zero bytes only. -/
def empty : Slots :=
  let zeros := List.replicate Slot.size 0
  ⟨zeros, zeros, zeros, zeros, zeros, zeros⟩

/-- The bytes of a slot. -/
def get (s : Slots) : Slot → Bytes
  | .substring => s.substring
  | .concat => s.concat
  | .upper => s.upper
  | .lower => s.lower
  | .integer => s.integer
  | .real => s.real

/-- The slots with the bytes of one of them replaced. -/
def set (s : Slots) (slot : Slot) (bs : Bytes) : Slots :=
  match slot with
  | .substring => { s with substring := bs }
  | .concat => { s with concat := bs }
  | .upper => { s with upper := bs }
  | .lower => { s with lower := bs }
  | .integer => { s with integer := bs }
  | .real => { s with real := bs }

@[simp] theorem get_set_self (s : Slots) (slot : Slot) (bs : Bytes) :
    (s.set slot bs).get slot = bs := by
  cases slot <;> rfl

@[simp] theorem get_set_of_ne (s : Slots) {slot other : Slot} (h : other ≠ slot) (bs : Bytes) :
    (s.set slot bs).get other = s.get other := by
  cases slot <;> cases other <;> first | rfl | exact absurd rfl h

/-- The slots with a text and a zero byte written to the front of one of them. -/
def store (s : Slots) (slot : Slot) (text : Bytes) : Slots :=
  let kept := text.take (slot.capacity - 1)
  s.set slot (kept ++ 0 :: (s.get slot).drop (kept.length + 1))

theorem get_store_of_ne (s : Slots) {slot other : Slot} (h : other ≠ slot) (text : Bytes) :
    (s.store slot text).get other = s.get other :=
  get_set_of_ne s h _

theorem get_store_self (s : Slots) (slot : Slot) (text : Bytes) :
    (s.store slot text).get slot = text.take (slot.capacity - 1) ++
      0 :: (s.get slot).drop ((text.take (slot.capacity - 1)).length + 1) :=
  get_set_self s slot _

end Slots

end AdaSupport
