import AdaSupport.Proofs.TextResults

/-!
# What stands behind a text in its slot

All slots have the same size, but a number's text may take less of it, and a short text leaves the
end of an earlier, longer one in its place. Text is read from any place of a slot, so what stands
behind the current text counts.

* `Slots.Confined`: each slot is zero from the last byte that its texts may take on.
* `Confined.store`: a store of any bytes keeps it so.
* `SlotUse`: a store of any bytes, or an operation of the thread; `confined_useAll`: no uses of the
  slots can break it.
* **`text_ends_in_slot`**: after any uses, text read from any place of a slot ends in the slot.
-/

namespace AdaSupport

namespace Slots

/-- Every slot is terminated, and zero from the last byte that its texts may take on. -/
structure Confined (s : Slots) : Prop extends Terminated s where
  zeros : ∀ slot i, slot.capacity - 1 ≤ i → i < Slot.size → (s.get slot)[i]? = some 0

theorem confined_empty : Confined empty where
  toTerminated := terminated_empty
  zeros slot i _ hi := by cases slot <;> exact List.getElem?_replicate_of_lt hi

variable {s : Slots}

/-- **A store keeps all slots confined**, whatever its bytes are. -/
theorem Confined.store (h : s.Confined) (slot : Slot) (text : Bytes) :
    (s.store slot text).Confined where
  toTerminated := h.toTerminated.store slot text
  zeros other i hi hsize := by
    by_cases ho : other = slot
    · subst ho
      have hkept : (text.take (other.capacity - 1)).length ≤ other.capacity - 1 :=
        List.length_take_le _ _
      -- the bytes that may not be zero end before `i`; at `i` is the new zero byte or an old one
      rcases (hkept.trans hi).eq_or_lt with he | hlt
      · rw [← he]
        exact getElem?_store_terminator other
      · rw [getElem?_store_of_lt other hlt]
        exact h.zeros other i hi hsize
    · rw [get_store_of_ne s ho]
      exact h.zeros other i hi hsize

end Slots

namespace Program

/-! ## Uses of the slots -/

/-- A use of a thread's slots: a store of any bytes, or an operation. A variable may keep the
result. -/
inductive SlotUse where
  | store (slot : Slot) (bytes : Bytes) (target : Option String)
  | operation (op : Operation) (target : Option String)

/-- The thread after a use of its slots. -/
def Thread.use (t : Thread) : SlotUse → Thread
  | .store slot bytes target =>
    let (p, m) := t.memory.leave slot bytes
    Thread.assign { t with memory := m } target (some (.pointer p))
  | .operation op target => t.perform op target

/-- The thread after some uses of its slots. -/
def Thread.useAll (t : Thread) (uses : List SlotUse) : Thread := uses.foldl Thread.use t

/-- An operation makes at most one store. -/
theorem slots_perform (t : Thread) (op : Operation) (target : Option String) :
    (t.perform op target).memory.slots = t.memory.slots ∨
      ∃ slot result, (t.perform op target).memory.slots = t.memory.slots.store slot result := by
  rw [Thread.perform, Thread.memory_assign]
  rcases hp : op.product? t with _ | ⟨slot, result⟩
  · exact .inl (congrArg Memory.slots (run_of_product?_eq_none hp).1)
  · exact .inr ⟨slot, result, by rw [run_of_product? hp]; rfl⟩

/-- **A use of the slots keeps them confined.** -/
theorem confined_use {t : Thread} (h : t.memory.slots.Confined) (use : SlotUse) :
    (t.use use).memory.slots.Confined := by
  cases use with
  | store slot bytes target =>
    rw [Thread.use, Thread.memory_assign]
    exact h.store slot bytes
  | operation op target =>
    rw [Thread.use]
    rcases slots_perform t op target with hslots | ⟨slot, result, hslots⟩
    · rw [hslots]
      exact h
    · rw [hslots]
      exact h.store slot result

/-- **No uses of the slots can break their bounds.** -/
theorem confined_useAll {t : Thread} (h : t.memory.slots.Confined) (uses : List SlotUse) :
    (t.useAll uses).memory.slots.Confined := by
  induction uses generalizing t with
  | nil => exact h
  | cons use uses ih => exact ih (confined_use h use)

/-- Text read from a place of a terminated slot, and the zero byte behind it. -/
theorem text_of_terminated {m : Memory} (h : m.slots.Terminated) (slot : Slot) {offset : ℕ}
    (ho : offset < Slot.size) :
    offset + (m.text ⟨.slot slot, offset⟩).length < Slot.size ∧
      (m.slots.get slot)[offset + (m.text ⟨.slot slot, offset⟩).length]? = some 0 := by
  obtain ⟨rest, hrest⟩ := h.exists_terminator slot ho
  change _ = m.text ⟨.slot slot, offset⟩ ++ 0 :: rest at hrest
  have hlen := congrArg List.length hrest
  rw [List.length_drop, h.size, List.length_append, List.length_cons] at hlen
  refine ⟨by omega, ?_⟩
  rw [← List.getElem?_drop, hrest, List.getElem?_append_right le_rfl, Nat.sub_self,
    List.getElem?_cons_zero]

/-- **Text read from any place of a slot ends in the slot**, whatever was stored before. The last
byte of every slot is zero, and so is every byte of a number's slot that its texts may not take. -/
theorem text_ends_in_slot (uses : List SlotUse) :
    let m := (Thread.fresh.useAll uses).memory
    (∀ slot, (m.slots.get slot).length = 1024 ∧ (m.slots.get slot)[1023]? = some 0) ∧
      (∀ i, 63 ≤ i → i < 1024 → m.slots.integer[i]? = some 0 ∧ m.slots.real[i]? = some 0) ∧
      ∀ slot offset, offset < 1024 →
        offset + (m.text ⟨.slot slot, offset⟩).length < 1024 ∧
          (m.slots.get slot)[offset + (m.text ⟨.slot slot, offset⟩).length]? = some 0 := by
  intro m
  have h : m.slots.Confined := confined_useAll Slots.confined_empty uses
  refine ⟨fun slot => ⟨h.size slot, h.last slot⟩, fun i hi hsize => ?_, fun slot offset ho => ?_⟩
  · exact ⟨h.zeros .integer i hi hsize, h.zeros .real i hi hsize⟩
  · exact text_of_terminated h.toTerminated slot ho

/-- An overlong text with a zero byte in it, and a short number in front of what is left of it. -/
theorem text_ends_in_slot_behind_number :
    let uses := [.store .integer (0 :: List.replicate 200 57) none,
      SlotUse.operation (.integerText (.literal (-7))) (some "x")]
    let m := (Thread.fresh.useAll uses).memory
    m.text ⟨.slot .integer, 3⟩ = List.replicate 60 57 ∧ 3 + 60 < 1024 ∧
      m.slots.integer[3 + 60]? = some 0 := by
  intro uses m
  have htext : m.text ⟨.slot .integer, 3⟩ = List.replicate 60 57 := by decide +kernel
  have hend := (text_ends_in_slot uses).2.2 .integer 3 (by decide)
  change _ + (m.text ⟨.slot .integer, 3⟩).length < _ ∧
    _[_ + (m.text ⟨.slot .integer, 3⟩).length]? = _ at hend
  rw [htext, List.length_replicate] at hend
  exact ⟨htext, hend⟩

end Program

end AdaSupport
