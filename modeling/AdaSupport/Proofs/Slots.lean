import AdaSupport.Slot
import Mathlib.Data.List.TakeWhile

/-!
# What slots show

* `Bytes.cString_append_zero`, `Bytes.exists_terminator`: text in front of a zero byte.
* `Slots.Terminated`: every slot has its full size and ends with a zero byte. It holds at the start
  (`terminated_empty`), and every store keeps it (**`Terminated.store`**).
* `Terminated.exists_terminator`: so text read from any place of a slot ends inside the slot.
* `getElem?_store_of_lt`: a store leaves the bytes behind its zero byte alone.
-/

namespace AdaSupport

namespace Bytes

theorem zero_not_mem_cString (bs : Bytes) : 0 ∉ cString bs := by
  intro h
  have := List.mem_takeWhile_imp h
  simp at this

theorem bne_zero_of_not_mem {bs : Bytes} (h : 0 ∉ bs) : ∀ b ∈ bs, (b != 0) = true := by
  intro b hb
  rw [bne_iff_ne]
  rintro rfl
  exact h hb

theorem cString_of_not_mem {bs : Bytes} (h : 0 ∉ bs) : cString bs = bs :=
  List.takeWhile_eq_self_iff.mpr (bne_zero_of_not_mem h)

theorem cString_append_zero_eq (bs rest : Bytes) : cString (bs ++ 0 :: rest) = cString bs := by
  unfold cString
  rw [List.takeWhile_append]
  split_ifs with h
  · have hfront : bs.takeWhile (· != 0) <+: bs := List.takeWhile_prefix _
    rw [List.takeWhile_cons_of_neg (by decide), List.append_nil, hfront.eq_of_length h]
  · rfl

theorem cString_append_zero {bs : Bytes} (h : 0 ∉ bs) (rest : Bytes) :
    cString (bs ++ 0 :: rest) = bs := by
  rw [cString_append_zero_eq, cString_of_not_mem h]

theorem exists_terminator {bs : Bytes} (h : 0 ∈ bs) : ∃ rest, bs = cString bs ++ 0 :: rest := by
  induction bs with
  | nil => exact nomatch h
  | cons b bs ih =>
    by_cases hb : b = 0
    · subst hb
      exact ⟨bs, rfl⟩
    · obtain ⟨rest, hrest⟩ := ih ((List.mem_cons.mp h).resolve_left (Ne.symm hb))
      refine ⟨rest, ?_⟩
      rw [cString, List.takeWhile_cons_of_pos (by simpa using hb), List.cons_append, ← cString,
        ← hrest]

section Terminated

variable {text old : Bytes}

theorem length_terminated (h : text.length < old.length) :
    (text ++ 0 :: old.drop (text.length + 1)).length = old.length := by
  rw [List.length_append, List.length_cons, List.length_drop]
  omega

theorem getElem?_terminated_length :
    (text ++ 0 :: old.drop (text.length + 1))[text.length]? = some 0 := by
  rw [List.getElem?_append_right le_rfl, Nat.sub_self, List.getElem?_cons_zero]

/-- A text and a zero byte that are written over the front of a string leave the rest alone. -/
theorem getElem?_terminated_of_lt {i : ℕ} (h : text.length < i) :
    (text ++ 0 :: old.drop (text.length + 1))[i]? = old[i]? := by
  obtain ⟨k, rfl⟩ := Nat.exists_eq_add_of_lt h
  rw [List.getElem?_append_right (by omega),
    show text.length + k + 1 - text.length = k + 1 by omega, List.getElem?_cons_succ,
    List.getElem?_drop]
  congr 1
  omega

end Terminated

end Bytes

theorem Slot.capacity_pos (slot : Slot) : 0 < slot.capacity := by cases slot <;> decide

theorem Slot.capacity_le_size (slot : Slot) : slot.capacity ≤ Slot.size := by
  cases slot <;> decide

namespace Slots

/-- Every slot has its full size and ends with a zero byte. -/
structure Terminated (s : Slots) : Prop where
  size : ∀ slot, (s.get slot).length = Slot.size
  last : ∀ slot, (s.get slot)[Slot.size - 1]? = some 0

theorem terminated_empty : Terminated empty where
  size slot := by cases slot <;> exact List.length_replicate
  last slot := by
    cases slot <;> exact List.getElem?_replicate_of_lt (show Slot.size - 1 < Slot.size by decide)

section Store

variable {s : Slots} (slot : Slot) {text : Bytes}

/-- The part of a text that a slot holds leaves room for the zero byte. -/
theorem length_kept_lt (text : Bytes) : (text.take (slot.capacity - 1)).length < Slot.size := by
  have h₁ := slot.capacity_pos
  have h₂ := slot.capacity_le_size
  rw [List.length_take]
  omega

theorem getElem?_store_of_lt {i : ℕ} (h : (text.take (slot.capacity - 1)).length < i) :
    ((s.store slot text).get slot)[i]? = (s.get slot)[i]? := by
  rw [get_store_self, Bytes.getElem?_terminated_of_lt h]

theorem getElem?_store_terminator :
    ((s.store slot text).get slot)[(text.take (slot.capacity - 1)).length]? = some 0 := by
  rw [get_store_self, Bytes.getElem?_terminated_length]

/-- **A store keeps every slot terminated.** -/
theorem Terminated.store (h : s.Terminated) (text : Bytes) : (s.store slot text).Terminated := by
  have hlt := length_kept_lt slot text
  refine ⟨fun other => ?_, fun other => ?_⟩ <;> by_cases ho : other = slot
  · subst ho
    rw [get_store_self, Bytes.length_terminated (hlt.trans_eq (h.size other).symm), h.size]
  · rw [get_store_of_ne s ho, h.size]
  · subst ho
    -- the last byte is the new zero byte, or the old last byte behind it
    rcases Nat.lt_or_ge (text.take (other.capacity - 1)).length (Slot.size - 1) with hi | hi
    · rw [getElem?_store_of_lt other hi, h.last]
    · rw [show Slot.size - 1 = (text.take (other.capacity - 1)).length by omega]
      exact getElem?_store_terminator other
  · rw [get_store_of_ne s ho, h.last]

/-- **Text read from any place of a slot ends inside the slot.** -/
theorem Terminated.exists_terminator (h : s.Terminated) {offset : ℕ} (ho : offset < Slot.size) :
    ∃ rest, (s.get slot).drop offset = Bytes.cString ((s.get slot).drop offset) ++ 0 :: rest := by
  refine Bytes.exists_terminator (List.mem_iff_getElem?.mpr ⟨Slot.size - 1 - offset, ?_⟩)
  rw [List.getElem?_drop, show offset + (Slot.size - 1 - offset) = Slot.size - 1 by omega, h.last]

/-- A text that fits and has no zero byte is what the slot shows after the store. -/
theorem cString_store (hlen : text.length < slot.capacity) (h0 : 0 ∉ text) :
    Bytes.cString ((s.store slot text).get slot) = text := by
  rw [get_store_self, List.take_of_length_le (by omega), Bytes.cString_append_zero h0]

end Store

end Slots

end AdaSupport
