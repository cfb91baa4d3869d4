import AdaSupport.Program
import AdaSupport.Proofs.IntegerText
import AdaSupport.Proofs.Slots

/-!
# Text results

An operation that returns text leaves it in a slot of its thread. Its arguments may point into the
same slot, at any offset.

* `Operation.product?`: the slot of an operation and the text that the operations on byte strings
  and numbers specify for what its arguments show.
* `length_lt_of_product?`, `zero_not_mem_of_product?`: such a text fits into the slot, so it is
  never cut.
* `Thread.Sound`: all slots are terminated and all pointers refer to slots. It holds in every thread
  that has performed operations only (`sound_performAll`).
* **`run_leaves_product`**: after any operations, the next one leaves the specified text.
-/

namespace AdaSupport

/-! ## Results without zero bytes -/

namespace Text

variable {t : Text}

theorem zero_not_mem_substring (h : 0 ∉ t.bytes) (start length : Int32) :
    0 ∉ t.substring start length := by
  unfold substring
  split_ifs
  · simp
  · exact fun h0 => h (List.mem_of_mem_drop (List.mem_of_mem_take h0))

theorem zero_not_mem_concat {s : Text} (hs : 0 ∉ s.bytes) (ht : 0 ∉ t.bytes) :
    0 ∉ s.concat t := fun h0 =>
  (List.mem_append.mp (List.mem_of_mem_take h0)).elim hs ht

theorem zero_not_mem_map {f : UInt8 → UInt8} (hf : ∀ b, f b = 0 → b = 0) (h : 0 ∉ t.bytes) :
    0 ∉ (t.bytes.take maxLength).map f := by
  intro h0
  obtain ⟨b, hb, hfb⟩ := List.mem_map.mp h0
  obtain rfl := hf b hfb
  exact h (List.mem_of_mem_take hb)

end Text

theorem Bytes.toUpper_eq_zero (b : UInt8) (h : Bytes.toUpper b = 0) : b = 0 := by
  unfold Bytes.toUpper at h
  split_ifs at h with hb
  · have h₁ : 97 ≤ b.toNat := UInt8.le_iff_toNat_le.mp hb.1
    have h₂ := congrArg UInt8.toNat h
    rw [UInt8.toNat_sub] at h₂
    have h₃ := b.toNat_lt
    change (2 ^ 8 - 32 + b.toNat) % 2 ^ 8 = 0 at h₂
    omega
  · exact h

theorem Bytes.toLower_eq_zero (b : UInt8) (h : Bytes.toLower b = 0) : b = 0 := by
  unfold Bytes.toLower at h
  split_ifs at h with hb
  · have h₁ : b.toNat ≤ 90 := UInt8.le_iff_toNat_le.mp hb.2
    have h₂ := congrArg UInt8.toNat h
    rw [UInt8.toNat_add] at h₂
    change (b.toNat + 32) % 2 ^ 8 = 0 at h₂
    omega
  · exact h

namespace Program

/-! ## What an operation specifies -/

theorem TextArgument.zero_not_mem_text (a : TextArgument) (t : Thread) : 0 ∉ (a.text t).bytes := by
  cases a with
  | null => simp [TextArgument.text, TextArgument.pointer?, Text.bytes]
  | literal bs => exact Bytes.zero_not_mem_cString bs
  | stored name offset =>
    simp only [TextArgument.text]
    cases (TextArgument.stored name offset).pointer? t with
    | none => simp [Text.bytes]
    | some p => exact Bytes.zero_not_mem_cString _

/-- The slot of an operation that returns text, and the text that is specified for what its
arguments show. -/
def Operation.product? (op : Operation) (t : Thread) : Option (Slot × Bytes) :=
  match op with
  | .substring s i n => some (.substring, (s.text t).substring (i.value t) (n.value t))
  | .concat r s => some (.concat, (r.text t).concat (s.text t))
  | .toUpper s => some (.upper, (s.text t).toUpper)
  | .toLower s => some (.lower, (s.text t).toLower)
  | .integerText v => some (.integer, Numeral.ofInteger (v.value t))
  | .realText v => some (.real, Numeral.ofReal (v.value t))
  | _ => none

section Product

variable {op : Operation} {t : Thread} {slot : Slot} {result : Bytes}

theorem length_lt_of_product? (h : op.product? t = some (slot, result)) :
    result.length < slot.capacity := by
  cases op with
  | substring s i n => cases h; exact Nat.lt_succ_of_le (Text.length_substring_le _ _ _)
  | concat r s => cases h; exact Nat.lt_succ_of_le (Text.length_concat_le _ _)
  | toUpper s => cases h; exact Nat.lt_succ_of_le (Text.length_toUpper_le _)
  | toLower s => cases h; exact Nat.lt_succ_of_le (Text.length_toLower_le _)
  | integerText v => cases h; exact Nat.lt_succ_of_le (Numeral.length_ofInteger_le _)
  | realText v => cases h; exact Nat.lt_succ_of_le (Numeral.length_ofReal_le _)
  | _ => cases h

theorem zero_not_mem_of_product? (h : op.product? t = some (slot, result)) : 0 ∉ result := by
  cases op with
  | substring s i n => cases h; exact Text.zero_not_mem_substring (s.zero_not_mem_text t) _ _
  | concat r s =>
    cases h
    exact Text.zero_not_mem_concat (r.zero_not_mem_text t) (s.zero_not_mem_text t)
  | toUpper s => cases h; exact Text.zero_not_mem_map Bytes.toUpper_eq_zero (s.zero_not_mem_text t)
  | toLower s => cases h; exact Text.zero_not_mem_map Bytes.toLower_eq_zero (s.zero_not_mem_text t)
  | integerText v => cases h; exact (Numeral.visible_ofInteger _).zero_not_mem
  | realText v => cases h; exact (Numeral.visible_ofReal _).zero_not_mem
  | _ => cases h

theorem text_leave (m : Memory) (h : op.product? t = some (slot, result)) :
    (m.leave slot result).2.text ⟨.slot slot, 0⟩ = result :=
  Slots.cString_store slot (length_lt_of_product? h) (zero_not_mem_of_product? h)

/-- An operation that returns text shows what is specified. -/
theorem run_of_product? (h : op.product? t = some (slot, result)) : op.run t =
    ⟨.text result, some (.pointer ⟨.slot slot, 0⟩), (t.memory.leave slot result).2⟩ := by
  have hrun : op.run t = .ofText t.memory slot result := by
    cases op with
    | substring | concat | toUpper | toLower | integerText | realText => cases h; rfl
    | _ => cases h
  rw [hrun]
  change (⟨.text ((t.memory.leave slot result).2.text ⟨.slot slot, 0⟩), _, _⟩ : Outcome) = _
  rw [text_leave t.memory h]
  rfl

/-- The other operations leave the memory alone and return no pointer. -/
theorem run_of_product?_eq_none (h : op.product? t = none) :
    (op.run t).memory = t.memory ∧ ∀ p, (op.run t).value ≠ some (.pointer p) := by
  cases op with
  | peek s =>
    simp only [Operation.run]
    split <;> exact ⟨rfl, fun p => by simp⟩
  | substring | concat | toUpper | toLower | integerText | realText => cases h
  | _ => exact ⟨rfl, fun p => by simp [Operation.run, Outcome.ofInteger, Outcome.ofReal,
      Outcome.ofApproximate]⟩

end Product

/-! ## Sequences of operations -/

/-- The thread after an operation whose value the target variable keeps. -/
def Thread.perform (t : Thread) (op : Operation) (target : Option String) : Thread :=
  Thread.assign { t with memory := (op.run t).memory } target (op.run t).value

/-- The thread after some operations. -/
def Thread.performAll (t : Thread) (calls : List (Operation × Option String)) : Thread :=
  calls.foldl (fun t call => t.perform call.1 call.2) t

/-- Every slot is terminated, and every pointer refers to the front of a slot. -/
structure Thread.Sound (t : Thread) : Prop where
  slots : t.memory.slots.Terminated
  pointers : ∀ name p, t.pointer? name = some p → ∃ slot, p = ⟨.slot slot, 0⟩

theorem sound_fresh : Thread.fresh.Sound where
  slots := Slots.terminated_empty
  pointers _ _ h := nomatch h

@[simp] theorem Thread.memory_assign (t : Thread) (target : Option String) (v : Option Value) :
    (t.assign target v).memory = t.memory := by
  unfold Thread.assign
  split <;> rfl

theorem pointer?_assign {t : Thread} {target : Option String} {v : Option Value} {name : String}
    {p : Pointer} (h : (t.assign target v).pointer? name = some p) :
    v = some (.pointer p) ∨ t.pointer? name = some p := by
  unfold Thread.assign at h
  split at h
  · next key v =>
    by_cases hk : name = key
    · left
      subst hk
      simp only [Thread.pointer?, Thread.value?, List.lookup_cons_self] at h
      split at h <;> simp_all
    · right
      rwa [Thread.pointer?, Thread.value?, List.lookup_cons, beq_false_of_ne hk] at h
  · exact Or.inr h

/-- **An operation keeps its thread sound.** -/
theorem Thread.Sound.perform {t : Thread} (h : t.Sound) (op : Operation) (target : Option String) :
    (t.perform op target).Sound := by
  rcases hp : op.product? t with _ | ⟨slot, result⟩
  · obtain ⟨hm, hv⟩ := run_of_product?_eq_none hp
    refine ⟨?_, fun name p hname => ?_⟩
    · rw [Thread.perform, Thread.memory_assign, hm]
      exact h.slots
    · rcases pointer?_assign hname with e | e
      · exact absurd e (hv p)
      · exact h.pointers name p e
  · have hrun := run_of_product? hp
    refine ⟨?_, fun name p hname => ?_⟩
    · rw [Thread.perform, Thread.memory_assign, hrun]
      exact h.slots.store slot result
    · rcases pointer?_assign hname with e | e
      · rw [hrun] at e
        injection e with e
        injection e with e
        exact ⟨slot, e.symm⟩
      · exact h.pointers name p e

/-- **Every thread that has performed operations only is sound.** -/
theorem sound_performAll (calls : List (Operation × Option String)) :
    (Thread.fresh.performAll calls).Sound := by
  induction calls using List.reverseRecOn with
  | nil => exact sound_fresh
  | append_singleton calls call ih =>
    rw [Thread.performAll, List.foldl_append]
    exact ih.perform call.1 call.2

/-- What an argument points to is a text with a zero byte behind it. -/
def TextArgument.Terminated (a : TextArgument) (t : Thread) : Prop :=
  ∀ p, a.pointer? t = some p →
    ∃ rest, (t.memory.get p.region).drop p.offset = t.memory.text p ++ 0 :: rest

theorem Thread.Sound.terminated {t : Thread} (h : t.Sound) (name : String) {offset : ℕ}
    (ho : offset < Slot.size) : (TextArgument.stored name offset).Terminated t := by
  intro p hp
  obtain ⟨q, hq, rfl⟩ := Option.map_eq_some_iff.mp hp
  obtain ⟨slot, rfl⟩ := h.pointers name q hq
  have hoff : 0 + offset < Slot.size := by omega
  exact h.slots.exists_terminator slot hoff

/-- **After any operations, the next one that returns text leaves the specified text in its slot.**
Every place that an argument may point to shows a text that ends in its slot; the result is the
specified text for what the arguments show, and nothing else changes. -/
theorem run_leaves_product (calls : List (Operation × Option String)) (op : Operation)
    {slot : Slot} {result : Bytes}
    (h : op.product? (Thread.fresh.performAll calls) = some (slot, result)) :
    let t := Thread.fresh.performAll calls
    let after := (op.run t).memory
    (∀ name offset, offset < Slot.size → (TextArgument.stored name offset).Terminated t) ∧
      (∀ target p, (Step.compute op target).run t p =
        .running (.text result) (t.perform op target) p) ∧
      (op.run t).value = some (.pointer ⟨.slot slot, 0⟩) ∧
      after.text ⟨.slot slot, 0⟩ = result ∧
      (∀ other, other ≠ slot → after.slots.get other = t.memory.slots.get other) ∧
      ∀ i, result.length < i → (after.slots.get slot)[i]? = (t.memory.slots.get slot)[i]? := by
  intro t after
  have hrun : op.run t = _ := run_of_product? h
  have hafter : after = (t.memory.leave slot result).2 := congrArg Outcome.memory hrun
  refine ⟨fun name offset => (sound_performAll calls).terminated name, fun target p => ?_, ?_, ?_,
    fun other ho => ?_, fun i hi => ?_⟩
  · rw [Step.run, Thread.perform, hrun]
    rfl
  · rw [hrun]
  · rw [hafter, text_leave t.memory h]
  · rw [hafter]
    exact Slots.get_store_of_ne _ ho result
  · rw [hafter]
    exact Slots.getElem?_store_of_lt slot (lt_of_le_of_lt (List.length_take_le' _ _) hi)

/-- Both arguments point into the slot that the call overwrites. -/
theorem run_leaves_product_overlapping :
    let calls := [(Operation.concat (.literal [97, 98]) (.literal [99, 100]), some "x")]
    let op := Operation.concat (.stored "x" 1) (.stored "x" 0)
    (op.run (Thread.fresh.performAll calls)).memory.text ⟨.slot .concat, 0⟩ =
      [98, 99, 100, 97, 98, 99, 100] :=
  (run_leaves_product _ _ (by rfl)).2.2.2.1

end Program

end AdaSupport
