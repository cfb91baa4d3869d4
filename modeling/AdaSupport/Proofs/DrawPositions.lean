import AdaSupport.Generator
import AdaSupport.Proofs.Rounding

/-!
# Random numbers depend on their position only

A generator is asked for draws, reals and integers, or passes over draws, in any order. What a
request gives is settled by the number of draws before it.

* `Keystream.blocks`: the words of the first blocks in order; `getElem?_blocks`: the word at a
  position is found there.
* `Draw.real_spec`, `Draw.toInt_integer`: the exact numbers that a draw gives.
* `Op.run_eq`, `after_eq`: an operation takes one word and moves one position on.
* **`outputs_by_position`**: what an operation gives is a function of the word at its position.
-/

namespace AdaSupport

/-! ## The keystream -/

namespace Keystream

/-- The words of the first `n` blocks. -/
def blocks (key : List UInt32) (n : ℕ) : List UInt32 :=
  (List.range n).flatMap fun i => (block key i).toList

theorem length_blocks (key : List UInt32) (n : ℕ) : (blocks key n).length = 16 * n := by
  simp [blocks, List.length_flatMap, mul_comm]

theorem blocks_succ (key : List UInt32) (n : ℕ) :
    blocks key (n + 1) = blocks key n ++ (block key n).toList := by
  simp [blocks, List.range_succ]

/-- **The word at a position is found there in the blocks.** -/
theorem getElem?_blocks (key : List UInt32) {n i : ℕ} (hi : i < 16 * n) :
    (blocks key n)[i]? = some (word key i) := by
  induction n with
  | zero => omega
  | succ n ih =>
    rw [blocks_succ]
    by_cases h : i < 16 * n
    · rw [List.getElem?_append_left (by rwa [length_blocks]), ih h]
    · have hblock : i / 16 = n := by omega
      have hword : i - 16 * n = i % 16 := by omega
      rw [List.getElem?_append_right (by rw [length_blocks]; omega), length_blocks, hword,
        Vector.getElem?_toList, word, hblock]
      exact Vector.getElem?_eq_getElem (Nat.mod_lt i (by decide))

/-- The first word of the first block, and the last one of the second, with the key zero. -/
example : word (List.replicate 8 0) 0 = 0x6a9af49b ∧ word (List.replicate 8 0) 31 = 0x1693e617 := by
  decide +kernel

end Keystream

/-! ## What a draw gives -/

namespace Draw

theorem ofWord_eq (w : UInt32) : ofWord w = (w >>> 1).toNat := by
  rw [UInt32.toNat_shiftRight]
  exact (Nat.shiftRight_one _).symm

theorem ofWord_lt (w : UInt32) : ofWord w < 2 ^ 31 := by
  have := w.toNat_lt
  change w.toNat / 2 < 2 ^ 31
  omega

/-- **A draw as a real is the exact fraction**: 31 bits fit into a significand. -/
theorem real_spec {d : ℕ} (h : d < 2 ^ 31) : (Draw.real d).isFinite = true ∧
    (Draw.real d).negative = false ∧ (Draw.real d).value = d / 2 ^ 31 := by
  -- the fraction in units, a whole number of 31 bits and a shift
  obtain ⟨u, hu⟩ : ∃ u, u = twoTo 1043 := ⟨_, rfl⟩
  have hu0 : 0 < u := hu ▸ twoTo_pos 1043
  have hone : Pattern.unitsPerOne = u * 2 ^ 31 := by
    rw [hu]
    decide +kernel
  obtain ⟨p, hp⟩ := Pattern.exists_units_eq 1043 (show d ≤ 2 ^ 53 by omega)
  rw [← twoTo_eq_pow, ← hu] at hp
  have hlt : p < Pattern.infinity := by
    refine Pattern.units_strictMono.lt_iff_lt.mp ?_
    calc Pattern.units p = d * u := hp
      _ < 2 ^ 31 * u := Nat.mul_lt_mul_of_pos_right h hu0
      _ = Pattern.unitsPerOne := by rw [hone, mul_comm]
      _ < Pattern.units Pattern.infinity := by decide +kernel
  have hreal : Draw.real d = .ofPattern false p := by
    have hunits : Pattern.units p * (largest + 1) = d * Pattern.unitsPerOne := by
      rw [hp, hone, show largest + 1 = 2 ^ 31 from rfl, mul_assoc]
    rw [Draw.real, Pattern.nearest_of_units (Nat.succ_pos _) hlt.le hunits]
  have hp63 : p < 2 ^ 63 := hlt.trans (by decide +kernel)
  obtain ⟨hpattern, hnegative⟩ := Binary64.pattern_ofPattern false hp63
  rw [hreal]
  refine ⟨?_, hnegative, ?_⟩
  · rw [Binary64.isFinite, hpattern]
    exact decide_eq_true hlt
  · have hu' : (u : ℚ) ≠ 0 := Nat.cast_ne_zero.mpr hu0.ne'
    rw [Binary64.value, hnegative, hpattern, if_neg Bool.false_ne_true, Pattern.value, hp, hone,
      Nat.cast_mul, Nat.cast_mul, mul_comm (d : ℚ), mul_div_mul_left _ _ hu', Nat.cast_pow,
      Nat.cast_ofNat]

/-- The value of a draw in a range; it never leaves the range, so nothing wraps around. -/
theorem toInt_integer (d : Draw) (a b : Int32) : (d.integer a b).toInt =
    min a.toInt b.toInt + d % (max a.toInt b.toInt - min a.toInt b.toInt + 1) := by
  have ha := a.le_toInt
  have ha' := a.toInt_lt
  have hb := b.le_toInt
  have hb' := b.toInt_lt
  have hspan : 0 < max a.toInt b.toInt - min a.toInt b.toInt + 1 := by omega
  have h₁ := Int.emod_nonneg (d : ℤ) hspan.ne'
  have h₂ := Int.emod_lt_of_pos (d : ℤ) hspan
  exact Int32.toInt_ofInt_of_le (by omega) (by omega)

end Draw

/-! ## Sequences of operations -/

namespace Generator

/-- An operation on a generator. -/
inductive Op where
  | draw
  | real
  | integer (a b : Int32)
  | skip (n : ℕ)

/-- What an operation gives. -/
inductive Output where
  | draw (d : Draw)
  | real (x : Binary64)
  | integer (v : Int32)
  | nothing

/-- Perform an operation. -/
def Op.run (op : Op) (g : Generator) : Output × Generator :=
  match op with
  | .draw => (.draw g.draw.1, g.draw.2)
  | .real => (.real g.real.1, g.real.2)
  | .integer a b => (.integer (g.integer a b).1, (g.integer a b).2)
  | .skip n => (.nothing, g.skip n)

/-- The generator after some operations. -/
def after (g : Generator) (ops : List Op) : Generator := ops.foldl (fun g op => (op.run g).2) g

/-- What operations give, one after the other. -/
def outputs (g : Generator) : List Op → List Output
  | [] => []
  | op :: ops => (op.run g).1 :: (op.run g).2.outputs ops

/-- The number of draws that an operation takes. -/
def Op.draws : Op → ℕ
  | .skip n => n
  | _ => 1

/-- The number of draws that operations take together. -/
def draws (ops : List Op) : ℕ := (ops.map Op.draws).sum

/-- What an operation gives for the word at its position. -/
def Op.output (op : Op) (w : UInt32) : Output :=
  match op with
  | .draw => .draw (Draw.ofWord w)
  | .real => .real (Draw.ofWord w).real
  | .integer a b => .integer ((Draw.ofWord w).integer a b)
  | .skip _ => .nothing

/-- What an operation has to give for a word: the word without its lowest bit, that number as a
fraction of `2 ^ 31`, or its remainder counted from the lower bound. -/
def Op.Gives (op : Op) (w : UInt32) : Output → Prop
  | .draw d => op = .draw ∧ d = (w >>> 1).toNat
  | .real x => op = .real ∧ x.isFinite = true ∧ x.negative = false ∧
    x.value = (w >>> 1).toNat / 2 ^ 31 ∧ 0 ≤ x.value ∧ x.value < 1
  | .integer v => ∃ a b, op = .integer a b ∧ v.toInt = min a.toInt b.toInt +
    (w >>> 1).toNat % (max a.toInt b.toInt - min a.toInt b.toInt + 1)
  | .nothing => ∃ n, op = .skip n

theorem Op.gives_output (op : Op) (w : UInt32) : op.Gives w (op.output w) := by
  have hw := Draw.ofWord_eq w
  cases op with
  | draw => exact ⟨rfl, hw⟩
  | real =>
    have hlt := Draw.ofWord_lt w
    obtain ⟨hfinite, hnegative, hvalue⟩ := Draw.real_spec hlt
    have hlt' : (Draw.ofWord w : ℚ) < 2 ^ 31 := by exact_mod_cast hlt
    refine ⟨rfl, hfinite, hnegative, by rw [hvalue, hw], ?_, ?_⟩
    · rw [hvalue]
      positivity
    · rw [hvalue, div_lt_one (by positivity)]
      exact hlt'
  | integer a b => exact ⟨a, b, rfl, by rw [Draw.toInt_integer, hw]⟩
  | skip n => exact ⟨n, rfl⟩

/-- **An operation takes the word at its position**, and moves on by the draws that it takes. -/
theorem Op.run_eq (op : Op) (g : Generator) : op.run g =
    (op.output (Keystream.word g.key g.position), ⟨g.key, g.position + op.draws⟩) := by
  cases op <;> rfl

/-- **Operations move on by the draws that they take**, whatever they are. -/
theorem after_eq (g : Generator) (ops : List Op) :
    g.after ops = ⟨g.key, g.position + draws ops⟩ := by
  induction ops generalizing g with
  | nil => rfl
  | cons op ops ih =>
    have hcons : g.after (op :: ops) = (op.run g).2.after ops := rfl
    rw [hcons, ih, op.run_eq, draws, draws, List.map_cons, List.sum_cons, add_assoc]

theorem outputs_append (g : Generator) (ops more : List Op) :
    g.outputs (ops ++ more) = g.outputs ops ++ (g.after ops).outputs more := by
  induction ops generalizing g with
  | nil => rfl
  | cons op ops ih => exact congrArg ((op.run g).1 :: ·) (ih _)

theorem length_outputs (g : Generator) (ops : List Op) : (g.outputs ops).length = ops.length := by
  induction ops generalizing g with
  | nil => rfl
  | cons op ops ih => rw [outputs, List.length_cons, List.length_cons, ih]

/-- **What an operation gives is settled by its position.** It is a function of the operation and of
the word at the number of draws before it; other operations in front that take as many draws change
nothing from there on. -/
theorem outputs_by_position (seed : UInt64) (before : List Op) (op : Op) (later : List Op) :
    let w := Keystream.word (Keystream.key seed) (draws before)
    (∀ n, draws before < 16 * n →
        (Keystream.blocks (Keystream.key seed) n)[draws before]? = some w) ∧
      ((ofSeed seed).after before).position = draws before ∧
      ((ofSeed seed).after (before ++ [op])).position = draws before + op.draws ∧
      ((ofSeed seed).outputs (before ++ op :: later))[before.length]? = some (op.output w) ∧
      op.Gives w (op.output w) ∧
      ∀ before', draws before' = draws before →
        ((ofSeed seed).outputs (before' ++ op :: later)).drop before'.length =
          ((ofSeed seed).outputs (before ++ op :: later)).drop before.length := by
  intro w
  have hafter : ∀ ops, (ofSeed seed).after ops = ⟨Keystream.key seed, draws ops⟩ := fun ops => by
    rw [after_eq, ofSeed, Nat.zero_add]
  -- the outputs behind `ops` are those of the generator at that position
  have hdrop : ∀ ops, ((ofSeed seed).outputs (ops ++ op :: later)).drop ops.length =
      outputs ⟨Keystream.key seed, draws ops⟩ (op :: later) := fun ops => by
    rw [outputs_append, hafter, List.drop_left' (length_outputs _ _)]
  refine ⟨fun n => Keystream.getElem?_blocks _, by rw [hafter], ?_, ?_, op.gives_output w, ?_⟩
  · rw [hafter]
    simp [draws]
  · rw [← List.head?_drop, hdrop, outputs, List.head?_cons, op.run_eq]
  · intro before' h
    rw [hdrop, hdrop, h]

/-- A range with one value and a range with swapped bounds take their draws as any others do; the
position lies in the fifth block. -/
theorem outputs_by_position_across_blocks :
    let later := [Op.draw, .integer 4 4]
    ((ofSeed 7).outputs ([.skip 73] ++ .real :: later)).drop 1 =
        ((ofSeed 7).outputs ([.integer 5 1, .skip 70, .integer 4 4, .real] ++ .real :: later)).drop
          4 ∧
      (Keystream.blocks (Keystream.key 7) 5)[73]? =
        some (Keystream.word (Keystream.key 7) 73) := by
  intro later
  have h := outputs_by_position 7 [.integer 5 1, .skip 70, .integer 4 4, .real] .real later
  exact ⟨h.2.2.2.2.2 [.skip 73] (by decide), h.1 5 (by decide)⟩

end Generator

end AdaSupport
