import AdaSupport.Text
import Mathlib.Data.Nat.Notation

/-!
# Expressions of text operations

Every operation cuts its result, so an expression is cut at many places on the way. None of the
inner cuts is ever seen: an expression has a normal form, in which the operands stand one after the
other and only the end result is cut.

* `Expression.value`: an expression carried out with the text operations.
* `Expression.uncut`: the same without any cut.
* `Expression.operands`: the operands from left to right, each with the changes of case on its way
  from the root.
* `take_bytes_value`: the front of a value does not depend on the cuts below it.
* `uncut_eq_spelled`: a change of case absorbs the ones below it.
* **`value_normal_form`**: the normal form, and the laws that follow from it.
-/

namespace AdaSupport.Text

/-- The front of two strings one after the other depends on the fronts of both. -/
theorem take_append_congr {α : Type} {n : ℕ} {xs xs' ys ys' : List α} (hx : xs.take n = xs'.take n)
    (hy : ys.take n = ys'.take n) : (xs ++ ys).take n = (xs' ++ ys').take n := by
  have hlen : n - xs.length = n - xs'.length := by
    have := congrArg List.length hx
    simp only [List.length_take] at this
    omega
  have hrest : ys.take (n - xs.length) = ys'.take (n - xs.length) := by
    have := congrArg (List.take (n - xs.length)) hy
    rwa [List.take_take, List.take_take, Nat.min_eq_left (Nat.sub_le _ _)] at this
  rw [List.take_append, List.take_append, hx, hrest, hlen]

/-! ## Changes of case -/

/-- A change of all letters. -/
inductive Case where
  | upper
  | lower
  deriving DecidableEq, Repr

namespace Case

/-- The change of one byte. -/
def byte : Case → UInt8 → UInt8
  | .upper => Bytes.toUpper
  | .lower => Bytes.toLower

/-- The operation on texts. -/
def apply : Case → Text → Bytes
  | .upper => Text.toUpper
  | .lower => Text.toLower

theorem apply_eq (c : Case) (t : Text) : c.apply t = (t.bytes.take maxLength).map c.byte := by
  cases c <;> rfl

/-- **A change of case absorbs an earlier one.** -/
theorem byte_byte (c d : Case) (b : UInt8) : c.byte (d.byte b) = c.byte b := by
  cases c <;> cases d <;> simp only [byte, Bytes.toUpper, Bytes.toLower] <;> grind

/-- The change made by the first of several, none when there is none. -/
def outermost : List Case → UInt8 → UInt8
  | [] => id
  | c :: _ => c.byte

theorem byte_outermost (c : Case) (path : List Case) (b : UInt8) :
    c.byte (outermost path b) = c.byte b := by
  cases path with
  | nil => rfl
  | cons d _ => exact byte_byte c d b

end Case

/-! ## Expressions -/

/-- An expression of the operations that join texts and change their case. -/
inductive Expression where
  | operand (t : Text)
  | concat (l r : Expression)
  | cased (c : Case) (e : Expression)
  deriving DecidableEq, Repr

namespace Expression

/-- Whether the expression is more than an operand. -/
def IsCall : Expression → Prop
  | operand _ => False
  | _ => True

theorem isCall_concat (l r : Expression) : (concat l r).IsCall := trivial

theorem isCall_cased (c : Case) (e : Expression) : (cased c e).IsCall := trivial

/-- The expression carried out, operation by operation. -/
def value : Expression → Text
  | operand t => t
  | concat l r => some (l.value.concat r.value)
  | cased c e => some (c.apply e.value)

/-- What the expression would come to if no operation cut its result. -/
def uncut : Expression → Bytes
  | operand t => t.bytes
  | concat l r => l.uncut ++ r.uncut
  | cased c e => e.uncut.map c.byte

/-- The operands from left to right, each with the changes of case on the path to it, the outermost
one first. -/
def operands : Expression → List (List Case × Text)
  | operand t => [([], t)]
  | concat l r => l.operands ++ r.operands
  | cased c e => e.operands.map fun o => (c :: o.1, o.2)

/-- The operands one after the other, every byte changed by the outermost change on its path. -/
def spelled (e : Expression) : Bytes :=
  e.operands.flatMap fun o => o.2.bytes.map (Case.outermost o.1)

/-! ## Cuts -/

theorem take_bytes_value (e : Expression) :
    e.value.bytes.take maxLength = e.uncut.take maxLength := by
  induction e with
  | operand t => rfl
  | concat l r ihl ihr =>
    rw [value, bytes_some, Text.concat, List.take_take, Nat.min_self]
    exact take_append_congr ihl ihr
  | cased c e ih =>
    rw [value, bytes_some, c.apply_eq, ← List.map_take, List.take_take, Nat.min_self, ih, uncut,
      List.map_take]

theorem value_eq_take {e : Expression} (h : e.IsCall) :
    e.value = some (e.value.bytes.take maxLength) := by
  cases e with
  | operand t => exact h.elim
  | concat l r => exact congrArg some (List.take_of_length_le (length_concat_le _ _)).symm
  | cased c e =>
    refine congrArg some (List.take_of_length_le ?_).symm
    cases c with
    | upper => exact length_toUpper_le _
    | lower => exact length_toLower_le _

theorem value_eq_uncut {e : Expression} (h : e.IsCall) :
    e.value = some (e.uncut.take maxLength) := by
  rw [value_eq_take h, take_bytes_value]

/-! ## Operands -/

theorem spelled_concat (l r : Expression) : (concat l r).spelled = l.spelled ++ r.spelled :=
  List.flatMap_append

theorem spelled_cased (c : Case) (e : Expression) :
    (cased c e).spelled = e.spelled.map c.byte := by
  simp only [spelled, operands, List.flatMap_map, List.map_flatMap, List.map_map]
  refine congrArg (e.operands.flatMap ·) (funext fun o => List.map_congr_left fun b _ => ?_)
  exact (Case.byte_outermost c o.1 b).symm

theorem uncut_eq_spelled (e : Expression) : e.uncut = e.spelled := by
  induction e with
  | operand t => simp [uncut, spelled, operands, Case.outermost]
  | concat l r ihl ihr => rw [uncut, ihl, ihr, spelled_concat]
  | cased c e ih => rw [uncut, ih, spelled_cased]

/-! ## The normal form -/

/-- **Only the last cut of an expression is seen.** The value of an expression with at least one
operation is the front of its operands in order, every byte changed by the outermost change of case
above it; it is also the front of what the expression comes to without cuts. So it does not matter
how joins are bracketed, and a change of case may be made before or after a join. -/
theorem value_normal_form (e : Expression) (h : e.IsCall) :
    e.value = some (e.spelled.take 1023) ∧
      e.value = some (e.uncut.take 1023) ∧
      (∀ a b c : Expression, (concat (concat a b) c).value = (concat a (concat b c)).value) ∧
      ∀ (c : Case) (a b : Expression),
        (cased c (concat a b)).value = (concat (cased c a) (cased c b)).value := by
  refine ⟨?_, value_eq_uncut h, fun a b c => ?_, fun c a b => ?_⟩
  · rw [← uncut_eq_spelled]
    exact value_eq_uncut h
  · rw [value_eq_uncut (isCall_concat _ _), value_eq_uncut (isCall_concat _ _)]
    simp only [uncut, List.append_assoc]
  · rw [value_eq_uncut (isCall_cased _ _), value_eq_uncut (isCall_concat _ _)]
    simp only [uncut, List.map_append]

/-- More than fits, under two changes of case. Behind the cut stand an absent text and one that
would be kept as it is. -/
def overfull : Expression :=
  concat (cased .upper (concat (cased .lower (operand (some (List.replicate 1022 65))))
    (operand (some [98, 99])))) (concat (operand none) (operand (some [100])))

theorem value_normal_form_overfull : overfull.IsCall ∧
    overfull.spelled = List.replicate 1022 65 ++ [66, 67, 100] ∧
      overfull.value = some (List.replicate 1022 65 ++ [66]) := by
  have hspelled : overfull.spelled = List.replicate 1022 65 ++ [66, 67, 100] := by decide +kernel
  refine ⟨trivial, hspelled, (value_normal_form overfull trivial).1.trans ?_⟩
  rw [hspelled]
  decide +kernel

end Expression

end AdaSupport.Text
