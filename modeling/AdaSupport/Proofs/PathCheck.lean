import AdaSupport.Link.Options
import AdaSupport.Proofs.EncodedText

/-!
# The path check

The check looks for a dash in the text shown for a path, and for a segment that leads upward among
the components of its bytes, where repeated slashes and inner dots are passed over. Both questions
can be put to the bytes alone, and both can be put to the text alone.

* `fault?_eq`: the check in terms of bytes.
* `fault?_congr`: the check in terms of the repaired text.
* **`fault?_decides_bytes_and_text`**: a path and the text that is passed on get one verdict.
-/

namespace AdaSupport.Path

open Utf8

/-- The dash. -/
def dash : UInt8 := 45

/-- **The check reads bytes.** Showing the path as text makes up no dash, and its components hide no
segment that leads upward. -/
theorem fault?_eq (p : Bytes) : fault? p =
    if p.head? = some dash then some .leadingDash
    else if parent ∈ p.splitOn slash then some .parentSegment
    else none := by
  have hdash := head?_repaired (b := dash) (c := '-') (by decide) rfl p
  simp only [fault?, hdash, any_components, segments_eq_splitOn]

/-- **The check reads text.** -/
theorem fault?_congr {p q : Bytes} (h : repaired p = repaired q) : fault? p = fault? q := by
  simp only [fault?, any_components, parent_mem_segments_iff, h]

theorem fault?_bytes_display (p : Bytes) : fault? (bytes (display p)) = fault? p :=
  fault?_congr (by rw [bytes, display, String.toList_ofList, repaired_encode])

/-- **A path and the text shown for it get the same verdict**, and both depend on the bytes of the
path only: it is accepted if it starts with no dash and nothing between its slashes leads upward,
and a dash is reported before anything else. The text is what the compiler driver receives. -/
theorem fault?_decides_bytes_and_text (p : Bytes) :
    (fault? p = none ↔ p.head? ≠ some dash ∧ parent ∉ p.splitOn slash) ∧
      (fault? p = some .leadingDash ↔ p.head? = some dash) ∧
      (fault? p = some .parentSegment ↔ p.head? ≠ some dash ∧ parent ∈ p.splitOn slash) ∧
      fault? (bytes (display p)) = fault? p ∧
      ∀ (o : Link.Options) (target : String), (o.arguments target).take 4 =
        [display o.input, display o.runtime, "-o", display o.output] := by
  refine ⟨?_, ?_, ?_, fault?_bytes_display p, fun o target => rfl⟩
  all_goals
    rw [fault?_eq]
    split_ifs <;> simp_all

-- an ill-formed byte swallows no dot behind it, and an inner dot hides nothing
example : fault? [0xF0, 46, 46, 47, 46, 47, 46, 46] = some .parentSegment := by decide +kernel

end AdaSupport.Path
