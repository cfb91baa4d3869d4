import AdaSupport.Stream.Reader
import Mathlib.Data.List.TakeDrop
import Mathlib.Data.List.TakeWhile

/-!
# Chunks are invisible to readers

A stream shows its bytes in chunks of its own choice, and both loops of the readers work on what is
in view. What they take depends on the bytes left and on the ending only.

* `takeLine_eq`, `skipBlanks_eq`: the two loops in terms of the bytes left; `tokenLine_eq`,
  `readNumber_eq`: the readers of numbers.
* `Stream.Agrees`: two streams with the same bytes left and the same ending.
* `ReadOp.run_agrees`: a read on streams that agree has the same result and leaves them so.
* **`readAll_eq_inOneChunk`**: any sequence of reads, with any cuts, goes as on the stream that
  shows all its bytes at once.
-/

namespace AdaSupport

namespace Bytes

/-! ## Lines -/

theorem throughNewline_of_not_mem {bs : Bytes} (h : newline ∉ bs) : throughNewline bs = bs := by
  induction bs with
  | nil => rfl
  | cons b bs ih =>
    rw [List.mem_cons, not_or] at h
    rw [throughNewline, if_neg (Ne.symm h.1), ih h.2]

theorem throughNewline_append_of_not_mem {bs : Bytes} (h : newline ∉ bs) (cs : Bytes) :
    throughNewline (bs ++ cs) = bs ++ throughNewline cs := by
  induction bs with
  | nil => rfl
  | cons b bs ih =>
    rw [List.mem_cons, not_or] at h
    rw [List.cons_append, throughNewline, if_neg (Ne.symm h.1), ih h.2, List.cons_append]

theorem throughNewline_append_of_mem {bs : Bytes} (h : newline ∈ bs) (cs : Bytes) :
    throughNewline (bs ++ cs) = throughNewline bs := by
  induction bs with
  | nil => exact nomatch h
  | cons b bs ih =>
    rw [List.cons_append, throughNewline, throughNewline]
    by_cases hb : b = newline
    · rw [if_pos hb, if_pos hb]
    · rw [if_neg hb, if_neg hb, ih ((List.mem_cons.mp h).resolve_left (Ne.symm hb))]

theorem endsLine_append {bs : Bytes} (h : bs.endsLine = false) (cs : Bytes) :
    endsLine (bs ++ cs) = endsLine cs := by
  cases cs with
  | nil => rw [List.append_nil, h]; rfl
  | cons c cs => simp [endsLine, List.getLast?_append, List.getLast?_cons]

theorem endsLine_throughNewline (bs : Bytes) :
    (throughNewline bs).endsLine = true ↔ newline ∈ bs := by
  induction bs with
  | nil => decide
  | cons b bs ih =>
    by_cases hb : b = newline
    · subst hb
      rw [throughNewline, if_pos rfl]
      exact iff_of_true (by decide) List.mem_cons_self
    · have hone : endsLine [b] = false := by simpa [endsLine] using hb
      rw [throughNewline, if_neg hb, ← List.singleton_append, endsLine_append hone, ih,
        List.mem_cons]
      exact ⟨Or.inr, fun h => h.resolve_left (Ne.symm hb)⟩

end Bytes

namespace Stream

open Bytes

variable {s : Stream}

/-! ## The loops -/

@[simp] theorem ending_fill (s : Stream) : s.fill.2.ending = s.ending := by
  unfold fill; split <;> rfl

@[simp] theorem rest_consume (s : Stream) (n : ℕ) : (s.consume n).rest = s.rest.drop n := rfl

@[simp] theorem ending_consume (s : Stream) (n : ℕ) : (s.consume n).ending = s.ending := rfl

theorem rest_eq_nil_of_fill_none (h : s.fill.1 = none) : s.rest = [] ∧ s.ending = .failure := by
  unfold fill at h
  split at h
  · refine ⟨‹_›, ?_⟩
    cases he : s.ending <;> simp_all
  · cases h

theorem rest_eq_nil_of_fill_nil (h : s.fill.1 = some []) :
    s.rest = [] ∧ s.ending = .endOfInput := by
  unfold fill at h
  split at h
  · refine ⟨‹_›, ?_⟩
    cases he : s.ending <;> simp_all
  · simp_all

/-- What is in view is the front of what is left. -/
theorem exists_of_fill {view : Bytes} (h : s.fill.1 = some view) (hv : view ≠ []) :
    ∃ rest, s.rest = view ++ rest := by
  unfold fill at h
  split at h
  · cases he : s.ending <;> simp_all
  · exact ⟨_, by rw [← Option.some.inj h, List.take_append_drop]⟩

/-- The line that a reader takes from `rest`, at most `limit` bytes of it. -/
def lineOf (rest : Bytes) (limit : ℕ) : Bytes := throughNewline (rest.take limit)

/-- Whether a reader that has taken such a line asks for more than is left. -/
def asksMore (line : Bytes) (limit : ℕ) : Bool := decide (line.length < limit) && !line.endsLine

theorem lineOf_append_of_mem {front rest : Bytes} {limit : ℕ} (h : newline ∈ front.take limit) :
    lineOf (front ++ rest) limit = throughNewline (front.take limit) := by
  rw [lineOf, List.take_append, throughNewline_append_of_mem h]

theorem lineOf_append_of_not_mem {front rest : Bytes} {limit : ℕ}
    (h : newline ∉ front.take limit) : lineOf (front ++ rest) limit =
      front.take limit ++ lineOf ((front ++ rest).drop (front.take limit).length)
        (limit - (front.take limit).length) := by
  rw [lineOf, lineOf, List.take_append, throughNewline_append_of_not_mem h, List.length_take]
  congr 2
  rcases Nat.le_total limit front.length with hl | hl
  · rw [Nat.min_eq_left hl, Nat.sub_self, Nat.sub_eq_zero_of_le hl, List.take_zero, List.take_zero]
  · rw [Nat.min_eq_right hl, List.drop_append, List.drop_length, List.nil_append, Nat.sub_self,
      List.drop_zero]

/-- **A line is taken from the bytes left, however they are cut.** -/
theorem takeLine_eq (s : Stream) (limit : ℕ) :
    (s.takeLine limit).1 = lineOf s.rest limit ∧
      (s.takeLine limit).2.1 =
        (asksMore (lineOf s.rest limit) limit && decide (s.ending = .failure)) ∧
      (s.takeLine limit).2.2.rest = s.rest.drop (lineOf s.rest limit).length ∧
      (s.takeLine limit).2.2.ending = s.ending := by
  fun_induction takeLine s limit with
  | case1 s => simp [lineOf, throughNewline, asksMore]
  | case2 s limit hl t hf =>
    obtain ⟨hr, he⟩ := rest_eq_nil_of_fill_none (s := s) (by rw [hf])
    have ht : t = s.fill.2 := by rw [hf]
    simp [ht, hr, he, lineOf, throughNewline, asksMore, endsLine]
    omega
  | case3 s limit hl view t hf hv =>
    have hnil : view = [] := by simpa [hl] using hv
    obtain ⟨hr, he⟩ := rest_eq_nil_of_fill_nil (s := s) (by rw [hf, hnil])
    have ht : t = s.fill.2 := by rw [hf]
    simp [ht, hr, he, lineOf, throughNewline]
  | case4 s limit hl view t hf hv taken t' hend =>
    obtain ⟨rest, hr⟩ := exists_of_fill (congrArg Prod.fst hf) (by
      rintro rfl; exact hv List.take_nil)
    have ht : t = s.fill.2 := by rw [hf]
    have hmem : newline ∈ view.take limit := (endsLine_throughNewline _).mp hend
    have hline : lineOf s.rest limit = taken := by rw [hr, lineOf_append_of_mem hmem]
    simp [hline, asksMore, hend, t', ht]
  | case5 s limit hl view t hf hv taken t' hend more failed t'' hrec ih =>
    obtain ⟨rest, hr⟩ := exists_of_fill (congrArg Prod.fst hf) (by
      rintro rfl; exact hv List.take_nil)
    have ht : t = s.fill.2 := by rw [hf]
    have hmem : newline ∉ view.take limit := fun h => hend ((endsLine_throughNewline _).mpr h)
    have htaken : taken = view.take limit := throughNewline_of_not_mem hmem
    have hrest : t'.rest = s.rest.drop taken.length := by simp [t', ht]
    have hline : lineOf s.rest limit = taken ++ lineOf t'.rest (limit - taken.length) := by
      rw [hrest, hr, htaken, lineOf_append_of_not_mem hmem]
    have hle : taken.length ≤ limit := by rw [htaken]; exact List.length_take_le _ _
    rw [hrec] at ih
    obtain ⟨ih₁, ih₂, ih₃, ih₄⟩ := ih
    have hend' : taken.endsLine = false := Bool.eq_false_iff.mpr hend
    refine ⟨?_, ?_, ?_, ?_⟩
    · rw [hline, ← ih₁]
    · have he : t'.ending = s.ending := by simp [t', ht]
      rw [hline, ih₂, he, asksMore, asksMore, endsLine_append hend', List.length_append]
      congr 3
      exact propext ⟨fun _ => by omega, fun _ => by omega⟩
    · rw [ih₃, hline, hrest, List.drop_drop, List.length_append]
    · rw [ih₄]; simp [t', ht]

/-- What a reader finds at the end. -/
def atEnd {α : Type} : Ending → Reading α
  | .endOfInput => .nothing
  | .failure => .failed

theorem getD_atEnd {α : Type} (ending : Ending) (old : α) : (atEnd ending).getD old = old := by
  cases ending <;> rfl

/-- What a reader finds that looks for a byte that is not blank. -/
def blanksOf (rest : Bytes) (ending : Ending) : Reading Unit :=
  if rest.dropWhile isBlank = [] then atEnd ending else .found ()

/-- **Blanks are skipped in the bytes left, however they are cut.** -/
theorem skipBlanks_eq (s : Stream) :
    s.skipBlanks.1 = blanksOf s.rest s.ending ∧
      s.skipBlanks.2.rest = s.rest.dropWhile isBlank ∧ s.skipBlanks.2.ending = s.ending := by
  fun_induction skipBlanks s with
  | case1 s t hf =>
    obtain ⟨hr, he⟩ := rest_eq_nil_of_fill_none (s := s) (by rw [hf])
    have ht : t = s.fill.2 := by rw [hf]
    simp [ht, hr, he, blanksOf, atEnd]
  | case2 s t hf =>
    obtain ⟨hr, he⟩ := rest_eq_nil_of_fill_nil (s := s) (by rw [hf])
    have ht : t = s.fill.2 := by rw [hf]
    simp [ht, hr, he, blanksOf, atEnd]
  | case3 s view t hf hv blanks hb ih =>
    obtain ⟨rest, hr⟩ := exists_of_fill (congrArg Prod.fst hf) hv
    have ht : t = s.fill.2 := by rw [hf]
    have hfront : blanks <+: view := List.takeWhile_prefix _
    have hall : blanks = view := hfront.eq_of_length hb
    have hdrop : s.rest.dropWhile isBlank = (t.consume blanks.length).rest.dropWhile isBlank := by
      have hmem : ∀ b ∈ view, isBlank b = true := fun b hb' =>
        List.mem_takeWhile_imp (by rw [← hall] at hb'; exact hb')
      simp [hall, ht, hr, List.dropWhile_append_of_pos hmem]
    have he : (t.consume blanks.length).ending = s.ending := by simp [ht]
    rw [he] at ih
    obtain ⟨ih₁, ih₂, ih₃⟩ := ih
    refine ⟨?_, ?_, ih₃⟩
    · rw [ih₁, blanksOf, blanksOf, hdrop]
    · rw [ih₂, hdrop]
  | case4 s view t hf hv blanks hb =>
    obtain ⟨rest, hr⟩ := exists_of_fill (congrArg Prod.fst hf) hv
    have ht : t = s.fill.2 := by rw [hf]
    have hsplit : blanks ++ view.dropWhile isBlank = view := List.takeWhile_append_dropWhile
    have hne : view.dropWhile isBlank ≠ [] := by
      intro h
      rw [h, List.append_nil] at hsplit
      exact hb (by rw [hsplit])
    have hdrop : s.rest.dropWhile isBlank = view.dropWhile isBlank ++ rest := by
      rw [hr, List.dropWhile_append, if_neg (by simpa using hne)]
    refine ⟨?_, ?_, ?_⟩
    · rw [blanksOf, if_neg (by simp [hdrop, hne])]
    · rw [hdrop, rest_consume, ht, rest_fill, hr]
      nth_rewrite 1 [← hsplit]
      rw [List.append_assoc, List.drop_left]
    · simp [ht]

/-- What a reader finds at the next token. A line that the device fails to end is no line. -/
def tokenOf (rest : Bytes) (ending : Ending) : Reading Bytes :=
  if rest.dropWhile isBlank = [] then atEnd ending
  else if newline ∈ rest.dropWhile isBlank ∨ ending = .endOfInput then
    .found (throughNewline (rest.dropWhile isBlank))
  else .failed

theorem lineOf_of_length_lt {rest : Bytes} {limit : ℕ} (h : rest.length < limit) :
    lineOf rest limit = throughNewline rest := by
  rw [lineOf, List.take_of_length_le h.le]

theorem length_throughNewline_le (bs : Bytes) : (throughNewline bs).length ≤ bs.length := by
  induction bs with
  | nil => exact le_rfl
  | cons b bs ih =>
    rw [throughNewline]
    split_ifs
    · simp
    · simpa using ih

/-- **A token is read with its line from the bytes left, however they are cut.** -/
theorem tokenLine_eq (s : Stream) :
    s.tokenLine.1 = tokenOf s.rest s.ending ∧
      s.tokenLine.2.rest =
        (s.rest.dropWhile isBlank).drop (throughNewline (s.rest.dropWhile isBlank)).length ∧
      s.tokenLine.2.ending = s.ending := by
  obtain ⟨hfound, hrest, hending⟩ := skipBlanks_eq s
  rcases hs : s.skipBlanks with ⟨r, t⟩
  rw [hs] at hfound hrest hending
  change r = _ at hfound
  change t.rest = _ at hrest
  change t.ending = _ at hending
  by_cases hnil : s.rest.dropWhile isBlank = []
  · rw [blanksOf, if_pos hnil] at hfound
    have hstop : s.tokenLine = (atEnd s.ending, t) := by
      simp only [tokenLine, hs, hfound]
      cases s.ending <;> rfl
    rw [hstop, tokenOf, if_pos hnil]
    exact ⟨rfl, by rw [hrest, hnil]; rfl, hending⟩
  · rw [blanksOf, if_neg hnil] at hfound
    obtain ⟨hline, hfailed, hrest', hending'⟩ := takeLine_eq t (t.rest.length + 1)
    rw [lineOf_of_length_lt (Nat.lt_succ_self _)] at hline hfailed hrest'
    have hshort : (throughNewline t.rest).length < t.rest.length + 1 :=
      Nat.lt_succ_of_le (length_throughNewline_le _)
    rw [asksMore, decide_eq_true hshort, Bool.true_and] at hfailed
    rw [← hrest] at hnil ⊢
    rw [tokenOf, ← hrest, if_neg hnil, ← hending]
    simp only [tokenLine, hs, hfound]
    rcases ht : t.takeLine (t.rest.length + 1) with ⟨line, failed, u⟩
    rw [ht] at hline hfailed hrest' hending'
    change failed = _ at hfailed
    by_cases hdone : newline ∈ t.rest ∨ t.ending = .endOfInput
    · have hok : failed = false := by
        rw [hfailed]
        rcases hdone with h | h
        · rw [(endsLine_throughNewline _).mpr h]; rfl
        · rw [h]; simp
      rw [if_pos hdone, hok]
      exact ⟨congrArg Reading.found hline, hrest', hending'⟩
    · obtain ⟨hmem, hend⟩ := not_or.mp hdone
      have hbad : failed = true := by
        have hopen := Bool.eq_false_iff.mpr fun h => hmem ((endsLine_throughNewline _).mp h)
        have hfailure : t.ending = .failure := by cases h : t.ending <;> simp_all
        rw [hfailed, hopen, hfailure]; rfl
      rw [if_neg hdone, hbad]
      exact ⟨rfl, hrest', hending'⟩

/-- The number that `scan` finds in a token. -/
def numberIn {α : Type} (scan : Bytes → Option α) : Reading Bytes → Reading α
  | .found line => (scan line).elim .nothing .found
  | .nothing => .nothing
  | .failed => .failed

theorem readNumber_eq {α : Type} (scan : Bytes → Option α) (s : Stream) :
    readNumber scan s = (numberIn scan s.tokenLine.1, s.tokenLine.2) := by
  unfold readNumber
  rcases s.tokenLine with ⟨_ | _ | _, s⟩
  · dsimp only [numberIn]
    cases scan _ <;> rfl
  · rfl
  · rfl

/-! ## Streams that agree -/

/-- The same bytes are left, with the same ending; how they are cut does not matter. -/
structure Agrees (s t : Stream) : Prop where
  rest : s.rest = t.rest
  ending : s.ending = t.ending

section Agrees

variable {t : Stream}

theorem takeLine_agrees (h : Agrees s t) (limit : ℕ) :
    (s.takeLine limit).1 = (t.takeLine limit).1 ∧
      (s.takeLine limit).2.1 = (t.takeLine limit).2.1 ∧
      Agrees (s.takeLine limit).2.2 (t.takeLine limit).2.2 := by
  obtain ⟨hs₁, hs₂, hs₃, hs₄⟩ := takeLine_eq s limit
  obtain ⟨ht₁, ht₂, ht₃, ht₄⟩ := takeLine_eq t limit
  rw [hs₁, hs₂, ht₁, ht₂, h.rest, h.ending]
  refine ⟨rfl, rfl, ?_, ?_⟩
  · rw [hs₃, ht₃, h.rest]
  · rw [hs₄, ht₄, h.ending]

theorem readLine_agrees (h : Agrees s t) (buffer : Bytes) :
    (s.readLine buffer).1 = (t.readLine buffer).1 ∧
      (s.readLine buffer).2.1 = (t.readLine buffer).2.1 ∧
      Agrees (s.readLine buffer).2.2 (t.readLine buffer).2.2 := by
  have hline := takeLine_agrees h (buffer.length - 1)
  rcases hs : s.takeLine (buffer.length - 1) with ⟨taken, failed, s'⟩
  rcases ht : t.takeLine (buffer.length - 1) with ⟨taken', failed', t'⟩
  rw [hs, ht] at hline
  obtain ⟨rfl, rfl, h'⟩ := hline
  simp only [readLine, hs, ht]
  split_ifs <;> exact ⟨rfl, rfl, h'⟩

theorem tokenLine_agrees (h : Agrees s t) :
    s.tokenLine.1 = t.tokenLine.1 ∧ Agrees s.tokenLine.2 t.tokenLine.2 := by
  obtain ⟨hs₁, hs₂, hs₃⟩ := tokenLine_eq s
  obtain ⟨ht₁, ht₂, ht₃⟩ := tokenLine_eq t
  rw [hs₁, ht₁, h.rest, h.ending]
  refine ⟨rfl, ?_, ?_⟩
  · rw [hs₂, ht₂, h.rest]
  · rw [hs₃, ht₃, h.ending]

theorem readNumber_agrees {α : Type} (scan : Bytes → Option α) (h : Agrees s t) :
    (readNumber scan s).1 = (readNumber scan t).1 ∧
      Agrees (readNumber scan s).2 (readNumber scan t).2 := by
  rw [readNumber_eq, readNumber_eq, (tokenLine_agrees h).1]
  exact ⟨rfl, (tokenLine_agrees h).2⟩

end Agrees

/-! ## Sequences of reads -/

/-- A read: a line into a buffer with the given bytes, an integer, or a real. -/
inductive ReadOp where
  | line (buffer : Bytes)
  | integer
  | real

/-- What a read shows; a line read also shows the buffer afterwards. -/
inductive ReadResult where
  | line (stored : Reading ℕ) (buffer : Bytes)
  | integer (v : Reading Int32)
  | real (v : Reading Binary64)

/-- Perform a read. -/
def ReadOp.run (op : ReadOp) (s : Stream) : ReadResult × Stream :=
  match op with
  | .line buffer => (.line (s.readLine buffer).1 (s.readLine buffer).2.1, (s.readLine buffer).2.2)
  | .integer => (.integer s.readInteger.1, s.readInteger.2)
  | .real => (.real s.readReal.1, s.readReal.2)

/-- The results of reads, each with the number of bytes left after it. -/
def readAll (s : Stream) : List ReadOp → List (ReadResult × ℕ)
  | [] => []
  | op :: ops => ((op.run s).1, (op.run s).2.rest.length) :: readAll (op.run s).2 ops

/-- The stream that shows all bytes left at every request. -/
def inOneChunk (bs : Bytes) (ending : Ending) : Stream := ofBytes bs ending fun _ => bs.length

theorem ReadOp.run_agrees {t : Stream} (op : ReadOp) (h : Agrees s t) :
    (op.run s).1 = (op.run t).1 ∧ Agrees (op.run s).2 (op.run t).2 := by
  cases op with
  | line buffer =>
    obtain ⟨h₁, h₂, h₃⟩ := readLine_agrees h buffer
    simp only [ReadOp.run, h₁, h₂, true_and]
    exact h₃
  | integer =>
    obtain ⟨h₁, h₂⟩ := readNumber_agrees Numeral.scanInteger h
    simp only [ReadOp.run, readInteger, h₁, true_and]
    exact h₂
  | real =>
    obtain ⟨h₁, h₂⟩ := readNumber_agrees Numeral.scanReal h
    simp only [ReadOp.run, readReal, h₁, true_and]
    exact h₂

theorem readAll_agrees {t : Stream} (ops : List ReadOp) (h : Agrees s t) :
    readAll s ops = readAll t ops := by
  induction ops generalizing s t with
  | nil => rfl
  | cons op ops ih =>
    obtain ⟨hr, h'⟩ := op.run_agrees h
    rw [readAll, readAll, hr, h'.rest, ih h']

/-- **Any reads go as on the stream that shows its bytes in one chunk.** -/
theorem readAll_eq_inOneChunk (bs : Bytes) (ending : Ending) (cuts : ℕ → ℕ) (ops : List ReadOp) :
    readAll (ofBytes bs ending cuts) ops = readAll (inOneChunk bs ending) ops :=
  readAll_agrees ops ⟨rfl, rfl⟩

end Stream

end AdaSupport
