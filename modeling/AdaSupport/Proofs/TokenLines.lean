import AdaSupport.Proofs.LineStorage
import AdaSupport.Proofs.ReadBack

/-!
# Numbers are read with their line

A number is looked for behind the blanks in front of the input, and the line on which the search
ends is used up, whether it starts with a number or not.

* `potential`: the requests that a stream has had and the bytes left; `potential_takeLine_le`,
  `potential_skipBlanks_le`, `potential_tokenLine_le`: a loop that goes on has consumed a byte, so a
  read makes few requests.
* `TokenRead`: what a number read makes of the bytes left, case by case; `tokenRead_readNumber`: all
  number reads are such reads.
* `Fills`: what a number read makes of the variables of its thread.
* **`number_read_uses_line`**: both hold of integers and of reals.
-/

namespace AdaSupport

namespace Stream

open Bytes

/-! ## Requests to the device -/

/-- The requests so far and the bytes left. -/
def potential (s : Stream) : ℕ := s.requests + s.rest.length

theorem potential_of_fill {s t : Stream} {view : Option Bytes} (hf : s.fill = (view, t)) :
    t.potential = s.potential + 1 := by
  have hrequests : s.fill.2.requests = s.requests + 1 := by
    unfold fill
    split <;> rfl
  have hrest := s.rest_fill
  rw [hf] at hrequests hrest
  change t.requests = s.requests + 1 at hrequests
  change t.rest = s.rest at hrest
  rw [potential, potential, hrequests, hrest]
  omega

theorem potential_consume (s : Stream) (n : ℕ) :
    (s.consume n).potential = s.requests + (s.rest.length - n) := by
  rw [potential, rest_consume, List.length_drop]
  rfl

/-- Bytes that are consumed make up for the request that has shown them. -/
theorem potential_consume_le {s t : Stream} {view : Bytes} {n : ℕ} (hf : s.fill = (some view, t))
    (hv : view ≠ []) (hn : 0 < n) : (t.consume n).potential ≤ s.potential := by
  have hpos := List.length_pos_iff.mpr (rest_ne_nil_of_fill (congrArg Prod.fst hf) hv)
  have hrest : t.rest = s.rest := by rw [← s.rest_fill, hf]
  have hfill := potential_of_fill hf
  rw [potential, potential, hrest] at hfill
  rw [potential_consume, potential, hrest]
  omega

theorem potential_consume_throughNewline_le {s t : Stream} {view : Bytes} {limit : ℕ}
    (hf : s.fill = (some view, t)) (hv : view.take limit ≠ []) :
    (t.consume (throughNewline (view.take limit)).length).potential ≤ s.potential := by
  refine potential_consume_le hf ?_ (List.length_pos_iff.mpr (throughNewline_ne_nil hv))
  rintro rfl
  exact hv List.take_nil

/-- **Every request for a line but the last brings a byte.** -/
theorem potential_takeLine_le (s : Stream) (limit : ℕ) :
    (s.takeLine limit).2.2.potential ≤ s.potential + 1 := by
  fun_induction takeLine s limit with
  | case1 s => exact Nat.le_succ _
  | case2 s limit hl t hf => exact (potential_of_fill hf).le
  | case3 s limit hl view t hf hv => exact (potential_of_fill hf).le
  | case4 s limit hl view t hf hv taken t' hend =>
    exact (potential_consume_throughNewline_le hf hv).trans (Nat.le_succ _)
  | case5 s limit hl view t hf hv taken t' hend more failed t'' hrec ih =>
    rw [hrec] at ih
    exact ih.trans (Nat.succ_le_succ (potential_consume_throughNewline_le hf hv))

/-- **Every request for a byte that is not blank, but the last, brings a blank.** -/
theorem potential_skipBlanks_le (s : Stream) : s.skipBlanks.2.potential ≤ s.potential + 1 := by
  fun_induction skipBlanks s with
  | case1 s t hf => exact (potential_of_fill hf).le
  | case2 s t hf => exact (potential_of_fill hf).le
  | case3 s view t hf hv blanks hb ih =>
    have hpos : 0 < blanks.length := hb ▸ List.length_pos_iff.mpr hv
    exact ih.trans (Nat.succ_le_succ (potential_consume_le hf hv hpos))
  | case4 s view t hf hv blanks hb =>
    rw [← potential_of_fill hf, potential_consume, potential]
    omega

theorem potential_tokenLine_le (s : Stream) : s.tokenLine.2.potential ≤ s.potential + 2 := by
  have hskip := s.potential_skipBlanks_le
  unfold tokenLine
  generalize s.skipBlanks = skipped at hskip ⊢
  obtain ⟨_ | _ | _, t⟩ := skipped
  · have hline := t.potential_takeLine_le (t.rest.length + 1)
    dsimp only at hskip ⊢
    generalize t.takeLine (t.rest.length + 1) = taken at hline ⊢
    obtain ⟨line, _ | _, u⟩ := taken
    · exact hline.trans (Nat.succ_le_succ hskip)
    · exact hline.trans (Nat.succ_le_succ hskip)
  · exact hskip.trans (Nat.le_succ _)
  · exact hskip.trans (Nat.le_succ _)

/-! ## Tokens -/

/-- What a number read that uses `scan` makes of a stream, as the bytes behind the leading blanks
have it. -/
structure TokenRead {α : Type} (scan : Bytes → Option α) (s : Stream) (r : Reading α × Stream) :
    Prop where
  /-- With blanks only, all is consumed, and the end is met. -/
  blank : s.rest.skipBlanks = [] → r.1 = atEnd s.ending ∧ r.2.rest = []
  /-- With a newline, all through the first one is consumed and scanned. -/
  line : newline ∈ s.rest.skipBlanks →
    let n := s.rest.skipBlanks.idxOf newline + 1
    r.1 = (scan (s.rest.skipBlanks.take n)).elim .nothing .found ∧
      r.2.rest = s.rest.skipBlanks.drop n
  /-- Without one, all is consumed, and scanned unless the device fails. -/
  unended : s.rest.skipBlanks ≠ [] → newline ∉ s.rest.skipBlanks → r.2.rest = [] ∧
    (s.ending = .endOfInput → r.1 = (scan s.rest.skipBlanks).elim .nothing .found) ∧
    (s.ending = .failure → r.1 = .failed)
  ending : r.2.ending = s.ending
  /-- At most two requests more are made than bytes are consumed. -/
  requests : r.2.requests + r.2.rest.length ≤ s.requests + s.rest.length + 2

theorem numberIn_atEnd {α : Type} (scan : Bytes → Option α) (ending : Ending) :
    numberIn scan (atEnd ending) = atEnd ending := by
  cases ending <;> rfl

/-- **A number read uses up the line of its token.** -/
theorem tokenRead_readNumber {α : Type} (scan : Bytes → Option α) (s : Stream) :
    TokenRead scan s (readNumber scan s) := by
  obtain ⟨hfound, hrest, hending⟩ := tokenLine_eq s
  rw [← Bytes.skipBlanks, length_throughNewline] at hrest
  rw [tokenOf, ← Bytes.skipBlanks] at hfound
  rw [readNumber_eq, hfound]
  refine ⟨fun h => ?_, fun h => ?_, fun hne h => ?_, hending, s.potential_tokenLine_le⟩
  · rw [if_pos h, numberIn_atEnd]
    exact ⟨rfl, by rw [hrest, h, List.drop_nil]⟩
  · rw [if_neg (List.ne_nil_of_mem h), if_pos (.inl h), throughNewline_eq_take]
    rw [countLine, if_pos h] at hrest
    exact ⟨rfl, hrest⟩
  · rw [countLine, if_neg h, List.drop_length] at hrest
    refine ⟨hrest, fun he => ?_, fun he => ?_⟩
    · rw [if_neg hne, if_pos (.inr he), throughNewline_of_not_mem h]
      rfl
    · rw [if_neg hne, if_neg (by simp [h, he])]
      rfl

end Stream

namespace Program

/-! ## Variables -/

/-- What a number read that has come to `found` makes of a thread: at most the number in the
variable `name`, as `cell` shows it, is another one, and that only if a number was found. -/
structure Fills {α : Type} (name : String) (cell : Thread → α) (found : Reading α) (t t' : Thread) :
    Prop where
  memory : t'.memory = t.memory
  others : ∀ other, other ≠ name → t'.value? other = t.value? other
  stored : ∀ v, found = .found v → cell t' = v
  kept : (∀ v, found ≠ .found v) → cell t' = cell t

theorem fills_assign {α : Type} {name : String} {cell : Thread → α} {found : Reading α}
    {t : Thread} {v : Value}
    (h : cell (t.assign (some name) (some v)) = found.getD (cell t)) :
    Fills name cell found t (t.assign (some name) (some v)) where
  memory := rfl
  others other ho := by simp [Thread.assign, Thread.value?, List.lookup_cons, beq_false_of_ne ho]
  stored w hw := by rw [h, hw, Reading.getD]
  kept hnone := by
    rw [h]
    cases found with
    | found w => exact absurd rfl (hnone w)
    | nothing => rfl
    | failed => rfl

/-- **A number read uses up one line and never damages its variable.** When blanks only are left, it
consumes them and meets the end. Otherwise it consumes the blanks and all through the next newline,
and finds the number in front of what it has consumed behind the blanks, if there is one; a device
that fails before the newline fails the read. The requests that it makes are bounded by the bytes
that it consumes. A variable is given another number only if one was found. -/
theorem number_read_uses_line :
    (∀ s : Stream, s.TokenRead Numeral.scanInteger s.readInteger ∧
        s.TokenRead Numeral.scanReal s.readReal) ∧
      ∀ (name : String) (t : Thread) (p : Process),
        (∃ answer t' q, Request.getInteger.run (some name) t p = .running answer t' q ∧
          q.input = p.input.readInteger.2 ∧
          Fills name (·.integer name) p.input.readInteger.1 t t') ∧
        ∃ answer t' q, Request.getReal.run (some name) t p = .running answer t' q ∧
          q.input = p.input.readReal.2 ∧ Fills name (·.real name) p.input.readReal.1 t t' := by
  refine ⟨fun s => ⟨s.tokenRead_readNumber _, s.tokenRead_readNumber _⟩, fun name t p => ⟨?_, ?_⟩⟩
  · exact ⟨_, _, _, rfl, rfl, fills_assign (t.integer_assign name _)⟩
  · exact ⟨_, _, _, rfl, rfl, fills_assign (t.real_assign name _)⟩

/-- A word that is no number, behind blank lines, and then a number that the device does not end: a
variable that held seven keeps it in both reads. From a line with a number in front it is given the
number, and the rest of that line is used up. -/
theorem number_read_uses_line_malformed :
    let s := Stream.ofBytes [10, 32, 10, 32, 97, 98, 10, 49, 50] .failure fun _ => 1
    let numbered := Stream.ofBytes [10, 32, 45, 52, 50, 32, 97, 10, 56] .endOfInput fun _ => 1
    let t : Thread := ⟨.fresh, [("n", .integer 7)]⟩
    let p := fun input => Process.start ⟨input, true, true, fun _ => 0⟩ false
    (s.readInteger.1 = .nothing ∧ s.readInteger.2.rest = [49, 50] ∧
      s.readInteger.2.readInteger.1 = .failed ∧ s.readInteger.2.readInteger.2.rest = [] ∧
      ∃ answer t' q, Request.getInteger.run (some "n") t (p s) = .running answer t' q ∧
        q.input.rest = [49, 50] ∧ t'.integer "n" = 7) ∧
      ∃ answer t' q, Request.getInteger.run (some "n") t (p numbered) = .running answer t' q ∧
        q.input.rest = [56] ∧ t'.integer "n" = -42 := by
  intro s numbered t p
  obtain ⟨hreads, hrequests⟩ := number_read_uses_line
  constructor
  · obtain ⟨hfound, hrest⟩ := (hreads s).1.line (by decide)
    replace hfound : s.readInteger.1 = .nothing := hfound.trans (by decide)
    have hskip : s.readInteger.2.rest.skipBlanks = [49, 50] := by
      rw [hrest]
      decide
    obtain ⟨hnil, -, hfailed⟩ := (hreads s.readInteger.2).1.unended (by rw [hskip]; decide)
      (by rw [hskip]; decide)
    obtain ⟨answer, t', q, hrun, hinput, hfills⟩ := (hrequests "n" t (p s)).1
    refine ⟨hfound, hrest, hfailed (hreads s).1.ending, hnil, answer, t', q, hrun, ?_, ?_⟩
    · rw [hinput]
      exact hrest
    · refine hfills.kept fun v hv => ?_
      cases hfound.symm.trans hv
  · obtain ⟨hfound, hrest⟩ := (hreads numbered).1.line (by decide)
    obtain ⟨answer, t', q, hrun, hinput, hfills⟩ := (hrequests "n" t (p numbered)).1
    refine ⟨answer, t', q, hrun, ?_, hfills.stored (-42) (hfound.trans (by decide))⟩
    rw [hinput]
    exact hrest

end Program

end AdaSupport
