import AdaSupport.Proofs.Chunks
import Mathlib.Algebra.Order.Floor.Div

/-!
# Lines are read in pieces

A buffer takes a line in as many reads as its size calls for. Read after read, until nothing is
found, no byte is lost or added.

* `readLine_of_line`, `readLine_of_nil`: a read in terms of the bytes left.
* `Piece`: what a read stores, and whether it has consumed a newline behind it.
* `readLines`: reads into one buffer until nothing is found.
* `piecesOf`: the pieces of a byte string; **`readLines_eq`**: these are the pieces that are read.
* `flatMap_text_piecesOf`, `piecesOf_append`, `length_piecesOf`: they give the string back, lines
  are cut independently of each other, and a line is cut into as few pieces as can hold it.
-/

namespace AdaSupport

namespace Bytes

/-- The string without a newline at its end. -/
def withoutNewline (bs : Bytes) : Bytes := if bs.endsLine then bs.dropLast else bs

/-- Nothing, or lines that are all ended by a newline. -/
def WholeLines (bs : Bytes) : Prop := bs = [] ∨ bs.endsLine = true

theorem exists_of_endsLine {bs : Bytes} (h : bs.endsLine = true) :
    ∃ front, bs = front ++ [newline] :=
  List.getLast?_eq_some_iff.mp (beq_iff_eq.mp h)

@[simp] theorem endsLine_append_newline (bs : Bytes) : endsLine (bs ++ [newline]) = true := by
  simp [endsLine]

@[simp] theorem withoutNewline_append_newline (bs : Bytes) :
    withoutNewline (bs ++ [newline]) = bs := by
  simp [withoutNewline]

theorem length_withoutNewline_le (bs : Bytes) : bs.withoutNewline.length ≤ bs.length := by
  unfold withoutNewline
  split
  · rw [List.length_dropLast]
    omega
  · exact le_rfl

theorem WholeLines.drop {bs : Bytes} (h : bs.WholeLines) (n : ℕ) : WholeLines (bs.drop n) := by
  by_cases hn : bs.length ≤ n
  · exact .inl (List.drop_of_length_le hn)
  · refine .inr ?_
    have hne : bs ≠ [] := by
      rintro rfl
      simp at hn
    rw [endsLine, List.getLast?_drop, if_neg hn]
    exact h.resolve_left hne

/-! ## Strings with a newline at their end at most -/

theorem throughNewline_of_dropLast {bs : Bytes} (h : newline ∉ bs.dropLast) :
    throughNewline bs = bs := by
  rcases List.eq_nil_or_concat bs with rfl | ⟨front, b, rfl⟩
  · rfl
  · rw [List.concat_eq_append] at h ⊢
    rw [List.dropLast_concat] at h
    rw [throughNewline_append_of_not_mem h, throughNewline, throughNewline, ite_self]

theorem newline_not_mem_dropLast_throughNewline (bs : Bytes) :
    newline ∉ (throughNewline bs).dropLast := by
  induction bs with
  | nil => simp [throughNewline]
  | cons b bs ih =>
    rw [throughNewline]
    split_ifs with hb
    · simp
    · by_cases hnil : throughNewline bs = []
      · simp [hnil]
      · rw [List.dropLast_cons_of_ne_nil hnil, List.mem_cons, not_or]
        exact ⟨Ne.symm hb, ih⟩

theorem newline_not_mem_withoutNewline {bs : Bytes} (h : newline ∉ bs.dropLast) :
    newline ∉ bs.withoutNewline := by
  unfold withoutNewline
  split_ifs with hend
  · exact h
  · intro hmem
    rcases List.eq_nil_or_concat bs with rfl | ⟨front, b, rfl⟩
    · cases hmem
    · rw [List.concat_eq_append] at h hend hmem
      rw [List.dropLast_concat] at h
      rcases List.mem_append.mp hmem with hm | hm
      · exact h hm
      · rw [← List.mem_singleton.mp hm] at hend
        exact hend (endsLine_append_newline front)

end Bytes

namespace Stream

open Bytes

/-! ## One read -/

variable {s : Stream} {buffer : Bytes}

theorem readLine_of_nil (hf : (s.takeLine (buffer.length - 1)).2.1 = false)
    (hl : lineOf s.rest (buffer.length - 1) = []) :
    s.readLine buffer = (.nothing, buffer, (s.takeLine (buffer.length - 1)).2.2) := by
  have htaken := (takeLine_eq s (buffer.length - 1)).1
  rcases ht : s.takeLine (buffer.length - 1) with ⟨taken, failed, t⟩
  rw [ht] at htaken hf
  obtain rfl : failed = false := hf
  obtain rfl : taken = [] := htaken.trans hl
  simp [readLine, ht]

/-- **A read stores the next line**, taken from the bytes left, without its newline. -/
theorem readLine_of_line {line : Bytes} (hf : (s.takeLine (buffer.length - 1)).2.1 = false)
    (hl : lineOf s.rest (buffer.length - 1) = line) (hne : line ≠ []) :
    s.readLine buffer = (.found line.withoutNewline.length,
      line.withoutNewline ++ 0 :: buffer.drop (line.withoutNewline.length + 1),
      (s.takeLine (buffer.length - 1)).2.2) := by
  have htaken := (takeLine_eq s (buffer.length - 1)).1
  rcases ht : s.takeLine (buffer.length - 1) with ⟨taken, failed, t⟩
  rw [ht] at htaken hf
  obtain rfl : failed = false := hf
  obtain rfl : taken = line := htaken.trans hl
  simp only [readLine, ht, if_neg hne, Bool.false_eq_true, if_false]
  rfl

theorem not_failed_of_endOfInput (h : s.ending = .endOfInput) (limit : ℕ) :
    (s.takeLine limit).2.1 = false := by
  rw [(takeLine_eq s limit).2.1, h]
  simp

theorem not_failed_of_endsLine {limit : ℕ} (h : (lineOf s.rest limit).endsLine = true) :
    (s.takeLine limit).2.1 = false := by
  rw [(takeLine_eq s limit).2.1, asksMore, h]
  simp

theorem length_lineOf_le (rest : Bytes) (limit : ℕ) : (lineOf rest limit).length ≤ limit :=
  (length_throughNewline_le _).trans (List.length_take_le _ _)

theorem lineOf_eq_nil_iff {rest : Bytes} {limit : ℕ} (hl : limit ≠ 0) :
    lineOf rest limit = [] ↔ rest = [] := by
  constructor
  · intro h
    by_contra hne
    exact throughNewline_ne_nil (by simp [hl, hne]) h
  · rintro rfl
    rw [lineOf, List.take_nil, throughNewline]

/-- What is taken is the front of what is left. -/
theorem isPrefix_lineOf (rest : Bytes) (limit : ℕ) : lineOf rest limit <+: rest := by
  have h : ∀ bs : Bytes, throughNewline bs <+: bs := by
    intro bs
    induction bs with
    | nil => exact List.prefix_refl _
    | cons b bs ih =>
      rw [throughNewline]
      split_ifs
      · exact ⟨bs, rfl⟩
      · exact (List.prefix_cons_inj b).mpr ih
  exact (h (rest.take limit)).trans <| List.take_prefix limit rest

/-! ## Reads until nothing is found -/

/-- What a read has stored, and whether it has consumed a newline behind it. -/
structure Piece where
  stored : Bytes
  ended : Bool

/-- The bytes that a piece stands for. -/
def Piece.text (p : Piece) : Bytes := if p.ended then p.stored ++ [newline] else p.stored

/-- The piece that a read shows when it has stored `n` bytes in a buffer and has gone on from the
stream `s` to the stream `t`. -/
def Piece.seen (n : ℕ) (buffer : Bytes) (s t : Stream) : Piece :=
  ⟨buffer.take n, endsLine (s.rest.take (s.rest.length - t.rest.length))⟩

/-- The pieces of all reads, the result of the read that ended them, and the stream behind it. -/
structure LineReads where
  pieces : List Piece
  last : Reading ℕ
  stream : Stream

theorem length_drop_lineOf_lt {rest : Bytes} {limit : ℕ} (h : lineOf rest limit ≠ []) :
    (rest.drop (lineOf rest limit).length).length < rest.length := by
  have hpos := List.length_pos_iff.mpr h
  have hle := (isPrefix_lineOf rest limit).length_le
  rw [List.length_drop]
  omega

theorem length_rest_lt_of_found {n : ℕ} (h : (s.readLine buffer).1 = .found n) :
    (s.readLine buffer).2.2.rest.length < s.rest.length := by
  obtain ⟨htaken, -, hrest, -⟩ := takeLine_eq s (buffer.length - 1)
  rcases ht : s.takeLine (buffer.length - 1) with ⟨taken, failed, t⟩
  rw [ht] at htaken hrest
  have hstream : (s.readLine buffer).2.2 = t := by
    simp only [readLine, ht]
    split_ifs <;> rfl
  have hne : lineOf s.rest (buffer.length - 1) ≠ [] := by
    intro hnil
    obtain rfl : taken = [] := htaken.trans hnil
    simp only [readLine, ht, if_pos] at h
    split_ifs at h
  rw [hstream, hrest]
  exact length_drop_lineOf_lt hne

/-- Read lines into a buffer until nothing is found. -/
def readLines (s : Stream) (buffer : Bytes) : LineReads :=
  match _h : s.readLine buffer with
  | (.found n, after, t) =>
    let more := t.readLines after
    { more with pieces := .seen n after s t :: more.pieces }
  | (r, _, t) => ⟨[], r, t⟩
termination_by s.rest.length
decreasing_by
  have hlt := @length_rest_lt_of_found s buffer n (by rw [_h])
  rwa [_h] at hlt

/-- The pieces of a byte string for reads of at most `width` bytes. -/
def piecesOf (width : ℕ) (rest : Bytes) : List Piece :=
  let line := lineOf rest width
  if _h : line = [] then []
  else ⟨line.withoutNewline, line.endsLine⟩ :: piecesOf width (rest.drop line.length)
termination_by rest.length
decreasing_by exact length_drop_lineOf_lt _h

theorem piecesOf_of_nil {width : ℕ} {rest : Bytes} (h : lineOf rest width = []) :
    piecesOf width rest = [] := by
  rw [piecesOf, dif_pos h]

theorem piecesOf_of_line {width : ℕ} {rest : Bytes} (h : lineOf rest width ≠ []) :
    piecesOf width rest =
      ⟨(lineOf rest width).withoutNewline, (lineOf rest width).endsLine⟩ ::
        piecesOf width (rest.drop (lineOf rest width).length) := by
  conv_lhs => rw [piecesOf, dif_neg h]

/-- A read shows what it has taken: what it has stored, and the newline that it has consumed. -/
theorem seen_of_line {line : Bytes} {t : Stream} (hl : line <+: s.rest)
    (ht : t.rest = s.rest.drop line.length) (more : Bytes) :
    Piece.seen line.withoutNewline.length (line.withoutNewline ++ more) s t =
      ⟨line.withoutNewline, line.endsLine⟩ := by
  have hle := hl.length_le
  have hconsumed : s.rest.length - t.rest.length = line.length := by
    rw [ht, List.length_drop]
    omega
  rw [Piece.seen, List.take_left, hconsumed, ← List.prefix_iff_eq_take.mp hl]

/-- **Reads until nothing is found show the pieces of the bytes left**, and use these up. -/
theorem readLines_eq (he : s.ending = .endOfInput) (hc : 2 ≤ buffer.length) :
    (s.readLines buffer).pieces = piecesOf (buffer.length - 1) s.rest ∧
      (s.readLines buffer).last = .nothing ∧ (s.readLines buffer).stream.rest = [] := by
  fun_induction readLines s buffer with
  | case1 s buffer n after t h more ih =>
    have hf := not_failed_of_endOfInput he (buffer.length - 1)
    obtain ⟨-, -, hrest, hending⟩ := takeLine_eq s (buffer.length - 1)
    have hne : lineOf s.rest (buffer.length - 1) ≠ [] := by
      intro hnil
      rw [readLine_of_nil hf hnil] at h
      cases h
    rw [readLine_of_line hf rfl hne] at h
    obtain ⟨hn, hafter, rfl⟩ : _ ∧ _ ∧ _ := by simpa using h
    -- the next read finds a buffer of the same size, with other bytes in it
    have hlen : after.length = buffer.length := by
      have h₁ := length_withoutNewline_le (lineOf s.rest (buffer.length - 1))
      have h₂ := length_lineOf_le s.rest (buffer.length - 1)
      rw [← hafter, List.length_append, List.length_cons, List.length_drop]
      omega
    obtain ⟨hpieces, hlast, hstream⟩ := ih (hending.trans he) (by rwa [hlen])
    refine ⟨?_, hlast, hstream⟩
    rw [piecesOf_of_line hne, hpieces, hlen, hrest, ← hn, ← hafter,
      seen_of_line (isPrefix_lineOf _ _) hrest]
  | case2 s buffer r after t hr h =>
    have hf := not_failed_of_endOfInput he (buffer.length - 1)
    obtain ⟨-, -, hrest, -⟩ := takeLine_eq s (buffer.length - 1)
    by_cases hnil : lineOf s.rest (buffer.length - 1) = []
    · have hrest' : s.rest = [] := (lineOf_eq_nil_iff (by omega)).mp hnil
      rw [readLine_of_nil hf hnil] at h
      obtain ⟨rfl, -, rfl⟩ : _ ∧ _ ∧ _ := by simpa using h
      refine ⟨(piecesOf_of_nil hnil).symm, rfl, ?_⟩
      rw [hrest, hrest', List.drop_nil]
    · rw [readLine_of_line hf rfl hnil] at h
      cases h
      exact absurd rfl (hr _)

/-! ## Pieces of a byte string -/

theorem newline_not_mem_dropLast_lineOf (rest : Bytes) (width : ℕ) :
    newline ∉ (lineOf rest width).dropLast :=
  newline_not_mem_dropLast_throughNewline _

theorem text_of_line (line : Bytes) : Piece.text ⟨line.withoutNewline, line.endsLine⟩ = line := by
  unfold Piece.text
  cases h : line.endsLine with
  | false => simp [withoutNewline, h]
  | true =>
    obtain ⟨front, rfl⟩ := exists_of_endsLine h
    simp

/-- **The pieces give the string back.** -/
theorem flatMap_text_piecesOf {width : ℕ} (hw : width ≠ 0) (rest : Bytes) :
    (piecesOf width rest).flatMap Piece.text = rest := by
  fun_induction piecesOf width rest with
  | case1 rest line h => exact ((lineOf_eq_nil_iff hw).mp h).symm
  | case2 rest line h ih =>
    rw [List.flatMap_cons, ih, text_of_line]
    exact List.prefix_iff_eq_append.mp (isPrefix_lineOf rest width)

/-- Every piece fits, has no newline in it, and stands for something. -/
theorem mem_piecesOf {width : ℕ} {rest : Bytes} {piece : Piece} (h : piece ∈ piecesOf width rest) :
    piece.stored.length ≤ width ∧ newline ∉ piece.stored ∧ piece.text ≠ [] := by
  fun_induction piecesOf width rest with
  | case1 rest line hnil => cases h
  | case2 rest line hne ih =>
    rcases List.mem_cons.mp h with rfl | h
    · refine ⟨(length_withoutNewline_le _).trans (length_lineOf_le rest width), ?_, ?_⟩
      · exact newline_not_mem_withoutNewline (newline_not_mem_dropLast_lineOf rest width)
      · rwa [text_of_line]
    · exact ih h

theorem lineOf_append {front : Bytes} (hf : front.WholeLines) (hne : front ≠ []) (rest : Bytes)
    (width : ℕ) : lineOf (front ++ rest) width = lineOf front width := by
  by_cases hmem : newline ∈ front.take width
  · rw [lineOf_append_of_mem hmem, lineOf]
  · -- the newline at the end of the front is out of reach
    have hle : width ≤ front.length := by
      by_contra hlt
      obtain ⟨line, rfl⟩ := exists_of_endsLine (hf.resolve_left hne)
      rw [List.take_of_length_le (by omega)] at hmem
      exact hmem (List.mem_append_right _ (List.mem_singleton_self _))
    rw [lineOf, List.take_append_of_le_length hle, lineOf]

/-- **Whole lines are cut independently of what follows.** -/
theorem piecesOf_append {width : ℕ} (hw : width ≠ 0) {front : Bytes} (hf : front.WholeLines)
    (rest : Bytes) :
    piecesOf width (front ++ rest) = piecesOf width front ++ piecesOf width rest := by
  fun_induction piecesOf width front with
  | case1 front line h =>
    rw [(lineOf_eq_nil_iff hw).mp h, List.nil_append, List.nil_append]
  | case2 front line h ih =>
    have hne : front ≠ [] := mt (lineOf_eq_nil_iff hw).mpr h
    have hline := lineOf_append hf hne rest width
    have hle := (isPrefix_lineOf front width).length_le
    rw [piecesOf_of_line (by rwa [hline]), hline, List.drop_append_of_le_length hle,
      ih (hf.drop _), List.cons_append]

theorem lineOf_of_dropLast {line : Bytes} (h : newline ∉ line.dropLast) (width : ℕ) :
    lineOf line width = line.take width := by
  refine throughNewline_of_dropLast ?_
  rw [List.dropLast_take_eq_take_dropLast]
  exact fun hmem => h (List.mem_of_mem_take hmem)

/-- **A line is cut into as few pieces as can hold it**, its newline counted with it. -/
theorem length_piecesOf {width : ℕ} (hw : width ≠ 0) {line : Bytes} (h : newline ∉ line.dropLast) :
    (piecesOf width line).length = line.length ⌈/⌉ width := by
  rw [Nat.ceilDiv_eq_add_pred_div]
  fun_induction piecesOf width line with
  | case1 line taken hnil =>
    rw [(lineOf_eq_nil_iff hw).mp hnil, List.length_nil, List.length_nil, Nat.zero_add,
      Nat.div_eq_of_lt (by omega)]
  | case2 line taken hne ih =>
    have htaken : taken = line.take width := lineOf_of_dropLast h width
    have hpos : 0 < line.length := List.length_pos_iff.mpr (mt (lineOf_eq_nil_iff hw).mpr hne)
    have hrest : newline ∉ (line.drop taken.length).dropLast := by
      rw [List.dropLast_drop_eq_drop_dropLast]
      exact fun hmem => h (List.mem_of_mem_drop hmem)
    rw [List.length_cons, ih hrest, htaken, List.length_drop, List.length_take]
    -- the first piece takes the full width, or all that is left
    rcases Nat.le_total width line.length with hle | hle
    · rw [Nat.min_eq_left hle, ← Nat.add_div_right _ (Nat.pos_of_ne_zero hw)]
      congr 1
      omega
    · rw [Nat.min_eq_right hle, Nat.sub_self, Nat.zero_add, Nat.div_eq_of_lt (by omega),
        show line.length + width - 1 = line.length - 1 + width by omega,
        Nat.add_div_right _ (Nat.pos_of_ne_zero hw), Nat.div_eq_of_lt (by omega)]

/-- Among the pieces, those of `line` are `n`, between the pieces of what comes before it and of
what follows. -/
def TakesReads (pieces : List Piece) (front line rest : Bytes) (n : ℕ) : Prop :=
  ∃ before own behind, pieces = before ++ own ++ behind ∧ before.flatMap Piece.text = front ∧
    own.flatMap Piece.text = line ∧ behind.flatMap Piece.text = rest ∧ own.length = n

theorem takesReads_piecesOf {width : ℕ} (hw : width ≠ 0) (front line rest : Bytes)
    (hf : front.WholeLines) (hl : newline ∉ line.dropLast) (hr : line.WholeLines ∨ rest = []) :
    TakesReads (piecesOf width (front ++ line ++ rest)) front line rest
      (line.length ⌈/⌉ width) := by
  have hsplit : piecesOf width (line ++ rest) = piecesOf width line ++ piecesOf width rest := by
    rcases hr with hr | rfl
    · exact piecesOf_append hw hr rest
    · rw [List.append_nil, piecesOf_of_nil ((lineOf_eq_nil_iff hw).mpr rfl), List.append_nil]
  refine ⟨piecesOf width front, piecesOf width line, piecesOf width rest, ?_,
    flatMap_text_piecesOf hw front, flatMap_text_piecesOf hw line, flatMap_text_piecesOf hw rest,
    length_piecesOf hw hl⟩
  rw [List.append_assoc, piecesOf_append hw hf, hsplit, List.append_assoc]

end Stream

end AdaSupport
