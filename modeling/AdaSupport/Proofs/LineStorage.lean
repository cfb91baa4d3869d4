import AdaSupport.Proofs.LinePieces
import AdaSupport.Proofs.Slots

/-!
# Lines are stored in place

A line read copies each chunk to its place in the buffer as soon as it is in view. At the end the
zero byte goes over the newline that was copied, or behind the last byte.

* `Bytes.front?`, `Bytes.replace?`: a part of a string, and a string with a part replaced, if the
  part is there.
* `storeLine?`, `readLineInPlace?`: a line read made of such accesses to the chunks and the buffer.
* `storeLine?_eq`, **`readLineInPlace?_eq`**: no access is out of range, and what is read is what
  `readLine` gives.
* `lineOf_eq_take`: the bytes that a read takes, by the place of the first newline.
* **`readLine_stores_line`**: what a read makes of the bytes left and of the bytes in its buffer.
-/

namespace AdaSupport

namespace Bytes

/-! ## Accesses that stay in range -/

/-- The first `n` bytes, if there are so many. -/
def front? (bs : Bytes) (n : ℕ) : Option Bytes :=
  if n ≤ bs.length then some (bs.take n) else none

/-- The string with the bytes from `i` on replaced by others. -/
def replaced (bs : Bytes) (i : ℕ) (others : Bytes) : Bytes :=
  bs.take i ++ others ++ bs.drop (i + others.length)

/-- The same, if there is room for all of the others. -/
def replace? (bs : Bytes) (i : ℕ) (others : Bytes) : Option Bytes :=
  if i + others.length ≤ bs.length then some (bs.replaced i others) else none

theorem front?_of_le {bs : Bytes} {n : ℕ} (h : n ≤ bs.length) : front? bs n = some (bs.take n) :=
  if_pos h

section Replaced

variable {bs others : Bytes} {i : ℕ}

theorem replace?_of_le (h : i + others.length ≤ bs.length) :
    replace? bs i others = some (bs.replaced i others) :=
  if_pos h

theorem length_replaced (h : i + others.length ≤ bs.length) :
    (bs.replaced i others).length = bs.length := by
  simp only [replaced, List.length_append, List.length_take, List.length_drop]
  omega

/-- Two parts that are replaced one behind the other are one part. -/
theorem replaced_replaced (h : i + others.length ≤ bs.length) (more : Bytes) :
    (bs.replaced i others).replaced (i + others.length) more = bs.replaced i (others ++ more) := by
  have hfront : (bs.take i ++ others).length = i + others.length := by
    simp only [List.length_append, List.length_take]
    omega
  unfold replaced
  rw [← hfront, List.take_left, ← List.drop_drop, List.drop_left, hfront, List.drop_drop,
    List.length_append, ← Nat.add_assoc]
  simp only [List.append_assoc]

theorem replace?_append_cons (front rest : Bytes) (b c : UInt8) :
    replace? (front ++ b :: rest) front.length [c] = some (front ++ c :: rest) := by
  rw [replace?_of_le (by simp)]
  simp [replaced, List.drop_append]

theorem replaced_nil (bs : Bytes) (i : ℕ) : bs.replaced i [] = bs := by
  simp [replaced]

theorem replaced_zero (bs others : Bytes) :
    bs.replaced 0 others = others ++ bs.drop others.length := by
  simp [replaced]

end Replaced

/-! ## The place of the first newline -/

theorem throughNewline_eq_take (bs : Bytes) :
    throughNewline bs = bs.take (bs.idxOf newline + 1) := by
  induction bs with
  | nil => rfl
  | cons b bs ih =>
    rw [throughNewline, List.idxOf_cons, List.take_succ_cons]
    by_cases hb : b = newline
    · simp [hb]
    · rw [if_neg hb, ih, beq_false_of_ne hb, cond_false]

/-- The number of bytes through the first newline, all of them when there is none. -/
def countLine (bs : Bytes) : ℕ := if newline ∈ bs then bs.idxOf newline + 1 else bs.length

theorem countLine_le (bs : Bytes) : bs.countLine ≤ bs.length := by
  unfold countLine
  split_ifs with h
  · exact List.idxOf_lt_length_iff.mpr h
  · exact le_rfl

theorem take_countLine (bs : Bytes) : bs.take bs.countLine = throughNewline bs := by
  unfold countLine
  split_ifs with h
  · exact (throughNewline_eq_take bs).symm
  · rw [List.take_length, throughNewline_of_not_mem h]

theorem length_throughNewline (bs : Bytes) : (throughNewline bs).length = bs.countLine := by
  rw [← take_countLine, List.length_take, Nat.min_eq_left bs.countLine_le]

end Bytes

namespace Stream

open Bytes

/-! ## Reading in place -/

/-- A line that is being stored: the buffer, the number of bytes stored, whether the device has
failed, and the stream behind them. -/
structure Storage where
  buffer : Bytes
  stored : ℕ
  failed : Bool
  stream : Stream

/-- Store a line behind the first `n` bytes of a buffer, chunk by chunk, up to `limit` bytes in all.
There is no result when an access is out of range. -/
def storeLine? (s : Stream) (buffer : Bytes) (n limit : ℕ) : Option Storage :=
  if _hn : limit ≤ n then some ⟨buffer, n, false, s⟩
  else
    match s.fill with
    | (none, s) => some ⟨buffer, n, true, s⟩
    | (some view, s) =>
      if _hv : view = [] then some ⟨buffer, n, false, s⟩
      else
        match _hc : front? view (min view.length (limit - n)) with
        | none => none
        | some chunk =>
          do
            let part ← front? chunk chunk.countLine
            let buffer ← replace? buffer n part
            let s := s.consume chunk.countLine
            if newline ∈ chunk then some ⟨buffer, n + chunk.countLine, false, s⟩
            else s.storeLine? buffer (n + chunk.countLine) limit
termination_by limit - n
decreasing_by
  have hchunk := Option.some.inj ((front?_of_le (Nat.min_le_left _ _)).symm.trans _hc)
  have hpos : 0 < chunk.countLine := by
    rw [← length_throughNewline, ← hchunk]
    refine List.length_pos_iff.mpr (throughNewline_ne_nil ?_)
    simp [_hv]
    omega
  omega

/-- End the line that has been stored: the zero byte goes over its newline, or behind it. -/
def Storage.finish? (r : Storage) : Option (Reading ℕ × Bytes × Stream) :=
  if r.failed then some (.failed, r.buffer, r.stream)
  else if r.stored = 0 then some (.nothing, r.buffer, r.stream)
  else do
    let last ← r.buffer[r.stored - 1]?
    let n := if last = newline then r.stored - 1 else r.stored
    let after ← replace? r.buffer n [0]
    some (.found n, after, r.stream)

/-- Read a line into a buffer in place. There is no result when an access is out of range. -/
def readLineInPlace? (s : Stream) (buffer : Bytes) : Option (Reading ℕ × Bytes × Stream) :=
  (s.storeLine? buffer 0 (buffer.length - 1)).bind Storage.finish?

theorem takeLine_of_fill {s t : Stream} {view : Bytes} {limit : ℕ} (hl : limit ≠ 0)
    (hf : s.fill = (some view, t)) (hv : view.take limit ≠ []) :
    s.takeLine limit =
      let taken := throughNewline (view.take limit)
      let u := t.consume taken.length
      let more := u.takeLine (limit - taken.length)
      if newline ∈ view.take limit then (taken, false, u) else (taken ++ more.1, more.2) := by
  rw [takeLine, if_neg hl, hf]
  simp only [dif_neg hv, endsLine_throughNewline]

/-- **A line is stored where there is room for it**: no access is out of range. -/
theorem storeLine?_eq (s : Stream) {buffer : Bytes} {n limit : ℕ} (hn : n ≤ limit)
    (hl : limit ≤ buffer.length) :
    s.storeLine? buffer n limit =
      some ⟨buffer.replaced n (s.takeLine (limit - n)).1,
        n + (s.takeLine (limit - n)).1.length, (s.takeLine (limit - n)).2.1,
        (s.takeLine (limit - n)).2.2⟩ := by
  fun_induction storeLine? s buffer n limit with
  | case1 s buffer n h =>
    have hzero : limit - n = 0 := by omega
    rw [hzero, takeLine, if_pos rfl]
    simp [replaced_nil]
  | case2 s buffer n h t hf =>
    have hpos : limit - n ≠ 0 := by omega
    rw [takeLine, if_neg hpos, hf]
    simp [replaced_nil]
  | case3 s buffer n h t hf =>
    have hpos : limit - n ≠ 0 := by omega
    rw [takeLine, if_neg hpos, hf]
    simp [replaced_nil]
  | case4 s buffer n h view t hf hv hc =>
    rw [front?_of_le (Nat.min_le_left _ _)] at hc
    cases hc
  | case5 s buffer n h view t hf hv chunk hc ih =>
    have hchunk : chunk = view.take (limit - n) := by
      rw [front?_of_le (Nat.min_le_left _ _)] at hc
      rw [← Option.some.inj hc, Nat.min_comm, ← List.take_take, List.take_length]
    have hne : view.take (limit - n) ≠ [] := by
      simp [hv]
      omega
    have hroom : n + chunk.countLine ≤ limit := by
      have hle := chunk.countLine_le.trans_eq (congrArg List.length hchunk)
      rw [List.length_take] at hle
      omega
    have hpart : n + (throughNewline chunk).length ≤ buffer.length := by
      rw [length_throughNewline]
      omega
    rw [front?_of_le chunk.countLine_le, take_countLine, Option.bind_eq_bind, Option.bind_some,
      replace?_of_le hpart, Option.bind_some, takeLine_of_fill (by omega) hf hne, ← hchunk]
    by_cases hmem : newline ∈ chunk
    · rw [if_pos hmem, if_pos hmem, length_throughNewline]
    · have hrest : limit - n - chunk.countLine = limit - (n + chunk.countLine) := by omega
      rw [if_neg hmem, if_neg hmem, ih _ hroom (by rwa [length_replaced hpart])]
      simp only [length_throughNewline, hrest, List.length_append, ← Nat.add_assoc]
      rw [← length_throughNewline, replaced_replaced hpart]

/-- The zero byte goes over the newline, or over the byte that the line has not reached. -/
theorem finish?_of_line {taken buffer : Bytes} (hne : taken ≠ [])
    (hroom : taken.length < buffer.length) (t : Stream) :
    Storage.finish? ⟨taken ++ buffer.drop taken.length, taken.length, false, t⟩ =
      some (.found taken.withoutNewline.length,
        taken.withoutNewline ++ 0 :: buffer.drop (taken.withoutNewline.length + 1), t) := by
  obtain ⟨front, last, rfl⟩ := (List.eq_nil_or_concat taken).resolve_left hne
  rw [List.concat_eq_append] at hne hroom ⊢
  have hlast : (front ++ [last] ++ buffer.drop (front ++ [last]).length)[
      (front ++ [last]).length - 1]? = some last := by simp
  have hpos : (front ++ [last]).length ≠ 0 := by simp
  simp only [Storage.finish?, Bool.false_eq_true, if_false, if_neg hpos, hlast, Option.bind_eq_bind,
    Option.bind_some]
  by_cases hn : last = newline
  · subst hn
    have hsplit : front ++ [newline] ++ buffer.drop (front ++ [newline]).length =
        front ++ newline :: buffer.drop (front.length + 1) := by simp
    rw [if_pos rfl, withoutNewline_append_newline, hsplit, List.length_append,
      List.length_singleton, Nat.add_sub_cancel, replace?_append_cons, Option.bind_some]
  · have hopen : withoutNewline (front ++ [last]) = front ++ [last] := by
      simp [withoutNewline, endsLine, hn]
    rw [if_neg hn, hopen, List.drop_eq_getElem_cons hroom, replace?_append_cons, Option.bind_some]

/-- **A line read in place is a line read**: no access is out of range. -/
theorem readLineInPlace?_eq (s : Stream) (buffer : Bytes) :
    s.readLineInPlace? buffer = some (s.readLine buffer) := by
  have hle := length_lineOf_le s.rest (buffer.length - 1)
  rw [← (takeLine_eq s (buffer.length - 1)).1] at hle
  rw [readLineInPlace?, storeLine?_eq s (Nat.zero_le _) (Nat.sub_le _ _), Option.bind_some,
    readLine, Nat.sub_zero]
  generalize s.takeLine (buffer.length - 1) = r at hle ⊢
  obtain ⟨taken, failed, t⟩ := r
  simp only [replaced_zero, Nat.zero_add]
  cases failed with
  | true => rfl
  | false =>
    by_cases hnil : taken = []
    · simp [hnil, Storage.finish?]
    · have hpos := List.length_pos_iff.mpr hnil
      rw [finish?_of_line hnil (by dsimp only at hle; omega), if_neg Bool.false_ne_true,
        if_neg hnil]
      rfl

/-! ## What a read makes of its buffer -/

theorem lineOf_eq_take (rest : Bytes) (limit : ℕ) :
    lineOf rest limit = rest.take (min limit (rest.idxOf newline + 1)) := by
  induction rest generalizing limit with
  | nil => simp [lineOf, throughNewline]
  | cons b rest ih =>
    cases limit with
    | zero => simp [lineOf, throughNewline]
    | succ limit =>
      rw [lineOf, List.take_succ_cons, throughNewline, List.idxOf_cons, ← lineOf, ih]
      by_cases hb : b = newline
      · simp [hb]
      · rw [if_neg hb, beq_false_of_ne hb, cond_false, Nat.succ_min_succ, List.take_succ_cons]

/-- What is stored of a line leaves room for the zero byte. -/
theorem length_withoutNewline_lt {rest line : Bytes} {capacity : ℕ}
    (hline : lineOf rest (capacity - 1) = line) (hne : line ≠ []) :
    line.withoutNewline.length < capacity := by
  have hpos := List.length_pos_iff.mpr hne
  have hlength := length_lineOf_le rest (capacity - 1)
  rw [hline] at hlength
  have hle := line.length_withoutNewline_le
  omega

/-- **A line read stores the next line, and nothing else changes.** A read into less than two bytes,
or at the end of the input, finds nothing. Any other consumes the bytes through the first newline,
at most one less than its buffer has, and stores them without that newline, with a zero byte behind
them. The bytes behind the zero byte are the old ones. All accesses to the buffer on the way are in
range. -/
theorem readLine_stores_line (s : Stream) (buffer : Bytes) (he : s.ending = .endOfInput) :
    let r := s.readLine buffer
    let consumed := s.rest.take (min (buffer.length - 1) (s.rest.idxOf newline + 1))
    let stored := withoutNewline consumed
    s.readLineInPlace? buffer = some r ∧
      (buffer.length ≤ 1 ∨ s.rest = [] → r.1 = .nothing ∧ r.2.1 = buffer ∧ r.2.2.Agrees s) ∧
      (1 < buffer.length → s.rest ≠ [] →
        r.1 = .found stored.length ∧ stored.length ≤ buffer.length - 1 ∧
          consumed ++ r.2.2.rest = s.rest ∧ r.2.2.ending = .endOfInput ∧
          r.2.1.length = buffer.length ∧ r.2.1.take stored.length = stored ∧
          r.2.1[stored.length]? = some 0 ∧
          ∀ i, stored.length < i → r.2.1[i]? = buffer[i]?) := by
  intro r consumed stored
  have hf := not_failed_of_endOfInput he (buffer.length - 1)
  obtain ⟨-, -, hrest, hending⟩ := takeLine_eq s (buffer.length - 1)
  have hconsumed : lineOf s.rest (buffer.length - 1) = consumed := lineOf_eq_take _ _
  rw [hconsumed] at hrest
  refine ⟨readLineInPlace?_eq s buffer, fun h => ?_, fun hc hne => ?_⟩
  · have hnil : consumed = [] := by
      rcases h with h | h
      · simp [consumed, Nat.sub_eq_zero_of_le h]
      · simp [consumed, h]
    rw [hnil] at hconsumed hrest
    have hr : r = _ := readLine_of_nil hf hconsumed
    rw [hr]
    exact ⟨rfl, rfl, hrest, hending⟩
  · have hline : consumed ≠ [] := by
      rw [← hconsumed, Ne, lineOf_eq_nil_iff (by omega)]
      exact hne
    have hlt : stored.length < buffer.length := length_withoutNewline_lt hconsumed hline
    have hr : r = _ := readLine_of_line hf hconsumed hline
    rw [hr]
    refine ⟨rfl, Nat.le_sub_one_of_lt hlt, ?_, hending.trans he, length_terminated hlt,
      List.take_left, getElem?_terminated_length, fun i => getElem?_terminated_of_lt⟩
    exact (congrArg (consumed ++ ·) hrest).trans <|
      List.prefix_iff_eq_append.mp <| List.take_prefix _ _

/-- A line that fills its buffer leaves its newline in the stream. -/
theorem readLine_stores_line_exact_fit :
    let s := ofBytes [97, 98, 99, 100, 10, 120] .endOfInput fun _ => 1
    let r := s.readLine [7, 7, 7, 7, 7]
    s.readLineInPlace? [7, 7, 7, 7, 7] = some r ∧ r.1 = .found 4 ∧
      [97, 98, 99, 100] ++ r.2.2.rest = [97, 98, 99, 100, 10, 120] ∧
      r.2.1.length = 5 ∧ r.2.1.take 4 = [97, 98, 99, 100] ∧ r.2.1[4]? = some 0 := by
  intro s r
  obtain ⟨hplace, -, hread⟩ := readLine_stores_line s [7, 7, 7, 7, 7] rfl
  obtain ⟨hfound, -, hrest, -, hlength, hstored, hzero, -⟩ := hread (by decide) (by decide)
  exact ⟨hplace, hfound, hrest, hlength, hstored, hzero⟩

end Stream

end AdaSupport
