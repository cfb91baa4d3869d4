import AdaSupport.Proofs.Delivery
import AdaSupport.Proofs.LinePieces
import AdaSupport.Proofs.Slots

/-!
# Printed lines are read back

One program prints lines of its own. What it leaves on standard output is the input of another
program, which reads lines into a buffer.

* `Memory.drop_overwrite`, `Memory.length_window_allocate`: what stands from a place on after it has
  been written to, and the room in a new buffer.
* `ShortLine`: a line that a program's buffer takes as a whole; `readLine_of_shortLine`: it does.
* `run_getLine`: what a line read answers, and what it leaves.
* `answers_getLines`: each short line is read as it was printed.
* **`lines_read_in_pieces`**: reading lines neither loses nor adds input, and takes no more reads
  than it has to.
-/

namespace AdaSupport

/-- A line that fits into a program's line buffer with its newline and the zero byte. -/
structure ShortLine (line : Bytes) : Prop where
  length : line.length ≤ 254
  newline : Bytes.newline ∉ line
  zero : 0 ∉ line

theorem Stream.readLine_of_shortLine {s : Stream} {buffer line rest : Bytes} (h : ShortLine line)
    (hb : buffer.length = lineCapacity) (hs : s.rest = line ++ Bytes.newline :: rest) :
    (s.readLine buffer).2.1 = line ++ 0 :: buffer.drop (line.length + 1) ∧
      (s.readLine buffer).2.2.rest = rest := by
  have hlen : (line ++ [Bytes.newline]).length ≤ buffer.length - 1 := by
    have := h.length
    rw [hb, List.length_append, List.length_singleton]
    change line.length + 1 ≤ 255
    omega
  have htake : (line ++ [Bytes.newline]).take (buffer.length - 1) = line ++ [Bytes.newline] :=
    List.take_of_length_le hlen
  have hline : lineOf s.rest (buffer.length - 1) = line ++ [Bytes.newline] := by
    rw [hs, ← List.singleton_append, ← List.append_assoc, lineOf_append_of_mem (by simp [htake]),
      htake, Bytes.throughNewline_append_of_not_mem h.newline]
    rfl
  have hf : (s.takeLine (buffer.length - 1)).2.1 = false :=
    not_failed_of_endsLine (by simp [hline])
  obtain ⟨-, -, hrest, -⟩ := takeLine_eq s (buffer.length - 1)
  rw [readLine_of_line hf hline (by simp), Bytes.withoutNewline_append_newline]
  refine ⟨rfl, hrest.trans ?_⟩
  rw [hline, hs]
  simp

namespace Program

/-! ## Memory -/

namespace Memory

theorem get_set_self (m : Memory) {r : Region} (h : m.get r ≠ []) (bs : Bytes) :
    (m.set r bs).get r = bs := by
  cases r with
  | slot s => exact Slots.get_set_self _ _ _
  | buffer i =>
    have hi : i < m.buffers.length := by
      by_contra hge
      exact h (by simp [Memory.get, List.getElem?_eq_none (not_lt.mp hge)])
    simp [Memory.get, Memory.set, hi]

/-- What stands from a place on after bytes have been written there. -/
theorem drop_overwrite (m : Memory) {p : Pointer} {bs : Bytes} (hne : bs ≠ [])
    (h : p.offset + bs.length ≤ (m.get p.region).length) :
    ((m.overwrite p bs).get p.region).drop p.offset =
      bs ++ (m.get p.region).drop (p.offset + bs.length) := by
  have hpos := List.length_pos_iff.mpr hne
  have hget : m.get p.region ≠ [] := by
    intro hnil
    rw [hnil, List.length_nil] at h
    omega
  rw [overwrite, get_set_self m hget, List.append_assoc,
    List.drop_left' (by rw [List.length_take]; omega)]

/-- A new buffer can be written to in its whole size. -/
theorem length_window_allocate (m : Memory) (size : ℕ) (bs : Bytes) :
    ((m.allocate size bs).2.window (m.allocate size bs).1 size).length = size := by
  have hget : (m.allocate size bs).2.get (m.allocate size bs).1.region =
      bs ++ List.replicate (size - bs.length) 0 := by
    simp [allocate, get]
  rw [window, hget, List.length_take, show (m.allocate size bs).1.offset = 0 from rfl,
    List.drop_zero, List.length_append, List.length_replicate]
  omega

end Memory

/-! ## Reading into a buffer -/

/-- **A line read answers a short line** and leaves its buffer as large as it was. -/
theorem run_getLine {s : TextArgument} {t : Thread} {p : Process} {ptr : Pointer}
    {line rest : Bytes} (hptr : s.pointer? t = some ptr)
    (hwindow : (t.memory.window ptr Stream.lineCapacity).length = Stream.lineCapacity)
    (hline : ShortLine line) (hin : p.input.rest = line ++ Bytes.newline :: rest) :
    ∃ m q, (Request.getLine s).run none t p = .running (.text line) { t with memory := m } q ∧
      (m.window ptr Stream.lineCapacity).length = Stream.lineCapacity ∧ q.input.rest = rest := by
  set window := t.memory.window ptr Stream.lineCapacity with hw
  obtain ⟨hbuffer, hrest⟩ := Stream.readLine_of_shortLine (s := p.flush.input) hline hwindow hin
  set bs := (p.flush.input.readLine window).2.1 with hbs
  have hlen : bs.length = Stream.lineCapacity := by
    have := hline.length
    rw [hbuffer, List.length_append, List.length_cons, List.length_drop, hwindow]
    change line.length + (256 - (line.length + 1) + 1) = 256
    omega
  have hroom : ptr.offset + bs.length ≤ (t.memory.get ptr.region).length := by
    have hpos : 0 < Stream.lineCapacity := by decide
    have hsize := hwindow
    rw [hw, Memory.window, List.length_take, List.length_drop] at hsize
    omega
  have hdrop := t.memory.drop_overwrite (List.length_pos_iff.mp (by rw [hlen]; decide)) hroom
  refine ⟨t.memory.overwrite ptr bs, (p.getLine t.memory ptr).2, ?_, ?_, hrest⟩
  · have htext : (t.memory.overwrite ptr bs).text ptr = line := by
      rw [Memory.text, hdrop, hbuffer, List.append_assoc, List.cons_append,
        Bytes.cString_append_zero hline.zero]
    simp only [Request.run, hptr]
    rw [← htext]
    rfl
  · rw [Memory.window, hdrop, List.length_take, List.length_append, hlen]
    omega

/-- Print lines. -/
def putLines (lines : List Bytes) : List Step :=
  lines.map fun line => .request (.put (.literal line) true) none

/-- Set up a buffer and read `n` lines into it. -/
def getLines (name : String) (content : Bytes) (n : ℕ) : List Step :=
  .request (.buffer content) (some name) ::
    List.replicate n (.request (.getLine (.stored name 0)) none)

/-- The lines as they stand on standard output. -/
def joined (lines : List Bytes) : Bytes := lines.flatMap (· ++ [Bytes.newline])

theorem runAll_getLines {s : TextArgument} {ptr : Pointer} {lines : List Bytes}
    (hlines : ∀ line ∈ lines, ShortLine line) {t : Thread} {p : Process}
    (hptr : ∀ m, s.pointer? { t with memory := m } = some ptr)
    (hwindow : (t.memory.window ptr Stream.lineCapacity).length = Stream.lineCapacity)
    (hin : p.input.rest = joined lines) :
    (runAll (List.replicate lines.length (.request (.getLine s) none)) t p).answers =
        lines.map .text ∧
      (runAll (List.replicate lines.length (.request (.getLine s) none)) t p).process.input.rest =
        [] := by
  induction lines generalizing t p with
  | nil =>
    simp only [List.length_nil, List.replicate_zero, runAll]
    exact ⟨rfl, hin⟩
  | cons line lines ih =>
    have hin' : p.input.rest = line ++ Bytes.newline :: joined lines := by
      rw [hin, joined, List.flatMap_cons, List.append_assoc]
      rfl
    obtain ⟨m, q, hrun, hwindow', hrest⟩ :=
      run_getLine (hptr t.memory) hwindow (hlines line List.mem_cons_self) hin'
    obtain ⟨hanswers, hend⟩ := ih (t := { t with memory := m })
      (fun line hmem => hlines line (List.mem_cons_of_mem _ hmem)) hptr hwindow' hrest
    simp only [List.length_cons, List.replicate_succ, runAll, Step.run, hrun]
    exact ⟨congrArg (.text line :: ·) hanswers, hend⟩

/-! ## The two programs -/

theorem printed_putLines {lines : List Bytes} (hlines : ∀ line ∈ lines, ShortLine line)
    (t : Thread) (p : Process) : printed (events (putLines lines) t p) = joined lines := by
  induction lines generalizing p with
  | nil => rfl
  | cons line lines ih =>
    have hzero := (hlines line List.mem_cons_self).zero
    have hevents : ∃ q, events (putLines (line :: lines)) t p =
        ⟨.put (.literal line) true, none, t, p⟩ :: events (putLines lines) t q := ⟨_, rfl⟩
    obtain ⟨q, hevents⟩ := hevents
    rw [hevents, printed, List.flatMap_cons, ← printed,
      ih (fun line hmem => hlines line (List.mem_cons_of_mem _ hmem))]
    simp [joined, Request.printed, TextArgument.text, Text.printed, Bytes.cString_of_not_mem hzero]

theorem output_putLines {env : Environment} (managed : Bool) {lines : List Bytes}
    (hlines : ∀ line ∈ lines, ShortLine line) (hw : env.outputWorks = true) :
    (run env managed (putLines lines)).output = joined lines :=
  output_eq_lines managed hw (printed_putLines hlines .fresh (.start env managed))
    Bytes.endsLine_append_newline

/-- **Short lines are read as they were printed**, one with each read. -/
theorem answers_getLines {lines : List Bytes} (hlines : ∀ line ∈ lines, ShortLine line)
    {first second : Environment} (managed managed' : Bool) (name : String) (content : Bytes)
    (hw : first.outputWorks = true)
    (hin : second.input.rest = (run first managed (putLines lines)).output) :
    (run second managed' (getLines name content lines.length)).answers =
        .nothing :: lines.map .text ∧
      (runAll (getLines name content lines.length) .fresh
        (.start second managed')).process.input.rest = [] := by
  rw [output_putLines managed hlines hw] at hin
  let ptr := (Memory.fresh.allocate Stream.lineCapacity content).1
  let t : Thread :=
    Thread.assign ⟨(Memory.fresh.allocate Stream.lineCapacity content).2, []⟩ (some name)
      (some (.pointer ptr))
  have hptr : ∀ m, (TextArgument.stored name 0).pointer? { t with memory := m } = some ptr := by
    intro m
    simp [t, TextArgument.pointer?, Thread.pointer?, Thread.value?, Thread.assign, Pointer.advance]
  have hwindow : (t.memory.window ptr Stream.lineCapacity).length = Stream.lineCapacity :=
    Memory.length_window_allocate .fresh Stream.lineCapacity content
  obtain ⟨hanswers, hrest⟩ :=
    runAll_getLines hlines hptr hwindow (p := .start second managed') hin
  exact ⟨congrArg (Answer.nothing :: ·) hanswers, hrest⟩

/-- **Lines are read in pieces, and nothing is lost or added.** Reads into a buffer of at least two
bytes go on until they find nothing, and the input is used up then. Each piece fits, and has no
newline in it; with the newlines that were consumed behind them the pieces are the input. A line,
its newline counted with it, takes as few reads as can hold it. So a line that a program's buffer
has room for is read at once, as it was printed. -/
theorem lines_read_in_pieces (bs : Bytes) (cuts : ℕ → ℕ) (buffer : Bytes)
    (hc : 2 ≤ buffer.length) :
    let r := (Stream.ofBytes bs .endOfInput cuts).readLines buffer
    let width := buffer.length - 1
    (r.last = .nothing ∧ r.stream.rest = []) ∧
      (∀ piece ∈ r.pieces,
        piece.stored.length ≤ width ∧ Bytes.newline ∉ piece.stored ∧ piece.text ≠ []) ∧
      r.pieces.flatMap Stream.Piece.text = bs ∧
      (∀ front line rest, bs = front ++ (line ++ [Bytes.newline]) ++ rest → front.WholeLines →
        Bytes.newline ∉ line → Stream.TakesReads r.pieces front (line ++ [Bytes.newline]) rest
          ((line.length + 1) ⌈/⌉ width)) ∧
      (∀ front line, bs = front ++ line → front.WholeLines → Bytes.newline ∉ line →
        Stream.TakesReads r.pieces front line [] (line.length ⌈/⌉ width)) ∧
      ∀ lines, (∀ line ∈ lines, ShortLine line) → ∀ (first second : Environment)
        (managed managed' : Bool) (name : String) (content : Bytes), first.outputWorks = true →
        second.input.rest = (run first managed (putLines lines)).output →
        (run second managed' (getLines name content lines.length)).answers =
            .nothing :: lines.map .text ∧
          (runAll (getLines name content lines.length) .fresh
            (.start second managed')).process.input.rest = [] := by
  intro r width
  have hwidth : width ≠ 0 := by omega
  obtain ⟨hpieces, hlast, hrest⟩ :=
    Stream.readLines_eq (s := .ofBytes bs .endOfInput cuts) rfl hc
  change r.pieces = Stream.piecesOf width bs at hpieces
  rw [hpieces]
  refine ⟨⟨hlast, hrest⟩, fun piece hmem => Stream.mem_piecesOf hmem,
    Stream.flatMap_text_piecesOf hwidth bs, ?_, ?_, ?_⟩
  · rintro front line rest rfl hfront hline
    have htakes := Stream.takesReads_piecesOf hwidth front (line ++ [Bytes.newline]) rest hfront
      (by rwa [List.dropLast_concat]) (.inl (.inr (Bytes.endsLine_append_newline line)))
    rwa [List.length_append, List.length_singleton] at htakes
  · rintro front line rfl hfront hline
    have htakes := Stream.takesReads_piecesOf hwidth front line [] hfront
      (fun hmem => hline (List.mem_of_mem_dropLast hmem)) (.inr rfl)
    rwa [List.append_nil] at htakes
  · intro lines hlines first second managed managed' name content hw hin
    exact answers_getLines hlines managed managed' name content hw hin

/-- A line that fills its buffer leaves its newline to the next read, which stores nothing. -/
theorem lines_read_in_pieces_exact_fit :
    let r := (Stream.ofBytes [97, 98, 99, 100, 10, 101] .endOfInput fun _ => 1).readLines
      (List.replicate 5 7)
    let lines : List Bytes := [List.replicate 254 97, [], [98]]
    let first : Environment := ⟨.ofBytes [] .endOfInput fun _ => 0, true, true, fun _ => 0⟩
    let second : Environment :=
      { first with input := .ofBytes (run first false (putLines lines)).output .failure fun _ => 0 }
    Stream.TakesReads r.pieces [] [97, 98, 99, 100, 10] [101] 2 ∧
      Stream.TakesReads r.pieces [97, 98, 99, 100, 10] [101] [] 1 ∧
      (run second true (getLines "b" [] lines.length)).answers = .nothing :: lines.map .text := by
  intro r lines first second
  obtain ⟨-, -, -, hended, hlast, hprinted⟩ := lines_read_in_pieces [97, 98, 99, 100, 10, 101]
    (fun _ => 1) (List.replicate 5 7) (by decide)
  have hlong : ShortLine (List.replicate 254 97) :=
    ⟨List.length_replicate.le, fun h => absurd (List.eq_of_mem_replicate h) (by decide),
      fun h => absurd (List.eq_of_mem_replicate h) (by decide)⟩
  have hlines : ∀ line ∈ lines, ShortLine line :=
    List.forall_mem_cons.mpr ⟨hlong, List.forall_mem_cons.mpr ⟨⟨by decide, by decide, by decide⟩,
      List.forall_mem_singleton.mpr ⟨by decide, by decide, by decide⟩⟩⟩
  have hinput : second.input.rest = (run first false (putLines lines)).output := by
    dsimp only [second, Stream.ofBytes]
  exact ⟨hended [] [97, 98, 99, 100] [101] rfl (.inl rfl) (by decide),
    hlast [97, 98, 99, 100, 10] [101] rfl (.inr rfl) (by decide),
    (hprinted lines hlines first second false true "b" [] rfl hinput).1⟩

end Program

end AdaSupport
