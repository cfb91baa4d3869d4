import AdaSupport.Proofs.LineStorage
import AdaSupport.Proofs.PrintedLines

/-!
# Line reads that do not succeed

A line read that finds nothing has not touched its buffer. When the device fails in the middle of a
line, the bytes of that line are in the buffer already, and no zero byte has been put behind them.

* `failed_takeLine_iff`, `readLine_of_failed`: when a read is interrupted, and what it leaves.
* `LineOutcome`: a read is interrupted, finds nothing, or stores a line.
* `Memory.overwrite_window`, `Memory.text_overwrite`: writing to the place of a buffer.
* **`buffer_after_line_read`**: the text in a buffer after a line read. It is the line, or what it
  was before, but for a read that is interrupted.
* **`interrupted_line_mixes`**: such a read can leave a text that is neither.
-/

namespace AdaSupport

namespace Stream

open Bytes

variable {s : Stream} {buffer : Bytes}

/-! ## Interrupted reads -/

theorem lineOf_of_not_mem {rest : Bytes} {limit : ℕ} (h : newline ∉ rest)
    (hl : rest.length < limit) : lineOf rest limit = rest := by
  rw [lineOf_of_length_lt hl, throughNewline_of_not_mem h]

/-- A read that asks for more than is left has taken all of it. -/
theorem asksMore_lineOf_iff {rest : Bytes} {limit : ℕ} :
    asksMore (lineOf rest limit) limit = true ↔ newline ∉ rest ∧ rest.length < limit := by
  rw [asksMore, Bool.and_eq_true, decide_eq_true_eq, Bool.not_eq_true', lineOf]
  constructor
  · rintro ⟨hlen, hopen⟩
    have hmem : newline ∉ rest.take limit := fun h => by
      rw [(endsLine_throughNewline _).mpr h] at hopen
      cases hopen
    rw [throughNewline_of_not_mem hmem, List.length_take] at hlen
    have hl : rest.length < limit := by omega
    rw [List.take_of_length_le hl.le] at hmem
    exact ⟨hmem, hl⟩
  · rintro ⟨hmem, hl⟩
    rw [List.take_of_length_le hl.le]
    refine ⟨by rwa [throughNewline_of_not_mem hmem], Bool.eq_false_iff.mpr fun h => ?_⟩
    exact hmem ((endsLine_throughNewline _).mp h)

theorem failed_takeLine_iff (s : Stream) (limit : ℕ) : (s.takeLine limit).2.1 = true ↔
    s.ending = .failure ∧ newline ∉ s.rest ∧ s.rest.length < limit := by
  rw [(takeLine_eq s limit).2.1, Bool.and_eq_true, asksMore_lineOf_iff, decide_eq_true_eq]
  exact and_comm

/-- **An interrupted read leaves what it has read in front of the old bytes.** -/
theorem readLine_of_failed (hf : (s.takeLine (buffer.length - 1)).2.1 = true) :
    s.readLine buffer = (.failed, s.rest ++ buffer.drop s.rest.length,
      (s.takeLine (buffer.length - 1)).2.2) := by
  obtain ⟨-, hmem, hl⟩ := (failed_takeLine_iff s _).mp hf
  have htaken := (takeLine_eq s (buffer.length - 1)).1
  rw [lineOf_of_not_mem hmem hl] at htaken
  rcases ht : s.takeLine (buffer.length - 1) with ⟨taken, failed, t⟩
  rw [ht] at htaken hf
  obtain rfl : failed = true := hf
  obtain rfl : taken = s.rest := htaken
  simp [readLine, ht]

/-- What a line read can come to, with the bytes of the buffer afterwards. -/
inductive LineOutcome (s : Stream) (buffer : Bytes) : Reading ℕ → Bytes → Prop where
  | interrupted (he : s.ending = .failure) (hmem : newline ∉ s.rest)
    (hl : s.rest.length < buffer.length - 1) :
    LineOutcome s buffer .failed (s.rest ++ buffer.drop s.rest.length)
  | nothing : LineOutcome s buffer .nothing buffer
  | stored (line : Bytes) (hline : lineOf s.rest (buffer.length - 1) = line) (hne : line ≠ []) :
    LineOutcome s buffer (.found line.withoutNewline.length)
      (line.withoutNewline ++ 0 :: buffer.drop (line.withoutNewline.length + 1))

/-- **A line read is interrupted, finds nothing, or stores a line.** -/
theorem lineOutcome (s : Stream) (buffer : Bytes) :
    LineOutcome s buffer (s.readLine buffer).1 (s.readLine buffer).2.1 := by
  cases hf : (s.takeLine (buffer.length - 1)).2.1 with
  | true =>
    obtain ⟨he, hmem, hl⟩ := (failed_takeLine_iff s _).mp hf
    rw [readLine_of_failed hf]
    exact .interrupted he hmem hl
  | false =>
    by_cases hnil : lineOf s.rest (buffer.length - 1) = []
    · rw [readLine_of_nil hf hnil]
      exact .nothing
    · rw [readLine_of_line hf rfl hnil]
      exact .stored _ rfl hnil

theorem buffer_of_nothing (h : (s.readLine buffer).1 = .nothing) :
    (s.readLine buffer).2.1 = buffer := by
  have hr := s.lineOutcome buffer
  rw [h] at hr
  generalize (s.readLine buffer).2.1 = after at hr ⊢
  cases hr with
  | nothing => rfl

theorem buffer_of_found {n : ℕ} (h : (s.readLine buffer).1 = .found n) :
    let line := withoutNewline (lineOf s.rest (buffer.length - 1))
    n = line.length ∧ (s.readLine buffer).2.1 = line ++ 0 :: buffer.drop (line.length + 1) := by
  have hr := s.lineOutcome buffer
  rw [h] at hr
  generalize (s.readLine buffer).2.1 = after at hr ⊢
  cases hr with
  | stored line hline hne =>
    rw [hline]
    exact ⟨rfl, rfl⟩

theorem readLine_eq_failed_iff : (s.readLine buffer).1 = .failed ↔
    s.ending = .failure ∧ newline ∉ s.rest ∧ s.rest.length < buffer.length - 1 := by
  constructor
  · intro h
    have hr := s.lineOutcome buffer
    rw [h] at hr
    generalize (s.readLine buffer).2.1 = after at hr
    cases hr with
    | interrupted he hmem hl => exact ⟨he, hmem, hl⟩
  · intro h
    rw [readLine_of_failed ((failed_takeLine_iff s _).mpr h)]

theorem buffer_of_failed (h : (s.readLine buffer).1 = .failed) :
    (s.readLine buffer).2.1 = s.rest ++ buffer.drop s.rest.length := by
  rw [readLine_of_failed ((failed_takeLine_iff s _).mpr (readLine_eq_failed_iff.mp h))]

/-- The buffer stays as large as it was. -/
theorem length_readLine (s : Stream) (buffer : Bytes) :
    (s.readLine buffer).2.1.length = buffer.length := by
  have hr := s.lineOutcome buffer
  generalize (s.readLine buffer).1 = found, (s.readLine buffer).2.1 = after at hr ⊢
  cases hr with
  | interrupted he hmem hl =>
    rw [List.length_append, List.length_drop]
    omega
  | nothing => rfl
  | stored line hline hne =>
    exact length_terminated (length_withoutNewline_lt hline hne)

end Stream

namespace Program

/-! ## Buffers of a program -/

namespace Memory

theorem set_get (m : Memory) (r : Region) : m.set r (m.get r) = m := by
  cases r with
  | slot slot => cases slot <;> rfl
  | buffer i =>
    rw [Memory.set, Memory.get]
    by_cases hi : i < m.buffers.length
    · rw [List.getD_eq_getElem?_getD, List.getElem?_eq_getElem hi, Option.getD_some,
        List.set_getElem_self]
    · rw [List.set_eq_of_length_le (not_lt.mp hi)]

theorem window_append (m : Memory) (p : Pointer) (n : ℕ) :
    m.window p n ++ (m.get p.region).drop (p.offset + (m.window p n).length) =
      (m.get p.region).drop p.offset := by
  rw [← List.drop_drop, window]
  exact List.prefix_iff_eq_append.mp <| List.take_prefix n _

/-- What stands at a place is written there again. -/
theorem overwrite_window (m : Memory) (p : Pointer) (n : ℕ) : m.overwrite p (m.window p n) = m := by
  rw [overwrite, List.append_assoc, window_append, List.take_append_drop, set_get]

/-- The text at a place after its window has been written to. -/
theorem text_overwrite (m : Memory) (p : Pointer) {n : ℕ} {bs : Bytes}
    (h : bs.length = (m.window p n).length) :
    (m.overwrite p bs).text p =
      Bytes.cString (bs ++ (m.get p.region).drop (p.offset + bs.length)) := by
  by_cases hnil : bs = []
  · -- an empty window, as at a place behind the end of its region
    have hwindow : bs = m.window p n := by
      rw [hnil, List.length_nil, eq_comm, List.length_eq_zero_iff] at h
      rw [hnil, h]
    rw [hwindow, overwrite_window, ← hwindow, hnil, List.nil_append, List.length_nil, Nat.add_zero,
      text]
  · have hpos := List.length_pos_iff.mpr hnil
    have hroom : p.offset + bs.length ≤ (m.get p.region).length := by
      rw [window, List.length_take, List.length_drop] at h
      omega
    rw [text, drop_overwrite m hnil hroom]

end Memory

/-- A line read writes to the window of its buffer. -/
theorem run_getLine_eq {a : TextArgument} {t : Thread} {ptr : Pointer}
    (h : a.pointer? t = some ptr) (target : Option String) (p : Process) :
    let r := p.input.readLine (t.memory.window ptr Stream.lineCapacity)
    let m := t.memory.overwrite ptr r.2.1
    ∃ q, (Request.getLine a).run target t p =
      .running (.text (m.text ptr)) { t with memory := m } q ∧ q.input = r.2.2 := by
  intro r m
  simp only [Request.run, h]
  exact ⟨_, rfl, rfl⟩

/-- **The text in a buffer after a line read.** A read that finds nothing keeps its buffer, and so
does one that fails before it has read anything. A line that is found is the text afterwards, up to
a zero byte in it. A read that the device fails within a line has overwritten the front of its
buffer, so that the text is what it has read and, if no zero byte is in that, what the buffer held
behind. -/
theorem buffer_after_line_read (s : Stream) :
    (∀ buffer, let r := s.readLine buffer
      (r.1 = .nothing → r.2.1 = buffer) ∧
        (r.1 = .failed ↔ s.ending = .failure ∧ Bytes.newline ∉ s.rest ∧
          s.rest.length < buffer.length - 1) ∧
        (r.1 = .failed → r.2.1 = s.rest ++ buffer.drop s.rest.length) ∧
        (r.1 = .failed → (r.2.1 = buffer ↔ s.rest <+: buffer))) ∧
      ∀ (a : TextArgument) (target : Option String) (t : Thread) (p : Process) (ptr : Pointer),
        a.pointer? t = some ptr → p.input = s →
        let buffer := t.memory.window ptr Stream.lineCapacity
        let r := s.readLine buffer
        let line := Bytes.withoutNewline
          (s.rest.take (min (buffer.length - 1) (s.rest.idxOf Bytes.newline + 1)))
        ∃ m q, (Request.getLine a).run target t p =
            .running (.text (m.text ptr)) { t with memory := m } q ∧ q.input = r.2.2 ∧
          (r.1 = .nothing → m = t.memory) ∧
          (∀ n, r.1 = .found n → n = line.length ∧ m.text ptr = Bytes.cString line) ∧
          (r.1 = .failed → s.rest = [] → m = t.memory) ∧
          (r.1 = .failed → m.text ptr = Bytes.cString
            (s.rest ++ (t.memory.get ptr.region).drop (ptr.offset + s.rest.length))) := by
  refine ⟨fun buffer => ?_, fun a target t p ptr hptr hs => ?_⟩
  · refine ⟨Stream.buffer_of_nothing, Stream.readLine_eq_failed_iff, Stream.buffer_of_failed,
      fun h => ?_⟩
    rw [Stream.buffer_of_failed h]
    exact List.prefix_iff_eq_append.symm
  · subst hs
    intro buffer r line
    obtain ⟨q, hrun, hinput⟩ := run_getLine_eq hptr target p
    have htext := t.memory.text_overwrite ptr (n := Stream.lineCapacity)
      (Stream.length_readLine p.input _)
    refine ⟨_, q, hrun, hinput, fun h => ?_, fun n h => ?_, fun h hnil => ?_, fun h => ?_⟩
    · rw [Stream.buffer_of_nothing h, Memory.overwrite_window]
    · obtain ⟨hn, hafter⟩ := Stream.buffer_of_found h
      rw [Stream.lineOf_eq_take] at hn hafter
      rw [htext, hafter, List.append_assoc, List.cons_append, Bytes.cString_append_zero_eq]
      exact ⟨hn, rfl⟩
    · rw [Stream.buffer_of_failed h, hnil, List.nil_append, List.length_nil, List.drop_zero,
        Memory.overwrite_window]
    · obtain ⟨-, -, hl⟩ := Stream.readLine_eq_failed_iff.mp h
      rw [htext, Stream.length_readLine, Stream.buffer_of_failed h, List.append_assoc,
        ← List.drop_append_of_le_length (by omega), Memory.window_append, List.drop_drop]

/-- A device that fails at once leaves a buffer that held `old` as it was. One that gives `n` and
fails leaves `nld` in it. -/
theorem buffer_after_line_read_kept :
    let s := Stream.ofBytes [] .failure fun _ => 0
    let broken := Stream.ofBytes [110] .failure fun _ => 0
    let ptr : Pointer := ⟨.buffer 0, 0⟩
    let t : Thread := ⟨(Memory.fresh.allocate Stream.lineCapacity [111, 108, 100]).2,
      [("b", .pointer ptr)]⟩
    let p := fun input => Process.start ⟨input, true, true, fun _ => 0⟩ true
    ((s.readLine [35, 35, 35]).1 = .failed ∧ (s.readLine [35, 35, 35]).2.1 = [35, 35, 35] ∧
      ∃ q, (Request.getLine (.stored "b" 0)).run none t (p s) =
        .running (.text [111, 108, 100]) t q) ∧
      (broken.readLine [35, 35, 35]).1 = .failed ∧
      (broken.readLine [35, 35, 35]).2.1 = [110, 35, 35] ∧
      ∃ m q, (Request.getLine (.stored "b" 0)).run none t (p broken) =
        .running (.text [110, 108, 100]) { t with memory := m } q := by
  intro s broken ptr t p
  have hwindow : (t.memory.window ptr Stream.lineCapacity).length = Stream.lineCapacity :=
    Memory.length_window_allocate .fresh Stream.lineCapacity [111, 108, 100]
  constructor
  · obtain ⟨hreads, hrequests⟩ := buffer_after_line_read s
    obtain ⟨-, hfailed, -, hkept⟩ := hreads [35, 35, 35]
    have h := hfailed.mpr ⟨rfl, by decide, by decide⟩
    refine ⟨h, (hkept h).mpr List.nil_prefix, ?_⟩
    obtain ⟨m, q, hrun, -, -, -, hm, -⟩ := hrequests (.stored "b" 0) none t (p s) ptr rfl rfl
    obtain rfl : m = t.memory := hm
      ((hreads _).2.1.mpr ⟨rfl, by decide, by rw [hwindow]; decide⟩) rfl
    exact ⟨q, hrun⟩
  · obtain ⟨hreads, hrequests⟩ := buffer_after_line_read broken
    obtain ⟨-, hfailed, hafter, -⟩ := hreads [35, 35, 35]
    have h := hfailed.mpr ⟨rfl, by decide, by decide⟩
    refine ⟨h, hafter h, ?_⟩
    obtain ⟨m, q, hrun, -, -, -, -, hm⟩ := hrequests (.stored "b" 0) none t (p broken) ptr rfl rfl
    rw [hm ((hreads _).2.1.mpr ⟨rfl, by decide, by rw [hwindow]; decide⟩)] at hrun
    exact ⟨m, q, hrun⟩

/-- The device gives `ne` of a line and fails. A buffer that held `old` shows neither text then. -/
theorem interrupted_line_mixes :
    let s := Stream.ofBytes [110, 101] .failure fun _ => 0
    let env : Environment := ⟨s, true, true, fun _ => 0⟩
    (s.readLine [35, 35, 35, 35, 35]).1 = .failed ∧
      (s.readLine [35, 35, 35, 35, 35]).2.1 = [110, 101, 35, 35, 35] ∧
      (run env true [.request (.buffer [111, 108, 100]) (some "b"),
        .request (.getLine (.stored "b" 0)) none]).answers = [.nothing, .text [110, 101, 100]] := by
  intro s env
  have hfailed : ∀ {buffer : Bytes}, 2 < buffer.length - 1 → (s.readLine buffer).1 = .failed :=
    fun h => Stream.readLine_eq_failed_iff.mpr ⟨rfl, by decide, h⟩
  refine ⟨hfailed (by decide), ?_, ?_⟩
  · rw [Stream.buffer_of_failed (hfailed (by decide))]
    rfl
  · let ptr : Pointer := ⟨.buffer 0, 0⟩
    let m := (Memory.fresh.allocate Stream.lineCapacity [111, 108, 100]).2
    have hanswers : (run env true [.request (.buffer [111, 108, 100]) (some "b"),
        .request (.getLine (.stored "b" 0)) none]).answers =
        [.nothing, .text ((m.overwrite ptr (s.readLine (m.window ptr 256)).2.1).text ptr)] := rfl
    have hwindow : (m.window ptr 256).length = 256 :=
      Memory.length_window_allocate .fresh Stream.lineCapacity [111, 108, 100]
    rw [hanswers, m.text_overwrite ptr (Stream.length_readLine s _),
      Stream.buffer_of_failed (hfailed (by rw [hwindow]; decide))]
    rfl

end Program

end AdaSupport
