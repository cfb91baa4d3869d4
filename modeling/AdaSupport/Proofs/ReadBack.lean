import AdaSupport.Proofs.Chunks
import AdaSupport.Proofs.Delivery
import AdaSupport.Proofs.IntegerText

/-!
# Printed numbers are read back

One program prints numbers, each on a line of its own. What it leaves on standard output is the
input of another program, which reads as many numbers of the same kinds.

* `readNumber_of_line`, `readNumber_of_nil`: a read takes one such line, and nothing at the
  end.
* `Cell.run_read`: what a read makes of its cell and of the input.
* `printed_writes`: what the first program prints.
* **`executed_reads_printed`**: each read finds the number that was printed in its place.
-/

namespace AdaSupport

namespace Stream

open Bytes Numeral

variable {α : Type} {scan : Bytes → Option α} {s : Stream}

theorem rest_ofBytes (bs : Bytes) (ending : Ending) (cuts : ℕ → ℕ) :
    (ofBytes bs ending cuts).rest = bs := rfl

theorem readNumber_of_line {word rest : Bytes} {v : α} (hs : s.rest = word ++ newline :: rest)
    (hword : Visible word) (hblank : scan [newline] = none)
    (hscan : scan (word ++ [newline]) = some v) :
    (readNumber scan s).1 = .found v ∧ (readNumber scan s).2.rest = rest := by
  have hskip : s.rest.dropWhile isBlank = word ++ newline :: rest := by
    cases word with
    | nil =>
      rw [List.nil_append, hblank] at hscan
      cases hscan
    | cons b word =>
      rw [hs, List.cons_append,
        List.dropWhile_cons_of_neg (by simp [hword.not_blank b List.mem_cons_self])]
  have hline : throughNewline (word ++ newline :: rest) = word ++ [newline] := by
    rw [throughNewline_append_of_not_mem, throughNewline, if_pos rfl]
    exact fun hmem => absurd (hword.not_blank _ hmem) (by decide)
  obtain ⟨hfound, hrest, -⟩ := tokenLine_eq s
  rw [hskip, hline] at hrest
  rw [tokenOf, hskip, if_neg (by simp), if_pos (by simp), hline] at hfound
  rw [readNumber_eq, hfound]
  refine ⟨by simp [numberIn, hscan], ?_⟩
  rw [hrest]
  simp

theorem readNumber_of_nil (scan : Bytes → Option α) (hs : s.rest = []) :
    (readNumber scan s).1 = atEnd s.ending ∧ (readNumber scan s).2.rest = [] := by
  obtain ⟨hfound, hrest, -⟩ := tokenLine_eq s
  rw [hs] at hfound hrest
  rw [readNumber_eq, hfound, tokenOf]
  refine ⟨?_, hrest⟩
  cases s.ending <;> rfl

end Stream

namespace Program

open Numeral

/-! ## Numbers and cells -/

/-- A number that a program prints. -/
inductive Number where
  | integer (v : Int32)
  | real (x : Binary64)

/-- A variable that a number is read into. -/
inductive Cell where
  | integer (name : String)
  | real (name : String)

namespace Number

/-- The request that prints a number. -/
def put : Number → Request
  | .integer v => .putInteger (.literal v)
  | .real x => .putReal (.literal x)

/-- Print a number on a line of its own. -/
def writes (n : Number) : List Step := [.request n.put none, .request .newLine none]

/-- The text of a number. -/
def text : Number → Bytes
  | .integer v => ofInteger v
  | .real x => ofReal x

/-- The line on which a number stands. -/
def line (n : Number) : Bytes := n.text ++ [Bytes.newline]

/-- The variable of that name, of the kind that the number needs. -/
def cell (n : Number) (name : String) : Cell :=
  match n with
  | .integer _ => .integer name
  | .real _ => .real name

/-- The same integer, the same bits of a real, or a NaN for a NaN. -/
def Same : Number → Number → Prop
  | .integer v, .integer w => w = v
  | .real x, .real y => (x.isNaN = false → y = x) ∧ (x.isNaN = true → y.isNaN = true)
  | _, _ => False

end Number

namespace Cell

/-- Read a number into the cell. -/
def read : Cell → Step
  | .integer name => .request .getInteger (some name)
  | .real name => .request .getReal (some name)

/-- What the cell holds. -/
def value (c : Cell) (t : Thread) : Number :=
  match c with
  | .integer name => .integer (t.integer name)
  | .real name => .real (t.real name)

/-- What a read from `s` leaves in the cell, and the stream behind it. -/
def take (c : Cell) (t : Thread) (s : Stream) : Number × Stream :=
  match c with
  | .integer name => (.integer (s.readInteger.1.getD (t.integer name)), s.readInteger.2)
  | .real name => (.real (s.readReal.1.getD (t.real name)), s.readReal.2)

end Cell

theorem Thread.integer_assign (t : Thread) (name : String) (v : Int32) :
    (t.assign (some name) (some (.integer v))).integer name = v := by
  simp [Thread.assign, Thread.integer, Thread.value?]

theorem Thread.real_assign (t : Thread) (name : String) (x : Binary64) :
    (t.assign (some name) (some (.real x))).real name = x := by
  simp [Thread.assign, Thread.real, Thread.value?]

/-! ## Single reads -/

theorem Cell.run_read (c : Cell) (t : Thread) (p : Process) : ∃ answer t' p',
    c.read.run t p = .running answer t' p' ∧ (c.value t', p'.input) = c.take t p.input := by
  cases c with
  | integer name =>
    simp only [Cell.read, Step.run, Request.run, Progress.answering]
    refine ⟨_, _, _, rfl, ?_⟩
    rw [Cell.value, Thread.integer_assign]
    rfl
  | real name =>
    simp only [Cell.read, Step.run, Request.run, Progress.answering]
    refine ⟨_, _, _, rfl, ?_⟩
    rw [Cell.value, Thread.real_assign]
    rfl

theorem Cell.take_of_nil {s : Stream} (c : Cell) (t : Thread) (hs : s.rest = []) :
    (c.take t s).1 = c.value t ∧ (c.take t s).2.rest = [] := by
  cases c with
  | integer name =>
    obtain ⟨hfound, hrest⟩ := Stream.readNumber_of_nil scanInteger hs
    refine ⟨?_, hrest⟩
    rw [Cell.take, Stream.readInteger, hfound, Stream.getD_atEnd, Cell.value]
  | real name =>
    obtain ⟨hfound, hrest⟩ := Stream.readNumber_of_nil scanReal hs
    refine ⟨?_, hrest⟩
    rw [Cell.take, Stream.readReal, hfound, Stream.getD_atEnd, Cell.value]

theorem endsReal_newline : EndsReal [Bytes.newline] := by
  rintro b ⟨⟩
  decide

theorem scanInteger_line (v : Int32) : scanInteger (ofInteger v ++ [Bytes.newline]) = some v :=
  scanInteger_ofInteger v Bytes.allBlank_nil fun b hb => (endsReal_newline b hb).1

theorem scanReal_line (x : Binary64) : ∃ y,
    scanReal (ofReal x ++ [Bytes.newline]) = some y ∧ (Number.real x).Same (.real y) := by
  by_cases hx : x.isNaN = true
  · refine ⟨.nan, scanReal_ofReal_of_isNaN hx _, fun h => ?_, fun _ => by decide⟩
    rw [hx] at h
    cases h
  · have hx' := Bool.eq_false_iff.mpr hx
    exact ⟨x, scanReal_ofReal_append hx' endsReal_newline, fun _ => rfl, id⟩

theorem Number.take_of_line {s : Stream} {rest : Bytes} (n : Number) (name : String) (t : Thread)
    (hs : s.rest = n.line ++ rest) :
    n.Same ((n.cell name).take t s).1 ∧ ((n.cell name).take t s).2.rest = rest := by
  rw [Number.line, List.append_assoc, List.singleton_append] at hs
  cases n with
  | integer v =>
    obtain ⟨hfound, hrest⟩ :=
      Stream.readNumber_of_line hs (visible_ofInteger v) (by decide) (scanInteger_line v)
    refine ⟨?_, hrest⟩
    rw [Number.cell, Cell.take, Stream.readInteger, hfound]
    exact rfl
  | real x =>
    obtain ⟨y, hscan, hsame⟩ := scanReal_line x
    obtain ⟨hfound, hrest⟩ :=
      Stream.readNumber_of_line hs (visible_ofReal x) (by decide) hscan
    refine ⟨?_, hrest⟩
    rw [Number.cell, Cell.take, Stream.readReal, hfound]
    exact hsame

/-! ## Sequences of reads -/

/-- A number and the variable that it is read into. -/
structure Item where
  number : Number
  name : String

/-- The variable as a cell for the number. -/
def Item.cell (i : Item) : Cell := i.number.cell i.name

/-- The event reads into the cell `c`, which holds `v` afterwards. -/
structure Event.Reads (e : Event) (c : Cell) (v : Number) : Prop where
  step : c.read = .request e.request e.target
  running : ∃ answer t p, e.progress = .running answer t p ∧ c.value t = v

/-- The event reads the number into its variable. -/
def Item.ReadBy (i : Item) (e : Event) : Prop := ∃ v, e.Reads i.cell v ∧ i.number.Same v

/-- The event reads into the cell and leaves there what it has found there. -/
def Cell.KeptBy (c : Cell) (e : Event) : Prop := e.Reads c (c.value e.thread)

/-- Print numbers, each on a line of its own. -/
def writes (items : List Item) : List Step := items.flatMap fun i => i.number.writes

/-- Read numbers into their variables. -/
def reads (items : List Item) : List Step := items.map fun i => i.cell.read

/-- The lines on which numbers stand. -/
def lines (items : List Item) : Bytes := items.flatMap fun i => i.number.line

/-- A read is one event, after which its thread goes on. -/
theorem Cell.events_read (c : Cell) (steps : List Step) (t : Thread) (p : Process) : ∃ e t' p',
    e.thread = t ∧ e.Reads c (c.take t p.input).1 ∧ p'.input = (c.take t p.input).2 ∧
      events (c.read :: steps) t p = e :: events steps t' p' ∧
      (runAll (c.read :: steps) t p).process = (runAll steps t' p').process := by
  obtain ⟨r, target, hread⟩ : ∃ r target, c.read = .request r target := by
    cases c with
    | integer name => exact ⟨_, _, rfl⟩
    | real name => exact ⟨_, _, rfl⟩
  obtain ⟨answer, t', p', hrun, htake⟩ := c.run_read t p
  obtain ⟨hvalue, hinput⟩ := Prod.mk.inj htake
  refine ⟨⟨r, target, t, p⟩, t', p', rfl, ⟨hread, answer, t', p', ?_, hvalue⟩, hinput, ?_, ?_⟩
  · rw [hread, Step.run] at hrun
    exact hrun
  · rw [events, hrun, hread, Step.events]
    rfl
  · rw [runAll, hrun]

/-- Reads of what was printed find it and use it up. -/
theorem events_reads (items : List Item) (steps : List Step) (t : Thread) (p : Process)
    (hp : p.input.rest = lines items) : ∃ es t' p',
      events (reads items ++ steps) t p = es ++ events steps t' p' ∧
      List.Forall₂ Item.ReadBy items es ∧ p'.input.rest = [] ∧
      (runAll (reads items ++ steps) t p).process = (runAll steps t' p').process := by
  induction items generalizing t p with
  | nil => exact ⟨[], t, p, rfl, .nil, hp, rfl⟩
  | cons i items ih =>
    rw [lines, List.flatMap_cons] at hp
    obtain ⟨hsame, hrest⟩ := i.number.take_of_line i.name t hp
    obtain ⟨e, t₁, p₁, -, hreads, hinput, hevents, hrun⟩ :=
      i.cell.events_read (reads items ++ steps) t p
    obtain ⟨es, t₂, p₂, hevents', hall, hnil, hrun'⟩ := ih t₁ p₁ (hinput ▸ hrest)
    refine ⟨e :: es, t₂, p₂, ?_, .cons ⟨_, hreads, hsame⟩ hall, hnil, hrun.trans hrun'⟩
    exact hevents.trans (congrArg (e :: ·) hevents')

/-- Reads at the end of the input keep their cells as they are. -/
theorem events_reads_at_end (cells : List Cell) (t : Thread) (p : Process)
    (hp : p.input.rest = []) :
    List.Forall₂ Cell.KeptBy cells (events (cells.map Cell.read) t p) := by
  induction cells generalizing t p with
  | nil => exact .nil
  | cons c cells ih =>
    obtain ⟨hkept, hrest⟩ := c.take_of_nil t hp
    obtain ⟨e, t', p', rfl, hreads, hinput, hevents, -⟩ := c.events_read (cells.map Cell.read) t p
    rw [List.map_cons, hevents]
    rw [hkept] at hreads
    exact .cons hreads (ih t' p' (hinput ▸ hrest))

/-! ## The two programs -/

theorem Number.printed_put (n : Number) (t : Thread) : n.put.printed t = n.text := by
  cases n <;> rfl

theorem Number.events_writes (n : Number) (steps : List Step) (t : Thread) (p : Process) : ∃ p₁ p₂,
    events (n.writes ++ steps) t p =
      ⟨n.put, none, t, p⟩ :: ⟨.newLine, none, t, p₁⟩ :: events steps t p₂ := by
  cases n with
  | integer v => exact ⟨_, _, rfl⟩
  | real x => exact ⟨_, _, rfl⟩

theorem printed_writes (items : List Item) (t : Thread) (p : Process) :
    printed (events (writes items) t p) = lines items := by
  induction items generalizing p with
  | nil => rfl
  | cons i items ih =>
    obtain ⟨p₁, p₂, hevents⟩ := i.number.events_writes (writes items) t p
    rw [writes, List.flatMap_cons, ← writes, hevents, lines, List.flatMap_cons, ← lines,
      ← ih p₂, Number.line, ← i.number.printed_put t]
    simp [printed, Request.printed]

theorem output_writes {env : Environment} (managed : Bool) (items : List Item)
    (hw : env.outputWorks = true) : (run env managed (writes items)).output = lines items :=
  output_eq_lines managed hw (printed_writes items .fresh (.start env managed)) fun i => by
    simp [Number.line, Bytes.endsLine]

/-- **What is printed can be read back.** Each read stores the number that was printed in its place,
all reads together use up the input, and every further read leaves its cell as it is. -/
theorem executed_reads_printed (items : List Item) (more : List Cell)
    (first second : Environment) (managed managed' : Bool) (hw : first.outputWorks = true)
    (hin : second.input.rest = (run first managed (writes items)).output) :
    (runAll (reads items) .fresh (.start second managed')).process.input.rest = [] ∧
      ∃ es es', executed second managed' (reads items ++ more.map Cell.read) = es ++ es' ∧
        List.Forall₂ Item.ReadBy items es ∧ List.Forall₂ Cell.KeptBy more es' := by
  rw [output_writes managed items hw] at hin
  refine ⟨?_, ?_⟩
  · obtain ⟨-, t, p, -, -, hnil, hrun⟩ :=
      events_reads items [] .fresh (.start second managed') hin
    rw [List.append_nil] at hrun
    rw [hrun]
    exact hnil
  · obtain ⟨es, t, p, hevents, hall, hnil, -⟩ :=
      events_reads items (more.map Cell.read) .fresh (.start second managed') hin
    exact ⟨es, _, hevents, hall, events_reads_at_end more t p hnil⟩

/-- The least integer, the negative zero, a signaling NaN, the integer zero and the least subnormal
number, two of them in a variable that held another kind, through a stream that shows one byte at a
time and fails at its end. -/
theorem executed_reads_printed_extremes :
    let items : List Item := [⟨.integer (-2147483648), "a"⟩, ⟨.real ⟨0x8000000000000000⟩, "b"⟩,
      ⟨.real ⟨0x7ff0000000000001⟩, "a"⟩, ⟨.integer 0, "b"⟩, ⟨.real ⟨1⟩, "c"⟩]
    let first : Environment := ⟨.ofBytes [] .endOfInput fun _ => 0, true, true, fun _ => 0⟩
    let second : Environment :=
      { first with input := .ofBytes (run first false (writes items)).output .failure fun _ => 0 }
    (runAll (reads items) .fresh (.start second true)).process.input.rest = [] ∧
      ∃ es es', executed second true (reads items ++ [.integer "b", .real "c"].map Cell.read) =
          es ++ es' ∧
        List.Forall₂ Item.ReadBy items es ∧
          List.Forall₂ Cell.KeptBy [.integer "b", .real "c"] es' := by
  intro items first second
  exact executed_reads_printed items [.integer "b", .real "c"] first second false true rfl
    (Stream.rest_ofBytes _ _ _)

end Program

end AdaSupport
