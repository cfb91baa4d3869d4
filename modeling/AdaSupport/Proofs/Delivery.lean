import AdaSupport.Proofs.Execution
import Mathlib.Data.List.TakeWhile

/-!
# Delivery of what is written

On a working device nothing that is written gets lost, doubled or moved: it has been received, or
it waits behind what has been received. What waits never holds a newline.

* `Output.Writes`: a writing step that adds given bytes to what is written.
* `Output.Steady`: the state of line-buffered output between two writes.
* `Delivers`: what a run adds to its output, and what it does to the flush at exit.
* **`run_output_eq_printed`**: at the end everything has been received when a flush at exit is still
  due, and all but the end of a line in any case.
-/

namespace AdaSupport

theorem Bytes.newline_not_mem_lastLine (bs : Bytes) : newline ∉ bs.lastLine := by
  intro h
  have := List.mem_takeWhile_imp (List.mem_reverse.mp h)
  simp at this

namespace Output

variable {o : Output} {bs cs : Bytes} {r : Bool × Output}

/-! ## Writing steps -/

/-- A step from `o` to `r` that succeeds and adds `bs` to what is written. -/
structure Writes (o : Output) (bs : Bytes) (r : Bool × Output) : Prop where
  succeeds : r.1 = true
  works : r.2.device.works = true
  written : r.2.written = o.written ++ bs
  pending : r.2.pending ⊆ o.pending ++ bs

theorem andThen_of_succeeds (h : r.1 = true) (next : Output → Bool × Output) :
    andThen r next = next r.2 := by
  obtain ⟨ok, o⟩ := r
  obtain rfl : ok = true := h
  rfl

theorem Writes.nothing (hw : o.device.works = true) : o.Writes [] (true, o) where
  succeeds := rfl
  works := hw
  written := (List.append_nil _).symm
  pending := List.subset_append_left _ _

theorem Writes.andThen (next : Output → Bool × Output) (h : o.Writes bs r)
    (hn : r.2.Writes cs (next r.2)) : o.Writes (bs ++ cs) (andThen r next) := by
  rw [andThen_of_succeeds h.succeeds]
  refine ⟨hn.succeeds, hn.works, ?_, ?_⟩
  · rw [hn.written, h.written, List.append_assoc]
  · rw [← List.append_assoc]
    intro b hb
    exact List.mem_append.mpr ((List.mem_append.mp (hn.pending hb)).imp_left (h.pending ·))

theorem Writes.of_andThen (next : Output → Bool × Output) (h : o.Writes [] r)
    (hn : r.2.Writes bs (next r.2)) : o.Writes bs (Output.andThen r next) := by
  have hall := h.andThen next hn
  rwa [List.nil_append] at hall

theorem flush_of_works (hw : o.device.works = true) :
    o.flush = (true, ⟨⟨true, o.written⟩, []⟩) := by
  obtain ⟨⟨works, received⟩, pending⟩ := o
  obtain rfl : works = true := hw
  rfl

theorem send_of_works (hw : o.device.works = true) (bs : Bytes) :
    o.send bs = (true, ⟨⟨true, o.device.received ++ bs⟩, o.pending⟩) := by
  obtain ⟨⟨works, received⟩, pending⟩ := o
  obtain rfl : works = true := hw
  rfl

theorem writes_flush (hw : o.device.works = true) : o.Writes [] o.flush := by
  rw [flush_of_works hw]
  refine ⟨rfl, rfl, ?_, List.nil_subset _⟩
  simp [written]

theorem writes_send (hw : o.device.works = true) (hp : o.pending = []) (bs : Bytes) :
    o.Writes bs (o.send bs) := by
  rw [send_of_works hw, hp]
  refine ⟨rfl, rfl, ?_, List.nil_subset _⟩
  simp [written, hp]

theorem writes_flush_if (hw : o.device.works = true) (c : Prop) [Decidable c] :
    o.Writes [] (if c then o.flush else (true, o)) := by
  split
  · exact writes_flush hw
  · exact .nothing hw

/-- Bytes that fill a whole buffer go past it only when nothing waits. -/
theorem writes_hold (hw : o.device.works = true) (bs : Bytes) : o.Writes bs (o.hold bs) := by
  unfold hold
  set r := if bufferSize - o.pending.length < bs.length then o.flush else (true, o) with hr
  have hroom : o.Writes [] r := hr ▸ writes_flush_if hw _
  refine hroom.of_andThen _ ?_
  by_cases hlen : bs.length < bufferSize
  · rw [if_pos hlen]
    refine ⟨rfl, hroom.works, ?_, List.Subset.refl _⟩
    simp [written]
  · rw [if_neg hlen]
    refine writes_send hroom.works ?_ bs
    rw [hr]
    split_ifs with hfull
    · rw [flush_of_works hw]
    · have hzero : o.pending.length = 0 := by
        have : 0 < bufferSize := by decide
        omega
      exact List.length_eq_zero_iff.mp hzero

/-! ## Line-buffered output -/

/-- The device works and no newline waits for it. -/
structure Steady (o : Output) : Prop where
  works : o.device.works = true
  pending : Bytes.newline ∉ o.pending

theorem steady_fresh : (fresh true).Steady := ⟨rfl, List.not_mem_nil⟩

theorem Steady.flush (h : o.Steady) : o.flush.2.Steady ∧ o.flush.2.written = o.written := by
  rw [flush_of_works h.works]
  exact ⟨⟨rfl, List.not_mem_nil⟩, List.append_nil _⟩

theorem received_flush (hw : o.device.works = true) :
    o.flush.2.device.received = o.written := by rw [flush_of_works hw]

theorem Steady.writes_write (h : o.Steady) (bs : Bytes) :
    o.Writes bs (o.write bs) ∧ (o.write bs).2.Steady := by
  unfold write
  by_cases hl : bs.lines = []
  · have hbs : bs.lastLine = bs := by
      have hsplit := bs.lines_append_lastLine
      rwa [hl, List.nil_append] at hsplit
    have hfirst := writes_flush_if h.works (o.pending.endsLine = true)
    rw [if_pos hl]
    have hall := hfirst.of_andThen (fun o => o.hold bs) (writes_hold hfirst.works bs)
    refine ⟨hall, hall.works, fun hn => ?_⟩
    rcases List.mem_append.mp (hall.pending hn) with hn | hn
    · exact h.pending hn
    · exact bs.newline_not_mem_lastLine (by rwa [hbs])
  · rw [if_neg hl]
    set r := if o.pending = [] then o.send bs.lines else andThen (o.hold bs.lines) Output.flush
      with hr
    -- the lines leave nothing waiting
    have hlines : o.Writes bs.lines r ∧ r.2.pending = [] := by
      rw [hr]
      split_ifs with hp
      · exact ⟨writes_send h.works hp _, by rw [send_of_works h.works, hp]⟩
      · have hold := writes_hold h.works bs.lines
        have hflush := hold.andThen Output.flush (writes_flush hold.works)
        rw [List.append_nil] at hflush
        refine ⟨hflush, ?_⟩
        rw [andThen_of_succeeds hold.succeeds, flush_of_works hold.works]
    have hlast := writes_hold hlines.1.works bs.lastLine
    have hall := hlines.1.andThen (fun o => o.hold bs.lastLine) hlast
    rw [bs.lines_append_lastLine] at hall
    refine ⟨hall, hall.works, fun hn => bs.newline_not_mem_lastLine ?_⟩
    rw [andThen_of_succeeds hlines.1.succeeds] at hn
    simpa [hlines.2] using hlast.pending hn

theorem Steady.writeAll (h : o.Steady) (texts : List Bytes) :
    (o.writeAll texts).2.Steady ∧ (o.writeAll texts).2.written = o.written ++ texts.flatten := by
  induction texts generalizing o with
  | nil => exact ⟨h, (List.append_nil _).symm⟩
  | cons bs texts ih =>
    obtain ⟨hwrite, hsteady⟩ := h.writes_write bs
    rw [Output.writeAll, andThen_of_succeeds hwrite.succeeds]
    refine ⟨(ih hsteady).1, ?_⟩
    rw [(ih hsteady).2, hwrite.written, List.append_assoc, List.flatten_cons]

theorem Steady.put (h : o.Steady) (t : Text) (line : Bool) :
    (o.put t line).Steady ∧ (o.put t line).written = o.written ++ t.printed line := by
  rw [← Text.flatten_writes]
  exact h.writeAll (t.writes line)

/-- Whole lines do not wait. -/
theorem Steady.received_eq_written (h : o.Steady)
    (hl : o.written = [] ∨ o.written.endsLine = true) : o.device.received = o.written := by
  have hpending : o.pending = [] := by
    rcases List.eq_nil_or_concat o.pending with hnil | ⟨front, b, hlast⟩
    · exact hnil
    · have hwritten : o.written = o.device.received ++ front ++ [b] := by
        rw [written, hlast, List.concat_eq_append, List.append_assoc]
      rcases hl with hl | hl
      · simp [hwritten] at hl
      · have hb : b = Bytes.newline := by simpa [hwritten, Bytes.endsLine] using hl
        refine absurd ?_ h.pending
        rw [hlast, hb]
        simp
  rw [written, hpending, List.append_nil]

end Output

namespace Program

/-! ## Runs of a program -/

/-- What the requests `es` do to a process `p` that becomes `q`. -/
structure Delivers (p : Process) (es : List Event) (q : Process) : Prop where
  output : p.output.Steady →
    q.output.Steady ∧ q.output.written = p.output.written ++ printed es
  /-- Nothing withdraws the flush at exit. -/
  registered : p.registered = true → q.registered = true
  /-- Only an explicit finalization uses it up. -/
  finalized : (∀ e ∈ es, e.request ≠ .finalize) → q.finalized = p.finalized

theorem Delivers.refl (p : Process) : Delivers p [] p where
  output := fun h => ⟨h, (List.append_nil _).symm⟩
  registered := id
  finalized := fun _ => rfl

theorem Delivers.trans {p q r : Process} {es fs : List Event} (h : Delivers p es q)
    (h' : Delivers q fs r) : Delivers p (es ++ fs) r where
  output := by
    intro hp
    obtain ⟨hq, hw⟩ := h.output hp
    obtain ⟨hr, hw'⟩ := h'.output hq
    refine ⟨hr, ?_⟩
    rw [hw', hw, List.append_assoc, printed, printed, printed, List.flatMap_append]
  registered := h'.registered ∘ h.registered
  finalized := by
    intro hes
    rw [h'.finalized fun e he => hes e (List.mem_append_right _ he),
      h.finalized fun e he => hes e (List.mem_append_left _ he)]

theorem Event.delivers (e : Event) : Delivers e.process [e] e.progress.process := by
  have hprinted : printed [e] = e.request.printed e.thread := List.flatMap_singleton _ _
  have hquiet : ∀ {o : Output}, e.request.printed e.thread = [] →
      o.written = e.process.output.written →
        o.written = e.process.output.written ++ printed [e] := by
    intro o h ho
    rw [hprinted, h, ho, List.append_nil]
  generalize hq : e.progress.process = q
  have heffect := hq ▸ e.effect
  cases heffect with
  | print text line h =>
    refine ⟨fun hp => ?_, id, fun _ => rfl⟩
    rw [hprinted, h]
    exact hp.put text line
  | read input h | flush h =>
    exact ⟨fun hp => ⟨hp.flush.1, hquiet h hp.flush.2⟩, id, fun _ => rfl⟩
  | report line h | draw h | keep h =>
    exact ⟨fun hp => ⟨hp, hquiet h rfl⟩, id, fun _ => rfl⟩
  | register h => exact ⟨fun hp => ⟨hp, hquiet h rfl⟩, fun _ => rfl, fun _ => rfl⟩
  | finalize h =>
    have h0 : e.request.printed e.thread = [] := by rw [h]; rfl
    unfold Process.finalize
    refine ⟨fun hp => ?_, ?_, fun hes => absurd h (hes e List.mem_cons_self)⟩
    · split
      · exact ⟨hp, hquiet h0 rfl⟩
      · exact ⟨hp.flush.1, hquiet h0 hp.flush.2⟩
    · split
      · exact id
      · exact id

theorem runRelation_delivers : RunRelation fun p es _ q => Delivers p es q where
  refl := Delivers.refl
  trans := Delivers.trans
  event := Event.delivers

/-- At exit either everything has been received, or no flush was due and what waits is lost. -/
theorem exit_cases {p : Process} (hw : p.output.device.works = true) (stopped : Bool) :
    (p.exit stopped).output.device.received = p.output.written ∨
      ((p.registered = true → p.finalized = true) ∧
        (p.exit stopped).output.device.received = p.output.device.received) := by
  unfold Process.exit Process.finalize
  split_ifs with hs hr hf
  · exact .inl (Output.received_flush hw)
  · exact .inr ⟨fun _ => hf, rfl⟩
  · exact .inl (Output.received_flush hw)
  · exact .inr ⟨fun h => absurd h hr, rfl⟩

/-- After any steps the output is between two writes, and all that they have printed is written. -/
theorem steady_runAll {env : Environment} (managed : Bool) (steps : List Step)
    (hw : env.outputWorks = true) :
    (runAll steps .fresh (.start env managed)).process.output.Steady ∧
      (runAll steps .fresh (.start env managed)).process.output.written =
        printed (executed env managed steps) := by
  have hrun := runRelation_delivers.steps steps .fresh (.start env managed)
  have hstart : (Process.start env managed).output = .fresh true := by
    rw [Process.start, hw]
  obtain ⟨hsteady, hwritten⟩ := hrun.output (hstart ▸ Output.steady_fresh)
  rw [hstart] at hwritten
  exact ⟨hsteady, hwritten⟩

/-- A run that prints whole lines delivers them, with or without a flush at exit. -/
theorem output_eq_printed_of_lines {env : Environment} (managed : Bool) {steps : List Step}
    (hw : env.outputWorks = true) (hl : printed (executed env managed steps) = [] ∨
      (printed (executed env managed steps)).endsLine = true) :
    (run env managed steps).output = printed (executed env managed steps) := by
  obtain ⟨hsteady, hwritten⟩ := steady_runAll managed steps hw
  rcases exit_cases hsteady.works (runAll steps .fresh (.start env managed)).stopped with
    h | ⟨-, h⟩
  · exact h.trans hwritten
  · refine h.trans ((hsteady.received_eq_written ?_).trans hwritten)
    rwa [hwritten]

/-- A run that prints one line for each item delivers these lines. -/
theorem output_eq_lines {α : Type} {env : Environment} (managed : Bool) {steps : List Step}
    (hw : env.outputWorks = true) {items : List α} {line : α → Bytes}
    (hprinted : printed (executed env managed steps) = items.flatMap line)
    (hline : ∀ i, (line i).endsLine = true) :
    (run env managed steps).output = items.flatMap line := by
  rw [← hprinted]
  refine output_eq_printed_of_lines managed hw ?_
  rw [hprinted]
  rcases List.eq_nil_or_concat items with rfl | ⟨front, i, rfl⟩
  · exact .inl rfl
  · refine .inr ?_
    have hlast : (line i).getLast? = some Bytes.newline := beq_iff_eq.mp (hline i)
    simp [Bytes.endsLine, hlast]

/-- **No output is lost, doubled or moved.** Under management, and with no explicit finalization,
all that was printed is received; in any other run all but the end of a line is. -/
theorem run_output_eq_printed (env : Environment) (managed : Bool) (steps : List Step)
    (hw : env.outputWorks = true) :
    (managed = true → (∀ e ∈ executed env managed steps, e.request ≠ .finalize) →
      (run env managed steps).output = printed (executed env managed steps)) ∧
    ∃ missing, printed (executed env managed steps) = (run env managed steps).output ++ missing ∧
      Bytes.newline ∉ missing := by
  have hrun := runRelation_delivers.steps steps .fresh (.start env managed)
  set q := (runAll steps .fresh (.start env managed)).process with hq
  have hstart : (Process.start env managed).output = .fresh true := by
    rw [Process.start, hw]
  obtain ⟨hsteady, hwritten⟩ := hrun.output (hstart ▸ Output.steady_fresh)
  rw [hstart] at hwritten
  change q.output.written = printed (executed env managed steps) at hwritten
  rcases exit_cases hsteady.works (runAll steps .fresh (.start env managed)).stopped with
    h | ⟨hdue, h⟩
  · have hall : (run env managed steps).output = printed (executed env managed steps) :=
      h.trans hwritten
    refine ⟨fun _ _ => hall, [], ?_, List.not_mem_nil⟩
    rw [hall, List.append_nil]
  · refine ⟨fun hm hes => ?_, q.output.pending, ?_, hsteady.pending⟩
    · have hfinalized : q.finalized = false := hrun.finalized hes
      rw [hdue (hrun.registered hm)] at hfinalized
      cases hfinalized
    · rw [← hwritten, Output.written]
      exact congrArg (· ++ q.output.pending) h.symm

/-- A line left open by a nested thread, and another one by a fault. -/
theorem run_output_eq_printed_before_fault :
    (run ⟨.ofBytes [] .endOfInput fun _ => 0, true, false, fun _ => 0⟩ true
      [.request (.put (.literal [97, 10, 98]) false) none,
        .thread [.request .flush none, .request .registerFinalizer none,
          .request (.putInteger (.literal (-7))) none],
        .request .newLine none, .request (.put (.literal [99]) false) none,
        .request (.fault .program .null) none, .request .newLine none]).output =
      [97, 10, 98, 45, 55, 10, 99] :=
  ((run_output_eq_printed _ _ _ rfl).1 rfl (by decide)).trans (by decide +kernel)

-- without a flush at exit the open line is lost
example : (run ⟨.ofBytes [] .endOfInput fun _ => 0, true, true, fun _ => 0⟩ false
    [.request (.put (.literal [97, 10, 98]) false) none]).output = [97, 10] := by decide

end Program

end AdaSupport
