import AdaSupport.Proofs.Delivery
import AdaSupport.Proofs.Isolation

/-!
# Reports of faults are final

A fault ends the process wherever it happens, in the main thread or in a thread nested in it. Of the
steps that come behind it, in any of the threads open at that moment, nothing is seen.

* `Request.diagnostic`: the line that a debugging request writes to standard error.
* `GoesOn`: what requests do that no fault ends.
* `exists_continuation`, `runAll_append_of_stopped`: steps behind steps that go on, or do not.
* `Front`: what a program does before some place in it, with `Front.fill` for what is put at that
  place and behind it. **`exists_front`**: steps that stop do so at such a place.
* **`run_ends_at_report`**: the status tells whether a fault was reported; what a program leaves
  behind is what it did before the report, and the report.
-/

namespace AdaSupport.Program

/-! ## Requests -/

/-- Whether a request reports a fault. -/
def Request.isFault : Request → Bool
  | .fault _ _ => true
  | _ => false

/-- The line that a debugging request writes to standard error. -/
def Request.diagnostic (r : Request) (t : Thread) : Bytes :=
  match r with
  | .debug s => Utf8.bytes (Diagnostic.line (s.message t) none) ++ [Bytes.newline]
  | .debugInteger s v => Utf8.bytes (Diagnostic.line (s.message t)
      (some (Utf8.display (Numeral.ofInteger (v.value t))))) ++ [Bytes.newline]
  | .debugReal s v => Utf8.bytes (Diagnostic.line (s.message t)
      (some (Utf8.display (Numeral.ofReal (v.value t))))) ++ [Bytes.newline]
  | _ => []

/-- What debugging requests write to standard error, one after the other. -/
def diagnosed (es : List Event) : Bytes := es.flatMap fun e => e.request.diagnostic e.thread

theorem Request.isStopped_run (r : Request) (target : Option String) (t : Thread) (p : Process) :
    (r.run target t p).isStopped = r.isFault := by
  cases r with
  | getLine s =>
    simp only [Request.run]
    cases s.pointer? t <;> rfl
  | getInteger | getReal => cases target <;> rfl
  | _ => rfl

theorem Process.errors_finalize (p : Process) : p.finalize.errors = p.errors := by
  unfold Process.finalize
  split <;> rfl

theorem Process.errors_exit (p : Process) (fault : Bool) : (p.exit fault).errors = p.errors := by
  unfold Process.exit
  split_ifs
  · rfl
  · exact p.errors_finalize
  · rfl

theorem Process.errors_errorLine {p : Process} (hw : p.errors.works = true) (line : String) :
    (p.errorLine line).errors =
      ⟨true, p.errors.received ++ (Utf8.bytes line ++ [Bytes.newline])⟩ := by
  rw [Process.errorLine, Device.write, if_pos hw, hw]

theorem Event.errors_progress (e : Event) (hf : e.request.isFault = false)
    (hw : e.process.errors.works = true) : e.progress.process.errors =
      ⟨true, e.process.errors.received ++ e.request.diagnostic e.thread⟩ := by
  obtain ⟨r, target, t, p⟩ := e
  have hkeep : p.errors = ⟨true, p.errors.received ++ []⟩ := by
    rw [List.append_nil, ← show p.errors.works = true from hw]
  unfold progress
  cases r with
  | debug | debugInteger | debugReal => exact Process.errors_errorLine hw _
  | getLine s =>
    simp only [Request.run]
    cases s.pointer? t <;> exact hkeep
  | getInteger | getReal => cases target <;> exact hkeep
  | finalize => exact p.errors_finalize.trans hkeep
  | fault => cases hf
  | _ => exact hkeep

/-- What the requests `es` do to a process `p` that becomes `q`, when no fault is among them. -/
structure GoesOn (p : Process) (es : List Event) (q : Process) : Prop where
  faultless : ∀ e ∈ es, e.request.isFault = false
  errors : p.errors.works = true → q.errors = ⟨true, p.errors.received ++ diagnosed es⟩

theorem runRelation_goesOn : RunRelation fun p es stopped q => stopped = false → GoesOn p es q where
  refl p _ := by
    refine ⟨by simp, fun hw => ?_⟩
    rw [← hw]
    simp [diagnosed]
  trans {p q r es fs stopped} h h' hs := by
    obtain ⟨hes, hp⟩ := h rfl
    obtain ⟨hfs, hq⟩ := h' hs
    refine ⟨fun e he => (List.mem_append.mp he).elim (hes e) (hfs e), fun hw => ?_⟩
    rw [hq (by rw [hp hw]), hp hw, diagnosed, diagnosed, diagnosed, List.flatMap_append,
      List.append_assoc]
  event e hs := by
    have hf : e.request.isFault = false := by rw [← hs, Event.progress, Request.isStopped_run]
    refine ⟨fun e' he => by rwa [List.mem_singleton.mp he], fun hw => ?_⟩
    rw [e.errors_progress hf hw, diagnosed, List.flatMap_singleton]

/-! ## Steps behind other steps -/

/-- **Nothing behind a fault has an effect.** -/
theorem runAll_append_of_stopped {before : List Step} {t : Thread} {p : Process}
    (h : (runAll before t p).stopped = true) (rest : List Step) :
    runAll (before ++ rest) t p = runAll before t p := by
  induction before generalizing t p with
  | nil => simp [runAll] at h
  | cons s before ih =>
    simp only [List.cons_append, runAll] at h ⊢
    cases hs : s.run t p with
    | stopped q => rfl
    | running a t' q =>
      simp only [hs] at h ⊢
      rw [ih h]

/-- Steps behind others that go on start from the process that those leave. -/
theorem exists_continuation {before : List Step} {t : Thread} {p : Process}
    (h : (runAll before t p).stopped = false) : ∃ t', ∀ rest,
      runAll (before ++ rest) t p =
        ⟨(runAll before t p).answers ++ (runAll rest t' (runAll before t p).process).answers,
          (runAll rest t' (runAll before t p).process).process,
          (runAll rest t' (runAll before t p).process).stopped⟩ ∧
      events (before ++ rest) t p =
        events before t p ++ events rest t' (runAll before t p).process := by
  induction before generalizing t p with
  | nil => exact ⟨t, fun rest => by simp [runAll, events]⟩
  | cons s before ih =>
    simp only [List.cons_append, runAll, events] at h ⊢
    cases hs : s.run t p with
    | stopped q => simp [hs] at h
    | running a t₁ q =>
      simp only [hs] at h ⊢
      obtain ⟨t', ht'⟩ := ih h
      refine ⟨t', fun rest => ?_⟩
      obtain ⟨hrun, hevents⟩ := ht' rest
      rw [hrun, hevents]
      simp

/-! ## Places in a program -/

/-- What comes before a place in a program: the steps before it in its own thread, and those before
the start of that thread in the thread around it. -/
inductive Front where
  | here (before : List Step)
  | inside (before : List Step) (front : Front)

namespace Front

/-- The program with the given steps at a place; `tails n` are the steps behind the place in the
thread that is nested `n` deep. -/
def fill (steps : List Step) : Front → (ℕ → List Step) → List Step
  | here before, tails => before ++ (steps ++ tails 0)
  | inside before front, tails => before ++ .thread (front.fill steps (tails ∘ .succ)) :: tails 0

/-- The program that ends at the place. -/
def alone (front : Front) : List Step := front.fill [] fun _ => []

/-- The steps of the main thread before the place. -/
def main : Front → List Step
  | here before => before
  | inside before _ => before

/-- The place behind one more step of the main thread. -/
def cons (s : Step) : Front → Front
  | here before => here (s :: before)
  | inside before front => inside (s :: before) front

theorem fill_cons (s : Step) (front : Front) (steps : List Step) (tails : ℕ → List Step) :
    (front.cons s).fill steps tails = s :: front.fill steps tails := by
  cases front <;> rfl

theorem alone_cons (s : Step) (front : Front) : (front.cons s).alone = s :: front.alone :=
  front.fill_cons s [] _

end Front

theorem runAll_cons_of_running {s : Step} {t t' : Thread} {p q : Process} {a : Answer}
    (h : s.run t p = .running a t' q) (rest : List Step) : runAll (s :: rest) t p =
      { runAll rest t' q with answers := a :: (runAll rest t' q).answers } := by
  rw [runAll, h]

/-- **Steps that stop do so at a place where a fault is reported.** -/
theorem exists_front : ∀ (steps : List Step) (t : Thread) (p : Process),
    (runAll steps t p).stopped = true → ∃ (front : Front) (r : Request) (target : Option String)
      (tails : ℕ → List Step), steps = front.fill [.request r target] tails ∧
        r.isFault = true ∧ (runAll front.alone t p).stopped = false
  | [], t, p, h => by simp [runAll] at h
  | s :: rest, t, p, h => by
    cases hs : s.run t p with
    | running a t' q =>
      rw [runAll_cons_of_running hs] at h
      obtain ⟨front, r, target, tails, hrest, hr, hfront⟩ := exists_front rest t' q h
      refine ⟨front.cons s, r, target, tails, ?_, hr, ?_⟩
      · rw [front.fill_cons, ← hrest]
      · rw [front.alone_cons, runAll_cons_of_running hs]
        exact hfront
    | stopped q =>
      cases s with
      | compute op target => simp [Step.run, Progress.answering] at hs
      | request r target =>
        refine ⟨.here [], r, target, fun _ => rest, rfl, ?_, ?_⟩
        · rw [Step.run] at hs
          rw [← r.isStopped_run target t p, hs]
          rfl
        · simp [Front.alone, Front.fill, runAll]
      | thread inner =>
        have hinner : (runAll inner .fresh p).stopped = true := by
          by_contra hgo
          simp [Step.run, hgo] at hs
        obtain ⟨front, r, target, tails, hfill, hr, hfront⟩ := exists_front inner .fresh p hinner
        refine ⟨.inside [] front, r, target, fun n => n.casesOn rest tails, ?_, hr, ?_⟩
        · rw [hfill]
          rfl
        · have hfront' : (runAll (front.fill [] fun _ => []) .fresh p).stopped = false := hfront
          simp [Front.alone, Front.fill, runAll, Step.run, Function.comp_def, hfront']

section Fault

variable {t : Thread} {p : Process}

theorem runAll_fault {r : Request} (hr : r.isFault = true) (target : Option String)
    (rest : List Step) : runAll (.request r target :: rest) t p =
        ⟨[], (Event.mk r target t p).progress.process, true⟩ ∧
      events (.request r target :: rest) t p = [⟨r, target, t, p⟩] := by
  have hstopped := r.isStopped_run target t p
  rw [hr] at hstopped
  simp only [runAll, events, Step.run, Step.events, Event.progress]
  cases hrun : r.run target t p with
  | running a t' q => simp [hrun, Progress.isStopped] at hstopped
  | stopped q => exact ⟨rfl, rfl⟩

theorem runAll_thread_of_stopped {inner : List Step} (h : (runAll inner .fresh p).stopped = true)
    (rest : List Step) : runAll (.thread inner :: rest) t p =
        ⟨[], (runAll inner .fresh p).process, true⟩ ∧
      events (.thread inner :: rest) t p = events inner .fresh p := by
  simp [runAll, events, Step.run, Step.events, h]

theorem runAll_thread_singleton (inner : List Step) :
    (runAll [.thread inner] t p).process = (runAll inner .fresh p).process ∧
      (runAll [.thread inner] t p).stopped = (runAll inner .fresh p).stopped ∧
      events [.thread inner] t p = events inner .fresh p := by
  cases h : (runAll inner .fresh p).stopped <;>
    simp [runAll, events, Step.run, Step.events, h]

/-- **A fault at a place ends the program there**, whatever stands behind it. -/
theorem Front.runAll_fill (front : Front) (h : (runAll front.alone t p).stopped = false) :
    ∃ t', ∀ (r : Request) (target : Option String) (tails : ℕ → List Step), r.isFault = true →
      runAll (front.fill [.request r target] tails) t p = ⟨(runAll front.main t p).answers,
          (Event.mk r target t' (runAll front.alone t p).process).progress.process, true⟩ ∧
        events (front.fill [.request r target] tails) t p =
          events front.alone t p ++ [⟨r, target, t', (runAll front.alone t p).process⟩] := by
  induction front generalizing t p with
  | here before =>
    have halone : (Front.here before).alone = before := List.append_nil before
    rw [halone] at h ⊢
    obtain ⟨t', ht'⟩ := exists_continuation h
    refine ⟨t', fun r target tails hr => ?_⟩
    obtain ⟨hrun, hevents⟩ := ht' (.request r target :: tails 0)
    obtain ⟨hfault, hfault'⟩ :=
      runAll_fault (t := t') (p := (runAll before t p).process) hr target (tails 0)
    refine ⟨hrun.trans ?_, hevents.trans ?_⟩
    · rw [hfault, List.append_nil]
      rfl
    · rw [hfault']
  | inside before front ih =>
    have halone : (Front.inside before front).alone = before ++ [.thread front.alone] := rfl
    rw [halone] at h ⊢
    have hbefore : (runAll before t p).stopped = false := by
      cases hstop : (runAll before t p).stopped with
      | false => rfl
      | true =>
        rw [runAll_append_of_stopped hstop, hstop] at h
        cases h
    obtain ⟨t₁, ht₁⟩ := exists_continuation hbefore
    obtain ⟨hrun, hevents⟩ := ht₁ [.thread front.alone]
    obtain ⟨hprocess, hstopped, hinner⟩ := runAll_thread_singleton
      (t := t₁) (p := (runAll before t p).process) front.alone
    rw [hrun] at h
    obtain ⟨t', ht'⟩ := ih (hstopped.symm.trans h)
    refine ⟨t', fun r target tails hr => ?_⟩
    obtain ⟨hfill, hfill'⟩ := ht' r target (tails ∘ .succ) hr
    obtain ⟨hrun', hevents'⟩ := ht₁
      (.thread (front.fill [.request r target] (tails ∘ .succ)) :: tails 0)
    obtain ⟨hthread, hthread'⟩ := runAll_thread_of_stopped (t := t₁)
      (p := (runAll before t p).process) (congrArg Trace.stopped hfill) (tails 0)
    refine ⟨hrun'.trans ?_, hevents'.trans ?_⟩
    · rw [hthread, hfill, hrun, hprocess, List.append_nil]
      rfl
    · rw [hthread', hfill', hevents, hinner, hrun, hprocess, List.append_assoc]

end Fault

/-- Steps stop exactly when a fault is reported. -/
theorem stopped_iff (steps : List Step) (t : Thread) (p : Process) :
    (runAll steps t p).stopped = true ↔ ∃ e ∈ events steps t p, e.request.isFault = true := by
  constructor
  · intro h
    obtain ⟨front, r, target, tails, rfl, hr, hfront⟩ := exists_front steps t p h
    obtain ⟨t', ht'⟩ := front.runAll_fill hfront
    rw [(ht' r target tails hr).2]
    exact ⟨_, List.mem_append_right _ (List.mem_singleton_self _), hr⟩
  · rintro ⟨e, he, hfault⟩
    by_contra hgo
    have hrun := runRelation_goesOn.steps steps t p (Bool.eq_false_iff.mpr hgo)
    rw [hrun.faultless e he] at hfault
    cases hfault

/-! ## Programs -/

/-- The program reports a fault, for the first time, at the end of `front`. All that it leaves
behind is what it did before, and the report. -/
structure EndsAt (env : Environment) (managed : Bool) (steps : List Step) (front : Front)
    (category : Fault.Category) (s : TextArgument) (report : Event) : Prop where
  request : report.request = .fault category s
  located : ∃ tails, steps = front.fill [.request report.request report.target] tails
  executed : executed env managed steps = executed env managed front.alone ++ [report]
  first : ∀ e ∈ Program.executed env managed front.alone, e.request.isFault = false
  /-- No step behind the report, in any thread, matters for anything. -/
  final : ∀ tails,
    run env managed (front.fill [.request report.request report.target] tails) =
        run env managed steps ∧
      atExit env managed (front.fill [.request report.request report.target] tails) =
        atExit env managed steps
  answers : (run env managed steps).answers = (run env managed front.main).answers
  consumed : consumed env managed steps = consumed env managed front.alone
  output : (run env managed steps).output = printed (Program.executed env managed front.alone)
  errors : (run env managed steps).errors =
    diagnosed (Program.executed env managed front.alone) ++
      Utf8.bytes (category.label ++ ": " ++ Utf8.display (s.text report.thread).bytes) ++
      [Bytes.newline]

theorem Request.exists_of_isFault {r : Request} (h : r.isFault = true) :
    ∃ category s, r = .fault category s := by
  cases r with
  | fault category s => exact ⟨category, s, rfl⟩
  | _ => cases h

theorem exists_endsAt {env : Environment} {managed : Bool} {steps : List Step}
    (ho : env.outputWorks = true) (he : env.errorsWork = true)
    (h : (runAll steps .fresh (.start env managed)).stopped = true) :
    ∃ front category s report, EndsAt env managed steps front category s report := by
  obtain ⟨front, r, target, tails, hsteps, hr, hfront⟩ := exists_front steps _ _ h
  obtain ⟨t, ht⟩ := front.runAll_fill hfront
  set q := (runAll front.alone .fresh (.start env managed)).process with hq
  obtain ⟨category, s, rfl⟩ := Request.exists_of_isFault hr
  -- what the steps before the report have written
  obtain ⟨hfirst, herrors⟩ :=
    runRelation_goesOn.steps front.alone .fresh (.start env managed) hfront
  obtain ⟨hsteady, hwritten⟩ := steady_runAll managed front.alone ho
  have hq' : q.errors = ⟨true, diagnosed (executed env managed front.alone)⟩ := herrors he
  -- the run does not depend on what stands behind the report
  have hrun : ∀ tails, runAll (front.fill [.request (.fault category s) target] tails) .fresh
      (.start env managed) = runAll steps .fresh (.start env managed) := by
    intro tails'
    rw [hsteps, (ht _ target tails' hr).1, (ht _ target tails hr).1]
  have hend := (ht _ target tails hr).1
  rw [← hsteps] at hend
  refine ⟨front, category, s, ⟨.fault category s, target, t, q⟩, rfl, ⟨tails, hsteps⟩, ?_, hfirst,
    fun tails' => ⟨?_, ?_⟩, ?_, ?_, ?_, ?_⟩
  · rw [executed, hsteps]
    exact (ht _ target tails hr).2
  · rw [run, hrun tails', run]
  · rw [atExit, hrun tails', atExit]
  · rw [run, hend, run]
  · rw [consumed, hend, consumed]
    rfl
  · rw [run, hend]
    exact (Output.received_flush hsteady.works).trans hwritten
  · have hline := Process.errors_errorLine (p := q) (by rw [hq'])
      (Fault.report ⟨category, s.message t⟩)
    rw [hq', ← List.append_assoc] at hline
    rw [run, hend]
    exact congrArg Device.received ((Process.errors_exit _ _).trans hline)

/-- **Reports are final, and the status tells whether there was one.** A program ends with status 1
when it reports a fault, in whichever thread, and with status 0 otherwise. After the first report
nothing happens any more, and all that was printed before it is delivered. -/
theorem run_ends_at_report (env : Environment) (managed : Bool) (steps : List Step)
    (ho : env.outputWorks = true) (he : env.errorsWork = true) :
    ((run env managed steps).exitCode = 1 ↔
        ∃ e ∈ executed env managed steps, e.request.isFault = true) ∧
      ((run env managed steps).exitCode = 0 ↔
        ∀ e ∈ executed env managed steps, e.request.isFault = false) ∧
      ((run env managed steps).exitCode = 1 →
        ∃ front category s report, EndsAt env managed steps front category s report) := by
  have hstopped := stopped_iff steps .fresh (.start env managed)
  cases hs : (runAll steps .fresh (.start env managed)).stopped with
  | true =>
    have hcode : (run env managed steps).exitCode = 1 := by rw [run, hs]; rfl
    obtain ⟨e, hmem, hfault⟩ := hstopped.mp hs
    refine ⟨iff_of_true hcode ⟨e, hmem, hfault⟩, iff_of_false (by rw [hcode]; decide) ?_,
      fun _ => exists_endsAt ho he hs⟩
    intro hno
    rw [hno e hmem] at hfault
    cases hfault
  | false =>
    have hcode : (run env managed steps).exitCode = 0 := by rw [run, hs]; rfl
    have hno : ∀ e ∈ executed env managed steps, e.request.isFault = false :=
      (runRelation_goesOn.steps steps .fresh (.start env managed) hs).faultless
    refine ⟨iff_of_false (by rw [hcode]; decide) ?_, iff_of_true hcode hno, fun h => ?_⟩
    · rintro ⟨e, hmem, hfault⟩
      rw [hno e hmem] at hfault
      cases hfault
    · rw [hcode] at h
      cases h

/-- A fault two threads deep, behind an open line and with steps behind it in all threads; its
message is not well-formed, and no flush at exit was asked for. -/
theorem run_ends_at_report_nested :
    let env : Environment := ⟨.ofBytes [49, 10] .endOfInput fun _ => 0, true, true, fun _ => 0⟩
    let steps : List Step := [.request (.put (.literal [97, 10, 98]) false) none,
      .thread [.request (.debug .null) none,
        .thread [.request (.fault .constraint (.literal [97, 0xFF])) none, .request .newLine none],
        .request (.fault .program .null) none],
      .request .getInteger (some "n")]
    (run env false steps).exitCode = 1 ∧ (run env false steps).output = [97, 10, 98] ∧
      (run env false steps).errors = Utf8.bytes "[DEBUG] \nCONSTRAINT ERROR: a�\n" ∧
      ∃ front category s report, EndsAt env false steps front category s report := by
  intro env steps
  have hcode : (run env false steps).exitCode = 1 := by decide +kernel
  exact ⟨hcode, by decide +kernel, by decide +kernel,
    (run_ends_at_report env false steps rfl rfl).2.2 hcode⟩

end AdaSupport.Program
