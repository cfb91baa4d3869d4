import AdaSupport.Program

/-!
# Executions

* `Event`: a request with the thread and the process that it finds when it is executed.
* `Request.printed`: the bytes that a request puts on standard output.
* `Event.effect`: all that a request can do to the process.
* `Step.events`, `events`: the requests that a run executes, in order, with those of the threads
  that it starts. Nothing behind a fault is executed.
* **`RunRelation.steps`**: what holds of doing nothing, of each single request, and of a run that
  goes on after another one holds of every run, however threads are nested in it.
-/

namespace AdaSupport

/-- A text as it stands on standard output. An absent one does not even end a line. -/
def Text.printed (t : Text) (line : Bool) : Bytes :=
  match t with
  | none => []
  | some bs => if line then bs ++ [Bytes.newline] else bs

@[simp] theorem Text.printed_some (bs : Bytes) : Text.printed (some bs) false = bs := rfl

theorem Text.flatten_writes (t : Text) (line : Bool) :
    (t.writes line).flatten = t.printed line := by
  cases t <;> cases line <;> simp [Text.writes, Text.printed]

namespace Program

/-- A request at the moment of its execution. -/
structure Event where
  request : Request
  target : Option String
  thread : Thread
  process : Process

/-- The process after a step. -/
def Progress.process : Progress → Process
  | .running _ _ p => p
  | .stopped p => p

/-- Whether a fault has ended the process. -/
def Progress.isStopped : Progress → Bool
  | .running _ _ _ => false
  | .stopped _ => true

/-- What an event comes to. -/
def Event.progress (e : Event) : Progress := e.request.run e.target e.thread e.process

@[simp] theorem Progress.process_answering (a : Answer) (v : Option Value) (target : Option String)
    (t : Thread) (p : Process) : (answering a v target t p).process = p := rfl

/-! ## Single requests -/

/-- What a request of a thread puts on standard output. -/
def Request.printed (r : Request) (t : Thread) : Bytes :=
  match r with
  | .put s line => (s.text t).printed line
  | .putInteger v => Numeral.ofInteger (v.value t)
  | .putReal v => Numeral.ofReal (v.value t)
  | .newLine => [Bytes.newline]
  | _ => []

/-- What a request `r` of the thread `t` can make of the process `p`. -/
inductive Effect (r : Request) (t : Thread) (p : Process) : Process → Prop where
  | print (text : Text) (line : Bool) (h : r.printed t = text.printed line) :
    Effect r t p (p.put text line)
  | read {α : Type} (read : Stream → α × Stream) (h : r.printed t = []) :
    Effect r t p (p.flush.ask read).2
  | report (line : String) (h : r.printed t = []) : Effect r t p (p.errorLine line)
  | draw (h : r.printed t = []) : Effect r t p p.draw.2
  | flush (h : r.printed t = []) : Effect r t p p.flush
  | finalize (h : r = .finalize) : Effect r t p p.finalize
  | register (h : r.printed t = []) : Effect r t p { p with registered := true }
  | keep (h : r.printed t = []) : Effect r t p p

theorem Event.effect (e : Event) : Effect e.request e.thread e.process e.progress.process := by
  obtain ⟨r, target, t, p⟩ := e
  unfold progress
  cases r with
  | put s line => exact .print (s.text t) line rfl
  | putInteger v => exact .print (some _) false (Text.printed_some _).symm
  | putReal v => exact .print (some _) false (Text.printed_some _).symm
  | newLine => exact .print (some []) true rfl
  | buffer bs => exact .keep rfl
  | getLine s =>
    simp only [Request.run]
    cases s.pointer? t with
    | none => exact .keep rfl
    | some ptr =>
      exact .read (fun s => (s.readLine (t.memory.window ptr Stream.lineCapacity)).2) rfl
  | getInteger =>
    cases target with
    | none => exact .keep rfl
    | some name => exact .read Stream.readInteger rfl
  | getReal =>
    cases target with
    | none => exact .keep rfl
    | some name => exact .read Stream.readReal rfl
  | debug | debugInteger | debugReal | fault => exact .report _ rfl
  | randomInteger | randomReal =>
    simp only [Request.run, Progress.process_answering]
    exact .draw rfl
  | flush => exact .flush rfl
  | finalize => exact .finalize rfl
  | registerFinalizer => exact .register rfl

/-! ## Runs -/

mutual

/-- The requests that a step executes. -/
def Step.events : Step → Thread → Process → List Event
  | .compute _ _, _, _ => []
  | .request r target, t, p => [⟨r, target, t, p⟩]
  | .thread steps, _, p => events steps .fresh p

/-- The requests that steps execute in order, up to a fault. -/
def events : List Step → Thread → Process → List Event
  | [], _, _ => []
  | s :: rest, t, p =>
    s.events t p ++
      match s.run t p with
      | .stopped _ => []
      | .running _ t p => events rest t p

end

/-- A relation between a process, the requests executed from there, whether a fault ended them, and
the process they leave, that goes from single requests to runs. -/
structure RunRelation (Φ : Process → List Event → Bool → Process → Prop) : Prop where
  refl (p : Process) : Φ p [] false p
  trans {p q r : Process} {es fs : List Event} {stopped : Bool} :
    Φ p es false q → Φ q fs stopped r → Φ p (es ++ fs) stopped r
  event (e : Event) : Φ e.process [e] e.progress.isStopped e.progress.process

namespace RunRelation

variable {Φ : Process → List Event → Bool → Process → Prop}

mutual

theorem step (h : RunRelation Φ) : ∀ (s : Step) (t : Thread) (p : Process),
    Φ p (s.events t p) (s.run t p).isStopped (s.run t p).process
  | .compute op target, t, p => by
    simp only [Step.events, Step.run]
    exact h.refl p
  | .request r target, t, p => by
    simp only [Step.events, Step.run]
    exact h.event ⟨r, target, t, p⟩
  | .thread steps, t, p => by
    have hsteps := h.steps steps .fresh p
    simp only [Step.events, Step.run]
    cases hs : (runAll steps .fresh p).stopped with
    | true => rwa [hs] at hsteps
    | false => rwa [hs] at hsteps

/-- **What holds of every request holds of every run.** -/
theorem steps (h : RunRelation Φ) : ∀ (steps : List Step) (t : Thread) (p : Process),
    Φ p (events steps t p) (runAll steps t p).stopped (runAll steps t p).process
  | [], t, p => by
    simp only [events, runAll]
    exact h.refl p
  | s :: rest, t, p => by
    have hstep := h.step s t p
    simp only [events, runAll]
    cases hs : s.run t p with
    | stopped q =>
      rw [hs] at hstep
      rw [List.append_nil]
      exact hstep
    | running a t' q =>
      rw [hs] at hstep
      exact h.trans hstep (h.steps rest t' q)

end

end RunRelation

/-- The requests that a whole program executes. -/
def executed (env : Environment) (managed : Bool) (steps : List Step) : List Event :=
  events steps .fresh (.start env managed)

/-- What executed requests put on standard output, one after the other. -/
def printed (es : List Event) : Bytes := es.flatMap fun e => e.request.printed e.thread

end Program

end AdaSupport
