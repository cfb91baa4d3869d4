import AdaSupport.Program
import Mathlib.Tactic.SplitIfs

/-!
# Broken devices do not interfere

Whether the devices behind standard output and standard error work is of no consequence for what a
program computes, reads and answers, and neither of the two streams depends on the other one.

* `Alike`: two processes that differ in their devices at most.
* `Request.run_alike`: a request goes on in the same way on processes that are alike.
* `runAll_alike`: so do steps of any kind, nested threads included.
* **`run_independent_of_devices`**: a program does the same whichever devices are broken.
-/

namespace AdaSupport.Program

/-- The processes `p` and `q` differ in their devices at most, and not in standard output when
`sameOutput` holds, nor in standard error when `sameErrors` does. -/
structure Alike (sameOutput sameErrors : Prop) (p q : Process) : Prop where
  input : p.input = q.input
  words : p.words = q.words
  drawn : p.drawn = q.drawn
  registered : p.registered = q.registered
  finalized : p.finalized = q.finalized
  output : sameOutput → p.output = q.output
  errors : sameErrors → p.errors = q.errors

variable {sameOutput sameErrors : Prop} {p q : Process}

/-! ## Parts of a request -/

namespace Alike

theorem put (h : Alike sameOutput sameErrors p q) (text : Text) (line : Bool) :
    Alike sameOutput sameErrors (p.put text line) (q.put text line) :=
  { h with output := fun hs => congrArg (Output.put · text line) (h.output hs) }

theorem flush (h : Alike sameOutput sameErrors p q) :
    Alike sameOutput sameErrors p.flush q.flush :=
  { h with output := fun hs => congrArg (·.flush.2) (h.output hs) }

theorem errorLine (h : Alike sameOutput sameErrors p q) (line : String) :
    Alike sameOutput sameErrors (p.errorLine line) (q.errorLine line) := by
  refine { h with errors := fun hs => ?_ }
  simp only [Process.errorLine, h.errors hs]

theorem finalize (h : Alike sameOutput sameErrors p q) :
    Alike sameOutput sameErrors p.finalize q.finalize := by
  unfold Process.finalize
  rw [h.finalized]
  split_ifs
  · exact h
  · exact { h.flush with finalized := rfl }

theorem register (h : Alike sameOutput sameErrors p q) :
    Alike sameOutput sameErrors { p with registered := true } { q with registered := true } :=
  { h with registered := rfl }

theorem ask {α : Type} (h : Alike sameOutput sameErrors p q) (read : Stream → α × Stream) :
    (p.ask read).1 = (q.ask read).1 ∧
      Alike sameOutput sameErrors (p.ask read).2 (q.ask read).2 := by
  simp only [Process.ask, h.input, true_and]
  exact { h with input := rfl }

theorem draw (h : Alike sameOutput sameErrors p q) :
    p.draw.1 = q.draw.1 ∧ Alike sameOutput sameErrors p.draw.2 q.draw.2 := by
  refine ⟨?_, { h with drawn := ?_ }⟩
  · simp only [Process.draw, h.words, h.drawn]
  · simp only [Process.draw, h.drawn]

theorem getLine (h : Alike sameOutput sameErrors p q) (m : Memory) (dest : Pointer) :
    (p.getLine m dest).1 = (q.getLine m dest).1 ∧
      Alike sameOutput sameErrors (p.getLine m dest).2 (q.getLine m dest).2 := by
  obtain ⟨hbytes, hprocess⟩ := h.flush.ask fun s =>
    (s.readLine (m.window dest Stream.lineCapacity)).2
  exact ⟨congrArg (m.overwrite dest) hbytes, hprocess⟩

theorem exit (h : Alike sameOutput sameErrors p q) (fault : Bool) :
    Alike sameOutput sameErrors (p.exit fault) (q.exit fault) := by
  unfold Process.exit
  rw [h.registered]
  split_ifs
  · exact h.flush
  · exact h.finalize
  · exact h

end Alike

/-! ## Steps -/

/-- Two steps that come to the same, on processes that are alike. -/
inductive Progress.Alike (sameOutput sameErrors : Prop) : Progress → Progress → Prop where
  | running (a : Answer) (t : Thread) {p q : Process}
    (h : Program.Alike sameOutput sameErrors p q) :
    Progress.Alike sameOutput sameErrors (.running a t p) (.running a t q)
  | stopped {p q : Process} (h : Program.Alike sameOutput sameErrors p q) :
    Progress.Alike sameOutput sameErrors (.stopped p) (.stopped q)

/-- Two runs with the same answers and the same ending, on processes that are alike. -/
structure Trace.Alike (sameOutput sameErrors : Prop) (r s : Trace) : Prop where
  answers : r.answers = s.answers
  stopped : r.stopped = s.stopped
  process : Program.Alike sameOutput sameErrors r.process s.process

/-- **A request does not notice the devices.** -/
theorem Request.run_alike (r : Request) (target : Option String) (t : Thread)
    (h : Alike sameOutput sameErrors p q) :
    Progress.Alike sameOutput sameErrors (r.run target t p) (r.run target t q) := by
  cases r with
  | put | putInteger | putReal | newLine => exact .running _ _ (h.put _ _)
  | buffer bs => exact .running _ _ h
  | getLine s =>
    simp only [Request.run]
    cases s.pointer? t with
    | none => exact .running _ _ h
    | some ptr =>
      obtain ⟨hmemory, hprocess⟩ := h.getLine t.memory ptr
      dsimp only
      rw [hmemory]
      exact .running _ _ hprocess
  | getInteger =>
    cases target with
    | none => exact .running _ _ h
    | some name =>
      obtain ⟨hfound, hprocess⟩ := h.flush.ask Stream.readInteger
      simp only [Request.run, hfound]
      exact .running _ _ hprocess
  | getReal =>
    cases target with
    | none => exact .running _ _ h
    | some name =>
      obtain ⟨hfound, hprocess⟩ := h.flush.ask Stream.readReal
      simp only [Request.run, hfound]
      exact .running _ _ hprocess
  | debug | debugInteger | debugReal => exact .running _ _ (h.errorLine _)
  | randomInteger | randomReal =>
    obtain ⟨hdraw, hprocess⟩ := h.draw
    simp only [Request.run, hdraw]
    exact .running _ _ hprocess
  | fault category s => exact .stopped (h.errorLine _)
  | flush => exact .running _ _ h.flush
  | finalize => exact .running _ _ h.finalize
  | registerFinalizer => exact .running _ _ h.register

mutual

theorem Step.run_alike : ∀ (s : Step) (t : Thread) {p q : Process},
    Alike sameOutput sameErrors p q →
      Progress.Alike sameOutput sameErrors (s.run t p) (s.run t q)
  | .compute op target, t, p, q, h => by
    simp only [Step.run]
    exact .running _ _ h
  | .request r target, t, p, q, h => by
    simp only [Step.run]
    exact r.run_alike target t h
  | .thread steps, t, p, q, h => by
    have hsteps := runAll_alike steps .fresh h
    simp only [Step.run, hsteps.answers, hsteps.stopped]
    split_ifs
    · exact .stopped hsteps.process
    · exact .running _ _ hsteps.process

/-- **Steps do not notice the devices**, nor do the threads they start. -/
theorem runAll_alike : ∀ (steps : List Step) (t : Thread) {p q : Process},
    Alike sameOutput sameErrors p q →
      Trace.Alike sameOutput sameErrors (runAll steps t p) (runAll steps t q)
  | [], t, p, q, h => by
    simp only [runAll]
    exact ⟨rfl, rfl, h⟩
  | s :: rest, t, p, q, h => by
    have hstep := s.run_alike t h
    simp only [runAll]
    cases hp : s.run t p with
    | stopped p' =>
      cases hq : s.run t q with
      | stopped q' =>
        rw [hp, hq] at hstep
        cases hstep with
        | stopped h' => exact ⟨rfl, rfl, h'⟩
      | running a t' q' => rw [hp, hq] at hstep; cases hstep
    | running a t' p' =>
      cases hq : s.run t q with
      | stopped q' => rw [hp, hq] at hstep; cases hstep
      | running a' t'' q' =>
        rw [hp, hq] at hstep
        cases hstep with
        | running _ _ h' =>
          have hrest := runAll_alike rest t' h'
          exact ⟨congrArg (a :: ·) hrest.answers, hrest.stopped, hrest.process⟩

end

/-! ## Programs -/

/-- The same surroundings with other devices. -/
def Environment.withDevices (env : Environment) (outputWorks errorsWork : Bool) : Environment :=
  { env with outputWorks, errorsWork }

/-- The number of bytes of its input that a program consumes. -/
def consumed (env : Environment) (managed : Bool) (steps : List Step) : Nat :=
  env.input.rest.length - (runAll steps .fresh (.start env managed)).process.input.rest.length

/-- The process that a program leaves at its exit. -/
def atExit (env : Environment) (managed : Bool) (steps : List Step) : Process :=
  (runAll steps .fresh (.start env managed)).process.exit
    (runAll steps .fresh (.start env managed)).stopped

section Devices

variable (env : Environment) (managed : Bool) (steps : List Step) (o o' e e' : Bool)

theorem alike_start : Alike (o = o') (e = e') (.start (env.withDevices o e) managed)
    (.start (env.withDevices o' e') managed) where
  input := rfl
  words := rfl
  drawn := rfl
  registered := rfl
  finalized := rfl
  output := congrArg Output.fresh
  errors := congrArg Device.fresh

theorem alike_atExit : Alike (o = o') (e = e') (atExit (env.withDevices o e) managed steps)
    (atExit (env.withDevices o' e') managed steps) := by
  have h := runAll_alike steps .fresh (alike_start env managed o o' e e')
  unfold atExit
  rw [h.stopped]
  exact h.process.exit _

/-- **Broken devices do not interfere.** Answers, exit status and consumed input are the same
whichever of the two devices work; what one of them receives does not depend on the other. -/
theorem run_independent_of_devices :
    (run (env.withDevices o e) managed steps).answers =
        (run (env.withDevices o' e') managed steps).answers ∧
      (run (env.withDevices o e) managed steps).exitCode =
        (run (env.withDevices o' e') managed steps).exitCode ∧
      consumed (env.withDevices o e) managed steps =
        consumed (env.withDevices o' e') managed steps ∧
      (run (env.withDevices o e) managed steps).output =
        (run (env.withDevices o e') managed steps).output ∧
      (run (env.withDevices o e) managed steps).errors =
        (run (env.withDevices o' e) managed steps).errors := by
  have h := runAll_alike steps .fresh (alike_start env managed o o' e e')
  refine ⟨h.answers, ?_, ?_, ?_, ?_⟩
  · simp only [run, h.stopped]
  · simp only [consumed, h.process.input]
    rfl
  · exact congrArg (·.device.received) ((alike_atExit env managed steps o o e e').output rfl)
  · exact congrArg Device.received ((alike_atExit env managed steps o o' e e).errors rfl)

end Devices

end AdaSupport.Program
