import AdaSupport.Proofs.Delivery

/-!
# Prompts are seen before input is awaited

A process notes how standard output stands whenever its input is asked. All that was printed up to
then has been received by the device at that moment, also the end of a line that is still open.

* `Request.isRead`, `Event.hasPlace`: the requests that read, and whether what they read has a place
  to go to.
* `Event.process_of_hasPlace`, `Event.process_of_not_hasPlace`, `Event.input_of_not_isRead`: what a
  request does to the input.
* `Finds`: what a request of a run finds printed.
* **`delivered_before_asked`**: every read finds all that was printed before it delivered.
-/

namespace AdaSupport.Program

/-! ## Reads -/

/-- Whether a request reads from the input. -/
def Request.isRead : Request → Bool
  | .getLine _ | .getInteger | .getReal => true
  | _ => false

/-- Whether what a read finds has a place to go to: a pointer that is not null, or a variable. -/
def Event.hasPlace (e : Event) : Bool :=
  match e.request with
  | .getLine s => (s.pointer? e.thread).isSome
  | _ => e.target.isSome

theorem Event.process_of_hasPlace {e : Event} (hr : e.request.isRead = true)
    (hp : e.hasPlace = true) : ∃ (α : Type) (read : Stream → α × Stream),
      e.progress.process = (e.process.flush.ask read).2 := by
  obtain ⟨r, target, t, p⟩ := e
  unfold progress
  cases r with
  | getLine s =>
    obtain ⟨ptr, hptr⟩ := Option.isSome_iff_exists.mp hp
    simp only [Request.run, show s.pointer? t = some ptr from hptr]
    exact ⟨_, fun s => (s.readLine (t.memory.window ptr Stream.lineCapacity)).2, rfl⟩
  | getInteger =>
    obtain ⟨name, rfl⟩ := Option.isSome_iff_exists.mp hp
    exact ⟨_, Stream.readInteger, rfl⟩
  | getReal =>
    obtain ⟨name, rfl⟩ := Option.isSome_iff_exists.mp hp
    exact ⟨_, Stream.readReal, rfl⟩
  | _ => cases hr

/-- A read without a place does nothing at all. -/
theorem Event.process_of_not_hasPlace {e : Event} (hr : e.request.isRead = true)
    (hp : e.hasPlace = false) : e.progress.process = e.process := by
  obtain ⟨r, target, t, p⟩ := e
  unfold progress
  cases r with
  | getLine s =>
    have hnull : s.pointer? t = none := by simpa [hasPlace] using hp
    simp only [Request.run, hnull]
    rfl
  | getInteger | getReal =>
    obtain rfl : target = none := by simpa [hasPlace] using hp
    rfl
  | _ => cases hr

theorem Process.input_finalize (p : Process) :
    p.finalize.input = p.input ∧ p.finalize.asked = p.asked := by
  unfold Process.finalize
  split <;> exact ⟨rfl, rfl⟩

/-- No other request touches the input. -/
theorem Event.input_of_not_isRead {e : Event} (hr : e.request.isRead = false) :
    e.progress.process.input = e.process.input ∧ e.progress.process.asked = e.process.asked := by
  obtain ⟨r, target, t, p⟩ := e
  unfold progress
  cases r with
  | getLine | getInteger | getReal => cases hr
  | finalize => exact p.input_finalize
  | _ => exact ⟨rfl, rfl⟩

/-! ## Runs -/

/-- Each of the requests `es`, executed from `p` on, finds written all that was printed before. -/
def Finds (p : Process) (es : List Event) : Prop :=
  p.output.Steady → ∀ before e after, es = before ++ e :: after →
    e.process.output.Steady ∧ e.process.output.written = p.output.written ++ printed before

theorem Finds.append {p q : Process} {es fs : List Event} (hes : Delivers p es q) (h : Finds p es)
    (h' : Finds q fs) : Finds p (es ++ fs) := by
  intro hp before e after hsplit
  obtain ⟨hq, hwritten⟩ := hes.output hp
  rcases List.append_eq_append_iff.mp hsplit with ⟨more, rfl, hfs⟩ | ⟨more, hmore, hrest⟩
  · obtain ⟨hsteady, hfound⟩ := h' hq more e after hfs
    refine ⟨hsteady, ?_⟩
    rw [hfound, hwritten, List.append_assoc, printed, printed, printed, List.flatMap_append]
  · cases more with
    | nil =>
      obtain ⟨hsteady, hfound⟩ := h' hq [] e after hrest.symm
      refine ⟨hsteady, ?_⟩
      rw [hfound, hwritten, hmore, List.append_nil]
      exact List.append_nil _
    | cons d more =>
      obtain ⟨rfl, -⟩ := List.cons_eq_cons.mp hrest
      exact h hp before e more hmore

theorem runRelation_finds : RunRelation fun p es _ q => Delivers p es q ∧ Finds p es where
  refl p := by
    refine ⟨.refl p, fun _ before e after h => ?_⟩
    simp at h
  trans h h' := ⟨h.1.trans h'.1, h.2.append h.1 h'.2⟩
  event e := by
    refine ⟨e.delivers, fun hp before d after h => ?_⟩
    cases before with
    | nil =>
      obtain ⟨rfl, -⟩ := List.cons_eq_cons.mp h
      exact ⟨hp, (List.append_nil _).symm⟩
    | cons b before => simp at h

/-- **What was printed is seen before input is awaited.** When a read with a place for what it finds
asks the input, the device of standard output has received all that was printed before, and nothing
waits. A read without a place changes nothing, and no other request touches the input. -/
theorem delivered_before_asked (env : Environment) (managed : Bool) (steps : List Step)
    (hw : env.outputWorks = true) {before after : List Event} {e : Event}
    (h : executed env managed steps = before ++ e :: after) :
    (e.request.isRead = true → e.hasPlace = true →
        e.progress.process.asked = e.process.asked ++ [⟨⟨true, printed before⟩, []⟩]) ∧
      (e.request.isRead = true → e.hasPlace = false → e.progress.process = e.process) ∧
      (e.request.isRead = false → e.progress.process.input = e.process.input ∧
        e.progress.process.asked = e.process.asked) := by
  have hstart : (Process.start env managed).output = .fresh true := by
    rw [Process.start, hw]
  obtain ⟨hsteady, hwritten⟩ := (runRelation_finds.steps steps .fresh (.start env managed)).2
    (hstart ▸ Output.steady_fresh) before e after h
  rw [hstart] at hwritten
  refine ⟨fun hr hp => ?_, Event.process_of_not_hasPlace, Event.input_of_not_isRead⟩
  obtain ⟨α, read, hread⟩ := Event.process_of_hasPlace hr hp
  have hflush : e.process.flush.output = ⟨⟨true, printed before⟩, []⟩ := by
    rw [Process.flush, Output.flush_of_works hsteady.works, hwritten]
    rfl
  rw [hread, ← hflush]
  rfl

/-- A prompt in an open line, ended by a nested thread whose own read has no place to go to. -/
theorem delivered_before_asked_open_line :
    let env : Environment := ⟨.ofBytes [53, 10] .endOfInput fun _ => 0, true, false, fun _ => 0⟩
    let asking : List Step := [.request (.put (.literal [97, 10, 98]) false) none,
      .thread [.request (.putInteger (.literal (-7))) none, .request .getInteger none]]
    (runAll (asking ++ [.request .getInteger (some "n")]) .fresh (.start env false)).process.asked =
      [⟨⟨true, [97, 10, 98, 45, 55]⟩, []⟩] := by
  intro env asking
  let e : Event :=
    ⟨.getInteger, some "n", .fresh, (runAll asking .fresh (.start env false)).process⟩
  have h : executed env false (asking ++ [.request .getInteger (some "n")]) =
      executed env false asking ++ e :: [] := rfl
  exact ((delivered_before_asked env false _ rfl h).1 rfl rfl).trans (by decide +kernel)

end AdaSupport.Program
