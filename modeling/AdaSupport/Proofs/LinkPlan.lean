import AdaSupport.Link.CommandLine
import AdaSupport.Proofs.EntrySearch

/-!
# The course of linking

A link command looks for the entry procedure, asks the compiler driver for its version, builds the
support library where that is called for, checks all names and links. Each stage may fail, and then
no later one is reached.

* `Follows`: an action makes the calls of a plan in order, as far as it gets, and gets to the end
  under an exact condition.
* `Follows.bind`: plans are followed one after the other.
* `Job.plan`, `Job.Links`: the plan of a link command, and the condition under which it succeeds.
* `link_follows_plan`: what a link command runs and how it ends.
-/

namespace AdaSupport.Link

/-! ## Calls -/

/-- A tool and the arguments it is called with. -/
abbrev Call := String × List String

/-- The call that was run. -/
def Run.call (r : Run) : Call := (r.tool, r.arguments)

/-- The tool of a call can be started. -/
def Host.Starts (host : Host) (call : Call) : Prop := ∃ c, host.start call.1 call.2 = .ok c

/-- The tool of a call can be started and ends with status zero. -/
def Host.Succeeds (host : Host) (call : Call) : Prop :=
  ∃ c, host.start call.1 call.2 = .ok c ∧ c.status = .code 0

/-- The entry procedure that a file defines, if it can be read as text. -/
def Host.entryIn? (host : Host) (path : Bytes) : Option String :=
  match host.read path with
  | .ok bs => (Utf8.decode? bs).bind Entry.find?
  | .error _ => none

/-! ## Actions -/

variable {α β : Type}

/-- The result of an action in a session, and the session afterwards. -/
def Action.performOn (a : Action α) (s : Session) : Except Error α × Session :=
  StateT.run (ExceptT.run a) s

/-- In every session the action has the result `r` and adds `runs` to the tools that have run. -/
def Action.Yields (a : Action α) (r : Except Error α) (runs : List Run) : Prop :=
  ∀ s, ∃ printed, a.performOn s = (r, ⟨printed, s.runs ++ runs⟩)

theorem performOn_bind (a : Action α) (f : α → Action β) (s : Session) :
    (a >>= f).performOn s =
      match a.performOn s with
      | (.ok v, s) => (f v).performOn s
      | (.error e, s) => (.error e, s) := by
  simp only [Action.performOn, ExceptT.run_bind, StateT.run_bind]
  rcases StateT.run (ExceptT.run a) s with ⟨_ | _, s⟩ <;> rfl

theorem yields_pure (v : α) : (pure v : Action α).Yields (.ok v) [] :=
  fun s => ⟨s.printed, by rw [List.append_nil]; rfl⟩

theorem yields_throw (e : Error) : (throw e : Action α).Yields (.error e) [] :=
  fun s => ⟨s.printed, by rw [List.append_nil]; rfl⟩

theorem yields_say (line : String) : (say line).Yields (.ok ()) [] :=
  fun s => ⟨_, by rw [List.append_nil]; rfl⟩

theorem Action.Yields.bind {a : Action α} {f : α → Action β} {v : α} {r : Except Error β}
    {runs runs' : List Run} (h : a.Yields (.ok v) runs) (h' : (f v).Yields r runs') :
    (a >>= f).Yields r (runs ++ runs') := by
  intro s
  obtain ⟨printed, hs⟩ := h s
  obtain ⟨printed', hs'⟩ := h' ⟨printed, s.runs ++ runs⟩
  refine ⟨printed', ?_⟩
  rw [performOn_bind, hs, ← List.append_assoc]
  exact hs'

theorem Action.Yields.bind_error {a : Action α} {f : α → Action β} {e : Error} {runs : List Run}
    (h : a.Yields (.error e) runs) : (a >>= f).Yields (.error e) runs := by
  intro s
  obtain ⟨printed, hs⟩ := h s
  exact ⟨printed, by rw [performOn_bind, hs]⟩

/-! ## Actions that follow a plan -/

section Follows

/-- The action makes the calls of `plan` in order as far as it gets, none of them unless it is
`allowed`. It gets to the end when `good` holds, with a value for which `post` holds, and
otherwise fails with one of the `faults`. -/
structure Follows (allowed : Call → Prop) (faults : Error → Prop) (plan : List Call) (good : Prop)
    (post : α → Prop) (a : Action α) : Prop where
  succeeds : good → ∃ v runs, a.Yields (.ok v) runs ∧ post v ∧ runs.map Run.call = plan ∧
    ∀ r ∈ runs, allowed r.call
  fails : ¬ good → ∃ e runs, a.Yields (.error e) runs ∧ faults e ∧ runs.map Run.call <+: plan ∧
    ∀ r ∈ runs, allowed r.call

variable {allowed : Call → Prop} {faults : Error → Prop} {plan plan' : List Call}
  {good good' : Prop} {post : α → Prop} {post' : β → Prop}

theorem follows_pure {v : α} (hgood : good) (hpost : post v) :
    Follows allowed faults [] good post (pure v : Action α) where
  succeeds _ := ⟨v, [], yields_pure v, hpost, rfl, fun _ hr => nomatch hr⟩
  fails h := absurd hgood h

theorem follows_throw {e : Error} (hgood : ¬ good) (hfault : faults e) :
    Follows allowed faults [] good post (throw e : Action α) where
  succeeds h := absurd h hgood
  fails _ := ⟨e, [], yields_throw e, hfault, List.prefix_rfl, fun _ hr => nomatch hr⟩

theorem follows_say (line : String) :
    Follows allowed faults [] True (fun _ => True) (say line) where
  succeeds _ := ⟨(), [], yields_say line, trivial, rfl, fun _ hr => nomatch hr⟩
  fails h := absurd trivial h

theorem Follows.congr {a : Action α} (h : Follows allowed faults plan good post a)
    (hg : good ↔ good') : Follows allowed faults plan good' post a where
  succeeds hgood := h.succeeds (hg.mpr hgood)
  fails hgood := h.fails fun hg' => hgood (hg.mp hg')

/-- **Plans are followed one after the other.** -/
theorem Follows.bind {a : Action α} {f : α → Action β}
    (h : Follows allowed faults plan good post a)
    (hf : ∀ v, post v → Follows allowed faults plan' good' post' (f v)) :
    Follows allowed faults (plan ++ plan') (good ∧ good') post' (a >>= f) where
  succeeds := by
    rintro ⟨hgood, hgood'⟩
    obtain ⟨v, runs, hyields, hpost, rfl, hallowed⟩ := h.succeeds hgood
    obtain ⟨w, runs', hyields', hpost', rfl, hallowed'⟩ := (hf v hpost).succeeds hgood'
    refine ⟨w, runs ++ runs', hyields.bind hyields', hpost', List.map_append, fun r hr => ?_⟩
    exact (List.mem_append.mp hr).elim (hallowed r) (hallowed' r)
  fails := by
    intro hbad
    by_cases hgood : good
    · obtain ⟨v, runs, hyields, hpost, rfl, hallowed⟩ := h.succeeds hgood
      obtain ⟨e, runs', hyields', hfault, hpart, hallowed'⟩ :=
        (hf v hpost).fails fun hgood' => hbad ⟨hgood, hgood'⟩
      refine ⟨e, runs ++ runs', hyields.bind hyields', hfault, ?_, fun r hr => ?_⟩
      · rw [List.map_append]
        exact (List.prefix_append_right_inj _).mpr hpart
      · exact (List.mem_append.mp hr).elim (hallowed r) (hallowed' r)
    · obtain ⟨e, runs, hyields, hfault, hpart, hallowed⟩ := h.fails hgood
      exact ⟨e, runs, hyields.bind_error, hfault, hpart.trans (List.prefix_append _ _), hallowed⟩

/-- A first part that is needed for the whole. -/
theorem Follows.bind_of_imp {a : Action α} {f : α → Action β}
    (h : Follows allowed faults plan good post a) (hgood : good' → good)
    (hf : ∀ v, post v → Follows allowed faults plan' good' post' (f v)) :
    Follows allowed faults (plan ++ plan') good' post' (a >>= f) :=
  (h.bind hf).congr (and_iff_right_of_imp hgood)

/-- What cannot fail and makes no call may come last. -/
theorem Follows.bind_quiet {a : Action α} {f : α → Action β}
    (h : Follows allowed faults plan good post a)
    (hf : ∀ v, post v → Follows allowed faults [] True post' (f v)) :
    Follows allowed faults plan good post' (a >>= f) := by
  have hall := h.bind hf
  rw [List.append_nil] at hall
  exact hall.congr (iff_of_eq (and_true _))

/-- What cannot fail and makes no call may come first. -/
theorem Follows.quiet_bind {a : Action α} {f : α → Action β}
    (h : Follows allowed faults [] True post a)
    (hf : ∀ v, post v → Follows allowed faults plan good post' (f v)) :
    Follows allowed faults plan good post' (a >>= f) :=
  (h.bind hf).congr (iff_of_eq (true_and _))

/-! ## The steps of linking -/

section Steps

variable (host : Host)

theorem follows_startTool {tool : String} {arguments : List String}
    (explain : StartError → ToolError) (hallowed : allowed (tool, arguments))
    (hfaults : ∀ e, faults (.tool tool e)) :
    Follows allowed faults [(tool, arguments)] (host.Starts (tool, arguments))
      (fun c => host.start tool arguments = .ok c) (startTool host tool arguments explain) := by
  unfold startTool
  cases hstart : host.start tool arguments with
  | error e =>
    have hnot : ¬ host.Starts (tool, arguments) := by
      rintro ⟨c, hc⟩
      rw [hstart] at hc
      cases hc
    refine ⟨fun h => absurd h hnot, fun _ => ?_⟩
    exact ⟨_, [], yields_throw _, hfaults _, List.nil_prefix, fun _ hr => nomatch hr⟩
  | ok c =>
    refine ⟨fun _ => ?_, fun h => absurd ⟨c, hstart⟩ h⟩
    refine ⟨c, [⟨tool, c.program, arguments⟩], fun s => ⟨s.printed, rfl⟩, rfl, rfl, ?_⟩
    rintro r (_ | ⟨_, ⟨⟩⟩)
    exact hallowed

/-- A tool that has to end with status zero. -/
theorem follows_startTool_zero {tool : String} {arguments : List String}
    (explain : StartError → ToolError) (failure : Status → ToolError) {v : α}
    (hallowed : allowed (tool, arguments)) (hfaults : ∀ e, faults (.tool tool e))
    (hv : host.Succeeds (tool, arguments) → post v) :
    Follows allowed faults [(tool, arguments)] (host.Succeeds (tool, arguments)) post
      (startTool host tool arguments explain >>= fun c =>
        if c.status = .code 0 then pure v else throw (.tool tool (failure c.status))) := by
  have hall := (follows_startTool host explain hallowed hfaults).bind fun c hc =>
    show Follows allowed faults [] (host.Succeeds (tool, arguments)) post
      (if c.status = .code 0 then pure v else throw (.tool tool (failure c.status))) by
    split_ifs with hstatus
    · exact follows_pure ⟨c, hc, hstatus⟩ (hv ⟨c, hc, hstatus⟩)
    · refine follows_throw ?_ (hfaults _)
      rintro ⟨d, hd, hd'⟩
      rw [hc] at hd
      cases hd
      exact hstatus hd'
  exact hall.congr ⟨And.right, fun ⟨c, hc, h0⟩ => ⟨⟨c, hc⟩, c, hc, h0⟩⟩

theorem follows_checkCompiler {compiler : String} (hallowed : allowed (compiler, ["--version"]))
    (hfaults : ∀ tool e, faults (.tool tool e)) :
    Follows allowed faults [(compiler, ["--version"])] (host.Starts (compiler, ["--version"]))
      (fun _ => host.Starts (compiler, ["--version"])) (checkCompiler host compiler) := by
  unfold checkCompiler
  exact (follows_startTool host .missing hallowed (hfaults compiler)).bind_quiet
    fun c hc => follows_pure trivial ⟨c, hc⟩

theorem follows_entryInFile {path : Bytes} (hread : ∀ e, faults (.unreadable path e))
    (hnone : faults (.noEntry path)) :
    Follows allowed faults [] (∃ name, host.entryIn? path = some name)
      (fun name => host.entryIn? path = some name) (entryInFile host path) := by
  unfold entryInFile Host.entryIn?
  cases host.read path with
  | error e => exact follows_throw (by simp) (hread e)
  | ok bs =>
    dsimp only
    cases Utf8.decode? bs with
    | none => exact follows_throw (by simp) (hread _)
    | some text =>
      dsimp only [Option.bind_some]
      cases Entry.find? text with
      | none => exact follows_throw (by simp) hnone
      | some name => exact follows_pure ⟨name, rfl⟩ rfl

theorem follows_checkPath {path : Bytes}
    (hfaults : ∀ fault, Path.fault? path = some fault → faults (.invalidPath path fault)) :
    Follows allowed faults [] (Path.fault? path = none) (fun _ => Path.fault? path = none)
      (checkPath path) := by
  unfold checkPath
  cases h : Path.fault? path with
  | none => exact follows_pure rfl rfl
  | some fault => exact follows_throw nofun (hfaults fault h)

theorem follows_checkName {name : String}
    (hfaults : Entry.isName name = false → faults (.invalidName name)) :
    Follows allowed faults [] (Entry.isName name = true) (fun _ => Entry.isName name = true)
      (checkName name) := by
  unfold checkName
  cases h : Entry.isName name with
  | true => exact follows_pure rfl rfl
  | false => exact follows_throw nofun (hfaults h)

theorem follows_buildRuntime {post : Bytes → Prop}
    (hallowed : allowed (buildTool, buildArguments)) (hfaults : ∀ tool e, faults (.tool tool e))
    (hpost : host.Succeeds (buildTool, buildArguments) → post (Utf8.bytes defaultRuntime)) :
    Follows allowed faults [(buildTool, buildArguments)]
      (host.Succeeds (buildTool, buildArguments)) post (buildRuntime host) :=
  follows_startTool_zero host .notStarted .buildFailed hallowed (hfaults buildTool) hpost

end Steps

end Follows

/-! ## The whole command -/

/-- All names that are handed to the compiler driver are accepted. -/
structure Options.Valid (o : Options) : Prop where
  input : Path.fault? o.input = none
  runtime : Path.fault? o.runtime = none
  output : Path.fault? o.output = none
  entry : Entry.isName o.entry = true

/-- The paths that are handed to the compiler driver. -/
def Options.paths (o : Options) : List Bytes := [o.input, o.runtime, o.output]

theorem follows_linkProgram {allowed : Call → Prop} {faults : Error → Prop} (host : Host)
    {o : Options} (hallowed : o.Valid → allowed (o.compiler, o.arguments host.target))
    (htool : ∀ tool e, faults (.tool tool e))
    (hpath : ∀ path ∈ o.paths, ∀ fault, Path.fault? path = some fault →
      faults (.invalidPath path fault))
    (hname : Entry.isName o.entry = false → faults (.invalidName o.entry)) :
    Follows allowed faults [(o.compiler, o.arguments host.target)]
      (o.Valid ∧ host.Succeeds (o.compiler, o.arguments host.target)) (fun _ => True)
      (linkProgram host o) := by
  have hlink : o.Valid → Follows allowed faults [(o.compiler, o.arguments host.target)]
      (host.Succeeds (o.compiler, o.arguments host.target)) (fun _ : Unit => True) _ :=
    fun hvalid => follows_startTool_zero host .notStarted .failed (v := ()) (hallowed hvalid)
      (htool o.compiler) fun _ => trivial
  have hall := (follows_checkPath (hpath o.input (by simp [Options.paths]))).bind fun _ h₁ =>
    (follows_checkPath (hpath o.runtime (by simp [Options.paths]))).bind fun _ h₂ =>
      (follows_checkPath (hpath o.output (by simp [Options.paths]))).bind fun _ h₃ =>
        (follows_checkName hname).bind fun _ h₄ => hlink ⟨h₁, h₂, h₃, h₄⟩
  refine hall.congr ⟨?_, ?_⟩
  · rintro ⟨h₁, h₂, h₃, h₄, h⟩
    exact ⟨⟨h₁, h₂, h₃, h₄⟩, h⟩
  · rintro ⟨⟨h₁, h₂, h₃, h₄⟩, h⟩
    exact ⟨h₁, h₂, h₃, h₄, h⟩

namespace Job

variable (host : Host) (job : Job)

/-- The entry procedure that was asked for, or else the one that the input defines. -/
def knownEntry : Option String :=
  match job.entry with
  | some name => some name
  | none => host.entryIn? job.input

/-- Whether the support library has to be built. -/
def builds : Bool := job.runtime.isNone && !job.skipBuild

/-- What is linked with the given entry procedure. -/
def options (entry : String) : Options where
  input := job.input
  runtime := job.runtime.getD (Utf8.bytes defaultRuntime)
  output := job.output.getD (Path.defaultOutput job.input)
  entry := entry
  compiler := job.compiler

/-- Ask the compiler driver for its version. -/
def versionCall : Call := (job.compiler, ["--version"])

/-- Link with the given entry procedure. -/
def linkCall (entry : String) : Call := (job.compiler, (job.options entry).arguments host.target)

/-- The calls of a link command, the last one when the entry procedure is known. -/
def plan : List Call :=
  job.versionCall :: (if job.builds then [(buildTool, buildArguments)] else []) ++
    (job.knownEntry host).toList.map (job.linkCall host)

/-- The conditions under which linking with `entry` succeeds. -/
structure Links (entry : String) : Prop where
  known : job.knownEntry host = some entry
  version : host.Starts job.versionCall
  build : job.builds = true → host.Succeeds (buildTool, buildArguments)
  valid : (job.options entry).Valid
  link : host.Succeeds (job.linkCall host entry)

section Stages

variable {allowed : Call → Prop} {faults : Error → Prop}

theorem follows_findEntry (hread : ∀ path e, faults (.unreadable path e))
    (hnone : ∀ path, faults (.noEntry path)) :
    Follows allowed faults [] (∃ name, job.knownEntry host = some name)
      (fun name => job.knownEntry host = some name) (job.findEntry host) := by
  unfold findEntry knownEntry
  cases job.entry with
  | some name => exact follows_pure ⟨name, rfl⟩ rfl
  | none =>
    exact (follows_entryInFile host (hread job.input) (hnone job.input)).bind_quiet fun name h =>
      (follows_say _).bind_quiet fun _ _ => follows_pure trivial h

theorem follows_findRuntime (hallowed : allowed (buildTool, buildArguments))
    (hfaults : ∀ tool e, faults (.tool tool e)) :
    Follows allowed faults (if job.builds then [(buildTool, buildArguments)] else [])
      (job.builds = true → host.Succeeds (buildTool, buildArguments))
      (fun path => path = job.runtime.getD (Utf8.bytes defaultRuntime) ∧
        (job.builds = true → host.Succeeds (buildTool, buildArguments)))
      (job.findRuntime host) := by
  unfold findRuntime builds
  cases job.runtime with
  | some path => exact follows_pure nofun ⟨rfl, nofun⟩
  | none =>
    cases job.skipBuild with
    | true => exact follows_pure nofun ⟨rfl, nofun⟩
    | false =>
      refine (follows_say _).quiet_bind fun _ _ => ?_
      exact (follows_buildRuntime host hallowed hfaults fun h => ⟨rfl, fun _ => h⟩).congr
        ⟨fun h _ => h, fun h => h rfl⟩

end Stages

theorem linkCall_ne_versionCall (entry : String) : job.linkCall host entry ≠ job.versionCall := by
  intro h
  have hlen := congrArg (fun call => call.2.length) h
  simp only [linkCall, versionCall, Options.arguments, List.length_append, List.length_cons,
    List.length_nil] at hlen
  omega

theorem linkCall_ne_build (entry : String) :
    job.linkCall host entry ≠ (buildTool, buildArguments) := by
  intro h
  have hthird : some "-o" = some "-p" := congrArg (fun call => call.2[2]?) h
  exact absurd hthird (by decide)

/-- Linking is called only with names that are accepted. -/
def Allows (call : Call) : Prop :=
  ∀ entry, job.knownEntry host = some entry → call = job.linkCall host entry →
    (job.options entry).Valid

/-- A name is refused only when it was asked for. -/
def MayFail (e : Error) : Prop := job.entry = none → ∀ name, e ≠ .invalidName name

theorem isName_of_knownEntry {entry : String} (h : job.knownEntry host = some entry)
    (hentry : job.entry = none) : Entry.isName entry = true := by
  rw [knownEntry, hentry] at h
  simp only [Host.entryIn?] at h
  split at h
  · obtain ⟨text, -, hfind⟩ := Option.bind_eq_some_iff.mp h
    exact Entry.isName_of_find? hfind
  · cases h

/-- **The link command follows its plan**, and fails only where a stage does: a path is refused for
its fault, a name because it is none. -/
theorem follows_link_of {faults : Error → Prop} (htool : ∀ tool e, faults (.tool tool e))
    (hread : ∀ path e, faults (.unreadable path e)) (hnone : ∀ path, faults (.noEntry path))
    (hpath : ∀ entry, ∀ path ∈ (job.options entry).paths, ∀ fault, Path.fault? path = some fault →
      faults (.invalidPath path fault))
    (hname : ∀ entry, job.knownEntry host = some entry → Entry.isName entry = false →
      faults (.invalidName entry)) :
    Follows (job.Allows host) faults (job.plan host) (∃ entry, job.Links host entry)
      (fun _ => True) (link host job) := by
  have hversion : job.Allows host job.versionCall := fun entry _ h =>
    absurd h.symm (job.linkCall_ne_versionCall host entry)
  have hbuild : job.Allows host (buildTool, buildArguments) := fun entry _ h =>
    absurd h.symm (job.linkCall_ne_build host entry)
  unfold link
  change Follows _ _ ([] ++ job.plan host) _ _ _
  refine (job.follows_findEntry host hread hnone).bind_of_imp
    (fun ⟨entry, h⟩ => ⟨entry, h.known⟩) fun entry hknown => ?_
  have hplan : job.plan host = [job.versionCall] ++
      ((if job.builds then [(buildTool, buildArguments)] else []) ++
        [job.linkCall host entry]) := by
    rw [plan, hknown]
    rfl
  rw [hplan]
  refine (follows_checkCompiler host hversion htool).bind_of_imp
    (fun ⟨_, h⟩ => h.version) fun version hstarts => (follows_say _).quiet_bind fun _ _ => ?_
  refine (job.follows_findRuntime host hbuild htool).bind_of_imp (fun ⟨_, h⟩ => h.build) ?_
  rintro _ ⟨rfl, hbuilt⟩
  refine (follows_say _).quiet_bind fun _ _ => ?_
  have hlink : Follows (job.Allows host) faults [job.linkCall host entry]
      (∃ entry, job.Links host entry) (fun _ => True) (linkProgram host (job.options entry)) := by
    refine (follows_linkProgram host (o := job.options entry) (fun hvalid entry' h _ => ?_) htool
      (hpath entry) (hname entry hknown)).congr ⟨?_, ?_⟩
    · rw [hknown] at h
      cases h
      exact hvalid
    · rintro ⟨hvalid, hsucceeds⟩
      exact ⟨entry, hknown, hstarts, hbuilt, hvalid, hsucceeds⟩
    · rintro ⟨entry', h⟩
      cases hknown.symm.trans h.known
      exact ⟨h.valid, h.link⟩
  exact hlink.bind_quiet fun _ _ => (follows_say _).bind_quiet fun _ _ => follows_say _

theorem follows_link : Follows (job.Allows host) job.MayFail (job.plan host)
    (∃ entry, job.Links host entry) (fun _ => True) (link host job) := by
  refine job.follows_link_of host (fun _ _ _ _ => nofun) (fun _ _ _ _ => nofun)
    (fun _ _ _ => nofun) (fun _ _ _ _ _ _ _ => nofun) fun entry hknown hname hentry _ => ?_
  exact absurd (hname.symm.trans (job.isName_of_knownEntry host hknown hentry)) nofun

end Job

/-! ## The reply -/

theorem Action.Yields.perform {a : Action α} {r : Except Error α} {runs : List Run}
    (h : a.Yields r runs) : ∃ printed, a.perform = (r, ⟨printed, runs⟩) := by
  obtain ⟨printed, hs⟩ := h .fresh
  exact ⟨printed, hs⟩

/-- **The link command runs its tools in one fixed order and links only what was accepted.** The
tools it runs are a first part of its plan, all of it when the exit status is zero, and the compiler
driver is called to link only with accepted names. The exit status is zero when every stage
succeeds, and one otherwise. A name that the search has found is never refused. -/
theorem link_follows_plan (host : Host) (job : Job) :
    ∃ code output errors runs,
      CommandLine.perform host (.link job) = .finished code output errors runs ∧
      runs.map Run.call <+: job.plan host ∧ (code = 0 → runs.map Run.call = job.plan host) ∧
      (∀ entry, job.knownEntry host = some entry → job.linkCall host entry ∈ runs.map Run.call →
        (job.options entry).Valid) ∧
      (code = 0 ↔ ∃ entry, job.Links host entry) ∧ (code = 0 ∨ code = 1) ∧
      (job.entry = none → ∀ name, (link host job).perform.1 ≠ .error (.invalidName name)) := by
  have hfollows := job.follows_link host
  have hvalid : ∀ runs : List Run, (∀ r ∈ runs, job.Allows host r.call) →
      ∀ entry, job.knownEntry host = some entry → job.linkCall host entry ∈ runs.map Run.call →
        (job.options entry).Valid := by
    intro runs hallowed entry hentry hmem
    obtain ⟨r, hr, hcall⟩ := List.mem_map.mp hmem
    exact hallowed r hr entry hentry hcall
  by_cases hgood : ∃ entry, job.Links host entry
  · obtain ⟨_, runs, hyields, -, hplan, hallowed⟩ := hfollows.succeeds hgood
    obtain ⟨printed, hperform⟩ := hyields.perform
    refine ⟨0, printed, "", runs, ?_, hplan ▸ List.prefix_rfl, fun _ => hplan,
      hvalid runs hallowed, iff_of_true rfl hgood, .inl rfl, ?_⟩
    · rw [CommandLine.perform, CommandLine.reply, hperform]
    · rw [hperform]
      exact fun _ _ => nofun
  · obtain ⟨e, runs, hyields, hfault, hpart, hallowed⟩ := hfollows.fails hgood
    obtain ⟨printed, hperform⟩ := hyields.perform
    refine ⟨1, printed, "Error: " ++ e.detail ++ "\n", runs, ?_, hpart, nofun,
      hvalid runs hallowed, iff_of_false nofun hgood, .inr rfl, ?_⟩
    · rw [CommandLine.perform, CommandLine.reply, hperform]
    · rw [hperform]
      exact fun hentry name h => hfault hentry name (Except.error.inj h)

end AdaSupport.Link
