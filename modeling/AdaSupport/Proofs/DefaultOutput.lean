import AdaSupport.Proofs.LinkPlan
import AdaSupport.Proofs.PathCheck

/-!
# The default output name

Without a name for its output, the link command takes the name of the input file without its
extension. The check of paths then decides about a name that nobody gave, apart from the directory
that stood in front of it.

* `IsFileName`: a name that can be the last component of a path; `components_eq`: it is a path of
  that one component.
* `withoutExtension_cases`: a name has no extension, or is cut at its last dot.
* `fault?_defaultOutput_eq_leadingDash_iff`, `fault?_defaultOutput_eq_parentSegment_iff`: which
  default names are refused.
* `place`: where a path leads to from a directory.
* `defaultOutput_refused_or_input`: default names that are refused, and one that is the input.
* **`defaultOutput_of_accepted`**: the default name is accepted and leads away from the input,
  unless the name of the input starts with a dash, is cut to two dots or has no extension.
-/

namespace AdaSupport.Path

open Utf8

/-! ## File names -/

/-- The bytes are no path of several segments, and neither empty nor a segment of dots that stands
for a directory. -/
structure IsFileName (s : Bytes) : Prop where
  slash_not_mem : slash ∉ s
  ne_nil : s ≠ []
  ne_here : s ≠ here
  ne_parent : s ≠ parent

theorem slash_not_mem_segment {p s : Bytes} (h : s ∈ segments p) : slash ∉ s := by
  fun_induction segments p generalizing s with
  | case1 => simp_all
  | case2 rest ih =>
    rcases List.mem_cons.mp h with rfl | h
    · exact List.not_mem_nil
    · exact ih h
  | case3 b rest hb hrest ih =>
    rw [List.mem_singleton.mp h, List.mem_singleton]
    exact Ne.symm hb
  | case4 b rest hb t more hrest ih =>
    rcases List.mem_cons.mp h with rfl | h
    · have ht := ih (hrest ▸ List.mem_cons_self)
      exact List.not_mem_cons_of_ne_of_not_mem (Ne.symm hb) ht
    · exact ih (hrest ▸ List.mem_cons_of_mem _ h)

theorem segments_of_slash_not_mem {s : Bytes} (h : slash ∉ s) : segments s = [s] := by
  rw [segments_eq_splitOn, List.splitOn_eq_singleton h]

/-- What a segment has to be for the component it stands for. -/
theorem ofSegment?_cases {s : Bytes} {c : Component} (h : Component.ofSegment? s = some c) :
    s = parent ∧ c = .parent ∨ c = .named s ∧ s ≠ [] ∧ s ≠ here ∧ s ≠ parent := by
  unfold Component.ofSegment? at h
  split_ifs at h with hskip hup
  · exact .inl ⟨hup, (Option.some.inj h).symm⟩
  · exact .inr ⟨(Option.some.inj h).symm, (not_or.mp hskip).1, (not_or.mp hskip).2, hup⟩

theorem name?_eq_some_iff {p name : Bytes} :
    name? p = some name ↔ (components p).getLast? = some (.named name) := by
  unfold name?
  split <;> simp_all

theorem isFileName_of_mem {p name : Bytes} (h : .named name ∈ components p) : IsFileName name := by
  rcases List.mem_append.mp h with h | h
  · split_ifs at h <;> simp at h
  · obtain ⟨s, hs, hc⟩ := List.mem_filterMap.mp h
    rcases ofSegment?_cases hc with ⟨-, hc⟩ | ⟨hc, hnil, hhere, hup⟩
    · cases hc
    · cases hc
      exact ⟨slash_not_mem_segment hs, hnil, hhere, hup⟩

theorem isFileName_of_name? {p name : Bytes} (h : name? p = some name) : IsFileName name :=
  isFileName_of_mem (List.mem_of_getLast? (name?_eq_some_iff.mp h))

theorem IsFileName.components_eq {s : Bytes} (h : IsFileName s) : components s = [.named s] := by
  have hhead : s.head? ≠ some slash := fun hs => h.slash_not_mem (List.mem_of_mem_head? hs)
  simp [components, segments_of_slash_not_mem h.slash_not_mem, hhead, Component.ofSegment?,
    h.ne_nil, h.ne_here, h.ne_parent]

/-- An accepted path without a name in the end is empty, the root or the directory itself. -/
theorem components_of_name?_eq_none {p : Bytes} (hp : fault? p = none) (hn : name? p = none) :
    components p = [] ∨ components p = [.root] ∨ components p = [.here] := by
  have hup : parent ∉ segments p := by
    intro hmem
    rw [fault?_eq, ← segments_eq_splitOn, if_pos hmem] at hp
    split_ifs at hp
  have hnone : (segments p).filterMap Component.ofSegment? = [] := by
    by_contra hne
    have hlast := List.getLast?_eq_some_getLast hne
    have hmem := List.mem_of_getLast? hlast
    generalize List.getLast _ hne = c at hlast hmem
    obtain ⟨s, hs, hc⟩ := List.mem_filterMap.mp hmem
    rcases ofSegment?_cases hc with ⟨rfl, -⟩ | ⟨rfl, -⟩
    · exact hup hs
    · have hname : name? p = some s := by
        rw [name?_eq_some_iff, components, List.getLast?_append, hlast, Option.some_or]
      rw [hname] at hn
      cases hn
  rw [components, hnone, List.append_nil]
  split_ifs <;> simp

/-! ## Extensions -/

/-- The dot. -/
def dot : UInt8 := 46

theorem bne_dot_of_not_mem {ext : Bytes} (h : dot ∉ ext) : ∀ c ∈ ext.reverse, (c != 46) = true := by
  intro c hc
  rw [bne_iff_ne]
  rintro rfl
  exact h (List.mem_reverse.mp hc)

theorem withoutExtension_of_not_mem {name : Bytes} (h : dot ∉ name.tail) :
    withoutExtension name = name := by
  have hfront : (name.reverse.dropWhile (· != 46)).drop 1 = [] := by
    cases name with
    | nil => rfl
    | cons b rest =>
      rw [List.tail_cons] at h
      rw [List.reverse_cons, List.dropWhile_append_of_pos (bne_dot_of_not_mem h),
        List.dropWhile_cons]
      split <;> rfl
  simp only [withoutExtension, hfront, if_true]

theorem withoutExtension_append {s ext : Bytes} (hs : s ≠ []) (hext : dot ∉ ext) :
    withoutExtension (s ++ dot :: ext) = s := by
  have hfront : ((s ++ dot :: ext).reverse.dropWhile (· != 46)).drop 1 = s.reverse := by
    rw [List.reverse_append, List.reverse_cons, List.append_assoc,
      List.dropWhile_append_of_pos (bne_dot_of_not_mem hext)]
    rfl
  simp only [withoutExtension, hfront, List.reverse_eq_nil_iff, if_neg hs, List.reverse_reverse]

/-- **A name has no extension, or is cut at its last dot.** A dot in front starts no extension. -/
theorem withoutExtension_cases (name : Bytes) :
    (dot ∉ name.tail ∧ withoutExtension name = name) ∨
      ∃ s ext, s ≠ [] ∧ dot ∉ ext ∧ name = s ++ dot :: ext ∧ withoutExtension name = s := by
  by_cases h : dot ∈ name.tail
  · obtain ⟨ext, front, hsplit, hext⟩ := List.eq_append_cons_of_mem (List.mem_reverse.mpr h)
    have htail : name.tail = front.reverse ++ dot :: ext.reverse := by
      rw [← List.reverse_reverse name.tail, hsplit]
      simp
    cases name with
    | nil => cases h
    | cons b rest =>
      have hname : b :: rest = (b :: front.reverse) ++ dot :: ext.reverse :=
        congrArg (b :: ·) htail
      have hext' : dot ∉ ext.reverse := mt List.mem_reverse.mp hext
      refine .inr ⟨b :: front.reverse, ext.reverse, List.cons_ne_nil _ _, hext', hname, ?_⟩
      rw [hname, withoutExtension_append (List.cons_ne_nil _ _) hext']
  · exact .inl ⟨h, withoutExtension_of_not_mem h⟩

section Stem

variable {name : Bytes}

theorem withoutExtension_eq_self_iff : withoutExtension name = name ↔ dot ∉ name.tail := by
  refine ⟨fun h => ?_, withoutExtension_of_not_mem⟩
  obtain ⟨hdot, -⟩ | ⟨s, ext, -, -, hname, hstem⟩ := withoutExtension_cases name
  · exact hdot
  · have hlength := congrArg List.length (hname.symm.trans (h.symm.trans hstem))
    simp at hlength

theorem isPrefix_withoutExtension : withoutExtension name <+: name := by
  obtain ⟨-, hstem⟩ | ⟨s, ext, -, -, hname, hstem⟩ := withoutExtension_cases name
  · exact ⟨[], by rw [hstem, List.append_nil]⟩
  · exact ⟨dot :: ext, by rw [hstem, ← hname]⟩

theorem withoutExtension_ne_nil (hne : name ≠ []) : withoutExtension name ≠ [] := by
  obtain ⟨-, hstem⟩ | ⟨s, ext, hs, -, -, hstem⟩ := withoutExtension_cases name
  · rwa [hstem]
  · rwa [hstem]

theorem head?_withoutExtension (hne : name ≠ []) : (withoutExtension name).head? = name.head? := by
  obtain ⟨tail, htail⟩ : withoutExtension name <+: name := isPrefix_withoutExtension
  obtain ⟨b, rest, hstem⟩ := List.exists_cons_of_ne_nil (withoutExtension_ne_nil hne)
  rw [hstem] at htail ⊢
  rw [← htail]
  rfl

theorem withoutExtension_eq_parent_iff (hne : name ≠ parent) :
    withoutExtension name = parent ↔ ∃ ext, dot ∉ ext ∧ name = parent ++ dot :: ext := by
  constructor
  · intro h
    obtain ⟨-, hstem⟩ | ⟨s, ext, -, hext, hname, hstem⟩ := withoutExtension_cases name
    · exact absurd (hstem.symm.trans h) hne
    · exact ⟨ext, hext, by rw [← h, hstem, ← hname]⟩
  · rintro ⟨ext, hext, rfl⟩
    exact withoutExtension_append (by decide) hext

end Stem

/-! ## Default names -/

/-- The name that is taken when the file has none that is text. -/
def fallback : Bytes := bytes "output"

theorem isFileName_fallback : IsFileName fallback := by
  refine ⟨?_, ?_, ?_, ?_⟩ <;> decide +kernel

section DefaultOutput

variable {p : Bytes}

theorem defaultOutput_of_none (h : name? p = none) : defaultOutput p = fallback := by
  simp [defaultOutput, stem?, h, fallback]

theorem defaultOutput_of_some {name : Bytes} (h : name? p = some name) :
    defaultOutput p =
      if (decode? (withoutExtension name)).isSome then withoutExtension name else fallback := by
  simp [defaultOutput, stem?, h, fallback]

/-- A default name is a single segment. -/
theorem slash_not_mem_defaultOutput (p : Bytes) : slash ∉ defaultOutput p := by
  cases h : name? p with
  | none => rw [defaultOutput_of_none h]; exact isFileName_fallback.slash_not_mem
  | some name =>
    rw [defaultOutput_of_some h]
    split_ifs
    · intro hmem
      exact (isFileName_of_name? h).slash_not_mem (isPrefix_withoutExtension.subset hmem)
    · exact isFileName_fallback.slash_not_mem

theorem defaultOutput_ne_nil (p : Bytes) : defaultOutput p ≠ [] := by
  cases h : name? p with
  | none => rw [defaultOutput_of_none h]; exact isFileName_fallback.ne_nil
  | some name =>
    rw [defaultOutput_of_some h]
    split_ifs
    · exact withoutExtension_ne_nil (isFileName_of_name? h).ne_nil
    · exact isFileName_fallback.ne_nil

/-- A property that the fallback does not have is one of the stem. -/
theorem defaultOutput_iff {P : Bytes → Prop} (hP : ¬ P fallback) :
    P (defaultOutput p) ↔ ∃ name, name? p = some name ∧
      (decode? (withoutExtension name)).isSome ∧ P (withoutExtension name) := by
  cases h : name? p with
  | none => simp [defaultOutput_of_none h, hP]
  | some name =>
    rw [defaultOutput_of_some h]
    split_ifs with htext <;> simp [htext, hP]

/-- **The default name is the name of the file** if that is text without an extension. -/
theorem defaultOutput_eq_iff {name : Bytes} (h : name? p = some name) :
    defaultOutput p = name ↔ dot ∉ name.tail ∧ (decode? name).isSome := by
  rw [defaultOutput_of_some h, ← withoutExtension_eq_self_iff]
  constructor
  · intro heq
    split_ifs at heq with htext
    · exact ⟨heq, heq ▸ htext⟩
    · -- the fallback has no extension and is text
      have hself : withoutExtension name = name := heq ▸ by decide +kernel
      rw [hself, ← heq] at htext
      exact absurd (by decide +kernel) htext
  · rintro ⟨hself, htext⟩
    rw [hself, if_pos htext]

theorem fault?_of_slash_not_mem {s : Bytes} (h : slash ∉ s) : fault? s =
    if s.head? = some dash then some .leadingDash
    else if s = parent then some .parentSegment
    else none := by
  simp only [fault?_eq, List.splitOn_eq_singleton h, List.mem_singleton, eq_comm]

theorem fault?_defaultOutput_eq_leadingDash_iff : fault? (defaultOutput p) = some .leadingDash ↔
    ∃ name, name? p = some name ∧ (decode? (withoutExtension name)).isSome ∧
      name.head? = some dash := by
  have hfault : fault? (defaultOutput p) = some .leadingDash ↔
      (defaultOutput p).head? = some dash := by
    rw [fault?_of_slash_not_mem (slash_not_mem_defaultOutput p)]
    split_ifs <;> simp_all
  rw [hfault, defaultOutput_iff (P := fun s => s.head? = some dash) (by decide +kernel)]
  refine exists_congr fun name => and_congr_right fun h => ?_
  rw [head?_withoutExtension (isFileName_of_name? h).ne_nil]

theorem fault?_defaultOutput_eq_parentSegment_iff :
    fault? (defaultOutput p) = some .parentSegment ↔
      ∃ ext, dot ∉ ext ∧ name? p = some (parent ++ dot :: ext) := by
  have hfault : fault? (defaultOutput p) = some .parentSegment ↔ defaultOutput p = parent := by
    rw [fault?_of_slash_not_mem (slash_not_mem_defaultOutput p)]
    split_ifs with hdash hup
    · refine iff_of_false nofun fun hup => ?_
      rw [hup] at hdash
      cases hdash
    · exact iff_of_true rfl hup
    · exact iff_of_false nofun hup
  have htext : (decode? parent).isSome := by decide +kernel
  rw [hfault, defaultOutput_iff (P := (· = parent)) (by decide +kernel)]
  constructor
  · rintro ⟨name, hname, -, hup⟩
    obtain ⟨ext, hext, rfl⟩ :=
      (withoutExtension_eq_parent_iff (isFileName_of_name? hname).ne_parent).mp hup
    exact ⟨ext, hext, hname⟩
  · rintro ⟨ext, hext, hname⟩
    have hup := (withoutExtension_eq_parent_iff (isFileName_of_name? hname).ne_parent).mpr
      ⟨ext, hext, rfl⟩
    exact ⟨_, hname, by rw [hup]; exact htext, hup⟩

/-- A default name is a file name, unless it stands for a directory. -/
theorem isFileName_defaultOutput (hhere : defaultOutput p ≠ here) (hup : defaultOutput p ≠ parent) :
    IsFileName (defaultOutput p) :=
  ⟨slash_not_mem_defaultOutput p, defaultOutput_ne_nil p, hhere, hup⟩

/-- A path is its own default name only if it is nothing but that name. -/
theorem components_defaultOutput_eq_iff : components (defaultOutput p) = components p ↔
    ∃ name, components p = [.named name] ∧ dot ∉ name.tail ∧ (decode? name).isSome := by
  constructor
  · intro h
    by_cases hname : IsFileName (defaultOutput p)
    · rw [hname.components_eq] at h
      have hlast : name? p = some (defaultOutput p) := by rw [name?_eq_some_iff, ← h]; rfl
      exact ⟨_, h.symm, (defaultOutput_eq_iff hlast).mp rfl⟩
    · -- the default name stands for a directory, so the path has no name, and the default is none
      have hnone : name? p = none := by
        by_cases hhere : defaultOutput p = here
        · rw [hhere] at h
          rw [name?, ← h]
          rfl
        · have hup : defaultOutput p = parent := by
            by_contra hup
            exact hname (isFileName_defaultOutput hhere hup)
          rw [hup] at h
          rw [name?, ← h]
          rfl
      exact absurd (defaultOutput_of_none hnone ▸ isFileName_fallback) hname
  · rintro ⟨name, hp, hname⟩
    have hlast : name? p = some name := by rw [name?_eq_some_iff, hp]; rfl
    rw [(defaultOutput_eq_iff hlast).mpr hname, (isFileName_of_name? hlast).components_eq, hp]

end DefaultOutput

/-! ## Places -/

/-- Go on from a directory. -/
def Component.follow (directory : List Bytes) : Component → List Bytes
  | .root => []
  | .here => directory
  | .parent => directory.dropLast
  | .named name => directory ++ [name]

/-- Where a path leads to from a directory, both given by the names on the way from the root. -/
def place (directory : List Bytes) (p : Bytes) : List Bytes :=
  (components p).foldl Component.follow directory

section Place

variable {p : Bytes} (directory : List Bytes)

theorem IsFileName.place_eq {s : Bytes} (h : IsFileName s) :
    place directory s = directory ++ [s] := by
  rw [place, h.components_eq]
  rfl

theorem place_of_name? {name : Bytes} (h : name? p = some name) :
    ∃ front, place directory p = front ++ [name] := by
  obtain ⟨cs, hcs⟩ := List.getLast?_eq_some_iff.mp (name?_eq_some_iff.mp h)
  exact ⟨cs.foldl Component.follow directory, by rw [place, hcs, List.foldl_append]; rfl⟩

theorem place_of_name?_eq_none (hp : fault? p = none) (h : name? p = none) (name : Bytes) :
    place directory p ≠ directory ++ [name] := by
  unfold place
  rcases components_of_name?_eq_none hp h with hc | hc | hc <;> rw [hc] <;>
    simp [Component.follow]

/-- The path leads to a name in the directory itself, so this is the name of its file. -/
theorem name?_of_place {name : Bytes} (hp : fault? p = none)
    (h : place directory p = directory ++ [name]) : name? p = some name := by
  cases hn : name? p with
  | none => exact absurd h (place_of_name?_eq_none directory hp hn name)
  | some other =>
    obtain ⟨front, hfront⟩ := place_of_name? directory hn
    rw [h] at hfront
    exact congrArg some (List.singleton_inj.mp (List.append_inj' hfront rfl).2).symm

/-- **Only a file of the directory that has no extension is in the place of its default name.** -/
theorem place_defaultOutput_eq_iff (hp : fault? p = none) (hout : fault? (defaultOutput p) = none)
    (hplace : place directory p ≠ directory) :
    place directory (defaultOutput p) = place directory p ↔
      ∃ name, place directory p = directory ++ [name] ∧ dot ∉ name.tail ∧
        (decode? name).isSome := by
  have hup : defaultOutput p ≠ parent := by
    intro hup
    rw [hup] at hout
    exact absurd hout (by decide +kernel)
  constructor
  · intro h
    have hhere : defaultOutput p ≠ here := by
      intro hhere
      rw [hhere] at h
      exact hplace (h.symm.trans (by simp [place, components, segments, here, slash,
        Component.ofSegment?, Component.follow]))
    rw [(isFileName_defaultOutput hhere hup).place_eq] at h
    exact ⟨_, h.symm, (defaultOutput_eq_iff (name?_of_place directory hp h.symm)).mp rfl⟩
  · rintro ⟨name, h, hname⟩
    have hlast := name?_of_place directory hp h
    rw [(defaultOutput_eq_iff hlast).mpr hname, (isFileName_of_name? hlast).place_eq, h]

end Place

end AdaSupport.Path

namespace AdaSupport.Link

open AdaSupport.Path

/-! ## Links without a name for the output -/

/-- Paths are refused for their own faults only: a support library that was asked for, and the
default name of the output. -/
def Job.BlamesName (job : Job) (e : Error) : Prop :=
  ∀ path fault, e = .invalidPath path fault → fault? path = some fault ∧
    (job.runtime = some path ∨ path = defaultOutput job.input)

theorem fault?_defaultRuntime : fault? (Utf8.bytes defaultRuntime) = none := by decide +kernel

theorem Job.blamesName_of_error {host : Host} {job : Job} {e : Error}
    (hinput : fault? job.input = none) (houtput : job.output = none)
    (h : (link host job).perform.1 = .error e) : job.BlamesName e := by
  have hpath : ∀ entry, ∀ path ∈ (job.options entry).paths, ∀ fault, fault? path = some fault →
      job.BlamesName (.invalidPath path fault) := by
    intro entry path hpath fault hfault
    rintro _ _ ⟨⟩
    refine ⟨hfault, ?_⟩
    simp only [Options.paths, Job.options, houtput, Option.getD_none, List.mem_cons,
      List.not_mem_nil, or_false] at hpath
    rcases hpath with rfl | rfl | rfl
    · rw [hinput] at hfault
      cases hfault
    · cases hruntime : job.runtime with
      | some path => exact .inl rfl
      | none =>
        rw [hruntime, Option.getD_none, fault?_defaultRuntime] at hfault
        cases hfault
    · exact .inr rfl
  have hother : ∀ e' : Error, (∀ path fault, e' ≠ .invalidPath path fault) → job.BlamesName e' :=
    fun _ hne path fault heq => absurd heq (hne path fault)
  have hfollows : Follows (job.Allows host) job.BlamesName (job.plan host)
      (∃ entry, job.Links host entry) (fun _ => True) (link host job) :=
    job.follows_link_of host (fun _ _ => hother _ (by simp)) (fun _ _ => hother _ (by simp))
      (fun _ => hother _ (by simp)) hpath fun _ _ _ => hother _ (by simp)
  by_cases hgood : ∃ entry, job.Links host entry
  · obtain ⟨_, runs, hyields, -⟩ := hfollows.succeeds hgood
    obtain ⟨printed, hperform⟩ := hyields.perform
    rw [hperform] at h
    cases h
  · obtain ⟨e', runs, hyields, hblames, -⟩ := hfollows.fails hgood
    obtain ⟨printed, hperform⟩ := hyields.perform
    rw [hperform] at h
    exact Except.error.inj h ▸ hblames

end AdaSupport.Link

namespace AdaSupport.Path

open Utf8

/-- **Default names that cannot be used**: a dash comes to the front when the directory is left out,
two dots are left of a name of three, and a file without an extension would be overwritten. -/
theorem defaultOutput_refused_or_input :
    (fault? (bytes "a/-x.ll") = none ∧ fault? (defaultOutput (bytes "a/-x.ll")) ≠ none) ∧
      (fault? (bytes "...ll") = none ∧ fault? (defaultOutput (bytes "...ll")) ≠ none) ∧
      fault? (bytes "prog") = none ∧ defaultOutput (bytes "prog") = bytes "prog" := by
  refine ⟨⟨?_, ?_⟩, ⟨?_, ?_⟩, ?_, ?_⟩ <;> decide +kernel

/-- **The default name of the output can be used and does no harm**, with two exceptions. It is
refused if the name of the file starts with a dash, behind its directory, or is cut to the two dots
that lead upward. It leads to the input itself if that is a file of the working directory without an
extension. Otherwise the link is refused for no path but a support library that was asked for. -/
theorem defaultOutput_of_accepted {p : Bytes} (hp : fault? p = none) :
    (fault? (defaultOutput p) = some .leadingDash ↔
        ∃ name, (components p).getLast? = some (.named name) ∧
          (decode? (withoutExtension name)).isSome ∧ name.head? = some dash) ∧
      (fault? (defaultOutput p) = some .parentSegment ↔
        ∃ ext, dot ∉ ext ∧ (components p).getLast? = some (.named (parent ++ dot :: ext))) ∧
      (components (defaultOutput p) = components p ↔
        ∃ name, components p = [.named name] ∧ dot ∉ name.tail ∧ (decode? name).isSome) ∧
      (∀ directory, fault? (defaultOutput p) = none → place directory p ≠ directory →
        (place directory (defaultOutput p) = place directory p ↔
          ∃ name, place directory p = directory ++ [name] ∧ dot ∉ name.tail ∧
            (decode? name).isSome)) ∧
      ∀ (host : Link.Host) (job : Link.Job) (path : Bytes) (fault : Fault),
        job.input = p → job.output = none →
        (Link.link host job).perform.1 = .error (.invalidPath path fault) →
        fault? path = some fault ∧ (job.runtime = some path ∨ path = defaultOutput p) := by
  refine ⟨?_, ?_, components_defaultOutput_eq_iff, fun directory hout hplace =>
    place_defaultOutput_eq_iff directory hp hout hplace, ?_⟩
  · simp only [fault?_defaultOutput_eq_leadingDash_iff, name?_eq_some_iff]
  · simp only [fault?_defaultOutput_eq_parentSegment_iff, name?_eq_some_iff]
  · rintro host job path fault rfl houtput herror
    exact Link.Job.blamesName_of_error hp houtput herror path fault rfl

/-- A path with a dot in front is not the path of its default name, and yet leads to the same
place. -/
theorem defaultOutput_of_accepted_in_place :
    fault? (bytes "./prog") = none ∧ fault? (defaultOutput (bytes "./prog")) = none ∧
      components (defaultOutput (bytes "./prog")) ≠ components (bytes "./prog") ∧
      place [bytes "src"] (defaultOutput (bytes "./prog")) =
        place [bytes "src"] (bytes "./prog") := by
  have hp : fault? (bytes "./prog") = none := by decide +kernel
  have hout : fault? (defaultOutput (bytes "./prog")) = none := by decide +kernel
  obtain ⟨-, -, hsame, hplace, -⟩ := defaultOutput_of_accepted hp
  refine ⟨hp, hout, fun h => ?_, (hplace _ hout (by decide +kernel)).mpr ?_⟩
  · obtain ⟨name, hname, -⟩ := hsame.mp h
    have hlength : (components (bytes "./prog")).length = 2 := by decide +kernel
    rw [hname] at hlength
    cases hlength
  · exact ⟨bytes "prog", by decide +kernel, by decide +kernel, by decide +kernel⟩

end AdaSupport.Path
