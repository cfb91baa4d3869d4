import AdaSupport.Proofs.LinkPlan
import AdaSupport.Proofs.RepairedText

/-!
# The arguments of the compiler driver

Accepted options reach the compiler driver as they are meant: a path cannot be taken for an option,
and the name of the entry procedure adds no part to the argument it stands in. The options can be
read back from the arguments.

* `Options.Accepted`: names that were checked, or found in a module.
* `splitOn_assignment`, `splitOn_rename`: the parts of an alias between its commas.
* `aliasedEntry`: the entry procedure that an alias is for.
* **`arguments_of_accepted`**: the arguments of accepted options.
-/

namespace AdaSupport.Link

/-- All names are accepted: the paths by the check, the entry procedure by the check or because it
was found in the text of a module. -/
structure Options.Accepted (o : Options) : Prop where
  input : Path.fault? o.input = none
  runtime : Path.fault? o.runtime = none
  output : Path.fault? o.output = none
  entry : Entry.isName o.entry = true ∨ ∃ text, Entry.find? text = some o.entry

theorem Options.Accepted.isName {o : Options} (h : o.Accepted) : Entry.isName o.entry = true :=
  h.entry.elim id fun ⟨_, hfind⟩ => Entry.isName_of_find? hfind

/-! ## Aliases -/

theorem comma_not_mem_of_isName {name : String} (h : Entry.isName name = true) :
    ',' ∉ name.toList := by
  unfold Entry.isName at h
  split at h
  · cases h
  · next c cs hname =>
    rw [hname]
    rw [Bool.and_eq_true, List.all_eq_true] at h
    intro hmem
    rcases List.mem_cons.mp hmem with rfl | hmem
    · exact absurd h.1 (by decide)
    · exact absurd (h.2 ',' hmem) (by decide)

section Alias

variable {entry : String} (h : Entry.isName entry = true)
include h

theorem splitOn_assignment : ("-Wl,--defsym=" ++ entrySymbol ++ "=" ++ entry).toList.splitOn ',' =
    ["-Wl".toList, "--defsym=Main=".toList ++ entry.toList] := by
  have hsplit : ("-Wl,--defsym=" ++ entrySymbol ++ "=" ++ entry).toList =
      "-Wl".toList ++ ',' :: ("--defsym=Main=".toList ++ entry.toList) := by
    simp [entrySymbol]
  have hlast : ',' ∉ "--defsym=Main=".toList ++ entry.toList := by
    simp [comma_not_mem_of_isName h]
  rw [hsplit, List.splitOn_append_cons_self_of_not_mem (by decide),
    List.splitOn_eq_singleton hlast]

theorem splitOn_rename : ("-Wl,-alias,_" ++ entry ++ ",_" ++ entrySymbol).toList.splitOn ',' =
    ["-Wl".toList, "-alias".toList, '_' :: entry.toList, "_Main".toList] := by
  have hsplit : ("-Wl,-alias,_" ++ entry ++ ",_" ++ entrySymbol).toList =
      "-Wl".toList ++ ',' :: ("-alias".toList ++ ',' :: ('_' :: entry.toList ++
        ',' :: "_Main".toList)) := by
    simp [entrySymbol]
  have hname : ',' ∉ '_' :: entry.toList := by
    simp [comma_not_mem_of_isName h]
  rw [hsplit, List.splitOn_append_cons_self_of_not_mem (by decide),
    List.splitOn_append_cons_self_of_not_mem (by decide),
    List.splitOn_append_cons_self_of_not_mem hname, List.splitOn_eq_singleton (by decide)]

end Alias

/-- The entry procedure that the alias arguments are for, read from the parts between commas. -/
def aliasedEntry (arguments : List String) : Option String :=
  match arguments with
  | [] => some entrySymbol
  | argument :: _ =>
    match argument.toList.splitOn ',' with
    | [_, assignment] => some (String.ofList (assignment.drop "--defsym=Main=".length))
    | [_, _, symbol, _] => some (String.ofList (symbol.drop 1))
    | _ => none

/-- The number of parts between the commas of an alias. -/
def aliasParts (target : String) : ℕ := if target = "macos" ∨ target = "ios" then 4 else 2

/-- **An alias is one argument with a fixed number of parts**, and says which procedure it is
for. -/
theorem aliasArguments_of_ne {entry : String} (h : Entry.isName entry = true)
    (hne : entry ≠ entrySymbol) (target : String) : ∃ argument,
      aliasArguments entry target = [argument] ∧
        (argument.toList.splitOn ',').length = aliasParts target ∧
        aliasedEntry [argument] = some entry := by
  unfold aliasArguments aliasParts aliasedEntry
  rw [if_neg hne]
  split_ifs
  · refine ⟨_, rfl, by rw [splitOn_rename h]; rfl, ?_⟩
    simp only [splitOn_rename h, List.drop_one, List.tail_cons, String.ofList_toList]
  · refine ⟨_, rfl, by rw [splitOn_assignment h]; rfl, ?_⟩
    have hdrop : ("--defsym=Main=".toList ++ entry.toList).drop "--defsym=Main=".length =
        entry.toList := List.drop_left' rfl
    simp only [splitOn_assignment h, hdrop, String.ofList_toList]

theorem aliasArguments_eq_nil_iff {entry : String} (h : Entry.isName entry = true)
    (target : String) : aliasArguments entry target = [] ↔ entry = entrySymbol := by
  constructor
  · intro hnil
    by_contra hne
    obtain ⟨argument, halias, -⟩ := aliasArguments_of_ne h hne target
    rw [hnil] at halias
    cases halias
  · exact fun heq => if_pos heq

theorem aliasedEntry_aliasArguments {entry : String} (h : Entry.isName entry = true)
    (target : String) : aliasedEntry (aliasArguments entry target) = some entry := by
  by_cases hne : entry = entrySymbol
  · rw [(aliasArguments_eq_nil_iff h target).mpr hne, hne]
    rfl
  · obtain ⟨argument, halias, -, hentry⟩ := aliasArguments_of_ne h hne target
    rw [halias, hentry]

/-! ## All arguments -/

/-- **Accepted options cannot pass for others.** The arguments are the three paths at their places
between fixed ones, the alias, and libraries that depend on the target only. No path starts like an
option or leads upward. The alias is one argument of fixed parts, or none for an entry procedure
that has the name already. Options with the same arguments have the same entry and show the same
paths. -/
theorem arguments_of_accepted {o : Options} (ho : o.Accepted) (target : String) :
    o.arguments target = [Utf8.display o.input, Utf8.display o.runtime, "-o",
        Utf8.display o.output, "-O2", "-Wno-override-module"] ++ aliasArguments o.entry target ++
        systemLibraries target ∧
      (∀ path ∈ [o.input, o.runtime, o.output],
        (Utf8.display path).toList.head? ≠ some '-' ∧
          ['.', '.'] ∉ (Utf8.display path).toList.splitOn '/') ∧
      (aliasArguments o.entry target = [] ↔ o.entry = "Main") ∧
      (o.entry ≠ "Main" → ∃ argument, aliasArguments o.entry target = [argument] ∧
        (argument.toList.splitOn ',').length = aliasParts target) ∧
      aliasedEntry (aliasArguments o.entry target) = some o.entry ∧
      ∀ o' : Options, o'.Accepted → o'.arguments target = o.arguments target →
        o'.entry = o.entry ∧ Utf8.display o'.input = Utf8.display o.input ∧
          Utf8.display o'.runtime = Utf8.display o.runtime ∧
          Utf8.display o'.output = Utf8.display o.output := by
  have hentry := aliasedEntry_aliasArguments ho.isName target
  refine ⟨rfl, fun path hpath => ?_, aliasArguments_eq_nil_iff ho.isName target, fun hne => ?_,
    hentry, fun o' ho' harguments => ?_⟩
  · have hfault : Path.fault? path = none := by
      simp only [List.mem_cons, List.not_mem_nil, or_false] at hpath
      rcases hpath with rfl | rfl | rfl
      · exact ho.input
      · exact ho.runtime
      · exact ho.output
    rw [Utf8.display, String.toList_ofList]
    exact Path.repaired_of_accepted hfault
  · obtain ⟨argument, halias, hparts, -⟩ := aliasArguments_of_ne ho.isName hne target
    exact ⟨argument, halias, hparts⟩
  · have hentry' := aliasedEntry_aliasArguments ho'.isName target
    simp only [Options.arguments, List.cons_append, List.nil_append, List.cons.injEq, true_and]
      at harguments
    obtain ⟨hinput, hruntime, houtput, htail⟩ := harguments
    rw [List.append_cancel_right htail, hentry] at hentry'
    exact ⟨(Option.some.inj hentry').symm, hinput, hruntime, houtput⟩

/-- A path with an ill-formed byte, and a procedure that has to be renamed. -/
def renamedOptions : Options where
  input := [0x61, 0xFF]
  runtime := "lib/rt.a".toUTF8.toList
  output := "out".toUTF8.toList
  entry := "Hello"
  compiler := "clang"

theorem renamedOptions_accepted : renamedOptions.Accepted :=
  ⟨by decide +kernel, by decide +kernel, by decide +kernel, .inl (by decide +kernel)⟩

/-- Renamed on a target whose linker takes the alias in parts. -/
theorem arguments_of_accepted_renamed : renamedOptions.Accepted ∧
    renamedOptions.arguments "macos" = ["a\uFFFD", "lib/rt.a", "-o", "out", "-O2",
        "-Wno-override-module", "-Wl,-alias,_Hello,_Main"] ∧
      aliasedEntry ["-Wl,-alias,_Hello,_Main"] = some "Hello" ∧
      ∀ o' : Options, o'.Accepted → o'.arguments "macos" = renamedOptions.arguments "macos" →
        o'.entry = "Hello" ∧ Utf8.display o'.input = "a\uFFFD" := by
  obtain ⟨harguments, -, -, -, hentry, hsame⟩ :=
    arguments_of_accepted renamedOptions_accepted "macos"
  refine ⟨renamedOptions_accepted, harguments.trans (by decide +kernel), hentry, fun o' ho' h => ?_⟩
  obtain ⟨he, hi, -⟩ := hsame o' ho' h
  exact ⟨he, hi.trans (by decide +kernel)⟩

end AdaSupport.Link
