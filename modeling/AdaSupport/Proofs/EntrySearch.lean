import AdaSupport.Entry
import Mathlib.Data.List.TakeWhile

/-!
# The search for the entry procedure

A definition may span many lines, its attribute words may be `define` and `void` again, and the
search goes on behind the definition found last. Still no definition is missed: between the `@` of
one and its end no other one starts, and all that share an `@` have the same name.

* `Defines`, `DefinedAt`: the form of a definition, and its place in a text.
* `definition?_eq_some_iff`: exactly the definitions are read as such.
* `definedAt_of_defines`, `definedAt_cons`: the definitions that are left after each step of the
  search.
* `exists_places`: the search finds every definition, from left to right.
* **`find?_eq_first_definition`**: the entry procedure is the first one that is not a builtin.
-/

namespace AdaSupport.Entry

/-! ## The form of a definition -/

/-- Blanks and line breaks only. -/
def Blank (cs : List Char) : Prop := ∀ c ∈ cs, isBlank c = true

/-- Attribute words, each with blanks behind it. -/
inductive Words : List Char → Prop where
  | nil : Words []
  | cons {word blanks more : List Char} (hw : word ≠ []) (hword : ∀ c ∈ word, isWordChar c = true)
    (hb : blanks ≠ []) (hblanks : Blank blanks) (h : Words more) : Words (word ++ (blanks ++ more))

/-- What stands between the start of a line and the `@` of a definition. -/
inductive Header : List Char → Prop where
  | intro {front blanks words back : List Char} (hfront : Blank front) (hb : blanks ≠ [])
    (hblanks : Blank blanks) (hwords : Words words) (hb' : back ≠ []) (hback : Blank back) :
    Header (front ++ (['d', 'e', 'f', 'i', 'n', 'e'] ++
      (blanks ++ (words ++ (['v', 'o', 'i', 'd'] ++ back)))))

/-- A capital, then letters, digits and underscores. -/
def IsProcedureName (name : List Char) : Prop :=
  ∃ c cs, name = c :: cs ∧ isCapital c = true ∧ ∀ d ∈ cs, isNameChar d = true

/-- The text is a definition of `name` with `header` before its `@` and `rest` behind it. -/
inductive Defines : List Char → List Char → List Char → List Char → Prop where
  | intro {header name blanks : List Char} (hheader : Header header) (hname : IsProcedureName name)
    (hblanks : Blank blanks) (rest : List Char) :
    Defines (header ++ '@' :: (name ++ '(' :: (blanks ++ ')' :: rest))) header name rest

/-! ## Classes of characters -/

theorem not_isBlank_of_isWordChar {c : Char} (h : isWordChar c = true) : isBlank c = false := by
  simp only [isWordChar, Bool.or_eq_true, Bool.and_eq_true, decide_eq_true_eq, beq_iff_eq,
    Char.le_def, UInt32.le_iff_toNat_le] at h
  have hc : (97 ≤ c.toNat ∧ c.toNat ≤ 122) ∨ c.toNat = 95 := by
    rcases h with h | rfl
    · exact .inl h
    · exact .inr rfl
  simp only [isBlank, Bool.or_eq_false_iff, Bool.and_eq_false_iff, decide_eq_false_iff_not,
    beq_eq_false_iff_ne]
  omega

section Splitting

variable {P : Char → Bool} {xs ys : List Char}

theorem takeWhile_append_of_head? (hx : ∀ c ∈ xs, P c = true) (hy : ∀ c ∈ ys.head?, P c = false) :
    (xs ++ ys).takeWhile P = xs := by
  rw [List.takeWhile_append_of_pos hx]
  cases ys with
  | nil => exact List.append_nil _
  | cons y ys => rw [List.takeWhile_cons_of_neg (by simp [hy y rfl]), List.append_nil]

theorem dropWhile_append_of_head? (hx : ∀ c ∈ xs, P c = true) (hy : ∀ c ∈ ys.head?, P c = false) :
    (xs ++ ys).dropWhile P = ys := by
  rw [List.dropWhile_append_of_pos hx]
  cases ys with
  | nil => rfl
  | cons y ys => exact List.dropWhile_cons_of_neg (by simp [hy y rfl])

/-- A list is cut in one way only into elements with a property and a rest that starts without. -/
theorem append_inj_of_head? {xs' ys' : List Char} (hx : ∀ c ∈ xs, P c = true)
    (hy : ∀ c ∈ ys.head?, P c = false) (hx' : ∀ c ∈ xs', P c = true)
    (hy' : ∀ c ∈ ys'.head?, P c = false) (h : xs ++ ys = xs' ++ ys') : xs = xs' ∧ ys = ys' := by
  constructor
  · rw [← takeWhile_append_of_head? hx hy, h, takeWhile_append_of_head? hx' hy']
  · rw [← dropWhile_append_of_head? hx hy, h, dropWhile_append_of_head? hx' hy']

theorem head?_dropWhile (P : Char → Bool) (cs : List Char) :
    ∀ c ∈ (cs.dropWhile P).head?, P c = false := by
  intro c hc
  have := List.head?_dropWhile_not P cs
  rw [Option.mem_def.mp hc] at this
  exact this

end Splitting

/-! ## Reading a definition -/

theorem after?_append (word rest : List Char) : after? word (word ++ rest) = some rest := by
  rw [after?, if_pos (List.isPrefixOf_iff_prefix.mpr (List.prefix_append word rest)),
    List.drop_left]

theorem after?_eq_some_iff {word cs rest : List Char} :
    after? word cs = some rest ↔ cs = word ++ rest := by
  constructor
  · intro h
    have hp : word <+: cs := by
      by_contra hp
      rw [after?, if_neg (by rwa [List.isPrefixOf_iff_prefix])] at h
      cases h
    obtain ⟨tail, rfl⟩ := hp
    rw [after?_append] at h
    rw [Option.some.inj h]
  · rintro rfl
    exact after?_append word rest

theorem afterBlanks?_eq_some_iff {cs rest : List Char} : afterBlanks? cs = some rest ↔
    (∀ c ∈ rest.head?, isBlank c = false) ∧
      ∃ blanks, blanks ≠ [] ∧ Blank blanks ∧ cs = blanks ++ rest := by
  unfold afterBlanks?
  constructor
  · intro h
    split at h
    · cases h
    · next hne =>
      cases h
      refine ⟨head?_dropWhile _ _, cs.takeWhile isBlank, by simpa using hne, ?_, ?_⟩
      · exact fun c hc => List.mem_takeWhile_imp hc
      · exact List.takeWhile_append_dropWhile.symm
  · rintro ⟨hr, blanks, hne, hb, rfl⟩
    rw [takeWhile_append_of_head? hb hr, dropWhile_append_of_head? hb hr,
      if_neg (by simpa using hne)]

theorem afterWords?_word {word blanks next : List Char} (hw : word ≠ [])
    (hword : ∀ c ∈ word, isWordChar c = true) (hb : blanks ≠ []) (hblanks : Blank blanks)
    (hnext : ∀ c ∈ next.head?, isBlank c = false) (isVoid : Bool) :
    afterWords? isVoid (word ++ (blanks ++ next)) =
      afterWords? (word == ['v', 'o', 'i', 'd']) next := by
  obtain ⟨c, cs, rfl⟩ := List.exists_cons_of_ne_nil hw
  have hc : c ≠ '@' := by
    rintro rfl
    exact absurd (hword '@' List.mem_cons_self) (by decide)
  have hhead : ∀ d ∈ (blanks ++ next).head?, isWordChar d = false := by
    obtain ⟨b, bs, rfl⟩ := List.exists_cons_of_ne_nil hb
    rintro d ⟨⟩
    rw [Bool.eq_false_iff]
    intro hd
    have hblank := hblanks b List.mem_cons_self
    rw [not_isBlank_of_isWordChar hd] at hblank
    cases hblank
  have htake : (c :: (cs ++ (blanks ++ next))).takeWhile isWordChar = c :: cs :=
    takeWhile_append_of_head? hword hhead
  have hdrop : (c :: (cs ++ (blanks ++ next))).dropWhile isWordChar = blanks ++ next :=
    dropWhile_append_of_head? hword hhead
  have hafter :
      afterBlanks? ((c :: (cs ++ (blanks ++ next))).dropWhile isWordChar) = some next := by
    rw [hdrop]
    exact afterBlanks?_eq_some_iff.mpr ⟨hnext, blanks, hb, hblanks, rfl⟩
  rw [List.cons_append, afterWords?, if_neg hc]
  simp only [htake, reduceCtorEq, dif_neg, not_false_eq_true]
  split
  · next h => rw [hafter] at h; cases h
  · next h => rw [hafter] at h; cases h; rfl

theorem isBlank_head?_words {words rest : List Char} (h : Words words) :
    ∀ c ∈ (words ++ (['v', 'o', 'i', 'd'] ++ rest)).head?, isBlank c = false := by
  cases h with
  | nil => rintro c ⟨⟩; decide
  | cons hw hword =>
    obtain ⟨d, ds, rfl⟩ := List.exists_cons_of_ne_nil hw
    rintro c ⟨⟩
    exact not_isBlank_of_isWordChar (hword d List.mem_cons_self)

theorem afterWords?_at (rest : List Char) : afterWords? true ('@' :: rest) = some rest := by
  rw [afterWords?, if_pos rfl, if_pos rfl]

theorem afterWords?_eq_some_iff {isVoid : Bool} {cs rest : List Char} :
    afterWords? isVoid cs = some rest ↔ (isVoid = true ∧ cs = '@' :: rest) ∨
      ∃ words blanks, Words words ∧ blanks ≠ [] ∧ Blank blanks ∧
        cs = words ++ (['v', 'o', 'i', 'd'] ++ (blanks ++ '@' :: rest)) := by
  constructor
  · intro h
    fun_induction afterWords? isVoid cs with
    | case1 | case3 | case4 | case5 => cases h
    | case2 cs => cases h; exact .inl ⟨rfl, rfl⟩
    | case6 isVoid c cs hc word hw next hnext ih =>
      obtain ⟨-, blanks, hb, hblanks, hdrop⟩ := afterBlanks?_eq_some_iff.mp hnext
      have hword : ∀ d ∈ word, isWordChar d = true := fun d hd => List.mem_takeWhile_imp hd
      have htext : c :: cs = word ++ (blanks ++ next) := by
        rw [← hdrop]
        exact List.takeWhile_append_dropWhile.symm
      right
      rw [htext]
      rcases ih h with ⟨hvoid, rfl⟩ | ⟨words, back, hwords, hb', hback, rfl⟩
      · rw [beq_iff_eq.mp hvoid]
        exact ⟨[], blanks, .nil, hb, hblanks, rfl⟩
      · refine ⟨word ++ (blanks ++ words), back, .cons hw hword hb hblanks hwords, hb', hback, ?_⟩
        simp only [List.append_assoc]
  · rintro (⟨rfl, rfl⟩ | ⟨words, blanks, hwords, hb, hblanks, rfl⟩)
    · exact afterWords?_at rest
    · induction hwords generalizing isVoid with
      | nil =>
        rw [List.nil_append, afterWords?_word (by simp) (List.all_eq_true.mp rfl) hb hblanks
          (by rintro c ⟨⟩; decide)]
        exact afterWords?_at rest
      | cons hw hword hb' hblanks' hmore ih =>
        rw [List.append_assoc, List.append_assoc,
          afterWords?_word hw hword hb' hblanks' (isBlank_head?_words hmore)]
        exact ih

theorem nameBeforeParameters?_eq_some_iff {cs name rest : List Char} :
    nameBeforeParameters? cs = some (name, rest) ↔ IsProcedureName name ∧
      ∃ blanks, Blank blanks ∧ cs = name ++ '(' :: (blanks ++ ')' :: rest) := by
  constructor
  · intro h
    cases cs with
    | nil => cases h
    | cons c cs =>
      simp only [nameBeforeParameters?] at h
      split at h
      · next hc =>
        simp only [Option.bind_eq_bind, Option.bind_eq_some_iff] at h
        obtain ⟨r₁, h₁, r₂, h₂, h⟩ := h
        cases h
        refine ⟨⟨c, _, rfl, hc, fun d hd => List.mem_takeWhile_imp hd⟩, r₁.takeWhile isBlank,
          fun d hd => List.mem_takeWhile_imp hd, ?_⟩
        have h₁ := after?_eq_some_iff.mp h₁
        have h₂ := after?_eq_some_iff.mp h₂
        calc c :: cs = c :: (cs.takeWhile isNameChar ++ cs.dropWhile isNameChar) := by
              rw [List.takeWhile_append_dropWhile]
          _ = c :: (cs.takeWhile isNameChar ++ '(' :: r₁) := by rw [h₁]; rfl
          _ = c :: (cs.takeWhile isNameChar ++
                '(' :: (r₁.takeWhile isBlank ++ r₁.dropWhile isBlank)) := by
              rw [List.takeWhile_append_dropWhile]
          _ = _ := by rw [h₂]; rfl
      · cases h
  · rintro ⟨⟨c, cs, rfl, hc, hcs⟩, blanks, hblanks, rfl⟩
    have hparen : ∀ d ∈ ('(' :: (blanks ++ ')' :: rest)).head?, isNameChar d = false := by
      rintro d ⟨⟩; decide
    have hclose : ∀ d ∈ (')' :: rest).head?, isBlank d = false := by rintro d ⟨⟩; decide
    simp only [List.cons_append, nameBeforeParameters?, hc, if_true,
      takeWhile_append_of_head? hcs hparen, dropWhile_append_of_head? hcs hparen,
      Option.bind_eq_bind, Option.bind_eq_some_iff]
    refine ⟨blanks ++ ')' :: rest, after?_append ['('] _, rest, ?_, rfl⟩
    rw [dropWhile_append_of_head? hblanks hclose]
    exact after?_append [')'] rest

theorem afterHeader?_eq_some_iff {cs rest : List Char} :
    afterHeader? cs = some rest ↔ ∃ header, Header header ∧ cs = header ++ '@' :: rest := by
  simp only [afterHeader?, Option.bind_eq_bind, Option.bind_eq_some_iff]
  constructor
  · rintro ⟨r₁, h₁, r₂, h₂, h₃⟩
    obtain ⟨-, gap, hg, hgap, rfl⟩ := afterBlanks?_eq_some_iff.mp h₂
    rcases afterWords?_eq_some_iff.mp h₃ with ⟨hfalse, -⟩ | ⟨words, back, hwords, hb, hback, rfl⟩
    · cases hfalse
    · have hfront : Blank (cs.takeWhile isBlank) := fun c hc => List.mem_takeWhile_imp hc
      refine ⟨_, .intro hfront hg hgap hwords hb hback, ?_⟩
      simp only [List.append_assoc]
      rw [← after?_eq_some_iff.mp h₁, List.takeWhile_append_dropWhile]
  · rintro ⟨header, ⟨hfront, hg, hgap, hwords, hb, hback⟩, rfl⟩
    simp only [List.append_assoc]
    rw [dropWhile_append_of_head? hfront (by rintro c ⟨⟩; decide)]
    refine ⟨_, after?_append _ _, _, afterBlanks?_eq_some_iff.mpr ⟨?_, _, hg, hgap, rfl⟩,
      afterWords?_eq_some_iff.mpr (.inr ⟨_, _, hwords, hb, hback, rfl⟩)⟩
    exact isBlank_head?_words hwords

/-- **Reading a definition** succeeds on definitions only, and on all of them. -/
theorem definition?_eq_some_iff {cs name rest : List Char} :
    definition? cs = some (name, rest) ↔ ∃ header, Defines cs header name rest := by
  simp only [definition?, Option.bind_eq_some_iff]
  constructor
  · rintro ⟨r, h, hr⟩
    obtain ⟨hname, blanks, hblanks, rfl⟩ := nameBeforeParameters?_eq_some_iff.mp hr
    obtain ⟨header, hheader, rfl⟩ := afterHeader?_eq_some_iff.mp h
    exact ⟨header, .intro hheader hname hblanks rest⟩
  · rintro ⟨header, hheader, hname, hblanks, _⟩
    exact ⟨_, afterHeader?_eq_some_iff.mpr ⟨header, hheader, rfl⟩,
      nameBeforeParameters?_eq_some_iff.mpr ⟨hname, _, hblanks, rfl⟩⟩

/-! ## Places of definitions -/

/-- A line starts behind `front`; `lineStart` says whether one starts in front of it. -/
def StartsLine (lineStart : Bool) (front : List Char) : Prop :=
  (front = [] ∧ lineStart = true) ∨ front.getLast? = some '\n'

/-- **A definition of `name`** starts a line of the text and has its `@` at position `p`. -/
inductive DefinedAt (lineStart : Bool) : List Char → ℕ → List Char → Prop where
  | intro {front cs header name rest : List Char} (hfront : StartsLine lineStart front)
    (h : Defines cs header name rest) :
    DefinedAt lineStart (front ++ cs) (front.length + header.length) name

theorem startsLine_cons {lineStart : Bool} {c : Char} {front : List Char} :
    StartsLine lineStart (c :: front) ↔ StartsLine (c == '\n') front := by
  unfold StartsLine
  cases front with
  | nil => simp
  | cons d front => simp [List.getLast?_cons]

theorem startsLine_append_cons {lineStart : Bool} {xs front : List Char} {c : Char}
    (hc : c ≠ '\n') : StartsLine lineStart (xs ++ c :: front) ↔ StartsLine false front := by
  induction xs generalizing lineStart with
  | nil => rw [List.nil_append, startsLine_cons, beq_false_of_ne hc]
  | cons x xs ih => rw [List.cons_append, startsLine_cons, ih]

theorem Header.mem {header : List Char} (h : Header header) :
    ∀ c ∈ header, isBlank c = true ∨ isWordChar c = true := by
  have hwords : ∀ {words : List Char}, Words words →
      ∀ c ∈ words, isBlank c = true ∨ isWordChar c = true := by
    intro words h
    induction h with
    | nil => exact fun c hc => nomatch hc
    | cons _ hword _ hblanks _ ih =>
      intro c hc
      simp only [List.mem_append] at hc
      rcases hc with hc | hc | hc
      · exact .inr (hword c hc)
      · exact .inl (hblanks c hc)
      · exact ih c hc
  obtain ⟨hfront, -, hblanks, h, -, hback⟩ := h
  have hdefine : ∀ c ∈ ['d', 'e', 'f', 'i', 'n', 'e'], isWordChar c = true :=
    List.all_eq_true.mp rfl
  have hvoid : ∀ c ∈ ['v', 'o', 'i', 'd'], isWordChar c = true := List.all_eq_true.mp rfl
  intro c hc
  rw [List.mem_append, List.mem_append, List.mem_append, List.mem_append, List.mem_append] at hc
  rcases hc with hc | hc | hc | hc | hc | hc
  · exact .inl (hfront c hc)
  · exact .inr (hdefine c hc)
  · exact .inl (hblanks c hc)
  · exact hwords h c hc
  · exact .inr (hvoid c hc)
  · exact .inl (hback c hc)

theorem Header.ne_at {header : List Char} (h : Header header) :
    ∀ c ∈ header, (c != '@') = true := by
  intro c hc
  rw [bne_iff_ne]
  rintro rfl
  rcases h.mem '@' hc with h | h
  · exact absurd h (by decide)
  · exact absurd h (by decide)

/-- The first character of a header that is not blank is a `d`. -/
theorem Header.dropWhile_append {header : List Char} (h : Header header) (rest : List Char) :
    ∃ tail, (header ++ rest).dropWhile isBlank = 'd' :: tail := by
  obtain ⟨hfront, -, -, -, -, -⟩ := h
  rw [List.append_assoc, dropWhile_append_of_head? hfront (by rintro c ⟨⟩; decide)]
  exact ⟨_, rfl⟩

/-- No header starts with blanks and then another character than a `d`. -/
theorem Header.append_ne {header : List Char} (h : Header header) {blanks : List Char}
    (hb : Blank blanks) {c : Char} (hc : isBlank c = false) (hd : c ≠ 'd')
    (rest rest' : List Char) : header ++ rest ≠ blanks ++ c :: rest' := by
  intro heq
  obtain ⟨tail, htail⟩ := h.dropWhile_append rest
  rw [heq, dropWhile_append_of_head? hb (by rintro d ⟨⟩; exact hc)] at htail
  exact hd (List.cons.inj htail).1

theorem Header.append_ne_cons {header : List Char} (h : Header header) {c : Char}
    (hc : isBlank c = false) (hd : c ≠ 'd') (rest rest' : List Char) :
    header ++ rest ≠ c :: rest' :=
  h.append_ne (fun _ hc => nomatch hc : Blank []) hc hd rest rest'

/-! ## Definitions do not overlap -/

theorem IsProcedureName.mem {name : List Char} (h : IsProcedureName name) :
    ∀ c ∈ name, isNameChar c = true := by
  obtain ⟨c, cs, rfl, hc, hcs⟩ := h
  intro d hd
  rcases List.mem_cons.mp hd with rfl | hd
  · simp [isNameChar, isLetter, hc]
  · exact hcs d hd

theorem IsProcedureName.eq_of_append_eq {name name' rest rest' : List Char}
    (h : IsProcedureName name) (h' : IsProcedureName name')
    (heq : name ++ '(' :: rest = name' ++ '(' :: rest') : name = name' := by
  have hparen : ∀ {cs : List Char}, ∀ c ∈ ('(' :: cs).head?, isNameChar c = false := by
    rintro cs c ⟨⟩; decide
  exact (append_inj_of_head? h.mem hparen h'.mem hparen heq).1

/-- A line that starts behind characters without a newline starts in what follows them. -/
theorem StartsLine.exists_of_append {xs ys front cs : List Char} (hx : '\n' ∉ xs)
    (hfront : StartsLine false front) (h : xs ++ ys = front ++ cs) :
    ∃ front', StartsLine false front' ∧ front = xs ++ front' ∧ ys = front' ++ cs := by
  induction xs generalizing front with
  | nil => exact ⟨front, hfront, rfl, h⟩
  | cons x xs ih =>
    rw [List.mem_cons, not_or] at hx
    cases front with
    | nil => rcases hfront with ⟨-, h⟩ | h <;> cases h
    | cons y front =>
      obtain ⟨rfl, htail⟩ := List.cons.inj h
      rw [startsLine_cons, beq_false_of_ne (Ne.symm hx.1)] at hfront
      obtain ⟨front', hfront', rfl, hys⟩ := ih hx.2 hfront htail
      exact ⟨front', hfront', rfl, hys⟩

/-- **Between the `@` of a definition and its end no other definition starts.** -/
theorem exists_front_of_body {name blanks rest front header tail : List Char}
    (hname : IsProcedureName name) (hblanks : Blank blanks) (hheader : Header header)
    (hfront : StartsLine false front)
    (h : name ++ '(' :: (blanks ++ ')' :: rest) = front ++ (header ++ tail)) :
    ∃ front', StartsLine false front' ∧ front = name ++ '(' :: (blanks ++ ')' :: front') ∧
      rest = front' ++ (header ++ tail) := by
  have hopen : '\n' ∉ name ++ ['('] := by
    rw [List.mem_append, not_or]
    exact ⟨fun hn => absurd (hname.mem _ hn) (by decide), by decide⟩
  rw [List.append_cons] at h
  obtain ⟨inner, hinner, rfl, hrest⟩ := hfront.exists_of_append hopen h
  rcases List.append_eq_append_iff.mp hrest with ⟨back, rfl, hback⟩ | ⟨back, rfl, hback⟩
  · cases back with
    | nil => exact absurd hback.symm (hheader.append_ne_cons (by decide) (by decide) _ _)
    | cons c back =>
      obtain ⟨rfl, htail⟩ := List.cons.inj hback
      exact ⟨back, (startsLine_append_cons (by decide)).mp hinner, by simp, htail⟩
  · have hb : Blank back := fun c hc => hblanks c (List.mem_append_right _ hc)
    exact absurd hback (hheader.append_ne hb (by decide) (by decide) _ _)

/-- **The definitions of a text that starts with one** are this one and those behind its end. -/
theorem definedAt_of_defines {cs header name rest : List Char} (h : Defines cs header name rest)
    {p : ℕ} {other : List Char} : DefinedAt true cs p other ↔ (p = header.length ∧ other = name) ∨
      ∃ p', p + rest.length = cs.length + p' ∧ DefinedAt false rest p' other := by
  obtain @⟨header, name, blanks, hheader, hname, hblanks, rest⟩ := h
  constructor
  · intro h
    generalize htext : header ++ '@' :: (name ++ '(' :: (blanks ++ ')' :: rest)) = text at h
    obtain @⟨front, _, _, _, _, hfront, ⟨hheader', hname', hblanks', _⟩⟩ := h
    rcases List.append_eq_append_iff.mp htext with ⟨back, rfl, hback⟩ | ⟨back, rfl, hback⟩
    · -- the other definition starts behind the header
      right
      cases back with
      | nil => exact absurd hback.symm (hheader'.append_ne_cons (by decide) (by decide) _ _)
      | cons c back =>
        obtain ⟨rfl, hbody⟩ := List.cons.inj hback
        rw [startsLine_append_cons (by decide)] at hfront
        obtain ⟨inner, hinner, rfl, rfl⟩ := exists_front_of_body hname hblanks hheader' hfront hbody
        refine ⟨_, ?_, .intro hinner (.intro hheader' hname' hblanks' _)⟩
        simp only [List.length_append, List.length_cons]
        omega
    · -- it starts inside the header, and has the same `@`
      left
      obtain ⟨rfl, hbody⟩ := append_inj_of_head? hheader'.ne_at (by rintro c ⟨⟩; rfl)
        (fun c hc => hheader.ne_at c (List.mem_append_right _ hc)) (by rintro c ⟨⟩; rfl) hback
      exact ⟨List.length_append.symm, hname'.eq_of_append_eq hname (List.cons.inj hbody).2⟩
  · rintro (⟨rfl, rfl⟩ | ⟨p', hp, hrest⟩)
    · have hself := DefinedAt.intro (.inl ⟨rfl, rfl⟩) (Defines.intro hheader hname hblanks rest)
      rwa [List.length_nil, Nat.zero_add] at hself
    · obtain @⟨front, cs, header', _, _, hfront, h⟩ := hrest
      have hstart : StartsLine true
          ((header ++ '@' :: (name ++ '(' :: blanks)) ++ ')' :: front) :=
        (startsLine_append_cons (by decide)).mpr hfront
      have hall := DefinedAt.intro hstart h
      simp only [List.length_append, List.length_cons] at hp hall
      convert hall using 1
      · simp
      · omega

theorem Defines.length_lt {cs header name rest : List Char} (h : Defines cs header name rest) :
    header.length + rest.length < cs.length := by
  obtain ⟨_, _, _, _⟩ := h
  simp only [List.length_append, List.length_cons]
  omega

theorem definedAt_nil {lineStart : Bool} {p : ℕ} {name : List Char} :
    ¬ DefinedAt lineStart [] p name := by
  intro h
  generalize htext : [] = text at h
  obtain ⟨_, ⟨_, _, _, _⟩⟩ := h
  simp at htext

/-- The definitions of a text that does not start with one are those behind its first character. -/
theorem definedAt_cons {lineStart : Bool} {c : Char} {cs : List Char}
    (h : (if lineStart then definition? (c :: cs) else none) = none) {p : ℕ} {name : List Char} :
    DefinedAt lineStart (c :: cs) p name ↔ ∃ p', p = p' + 1 ∧ DefinedAt (c == '\n') cs p' name := by
  constructor
  · intro hdef
    generalize htext : c :: cs = text at hdef
    obtain @⟨front, cs', header, _, rest, hfront, hdefines⟩ := hdef
    cases front with
    | nil =>
      obtain rfl : c :: cs = cs' := htext
      have hstart : lineStart = true := by
        rcases hfront with ⟨-, h⟩ | h
        · exact h
        · cases h
      rw [if_pos hstart, definition?_eq_some_iff.mpr ⟨header, hdefines⟩] at h
      cases h
    | cons d front =>
      obtain ⟨rfl, rfl⟩ := List.cons.inj htext
      refine ⟨front.length + header.length, ?_, .intro (startsLine_cons.mp hfront) hdefines⟩
      rw [List.length_cons]
      omega
  · rintro ⟨p', rfl, @⟨front, cs', header, _, rest, hfront, hdefines⟩⟩
    have hstart : StartsLine lineStart (c :: front) := startsLine_cons.mpr hfront
    have hall := DefinedAt.intro hstart hdefines
    rwa [List.length_cons, Nat.add_right_comm] at hall

/-! ## The search -/

/-- A list of places, each with the name found there, from left to right. -/
structure Places (lineStart : Bool) (cs : List Char) (ds : List (ℕ × String)) : Prop where
  sorted : ds.Pairwise fun d d' => d.1 < d'.1
  mem_iff : ∀ p name, (p, name) ∈ ds ↔ DefinedAt lineStart cs p name.toList

/-- The places `n` characters further on. -/
def shift (n : ℕ) (ds : List (ℕ × String)) : List (ℕ × String) := ds.map fun d => (d.1 + n, d.2)

theorem mem_shift {n p : ℕ} {name : String} {ds : List (ℕ × String)} :
    (p, name) ∈ shift n ds ↔ ∃ p', p = p' + n ∧ (p', name) ∈ ds := by
  simp only [shift, List.mem_map, Prod.mk.injEq, Prod.exists]
  constructor
  · rintro ⟨p', name, h, rfl, rfl⟩
    exact ⟨p', rfl, h⟩
  · rintro ⟨p', rfl, h⟩
    exact ⟨p', name, h, rfl, rfl⟩

theorem pairwise_shift {n : ℕ} {ds : List (ℕ × String)} (h : ds.Pairwise fun d d' => d.1 < d'.1) :
    (shift n ds).Pairwise fun d d' => d.1 < d'.1 := by
  rw [shift, List.pairwise_map]
  exact h.imp fun hlt => Nat.add_lt_add_right hlt n

/-- **The search finds every definition**, each one once and from left to right. -/
theorem exists_places (lineStart : Bool) (cs : List Char) :
    ∃ ds, names lineStart cs = ds.map Prod.snd ∧ Places lineStart cs ds := by
  fun_induction names lineStart cs with
  | case1 lineStart =>
    refine ⟨[], rfl, .nil, fun p name => ?_⟩
    exact iff_of_false List.not_mem_nil definedAt_nil
  | case2 lineStart c cs name rest h ih =>
    obtain ⟨ds, hnames, hsorted, hmem⟩ := ih
    cases lineStart with
    | false => cases h
    | true =>
      obtain ⟨header, hdefines⟩ := definition?_eq_some_iff.mp h
      have hlen := hdefines.length_lt
      set n := (c :: cs).length - rest.length with hn
      refine ⟨(header.length, String.ofList name) :: shift n ds, ?_, ?_, fun p other => ?_⟩
      · rw [hnames, shift, List.map_cons, List.map_map]
        rfl
      · refine List.pairwise_cons.mpr ⟨fun d hd => ?_, pairwise_shift hsorted⟩
        obtain ⟨p', hp, -⟩ := mem_shift.mp hd
        omega
      · rw [List.mem_cons, Prod.mk.injEq, mem_shift, definedAt_of_defines hdefines]
        refine or_congr (and_congr_right fun _ => ?_) (exists_congr fun p' => ?_)
        · rw [← String.toList_inj, String.toList_ofList]
        · rw [hmem]
          refine and_congr_left fun _ => ?_
          omega
  | case3 lineStart c cs h ih =>
    obtain ⟨ds, hnames, hsorted, hmem⟩ := ih
    refine ⟨shift 1 ds, ?_, pairwise_shift hsorted, fun p name => ?_⟩
    · rw [hnames, shift, List.map_map]
      rfl
    · rw [mem_shift, definedAt_cons h]
      simp only [hmem]

/-- The names found are those of the definitions. -/
theorem mem_names_iff {text : List Char} {name : String} :
    name ∈ names true text ↔ ∃ p, DefinedAt true text p name.toList := by
  obtain ⟨ds, hnames, -, hmem⟩ := exists_places true text
  rw [hnames]
  simp only [List.mem_map, Prod.exists, hmem, exists_eq_right]

/-- The entry procedure that is found has a name that may be asked for. -/
theorem isName_of_find? {text : List Char} {name : String} (h : find? text = some name) :
    isName name = true := by
  obtain ⟨p, hp⟩ := mem_names_iff.mp (List.mem_of_find?_eq_some h)
  obtain ⟨-, -, hname, -, -⟩ := hp
  obtain ⟨c, cs, hcs, hc, hrest⟩ := hname
  rw [isName, hcs]
  simp only [isLetter, hc, Bool.true_or, Bool.true_and, List.all_eq_true]
  exact hrest

theorem find?_map_eq_some_iff {ds : List (ℕ × String)} (h : ds.Pairwise fun d d' => d.1 < d'.1)
    (ok : String → Bool) (name : String) : (ds.map Prod.snd).find? ok = some name ↔
      ∃ p, (p, name) ∈ ds ∧ ok name = true ∧ ∀ d ∈ ds, ok d.2 = true → p ≤ d.1 := by
  induction ds with
  | nil => simp
  | cons d ds ih =>
    obtain ⟨hd, hds⟩ := List.pairwise_cons.mp h
    by_cases hok : ok d.2 = true
    · rw [List.map_cons, List.find?_cons_of_pos hok]
      constructor
      · intro heq
        obtain rfl := Option.some.inj heq
        refine ⟨d.1, List.mem_cons_self, hok, fun d' hd' _ => ?_⟩
        rcases List.mem_cons.mp hd' with rfl | hd'
        · exact Nat.le_refl _
        · exact Nat.le_of_lt (hd d' hd')
      · rintro ⟨p, hp, -, hmin⟩
        rcases List.mem_cons.mp hp with rfl | hp
        · rfl
        · have hlt := hd _ hp
          have hle := hmin d List.mem_cons_self hok
          omega
    · rw [List.map_cons, List.find?_cons_of_neg hok, ih hds]
      constructor
      · rintro ⟨p, hp, hname, hmin⟩
        refine ⟨p, List.mem_cons_of_mem _ hp, hname, fun d' hd' hok' => ?_⟩
        rcases List.mem_cons.mp hd' with rfl | hd'
        · exact absurd hok' hok
        · exact hmin d' hd' hok'
      · rintro ⟨p, hp, hname, hmin⟩
        rcases List.mem_cons.mp hp with rfl | hp
        · exact absurd hname hok
        · exact ⟨p, hp, hname, fun d' hd' => hmin d' (List.mem_cons_of_mem _ hd')⟩

/-- **The entry procedure is the first definition that is not a builtin**, and none is found only
when there is none. Every definition is found, whatever stands before it. -/
theorem find?_eq_first_definition (text : List Char) :
    (∀ name, find? text = some name ↔ ∃ p, DefinedAt true text p name.toList ∧ name ∉ builtins ∧
      ∀ p' name', DefinedAt true text p' name'.toList → name' ∉ builtins → p ≤ p') ∧
    (find? text = none ↔ ∀ p name, DefinedAt true text p name.toList → name ∈ builtins) ∧
    (∀ name, name ∈ names true text ↔ ∃ p, DefinedAt true text p name.toList) := by
  obtain ⟨ds, hnames, hsorted, hmem⟩ := exists_places true text
  have hok : ∀ name, (!builtins.contains name) = true ↔ name ∉ builtins := by simp
  refine ⟨fun name => ?_, ?_, fun name => mem_names_iff⟩
  · rw [find?, hnames, find?_map_eq_some_iff hsorted]
    simp only [hok, hmem, Prod.forall]
  · rw [find?, hnames, List.find?_eq_none]
    simp only [List.mem_map, Prod.exists, hmem, exists_eq_right, hok, not_not]
    exact ⟨fun h p name hdef => h name ⟨p, hdef⟩, fun h name ⟨p, hdef⟩ => h p name hdef⟩

end AdaSupport.Entry
