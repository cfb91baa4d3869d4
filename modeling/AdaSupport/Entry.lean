/-!
# Entry procedures

A compiled module defines its main procedure as a procedure without parameters and result. In the
text of the module such a **definition** starts a line, possibly after blanks, and reads
`define`, then attribute words, then `void`, then `@Name()`, with blanks and line breaks between
the parts. Names start with a capital.

* `Entry.definition?`: the definition that starts at a place of the text.
* `Entry.names`: the names of the definitions that a search from left to right finds.
* `Entry.find?`: the first of them that is not the name of a builtin.
* `Entry.isName`: the form of a name that may be given in place of a search.
-/

namespace AdaSupport.Entry

/-! ## Classes of characters -/

/-- A blank or line break anywhere in Unicode. -/
def isBlank (c : Char) : Bool :=
  let n := c.toNat
  (9 ≤ n && n ≤ 13) || n == 0x20 || n == 0x85 || n == 0xA0 || n == 0x1680 ||
    (0x2000 ≤ n && n ≤ 0x200A) || n == 0x2028 || n == 0x2029 || n == 0x202F || n == 0x205F ||
    n == 0x3000

/-- A character of an attribute word. -/
def isWordChar (c : Char) : Bool := ('a' ≤ c && c ≤ 'z') || c == '_'

/-- A capital letter. -/
def isCapital (c : Char) : Bool := 'A' ≤ c && c ≤ 'Z'

/-- A letter. -/
def isLetter (c : Char) : Bool := isCapital c || ('a' ≤ c && c ≤ 'z')

/-- A character that may follow the first of a name. -/
def isNameChar (c : Char) : Bool := isLetter c || ('0' ≤ c && c ≤ '9') || c == '_'

/-! ## Definitions -/

/-- What follows `word` at the front of a text. -/
def after? (word cs : List Char) : Option (List Char) :=
  if word.isPrefixOf cs then some (cs.drop word.length) else none

/-- What follows the blanks in front of a text, if there are any. -/
def afterBlanks? (cs : List Char) : Option (List Char) :=
  if (cs.takeWhile isBlank).isEmpty then none else some (cs.dropWhile isBlank)

theorem length_of_afterBlanks? {cs next : List Char} (h : afterBlanks? cs = some next) :
    next.length ≤ cs.length := by
  unfold afterBlanks? at h
  split at h
  · cases h
  · cases h; exact (List.dropWhile_suffix isBlank).length_le

theorem length_dropWhile_lt {P : Char → Bool} {cs : List Char} (h : cs.takeWhile P ≠ []) :
    (cs.dropWhile P).length < cs.length := by
  have hsplit := congrArg List.length (List.takeWhile_append_dropWhile (p := P) (l := cs))
  have hpos := List.length_pos_iff.mpr h
  rw [List.length_append] at hsplit
  omega

/-- What follows the `@` behind a run of attribute words, each with blanks behind it, if the last
word is `void`. The flag says whether the word just read was. -/
def afterWords? (isVoid : Bool) : List Char → Option (List Char)
  | [] => none
  | c :: rest =>
    if c = '@' then if isVoid then some rest else none
    else
      let word := (c :: rest).takeWhile isWordChar
      if _hw : word = [] then none
      else
        match _hr : afterBlanks? ((c :: rest).dropWhile isWordChar) with
        | none => none
        | some next => afterWords? (word == ['v', 'o', 'i', 'd']) next
termination_by cs => cs.length
decreasing_by
  exact Nat.lt_of_le_of_lt (length_of_afterBlanks? _hr) (length_dropWhile_lt _hw)

/-- The name in front of a text, if an empty parameter list follows it, and what follows that. -/
def nameBeforeParameters? : List Char → Option (List Char × List Char)
  | [] => none
  | c :: rest =>
    if isCapital c then do
      let rest' ← after? ['('] (rest.dropWhile isNameChar)
      let rest'' ← after? [')'] (rest'.dropWhile isBlank)
      pure (c :: rest.takeWhile isNameChar, rest'')
    else none

/-- What follows the `@` of the definition that starts, after blanks, at the front of a text. -/
def afterHeader? (cs : List Char) : Option (List Char) := do
  let rest ← after? ['d', 'e', 'f', 'i', 'n', 'e'] (cs.dropWhile isBlank)
  let rest ← afterBlanks? rest
  afterWords? false rest

/-- The name of the definition at the front of a text, and what follows the definition. -/
def definition? (cs : List Char) : Option (List Char × List Char) :=
  (afterHeader? cs).bind nameBeforeParameters?

theorem length_of_after? {word cs rest : List Char} (h : after? word cs = some rest) :
    rest.length ≤ cs.length := by
  unfold after? at h
  split at h
  · cases h; exact (List.drop_suffix _ _).length_le
  · cases h

theorem length_of_afterWords? {isVoid : Bool} {cs rest : List Char}
    (h : afterWords? isVoid cs = some rest) : rest.length < cs.length := by
  fun_induction afterWords? isVoid cs with
  | case1 | case3 | case4 | case5 => cases h
  | case2 c => cases h; exact Nat.lt_succ_self _
  | case6 isVoid c cs hc word hw next hnext ih =>
    have hlt := ih h
    have hle := length_of_afterBlanks? hnext
    have hword := length_dropWhile_lt hw
    omega

theorem length_of_nameBeforeParameters? {cs name rest : List Char}
    (h : nameBeforeParameters? cs = some (name, rest)) : rest.length ≤ cs.length := by
  cases cs with
  | nil => cases h
  | cons c cs =>
    simp only [nameBeforeParameters?] at h
    split at h
    · simp only [Option.bind_eq_bind, Option.bind_eq_some_iff] at h
      obtain ⟨r₁, h₁, r₂, h₂, h⟩ := h
      cases h
      have h₀ := (List.dropWhile_suffix isNameChar (l := cs)).length_le
      have h₁ := length_of_after? h₁
      have h₃ := (List.dropWhile_suffix isBlank (l := r₁)).length_le
      have h₂ := length_of_after? h₂
      rw [List.length_cons]
      omega
    · cases h

theorem length_of_definition? {cs name rest : List Char}
    (h : definition? cs = some (name, rest)) : rest.length < cs.length := by
  simp only [definition?, afterHeader?, Option.bind_eq_bind, Option.bind_eq_some_iff] at h
  obtain ⟨r₃, ⟨r₁, h₁, r₂, h₂, h₃⟩, h₄⟩ := h
  have h₀ := (List.dropWhile_suffix isBlank (l := cs)).length_le
  have h₁ := length_of_after? h₁
  have h₂ := length_of_afterBlanks? h₂
  have h₃ := length_of_afterWords? h₃
  have h₄ := length_of_nameBeforeParameters? h₄
  omega

/-! ## The search -/

/-- The names of the definitions in a text. The search goes from left to right and on behind the
definition found last; `lineStart` says whether a line starts at the front of the text. -/
def names (lineStart : Bool) (cs : List Char) : List String :=
  match cs with
  | [] => []
  | c :: rest =>
    match _h : if lineStart then definition? (c :: rest) else none with
    | some (name, rest') => String.ofList name :: names false rest'
    | none => names (c == '\n') rest
termination_by cs.length
decreasing_by
  · split at _h
    · exact length_of_definition? _h
    · cases _h
  · exact Nat.lt_succ_self _

/-- The names of builtins, which a module may define as well. -/
def builtins : List String :=
  ["Put_Line", "Put", "Put_Integer", "Put_Real", "New_Line", "Get_Line", "Get", "Get_Real",
    "Debug_Print", "Debug_Print_Int", "Debug_Print_Real"]

/-- The name of the first definition that is not a builtin. -/
def find? (cs : List Char) : Option String :=
  (names true cs).find? fun name => !builtins.contains name

/-- Whether a text has the form of a name: a letter, then letters, digits and underscores. -/
def isName (s : String) : Bool :=
  match s.toList with
  | [] => false
  | c :: rest => isLetter c && rest.all isNameChar

end AdaSupport.Entry
