import AdaSupport.Proofs.RepairedText

/-!
# Text in bytes and back

The bytes of a text are well-formed, so repairing them gives the text back.

* `Lead.Keeps`: the bytes after a first byte are what it promises.
* `Opens`: what the first two bytes of a longer character hold.
* `exists_keeps`: the bytes of a character outside ASCII keep the promise of the first.
* `pieces_encodeChar_append`: a character in front of anything is read as one piece.
* **`repaired_encode`**: text is read back from its bytes.
* `decode?_of_ascii`: bytes of ASCII are a text.
-/

namespace AdaSupport.Utf8

/-! ## Bytes that keep a promise -/

/-- The bytes `t :: ts` keep the promise `l` of a first byte, and make up the code point `n`. -/
structure Lead.Keeps (l : Lead) (t : UInt8) (ts : Bytes) (n : ℕ) : Prop where
  follow : l.follow = ts.length + 1
  low : l.low ≤ t
  high : t ≤ l.high
  tail : ∀ u ∈ ts, 0x80 ≤ u ∧ u ≤ 0xBF
  code : (t :: ts).foldl (fun n t => n * 64 + t.toNat % 64) l.share = n

theorem continuation_tail {ts : Bytes} (hts : ∀ u ∈ ts, 0x80 ≤ u ∧ u ≤ 0xBF) (rest : Bytes) :
    continuation ts.length 0x80 0xBF (ts ++ rest) = ts := by
  induction ts with
  | nil => rfl
  | cons t ts ih =>
    rw [List.length_cons, List.cons_append, continuation, if_pos (hts t List.mem_cons_self),
      ih fun u hu => hts u (List.mem_cons_of_mem _ hu)]

theorem pieceAt_of_keeps {b t : UInt8} {ts : Bytes} {l : Lead} {c : Char} (hl : lead? b = some l)
    (h : l.Keeps t ts c.toNat) (rest : Bytes) :
    pieceAt b (t :: ts ++ rest) = (.char c, (t :: ts).length) := by
  have hall : continuation l.follow l.low l.high (t :: ts ++ rest) = t :: ts := by
    rw [h.follow, List.cons_append, continuation, if_pos ⟨h.low, h.high⟩,
      continuation_tail h.tail]
  have hlen : (t :: ts).length = l.follow := h.follow.symm
  simp only [pieceAt, hl, hall, hlen, if_true, h.code, Char.ofNat_toNat]

/-! ## Characters of several bytes -/

/-- The first byte `b` of a character holds `q`, the next one `r`, and `k` bytes follow the first.
Left out are characters with a shorter form, surrogates, and numbers that are too large. -/
def Opens (b : UInt8) (k q r : ℕ) : Prop :=
  k = 1 ∧ b.toNat = 0xC0 + q ∧ 2 ≤ q ∧ q < 32 ∧ r < 64 ∨
    k = 2 ∧ b.toNat = 0xE0 + q ∧ q < 16 ∧ r < 64 ∧ (q = 0 → 32 ≤ r) ∧ (q = 13 → r < 32) ∨
    k = 3 ∧ b.toNat = 0xF0 + q ∧ q < 5 ∧ r < 64 ∧ (q = 0 → 16 ≤ r) ∧ (q = 4 → r < 16)

theorem Opens.exists_lead {b : UInt8} {k q r : ℕ} (h : Opens b k q r) :
    ∃ l, lead? b = some l ∧ l.follow = k ∧ l.share = q ∧
      l.low.toNat ≤ 0x80 + r ∧ 0x80 + r ≤ l.high.toNat := by
  unfold Opens at h
  fun_cases lead? b
  all_goals
    simp only [UInt8.lt_iff_toNat_lt, ← UInt8.toNat_inj, UInt8.reduceToNat] at *
  -- in these rows `b` starts no character of several bytes
  case case1 | case2 | case10 => omega
  all_goals
    refine ⟨_, rfl, ?_⟩
    dsimp only [UInt8.reduceToNat]
    omega

/-- A byte after the first one, with the number in its low bits. -/
def following (m : ℕ) : UInt8 := (0x80 + m % 64).toUInt8

theorem toNat_following (m : ℕ) : (following m).toNat = 0x80 + m % 64 :=
  Nat.mod_eq_of_lt (by omega)

theorem foldl_following (ms : List ℕ) (n : ℕ) :
    (ms.map following).foldl (fun n t => n * 64 + t.toNat % 64) n =
      ms.foldl (fun n m => n * 64 + m % 64) n := by
  have hlow : ∀ m, (following m).toNat % 64 = m % 64 := fun m => by rw [toNat_following]; omega
  simp only [List.foldl_map, hlow]

theorem Opens.exists_keeps {b : UInt8} {q r n : ℕ} (ms : List ℕ)
    (h : Opens b (ms.length + 1) q (r % 64))
    (hn : (r :: ms).foldl (fun n m => n * 64 + m % 64) q = n) :
    ∃ l, lead? b = some l ∧ l.Keeps (following r) (ms.map following) n := by
  obtain ⟨l, hl, hfollow, hshare, hlow, hhigh⟩ := h.exists_lead
  refine ⟨l, hl, by simpa using hfollow, ?_, ?_, fun u hu => ?_, ?_⟩
  · rwa [UInt8.le_iff_toNat_le, toNat_following]
  · rwa [UInt8.le_iff_toNat_le, toNat_following]
  · obtain ⟨m, -, rfl⟩ := List.mem_map.mp hu
    rw [UInt8.le_iff_toNat_le, UInt8.le_iff_toNat_le, toNat_following]
    simp only [UInt8.reduceToNat]
    omega
  · rw [← List.map_cons, foldl_following, hshare, hn]

/-- **The bytes of a character keep the promise of the first.** -/
theorem exists_keeps {c : Char} (h : 0x80 ≤ c.toNat) : ∃ b t ts l,
    encodeChar c = b :: t :: ts ∧ lead? b = some l ∧ l.Keeps t ts c.toNat := by
  have hvalid : c.toNat < 0xD800 ∨ 0xDFFF < c.toNat ∧ c.toNat < 0x110000 := c.valid
  unfold encodeChar
  generalize c.toNat = n at *
  dsimp only
  rw [if_neg (by omega)]
  split_ifs with h2 h3
  · have hopens : Opens (0xC0 + n / 64).toUInt8 1 (n / 64) (n % 64) :=
      .inl ⟨rfl, Nat.mod_eq_of_lt (by omega), by omega⟩
    obtain ⟨l, hl, hkeeps⟩ := hopens.exists_keeps (n := n) []
      (by simp only [List.foldl_cons, List.foldl_nil]; omega)
    exact ⟨_, _, _, l, rfl, hl, hkeeps⟩
  · have hopens : Opens (0xE0 + n / 4096).toUInt8 2 (n / 4096) (n / 64 % 64) :=
      .inr (.inl ⟨rfl, Nat.mod_eq_of_lt (by omega), by omega⟩)
    obtain ⟨l, hl, hkeeps⟩ := hopens.exists_keeps (n := n) [n]
      (by simp only [List.foldl_cons, List.foldl_nil]; omega)
    exact ⟨_, _, _, l, rfl, hl, hkeeps⟩
  · have hopens : Opens (0xF0 + n / 262144).toUInt8 3 (n / 262144) (n / 4096 % 64) :=
      .inr (.inr ⟨rfl, Nat.mod_eq_of_lt (by omega), by omega⟩)
    obtain ⟨l, hl, hkeeps⟩ := hopens.exists_keeps (n := n) [n / 64, n]
      (by simp only [List.foldl_cons, List.foldl_nil]; omega)
    exact ⟨_, _, _, l, rfl, hl, hkeeps⟩

/-! ## Texts -/

theorem pieces_encodeChar_append (c : Char) (rest : Bytes) :
    pieces (encodeChar c ++ rest) = .char c :: pieces rest := by
  by_cases h : c.toNat < 0x80
  · have hb : c.toNat.toUInt8.toNat = c.toNat := Nat.mod_eq_of_lt (by omega)
    have hchar : encodeChar c = [c.toNat.toUInt8] := if_pos h
    rw [hchar, List.singleton_append, pieces, pieceAt_of_lt (by omega), hb, Char.ofNat_toNat,
      List.drop_zero]
  · obtain ⟨b, t, ts, l, hchar, hl, hkeeps⟩ := exists_keeps (Nat.le_of_not_lt h)
    rw [hchar, List.cons_append, pieces, pieceAt_of_keeps hl hkeeps, List.drop_left]

/-- **Text is read back from its bytes.** -/
theorem repaired_encode (cs : List Char) : repaired (encode cs) = cs := by
  unfold repaired
  induction cs with
  | nil => simp [encode, pieces]
  | cons c cs ih =>
    rw [encode, List.flatMap_cons, ← encode, pieces_encodeChar_append, List.map_cons, ih,
      Piece.shown]

theorem decode?_encode (cs : List Char) : decode? (encode cs) = some cs := by
  unfold decode?
  induction cs with
  | nil => simp [encode, pieces]
  | cons c cs ih =>
    rw [encode, List.flatMap_cons, ← encode, pieces_encodeChar_append, List.mapM_cons, ih]
    rfl

theorem encodeChar_of_lt {b : UInt8} (hb : b.toNat < 0x80) :
    encodeChar (Char.ofNat b.toNat) = [b] := by
  have hvalid : b.toNat.isValidChar := .inl (by omega)
  have hchar : (Char.ofNat b.toNat).toNat = b.toNat := by
    rw [Char.ofNat, dif_pos hvalid]
    rfl
  rw [encodeChar, hchar, if_pos hb]
  exact congrArg ([·]) UInt8.ofNat_toNat

/-- Bytes of ASCII are the bytes of a text. -/
theorem decode?_of_ascii {bs : Bytes} (h : ∀ b ∈ bs, b.toNat < 0x80) :
    ∃ cs, decode? bs = some cs ∧ encode cs = bs := by
  have hencode : encode (bs.map fun b => Char.ofNat b.toNat) = bs := by
    unfold encode
    induction bs with
    | nil => rfl
    | cons b bs ih =>
      rw [List.map_cons, List.flatMap_cons, encodeChar_of_lt (h b List.mem_cons_self),
        ih fun c hc => h c (List.mem_cons_of_mem b hc), List.singleton_append]
  exact ⟨_, (congrArg decode? hencode).symm.trans (decode?_encode _), hencode⟩

end AdaSupport.Utf8
