import AdaSupport.Path
import Mathlib.Algebra.Order.Ring.Nat
import Mathlib.Tactic.Ring
import Mathlib.Tactic.SplitIfs

/-!
# Repaired text and its bytes

An ASCII byte is a character of its own, wherever it stands: no well-formed character and no
ill-formed run goes on over it, and no other bytes are shown as that character. So a text can be cut
at an ASCII character before or after it is repaired.

* `pieces_append`: the pieces in front of an ASCII byte do not depend on what follows.
* `eq_of_shown`: a piece that is shown as an ASCII character is that one byte.
* `repaired_eq_cons`, `mem_of_mem_repaired`: the bytes of ASCII characters in a repaired text.
* `segments_eq_splitOn`: the segments of a path are what stands between its slashes.
* **`splitOn_repaired`**: the segments of a repaired path are its segments, repaired.
* `any_components`, `parent_mem_segments_iff`: a path leads upward by its components, its segments
  or its text alike.
* `repaired_of_accepted`: an accepted path is harmless also after it is repaired.
-/

namespace AdaSupport.Utf8

/-- All that a first byte promises. What follows it has its highest bit set, and lifts the character
out of ASCII. -/
theorem lead?_cases {b : UInt8} {l : Lead} (h : lead? b = some l) : 0x80 ≤ l.low.toNat ∧
    ((b.toNat < 0x80 ∧ l.follow = 0 ∧ l.share = b.toNat) ∨
      (0 < l.follow ∧ l.high.toNat ≤ 0xBF ∧
        0x80 ≤ (l.share * 64 + l.low.toNat % 64) * 64 ^ (l.follow - 1))) := by
  revert h
  fun_cases lead? b <;> intro h <;> cases h
  all_goals
    simp only [UInt8.lt_iff_toNat_lt, ← UInt8.toNat_inj, UInt8.reduceToNat, and_true] at *
    omega

/-! ## Pieces in front of an ASCII byte -/

section Append

variable {b : UInt8} (hb : b.toNat < 0x80) (rest : Bytes)
include hb

theorem continuation_append (n : ℕ) {low : UInt8} (high : UInt8) (hlow : 0x80 ≤ low.toNat)
    (bs : Bytes) : continuation n low high (bs ++ b :: rest) = continuation n low high bs := by
  induction bs generalizing n low high with
  | nil =>
    cases n with
    | zero => rfl
    | succ n =>
      have hout : ¬ low ≤ b := by rw [UInt8.le_iff_toNat_le]; omega
      simp [continuation, hout]
  | cons a bs ih =>
    cases n with
    | zero => rfl
    | succ n => simp [continuation, ih n 0xBF (by decide : 0x80 ≤ (0x80 : UInt8).toNat)]

theorem pieceAt_append (a : UInt8) (bs : Bytes) : pieceAt a (bs ++ b :: rest) = pieceAt a bs := by
  unfold pieceAt
  cases hl : lead? a with
  | none => rfl
  | some l => simp only [continuation_append hb rest l.follow l.high (lead?_cases hl).1]

theorem pieceAt_of_lt : pieceAt b rest = (.char (Char.ofNat b.toNat), 0) := by
  have hb' : b < 0x80 := UInt8.lt_iff_toNat_lt.mpr hb
  simp [pieceAt, lead?, hb', continuation]

end Append

theorem length_continuation_le (n : ℕ) (low high : UInt8) (bs : Bytes) :
    (continuation n low high bs).length ≤ bs.length := by
  fun_induction continuation n low high bs with
  | case1 => exact Nat.zero_le _
  | case2 => exact Nat.le_refl _
  | case3 n low high b rest h ih => simpa using ih
  | case4 => exact Nat.zero_le _

theorem pieceAt_le (b : UInt8) (bs : Bytes) : (pieceAt b bs).2 ≤ bs.length := by
  unfold pieceAt
  split
  · exact Nat.zero_le _
  · dsimp only
    split <;> exact length_continuation_le _ _ _ _

/-- **Nothing goes on over an ASCII byte.** -/
theorem pieces_append {b : UInt8} (hb : b.toNat < 0x80) (bs rest : Bytes) :
    pieces (bs ++ b :: rest) = pieces bs ++ .char (Char.ofNat b.toNat) :: pieces rest := by
  fun_induction pieces bs with
  | case1 => rw [List.nil_append, pieces, pieceAt_of_lt hb, List.drop_zero, List.nil_append]
  | case2 a bs ih =>
    rw [List.cons_append, pieces, pieceAt_append hb rest,
      List.drop_append_of_le_length (pieceAt_le a bs), ih, List.cons_append]

theorem repaired_append {b : UInt8} (hb : b.toNat < 0x80) (bs rest : Bytes) :
    repaired (bs ++ b :: rest) = repaired bs ++ Char.ofNat b.toNat :: repaired rest := by
  simp only [repaired, pieces_append hb, List.map_append, List.map_cons, Piece.shown]

/-! ## Pieces shown as ASCII characters -/

theorem toNat_ofNat_eq (n : ℕ) : (Char.ofNat n).toNat = n ∨ (Char.ofNat n).toNat = 0 := by
  by_cases h : n.isValidChar
  · exact .inl (by rw [Char.ofNat, dif_pos h]; rfl)
  · exact .inr (by rw [Char.ofNat, dif_neg h]; rfl)

theorem mul_pow_le_foldl (n : ℕ) (ts : Bytes) :
    n * 64 ^ ts.length ≤ ts.foldl (fun n t => n * 64 + t.toNat % 64) n := by
  induction ts generalizing n with
  | nil => simp
  | cons t ts ih =>
    refine le_trans ?_ (ih (n * 64 + t.toNat % 64))
    calc n * 64 ^ (ts.length + 1) = n * 64 * 64 ^ ts.length := by ring
      _ ≤ (n * 64 + t.toNat % 64) * 64 ^ ts.length := Nat.mul_le_mul_right _ (Nat.le_add_right _ _)

/-- A full continuation starts with a byte of the promised range. -/
theorem continuation_eq_cons {n : ℕ} {low high : UInt8} {bs : Bytes}
    (h : (continuation (n + 1) low high bs).length = n + 1) : ∃ t ts,
      continuation (n + 1) low high bs = t :: ts ∧ ts.length = n ∧ low ≤ t ∧ t ≤ high := by
  cases bs with
  | nil => simp [continuation] at h
  | cons t bs =>
    rw [continuation] at h ⊢
    split_ifs at h ⊢ with ht
    exact ⟨t, _, rfl, by simpa using h, ht⟩

/-- A character of several bytes is none of ASCII. -/
theorem le_code {l : Lead} {bs : Bytes} (hf : 0 < l.follow) (hlow : 0x80 ≤ l.low.toNat)
    (hhigh : l.high.toNat ≤ 0xBF)
    (hl : 0x80 ≤ (l.share * 64 + l.low.toNat % 64) * 64 ^ (l.follow - 1))
    (h : (continuation l.follow l.low l.high bs).length = l.follow) : 0x80 ≤
      (continuation l.follow l.low l.high bs).foldl (fun n t => n * 64 + t.toNat % 64) l.share := by
  obtain ⟨n, hn⟩ : ∃ n, l.follow = n + 1 := ⟨l.follow - 1, by omega⟩
  rw [hn] at h hl ⊢
  obtain ⟨t, ts, hts, hlen, ht, ht'⟩ := continuation_eq_cons h
  rw [UInt8.le_iff_toNat_le] at ht ht'
  have hfirst : l.share * 64 + l.low.toNat % 64 ≤ l.share * 64 + t.toNat % 64 := by omega
  rw [hts, List.foldl_cons]
  calc 0x80 ≤ (l.share * 64 + l.low.toNat % 64) * 64 ^ n := hl
    _ ≤ (l.share * 64 + t.toNat % 64) * 64 ^ ts.length := by
        rw [hlen]
        exact Nat.mul_le_mul_right _ hfirst
    _ ≤ _ := mul_pow_le_foldl _ ts

/-- A piece is an ASCII byte, a character of several bytes, or ill-formed. -/
theorem pieceAt_cases (b : UInt8) (rest : Bytes) :
    (b.toNat < 0x80 ∧ pieceAt b rest = (.char (Char.ofNat b.toNat), 0)) ∨
      (∃ code n, 0x80 ≤ code ∧ pieceAt b rest = (.char (Char.ofNat code), n)) ∨
      ∃ bs n, pieceAt b rest = (.broken bs, n) := by
  cases hl : lead? b with
  | none => exact .inr (.inr ⟨[b], 0, by simp only [pieceAt, hl]⟩)
  | some l =>
    obtain ⟨hlow, ⟨hb, -, -⟩ | ⟨hf, hhigh, hshare⟩⟩ := lead?_cases hl
    · exact .inl ⟨hb, pieceAt_of_lt hb rest⟩
    · by_cases hlen : (continuation l.follow l.low l.high rest).length = l.follow
      · exact .inr (.inl ⟨_, l.follow, le_code hf hlow hhigh hshare hlen, by
          simp only [pieceAt, hl, hlen, if_true]⟩)
      · exact .inr (.inr ⟨_, _, by simp only [pieceAt, hl, hlen, if_false]; rfl⟩)

/-- The character is one of ASCII, and not zero. -/
def IsPlain (c : Char) : Prop := 0 < c.toNat ∧ c.toNat < 0x80

instance (c : Char) : Decidable (IsPlain c) := inferInstanceAs (Decidable (_ ∧ _))

/-- **Only an ASCII byte is shown as an ASCII character.** -/
theorem eq_of_shown {b : UInt8} {rest : Bytes} (h : IsPlain (pieceAt b rest).1.shown) :
    b.toNat = (pieceAt b rest).1.shown.toNat ∧ (pieceAt b rest).2 = 0 := by
  unfold IsPlain at h
  obtain ⟨hb, hpiece⟩ | ⟨code, n, hcode, hpiece⟩ | ⟨bs, n, hpiece⟩ := pieceAt_cases b rest
  · rw [hpiece] at h ⊢
    refine ⟨?_, rfl⟩
    rcases toNat_ofNat_eq b.toNat with hchar | hchar
    · exact hchar.symm
    · exact absurd h.1 (by simp [Piece.shown, hchar])
  · rw [hpiece] at h
    rcases toNat_ofNat_eq code with hchar | hchar <;> simp only [Piece.shown, hchar] at h <;> omega
  · rw [hpiece] at h
    exact absurd h.2 (by simp [Piece.shown])

/-! ## Repaired text -/

theorem repaired_cons (b : UInt8) (rest : Bytes) : repaired (b :: rest) =
    (pieceAt b rest).1.shown :: repaired (rest.drop (pieceAt b rest).2) := by
  simp only [repaired, pieces, List.map_cons]

theorem repaired_eq_nil {bs : Bytes} (h : repaired bs = []) : bs = [] := by
  cases bs with
  | nil => rfl
  | cons b rest => simp [repaired_cons] at h

theorem repaired_eq_cons {bs : Bytes} {c : Char} {cs : List Char} (hc : IsPlain c)
    (h : repaired bs = c :: cs) : ∃ b rest, bs = b :: rest ∧ b.toNat = c.toNat ∧
      repaired rest = cs := by
  cases bs with
  | nil => simp [repaired, pieces] at h
  | cons b rest =>
    rw [repaired_cons] at h
    obtain ⟨rfl, rfl⟩ := List.cons_eq_cons.mp h
    obtain ⟨hb, hrest⟩ := eq_of_shown hc
    exact ⟨b, rest, rfl, hb, by rw [hrest, List.drop_zero]⟩

theorem head?_repaired {b : UInt8} {c : Char} (hc : IsPlain c) (hb : b.toNat = c.toNat)
    (bs : Bytes) : (repaired bs).head? = some c ↔ bs.head? = some b := by
  constructor
  · intro h
    obtain ⟨cs, hcs⟩ := List.head?_eq_some_iff.mp h
    obtain ⟨a, rest, rfl, ha, -⟩ := repaired_eq_cons hc hcs
    exact congrArg some (UInt8.toNat_inj.mp (ha.trans hb.symm))
  · intro h
    obtain ⟨rest, rfl⟩ := List.head?_eq_some_iff.mp h
    have hplain : b.toNat < 0x80 := hb ▸ hc.2
    rw [repaired_cons, pieceAt_of_lt hplain, List.head?_cons, Piece.shown, hb, Char.ofNat_toNat]

theorem mem_of_mem_repaired {bs : Bytes} {c : Char} (hc : IsPlain c) (h : c ∈ repaired bs) :
    ∃ b ∈ bs, b.toNat = c.toNat := by
  fun_induction pieces bs with
  | case1 => simp [repaired, pieces] at h
  | case2 b rest ih =>
    rw [repaired_cons] at h
    rcases List.mem_cons.mp h with rfl | h
    · exact ⟨b, List.mem_cons_self, (eq_of_shown hc).1⟩
    · obtain ⟨d, hd, hdc⟩ := ih h
      exact ⟨d, List.mem_cons_of_mem _ (List.mem_of_mem_drop hd), hdc⟩

end AdaSupport.Utf8

namespace AdaSupport.Path

open Utf8

/-! ## Segments -/

theorem segments_eq_splitOn (p : Bytes) : segments p = p.splitOn slash := by
  induction p with
  | nil => rfl
  | cons b p ih =>
    rw [List.splitOn_cons_eq_if_modifyHead, segments, ih]
    by_cases hb : b = slash
    · rw [if_pos hb, if_pos (beq_iff_eq.mpr hb)]
    · rw [if_neg hb, if_neg (mt beq_iff_eq.mp hb)]
      cases hs : p.splitOn slash with
      | nil => exact absurd hs (List.splitOn_ne_nil slash p)
      | cons s more => rfl

theorem slash_not_mem_repaired {s : Bytes} (hs : slash ∉ s) : '/' ∉ repaired s := by
  intro h
  obtain ⟨b, hb, hslash⟩ := mem_of_mem_repaired (by decide) h
  exact hs ((UInt8.toNat_inj.mp hslash : b = slash) ▸ hb)

/-- **Cutting at slashes and repairing may be exchanged.** -/
theorem splitOn_repaired (p : Bytes) : (repaired p).splitOn '/' = (segments p).map repaired := by
  rw [segments_eq_splitOn]
  induction hn : p.length using Nat.strong_induction_on generalizing p with
  | _ n ih =>
    by_cases hp : slash ∈ p
    · obtain ⟨s, rest, rfl, hs⟩ := List.eq_append_cons_of_mem hp
      have hrest : rest.length < n := by
        rw [← hn, List.length_append, List.length_cons]
        omega
      rw [List.splitOn_append_cons_self_of_not_mem hs, repaired_append (by decide), List.map_cons,
        ← ih _ hrest rest rfl]
      exact List.splitOn_append_cons_self_of_not_mem (slash_not_mem_repaired hs) _
    · rw [List.splitOn_eq_singleton hp, List.splitOn_eq_singleton (slash_not_mem_repaired hp)]
      rfl

/-- No component hides a segment that leads upward, and none makes one up. -/
theorem any_components (p : Bytes) :
    (components p).any (fun c => c.bytes == parent) = true ↔ parent ∈ segments p := by
  have hfront : ∀ c ∈ (if p.head? = some slash then [Component.root]
      else if (segments p).head? = some here then [.here] else []), c.bytes ≠ parent := by
    split_ifs <;> simp [Component.bytes, slash, here, parent]
  rw [List.any_eq_true, components]
  simp only [List.mem_append, List.mem_filterMap, beq_iff_eq]
  constructor
  · rintro ⟨c, hc | ⟨s, hs, hsc⟩, hparent⟩
    · exact absurd hparent (hfront c hc)
    · unfold Component.ofSegment? at hsc
      split_ifs at hsc with hskip hup <;> cases hsc
      · exact hup ▸ hs
      · exact (show s = parent from hparent) ▸ hs
  · exact fun hs => ⟨.parent, .inr ⟨parent, hs, rfl⟩, rfl⟩

theorem eq_parent_of_repaired {s : Bytes} (h : repaired s = ['.', '.']) : s = parent := by
  obtain ⟨b, rest, rfl, hb, hrest⟩ := repaired_eq_cons (by decide) h
  obtain ⟨c, rest, rfl, hc, hend⟩ := repaired_eq_cons (by decide) hrest
  rw [repaired_eq_nil hend, show b = 46 from UInt8.toNat_inj.mp hb,
    show c = 46 from UInt8.toNat_inj.mp hc]
  rfl

theorem repaired_parent : repaired parent = ['.', '.'] := by
  simp [repaired, pieces, parent, pieceAt_of_lt, Piece.shown]

theorem parent_mem_segments_iff (p : Bytes) :
    parent ∈ segments p ↔ ['.', '.'] ∈ (repaired p).splitOn '/' := by
  rw [splitOn_repaired, List.mem_map]
  constructor
  · exact fun h => ⟨parent, h, repaired_parent⟩
  · rintro ⟨s, hs, hrepaired⟩
    exact eq_parent_of_repaired hrepaired ▸ hs

/-- **An accepted path is harmless as text too**: it starts with no dash and none of its segments
leads upward. -/
theorem repaired_of_accepted {p : Bytes} (h : fault? p = none) :
    (repaired p).head? ≠ some '-' ∧ ['.', '.'] ∉ (repaired p).splitOn '/' := by
  unfold fault? at h
  split_ifs at h with hdash hparent
  rw [any_components, parent_mem_segments_iff] at hparent
  exact ⟨hdash, hparent⟩

end AdaSupport.Path
