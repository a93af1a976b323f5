import NearMemory.Proofs.TokenText
import Mathlib.Data.List.Forall2

/-!
# The pieces of a line

A scanned line is a list of tokens, and a token no longer shows how its number was written. To speak
of the numbers in a text, the text is cut where the scanner cuts it, and the pieces are kept as they
are. If the line scans, its pieces and its tokens belong together one by one: a word is its piece,
and a number is what the digits of its piece stand for, without any bound. There is nothing to be
lost at this stage, since a number of more than 64 bits is no token.

## Main definitions

* `Numeral.unbounded?`, `Numeral.written?` — the number of a text, however large
* `Token.pieces` — the stretches of a text that the scanner takes
* `Token.Stands` — a piece and its token

## Main results

* `Token.sound_lexeme` — what the scanner takes at once
* `Token.stands_of_scan` — the pieces of a line that scans
-/

namespace NearMemory

namespace Numeral

/-- The number that a text stands for, with one plus sign allowed in front. -/
def unbounded? (base : Nat) (cs : List Char) : Option Nat :=
  value? base <| match cs with
    | '+' :: rest => rest
    | _ => cs

theorem read?_eq_some_iff {base bound n : Nat} {cs : List Char} :
    read? base bound cs = some n ↔ unbounded? base cs = some n ∧ n < bound := by
  change (unbounded? base cs).filter (· < bound) = some n ↔ _
  rw [Option.filter_eq_some_iff, decide_eq_true_iff]

/-- The number that a run of digits stands for, hexadecimal after the mark `0x` and else decimal. -/
def written? (cs : List Char) : Option Nat :=
  match cs with
  | '0' :: x :: rest => if x == 'x' || x == 'X' then value? 16 rest else value? 10 cs
  | _ => value? 10 cs

theorem written?_hex {x : Char} (hx : (x == 'x' || x == 'X') = true) (run : List Char) :
    written? ('0' :: x :: run) = value? 16 run :=
  if_pos hx

/-- A run of decimal digits has no mark. -/
theorem written?_decimal {cs : List Char} (h : ∀ c ∈ cs, Token.isDigit c = true) :
    written? cs = value? 10 cs := by
  unfold written?
  split
  next x rest =>
    have hdigit : Token.isDigit x = true :=
      h x (List.mem_cons_of_mem '0' (List.mem_cons_self ..))
    refine if_neg ?_
    rw [Bool.or_eq_true, beq_iff_eq, beq_iff_eq]
    rintro (rfl | rfl) <;> exact absurd hdigit (by decide)
  next => rfl

end Numeral

namespace Token

/-- The stretches of a text that the scanner takes, without spaces and comments. -/
def piecesFrom (cs : List Char) : List (List Char) :=
  match cs with
  | [] => []
  | c :: rest =>
    if isSpace c then piecesFrom rest
    else if c = ';' then piecesFrom (rest.dropWhile (· != '\n'))
    else (lexeme c rest).taken :: piecesFrom (lexeme c rest).rest
termination_by cs.length
decreasing_by
  · simp only [List.length_cons]; omega
  · have := length_dropWhile_le (· != '\n') rest
    simp only [List.length_cons]; omega
  · have := length_rest_lexeme_le c rest
    simp only [List.length_cons]; omega

/-- The pieces of a line. -/
def pieces (text : String) : List (List Char) := piecesFrom text.toList

/-- A piece and the token that the scanner makes of it. -/
inductive Stands : List Char → Token → Prop
  /-- A word is its text. -/
  | word (w : String) : Stands w.toList (.word w)
  /-- A number is what the digits stand for. -/
  | number {c : Char} {cs : List Char} {n : UInt64} (hdigit : isDigit c = true)
    (h : Numeral.written? (c :: cs) = some n.toNat) : Stands (c :: cs) (.number n)

theorem stands_ofList (cs : List Char) : Stands cs (.word (String.ofList cs)) := by
  have hstands := Stands.word (String.ofList cs)
  rw [String.toList_ofList] at hstands
  exact hstands

/-! ### What is taken at once -/

/-- A number token has the value of its digits. -/
theorem exists_of_ofDigits? {base : Nat} {run : List Char} {t : Token}
    (h : ofDigits? base run = some t) : ∃ n : UInt64, t = .number n ∧
      Numeral.value? base run = some n.toNat := by
  rw [ofDigits?] at h
  obtain ⟨n, hn, rfl⟩ := Option.map_eq_some_iff.mp h
  rw [Option.filter_eq_some_iff, decide_eq_true_iff] at hn
  refine ⟨UInt64.ofNat n, rfl, ?_⟩
  rw [UInt64.toNat_ofNat_of_lt' hn.2, hn.1]

/-- The text that is taken stands for the token, if there is one. -/
def Lexeme.Sound (x : Lexeme) : Prop := ∀ t ∈ x.token?, Stands x.taken t

theorem Lexeme.sound_ofNumber {c : Char} (hc : isDigit c = true) (cs : List Char) :
    (Lexeme.ofNumber c cs).Sound := by
  have hdecimal : Sound ⟨c :: cs.takeWhile isDigit, cs.dropWhile isDigit,
      ofDigits? 10 (c :: cs.takeWhile isDigit)⟩ := by
    intro t ht
    obtain ⟨n, rfl, hn⟩ := exists_of_ofDigits? ht
    refine .number hc ?_
    rw [Numeral.written?_decimal, hn]
    intro d hd
    rcases List.mem_cons.mp hd with rfl | hd
    · exact hc
    · exact List.all_eq_true.mp List.all_takeWhile d hd
  unfold ofNumber
  split
  next x d rest =>
    by_cases hmark : ((x == 'x' || x == 'X') && isHexDigit d) = true
    · rw [if_pos hmark]
      intro t ht
      obtain ⟨n, rfl, hn⟩ := exists_of_ofDigits? ht
      refine .number hc ?_
      rw [Numeral.written?_hex (Bool.and_eq_true_iff.mp hmark).1, hn]
    · rw [if_neg hmark]
      exact hdecimal
  next => exact hdecimal

theorem Lexeme.sound_ofWord (c : Char) (cs : List Char) : (Lexeme.ofWord c cs).Sound := by
  have hword : ∀ (taken rest : List Char),
      Sound ⟨taken, rest, some (.word (String.ofList taken))⟩ := by
    rintro taken rest _ ⟨⟩
    exact stands_ofList taken
  unfold ofWord
  dsimp only
  split
  · split
    · split
      · exact hword _ _
      · rintro _ ⟨⟩
    · exact hword _ _
  · exact hword _ _

/-- **What the scanner takes at once stands for its token.** -/
theorem sound_lexeme (c : Char) (cs : List Char) : (lexeme c cs).Sound := by
  rw [lexeme]
  by_cases hdigit : isDigit c = true
  · rw [if_pos hdigit]
    exact Lexeme.sound_ofNumber hdigit cs
  · rw [if_neg hdigit]
    by_cases hword : isWordStart c = true
    · rw [if_pos hword]
      exact Lexeme.sound_ofWord c cs
    · rw [if_neg hword]
      rintro _ ⟨⟩

/-! ### Lines -/

theorem stands_scanFrom {column : Nat} {cs : List Char} {tokens : List Token}
    (h : scanFrom column cs = .ok tokens) : List.Forall₂ Stands (piecesFrom cs) tokens := by
  induction column, cs using scanFrom.induct generalizing tokens with
  | case1 column =>
    rw [scanFrom] at h
    obtain rfl := Except.ok.inj h
    rw [piecesFrom]
    exact .nil
  | case2 column c rest hspace ih =>
    rw [scanFrom, if_pos hspace] at h
    rw [piecesFrom, if_pos hspace]
    exact ih h
  | case3 column rest hspace ih =>
    rw [scanFrom, if_neg hspace, if_pos rfl] at h
    rw [piecesFrom, if_neg hspace, if_pos rfl]
    exact ih h
  | case4 column c rest hspace hcomment found =>
    rename_i hnone
    rw [scanFrom, if_neg hspace, if_neg hcomment] at h
    dsimp only at h
    rw [hnone] at h
    cases h
  | case5 column c rest hspace hcomment found token htoken =>
    rename_i ih
    dsimp only [found] at htoken ih
    rw [scanFrom, if_neg hspace, if_neg hcomment] at h
    dsimp only at h
    rw [htoken] at h
    rw [piecesFrom, if_neg hspace, if_neg hcomment]
    cases hrest : scanFrom (column + byteLength (lexeme c rest).taken) (lexeme c rest).rest with
    | error e =>
      rw [hrest] at h
      cases h
    | ok more =>
      rw [hrest] at h
      obtain rfl := Except.ok.inj h
      exact .cons (sound_lexeme c rest token htoken) (ih hrest)

/-- **The pieces of a line that scans stand for its tokens.** -/
theorem stands_of_scan {text : String} {tokens : List Token} (h : scan text = .ok tokens) :
    List.Forall₂ Stands (pieces text) tokens :=
  stands_scanFrom h

end Token

end NearMemory
