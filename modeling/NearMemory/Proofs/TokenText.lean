import NearMemory.Proofs.LineText
import NearMemory.Proofs.NumeralText

/-!
# Tokens read back

A token that is written out and followed by a separator is taken by the scanner as a whole and as
nothing else: `Token.Spells` says so for one token, and a line of such tokens with a blank between
any two of them scans to these tokens. Words and numbers that the assembly language writes are all
spelled in this sense.

## Main definitions

* `Token.Spells` — a text that the scanner takes as one token
* `Token.SpellsLine` — a line of such texts

## Main results

* `Token.spells_word`, `Token.spells_indexed`, `Token.spells_decimal`, `Token.spells_hex` — the
  texts of tokens
* `Token.SpellsLine.scan` — a line of tokens
* `Token.scan_comment` — a comment has no tokens
-/

namespace NearMemory

namespace Token

/-- The text is empty or starts with a space. -/
def Separated (after : List Char) : Prop := ∀ c ∈ after.head?, isSpace c = true

/-- A text without spaces that the scanner takes for a token, whatever separated text follows. -/
structure Spells (t : Token) (cs : List Char) : Prop where
  not_space : ∀ c ∈ cs, isSpace c = false
  lexeme_eq : ∃ first rest, cs = first :: rest ∧ first ≠ ';' ∧
    ∀ after, Separated after → lexeme first (rest ++ after) = ⟨cs, after, some t⟩

/-! ### Classes of characters -/

theorem isSpace_iff {c : Char} : isSpace c = true ↔ c = ' ' ∨ c = '\t' ∨ c = '\r' ∨ c = '\n' := by
  simp [isSpace, or_assoc]

/-- A class that holds of no space separates. -/
theorem eq_false_of_isSpace {p : Char → Bool}
    (h : p ' ' = false ∧ p '\t' = false ∧ p '\r' = false ∧ p '\n' = false) {c : Char}
    (hc : isSpace c = true) : p c = false := by
  rcases isSpace_iff.mp hc with rfl | rfl | rfl | rfl
  · exact h.1
  · exact h.2.1
  · exact h.2.2.1
  · exact h.2.2.2

theorem isSpace_eq_false {p : Char → Bool}
    (h : p ' ' = false ∧ p '\t' = false ∧ p '\r' = false ∧ p '\n' = false) {c : Char}
    (hc : p c = true) : isSpace c = false := by
  cases hspace : isSpace c with
  | false => rfl
  | true => exact absurd hc (by simp [eq_false_of_isSpace h hspace])

theorem isDigit_eq_false_of_isWordStart {c : Char} (h : isWordStart c = true) :
    isDigit c = false := by
  simp only [isWordStart, isDigit, Bool.or_eq_true, Bool.and_eq_true, decide_eq_true_eq, beq_iff_eq,
    Char.le_def, UInt32.le_iff_toNat_le, ← Bool.not_eq_true] at h ⊢
  rcases h with h | rfl
  · have ha : 'a'.val.toNat = 97 := rfl
    have hA : 'A'.val.toNat = 65 := rfl
    have h9 : '9'.val.toNat = 57 := rfl
    omega
  · decide

/-- A run of characters of a class, up to the first character outside it. -/
theorem takeWhile_append_stop {p : Char → Bool} {run : List Char} (hrun : ∀ c ∈ run, p c = true)
    (after : List Char) (hafter : ∀ c ∈ after.head?, p c = false) :
    (run ++ after).takeWhile p = run ∧ (run ++ after).dropWhile p = after := by
  have hstop : after.takeWhile p = [] ∧ after.dropWhile p = after := by
    cases after with
    | nil => exact ⟨rfl, rfl⟩
    | cons c rest =>
      have hc := hafter c rfl
      exact ⟨List.takeWhile_cons_of_neg (by simp [hc]), List.dropWhile_cons_of_neg (by simp [hc])⟩
  rw [List.takeWhile_append_of_pos hrun, List.dropWhile_append_of_pos hrun, hstop.1, hstop.2]
  exact ⟨List.append_nil _, rfl⟩

theorem Separated.head_eq_false {p : Char → Bool} {after : List Char} (hafter : Separated after)
    (h : p ' ' = false ∧ p '\t' = false ∧ p '\r' = false ∧ p '\n' = false) :
    ∀ c ∈ after.head?, p c = false :=
  fun c hc => eq_false_of_isSpace h (hafter c hc)

theorem Separated.ne_bracket {after rest : List Char} (h : Separated after) :
    after ≠ '[' :: rest := by
  rintro rfl
  exact absurd (h '[' rfl) (by decide)

/-! ### Words -/

theorem ne_semicolon_of_isWordStart {c : Char} (h : isWordStart c = true) : c ≠ ';' := by
  rintro rfl
  exact absurd h (by decide)

theorem lexeme_of_isWordStart {c : Char} (h : isWordStart c = true) (cs : List Char) :
    lexeme c cs = .ofWord c cs := by
  rw [lexeme, if_neg (by simp [isDigit_eq_false_of_isWordStart h]), if_pos h]

/-- The text is a word without an index. -/
def isWord : List Char → Bool
  | [] => false
  | c :: cs => isWordStart c && cs.all isWordPart

theorem exists_of_isWord {cs : List Char} (h : isWord cs = true) :
    ∃ first rest, cs = first :: rest ∧ isWordStart first = true ∧
      ∀ c ∈ rest, isWordPart c = true := by
  match cs with
  | [] => exact absurd h (by decide)
  | first :: rest =>
    rw [isWord, Bool.and_eq_true, List.all_eq_true] at h
    exact ⟨first, rest, rfl, h.1, h.2⟩

theorem isSpace_of_mem_word {cs : List Char} (h : isWord cs = true) :
    ∀ c ∈ cs, isSpace c = false := by
  obtain ⟨first, rest, rfl, hfirst, hrest⟩ := exists_of_isWord h
  intro c hc
  rcases List.mem_cons.mp hc with rfl | hc
  · exact isSpace_eq_false (p := isWordStart) (by decide) hfirst
  · exact isSpace_eq_false (p := isWordPart) (by decide) (hrest c hc)

theorem isWord_append {cs ds : List Char} (h : isWord cs = true)
    (hds : ∀ c ∈ ds, isWordPart c = true) : isWord (cs ++ ds) = true := by
  obtain ⟨first, rest, rfl, hfirst, hrest⟩ := exists_of_isWord h
  rw [List.cons_append, isWord, Bool.and_eq_true, List.all_eq_true]
  refine ⟨hfirst, fun c hc => ?_⟩
  rcases List.mem_append.mp hc with hc | hc
  · exact hrest c hc
  · exact hds c hc

theorem isWordPart_of_mem_digits {n : Nat} : ∀ c ∈ Numeral.digits 10 n, isWordPart c = true := by
  intro c hc
  rw [isWordPart, Numeral.isDigit_of_mem_digits (by decide) (by decide) hc, Bool.or_true]

/-- A word. -/
theorem spells_word {w : String} (h : isWord w.toList = true) : Spells (.word w) w.toList where
  not_space := isSpace_of_mem_word h
  lexeme_eq := by
    obtain ⟨first, rest, hw, hfirst, hrest⟩ := exists_of_isWord h
    refine ⟨first, rest, hw, ne_semicolon_of_isWordStart hfirst, fun after hafter => ?_⟩
    obtain ⟨htake, hdrop⟩ := takeWhile_append_stop hrest after
      (hafter.head_eq_false (p := isWordPart) (by decide))
    rw [lexeme_of_isWordStart hfirst, Lexeme.ofWord]
    simp only [htake, hdrop, ← hw, String.ofList_toList]
    split
    next => exact absurd rfl hafter.ne_bracket
    next => rfl

theorem toList_bracketed (w : String) (n : Nat) :
    (w ++ "[" ++ Numeral.decimal n ++ "]").toList =
      w.toList ++ '[' :: (Numeral.digits 10 n ++ [']']) := by
  simp only [String.toList_append, Numeral.toList_decimal, List.append_assoc]
  rfl

/-- A word with an index in brackets. -/
theorem spells_indexed {w : String} (h : isWord w.toList = true) (n : Nat) :
    Spells (.word (w ++ "[" ++ Numeral.decimal n ++ "]"))
      (w ++ "[" ++ Numeral.decimal n ++ "]").toList where
  not_space := by
    intro c hc
    rw [toList_bracketed, List.mem_append, List.mem_cons, List.mem_append,
      List.mem_singleton] at hc
    rcases hc with hc | rfl | hc | rfl
    · exact isSpace_of_mem_word h c hc
    · decide
    · exact isSpace_eq_false (p := isWordPart) (by decide) (isWordPart_of_mem_digits c hc)
    · decide
  lexeme_eq := by
    have htext := toList_bracketed w n
    have hdigits : ∀ d ∈ Numeral.digits 10 n, isDigit d = true := fun d hd =>
      Numeral.isDigit_of_mem_digits (by decide) (by decide) hd
    obtain ⟨first, rest, hw, hfirst, hrest⟩ := exists_of_isWord h
    obtain ⟨d, ds, hds⟩ := List.exists_cons_of_ne_nil
      (Numeral.digits_ne_nil (show 2 ≤ 10 by decide) n)
    rw [hds] at hdigits htext
    rw [hw, List.cons_append] at htext
    refine ⟨first, _, htext, ne_semicolon_of_isWordStart hfirst, fun after hafter => ?_⟩
    obtain ⟨htake, hdrop⟩ := takeWhile_append_stop hrest ('[' :: d :: (ds ++ ']' :: after))
      (by rintro _ ⟨⟩; decide)
    obtain ⟨hindex, hclose⟩ := takeWhile_append_stop
      (fun e he => hdigits e (List.mem_cons_of_mem _ he)) (']' :: after) (by rintro _ ⟨⟩; decide)
    rw [lexeme_of_isWordStart hfirst, Lexeme.ofWord, ← String.ofList_toList (s := _ ++ "]"), htext]
    simp only [List.append_assoc, List.cons_append, List.nil_append, htake, hdrop, hindex, hclose,
      hdigits d (List.mem_cons_self ..), if_true, String.toList_ofList]

/-! ### Numbers -/

theorem ne_semicolon_of_isDigit {c : Char} (h : isDigit c = true) : c ≠ ';' := by
  rintro rfl
  exact absurd h (by decide)

theorem lexeme_of_isDigit {c : Char} (h : isDigit c = true) (cs : List Char) :
    lexeme c cs = .ofNumber c cs := by
  rw [lexeme, if_pos h]

theorem ofDigits?_digits {base n : Nat} (hbase : 2 ≤ base) (hle : base ≤ 16) (h : n < UInt64.size) :
    ofDigits? base (Numeral.digits base n) = some (.number (UInt64.ofNat n)) := by
  rw [ofDigits?, Numeral.value?_digits hbase hle, Option.filter_some_pos (by simpa using h)]
  rfl

/-- The character after the first digit of a decimal number is no hexadecimal mark. -/
theorem isMark_head_append {cs after : List Char} {x : Char} (hcs : ∀ d ∈ cs, isDigit d = true)
    (hafter : Separated after) (hx : x ∈ (cs ++ after).head?) : (x == 'x' || x == 'X') = false := by
  cases cs with
  | nil => exact hafter.head_eq_false (p := fun x => x == 'x' || x == 'X') (by decide) x hx
  | cons d ds =>
    obtain rfl : d = x := by simpa using hx
    have hd := hcs d (List.mem_cons_self ..)
    cases hmark : (d == 'x' || d == 'X') with
    | false => rfl
    | true =>
      rw [Bool.or_eq_true, beq_iff_eq, beq_iff_eq] at hmark
      rcases hmark with rfl | rfl <;> exact absurd hd (by decide)

/-- A decimal number. -/
theorem spells_decimal {n : Nat} (h : n < UInt64.size) :
    Spells (.number (UInt64.ofNat n)) (Numeral.decimal n).toList where
  not_space := by
    rw [Numeral.toList_decimal]
    exact fun c hc => isSpace_eq_false (p := isWordPart) (by decide) (isWordPart_of_mem_digits c hc)
  lexeme_eq := by
    rw [Numeral.toList_decimal]
    have hdigits : ∀ d ∈ Numeral.digits 10 n, isDigit d = true := fun d hd =>
      Numeral.isDigit_of_mem_digits (by decide) (by decide) hd
    have htoken := ofDigits?_digits (show 2 ≤ 10 by decide) (by decide) h
    obtain ⟨c, cs, hcs⟩ := List.exists_cons_of_ne_nil
      (Numeral.digits_ne_nil (show 2 ≤ 10 by decide) n)
    rw [hcs] at hdigits htoken ⊢
    have hc := hdigits c (List.mem_cons_self ..)
    refine ⟨c, cs, rfl, ne_semicolon_of_isDigit hc, fun after hafter => ?_⟩
    obtain ⟨htake, hdrop⟩ := takeWhile_append_stop
      (fun d hd => hdigits d (List.mem_cons_of_mem _ hd)) after
      (hafter.head_eq_false (p := isDigit) (by decide))
    rw [lexeme_of_isDigit hc]
    unfold Lexeme.ofNumber
    split
    next x y rest heq =>
      -- The second character is a digit or a space, so there is no mark.
      have hmark := isMark_head_append (fun d hd => hdigits d (List.mem_cons_of_mem _ hd)) hafter
        (x := x) (by rw [heq]; rfl)
      rw [hmark, Bool.false_and, if_neg (by decide)]
      simp only [htake, hdrop, htoken]
    next => simp only [htake, hdrop, htoken]

/-- A hexadecimal number. -/
theorem spells_hex (w : UInt64) : Spells (.number w) (Numeral.hex w.toNat).toList where
  not_space := by
    intro c hc
    rw [Numeral.toList_hex, List.mem_cons, List.mem_cons] at hc
    rcases hc with rfl | rfl | hc
    · decide
    · decide
    · exact isSpace_eq_false (p := isHexDigit) (by decide)
        (Numeral.isHexDigit_of_mem_digits (by decide) (by decide) hc)
  lexeme_eq := by
    have hdigits : ∀ d ∈ Numeral.digits 16 w.toNat, isHexDigit d = true := fun d hd =>
      Numeral.isHexDigit_of_mem_digits (by decide) (by decide) hd
    have htoken := ofDigits?_digits (show 2 ≤ 16 by decide) (by decide) w.toNat_lt
    obtain ⟨d, ds, hds⟩ := List.exists_cons_of_ne_nil
      (Numeral.digits_ne_nil (show 2 ≤ 16 by decide) w.toNat)
    rw [Numeral.toList_hex, hds]
    rw [hds] at hdigits
    rw [hds, UInt64.ofNat_toNat] at htoken
    refine ⟨'0', 'x' :: d :: ds, rfl, by decide, fun after hafter => ?_⟩
    obtain ⟨htake, hdrop⟩ := takeWhile_append_stop
      (fun e he => hdigits e (List.mem_cons_of_mem _ he)) after
      (hafter.head_eq_false (p := isHexDigit) (by decide))
    rw [lexeme_of_isDigit (by decide)]
    simp only [Lexeme.ofNumber, List.cons_append, hdigits d (List.mem_cons_self ..), htake, hdrop,
      htoken]
    rfl

/-! ### Lines -/

theorem scanFrom_space {c : Char} (h : isSpace c = true) (column : Nat) (cs : List Char) :
    scanFrom column (c :: cs) = scanFrom (column + 1) cs := by
  rw [scanFrom, if_pos h]

/-- A spelled token, up to a separator. -/
theorem Spells.scanFrom_append {t : Token} {cs : List Char} (h : t.Spells cs)
    (after : List Char) (hafter : Separated after) (column : Nat) :
    scanFrom column (cs ++ after) =
      (scanFrom (column + byteLength cs) after).map (t :: ·) := by
  obtain ⟨first, rest, rfl, hfirst, hlexeme⟩ := h.lexeme_eq
  have hspace := h.not_space first (List.mem_cons_self ..)
  rw [List.cons_append, scanFrom, if_neg (by simp [hspace]), if_neg hfirst, hlexeme after hafter]
  rfl

/-- A line of spelled tokens, with a blank between any two of them. -/
inductive SpellsLine : List Token → List Char → Prop
  | single {t : Token} {cs : List Char} (h : t.Spells cs) : SpellsLine [t] cs
  | cons {t : Token} {ts : List Token} {cs rest : List Char} (h : t.Spells cs)
    (hrest : SpellsLine ts rest) : SpellsLine (t :: ts) (cs ++ ' ' :: rest)

theorem SpellsLine.scanFrom {ts : List Token} {cs : List Char} (h : SpellsLine ts cs)
    (column : Nat) : scanFrom column cs = .ok ts := by
  induction h generalizing column with
  | single h =>
    have hscan := h.scanFrom_append [] (by rintro _ ⟨⟩) column
    rw [List.append_nil, Token.scanFrom] at hscan
    exact hscan
  | cons h _ ih =>
    rw [h.scanFrom_append _ (by rintro _ ⟨⟩; decide), scanFrom_space (by decide), ih]
    rfl

/-- **Tokens read back.** -/
theorem SpellsLine.scan {ts : List Token} {text : String} (h : SpellsLine ts text.toList) :
    scan text = .ok ts :=
  h.scanFrom 0

theorem Spells.oneLine {t : Token} {cs : List Char} (h : t.Spells cs) : OneLine cs := by
  intro c hc
  have hspace := h.not_space c hc
  refine ⟨?_, ?_⟩
  · rintro rfl
    exact absurd hspace (by decide)
  · rintro rfl
    exact absurd hspace (by decide)

theorem SpellsLine.oneLine {ts : List Token} {cs : List Char} (h : SpellsLine ts cs) :
    OneLine cs := by
  induction h with
  | single h => exact h.oneLine
  | cons h _ ih =>
    refine h.oneLine.append fun c hc => ?_
    rcases List.mem_cons.mp hc with rfl | hc
    · decide
    · exact ih c hc

/-- A comment has no tokens. -/
theorem scan_comment {text : String} {cs : List Char} (htext : text.toList = ';' :: cs)
    (hcs : OneLine cs) : scan text = .ok [] := by
  have hline : ∀ c ∈ cs, (c != '\n') = true := fun c hc => by simpa using (hcs c hc).1
  have hrest := (takeWhile_append_stop hline [] (by rintro _ ⟨⟩)).2
  rw [List.append_nil] at hrest
  rw [scan, htext, scanFrom, if_neg (by decide), if_pos rfl, hrest, scanFrom]

end Token

end NearMemory
