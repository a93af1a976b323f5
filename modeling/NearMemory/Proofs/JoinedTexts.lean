import NearMemory.Proofs.TokenText
import NearMemory.Statement.Reader
import Mathlib.Data.List.TakeWhile

/-!
# Texts joined at blanks

The scanner takes as much as it can at once, so that in general the tokens of a text depend on what
follows it: `0x` is a number and a word, and `0x1` is one number. A blank puts an end to this. No
class of characters that the scanner runs through has a blank in it, and neither a mark nor a
bracket is completed by one; so what is taken before a blank is what would be taken at the end of
the text (`Token.lexeme_append`).

From there on a text that a blank separates from what follows can be scanned by itself. Its tokens
come first, and what follows is scanned as if it stood alone, except that its errors are found
further on in the line (`Token.scanFrom_append`). The one thing to look out for is a comment: it
runs to the end of its line, over any blank. Either there is none, or what follows has no tokens and
stays on the same line, as a trailing comment does.

## Main definitions

* `Token.Lexeme.before` — what is taken when more text follows
* `Token.Marked`, `Token.Indexed` — what makes a number hexadecimal and may give a word an index
* `ScanError.shifted` — an error found further on in the line

## Main results

* `Token.lexeme_append` — a blank ends what is taken
* `Token.scanFrom_append` — a text and what a blank separates from it
* `Token.scan_append_blanks`, `Token.scan_append_comment` — texts joined at blanks, and trailing
  comments
-/

namespace NearMemory

/-! ### Lengths -/

theorem byteLength_cons (c : Char) (cs : List Char) :
    byteLength (c :: cs) = c.utf8Size + byteLength cs := rfl

theorem byteLength_append (cs ds : List Char) :
    byteLength (cs ++ ds) = byteLength cs + byteLength ds := by
  induction cs with
  | nil => exact (Nat.zero_add _).symm
  | cons c cs ih =>
    rw [List.cons_append, byteLength_cons, byteLength_cons, ih, Nat.add_assoc]

theorem byteLength_toList (text : String) : byteLength text.toList = text.utf8ByteSize := by
  rw [← String.ofList_toList (s := text), String.toList_ofList]
  induction text.toList with
  | nil => rfl
  | cons c cs ih =>
    rw [String.ofList_cons, String.utf8ByteSize_append, String.utf8ByteSize_singleton, ← ih]
    rfl

/-- The error of a text that stands some bytes further on in its line. -/
def ScanError.shifted (e : ScanError) (bytes : Nat) : ScanError :=
  { e with column := e.column + bytes }

namespace Token

theorem utf8Size_of_isSpace {c : Char} (h : isSpace c = true) : c.utf8Size = 1 := by
  rcases isSpace_iff.mp h with rfl | rfl | rfl | rfl <;> rfl

/-! ### What is taken at once -/

section Lexemes

variable {after : List Char}

/-- A run of characters of a class is not continued behind a separator. -/
theorem Separated.takeWhile_append (hafter : Separated after) {p : Char → Bool}
    (h : p ' ' = false ∧ p '\t' = false ∧ p '\r' = false ∧ p '\n' = false) (cs : List Char) :
    (cs ++ after).takeWhile p = cs.takeWhile p ∧
      (cs ++ after).dropWhile p = cs.dropWhile p ++ after := by
  induction cs with
  | nil => exact takeWhile_append_stop (List.forall_mem_nil _) after (hafter.head_eq_false h)
  | cons c cs ih =>
    cases hc : p c with
    | false => simp [hc]
    | true => simp [hc, ih.1, ih.2]

/-- What is taken before some text that follows: no more is taken, and that text is left as well. -/
def Lexeme.before (x : Lexeme) (after : List Char) : Lexeme := { x with rest := x.rest ++ after }

theorem Lexeme.taken_before (x : Lexeme) (after : List Char) :
    (x.before after).taken = x.taken := rfl

theorem Lexeme.rest_before (x : Lexeme) (after : List Char) :
    (x.before after).rest = x.rest ++ after := rfl

theorem Lexeme.token?_before (x : Lexeme) (after : List Char) :
    (x.before after).token? = x.token? := rfl

/-- A number is hexadecimal: a mark and a digit stand behind the zero. -/
def Marked (c : Char) (cs : List Char) : Prop :=
  ∃ x d rest, c = '0' ∧ cs = x :: d :: rest ∧ (x == 'x' || x == 'X') = true ∧ isHexDigit d = true

/-- A separator does not complete a mark: it is neither the mark nor the digit. -/
theorem Marked.of_append (hafter : Separated after) {c : Char} {cs : List Char}
    (h : Marked c (cs ++ after)) : Marked c cs := by
  obtain ⟨x, d, rest, hc, heq, hx, hd⟩ := h
  rcases cs with _ | ⟨y, _ | ⟨e, ys⟩⟩
  · rw [List.nil_append] at heq
    subst heq
    have hblank := eq_false_of_isSpace (p := fun x => x == 'x' || x == 'X') (by decide)
      (hafter x rfl)
    exact absurd hx (ne_true_of_eq_false hblank)
  · obtain ⟨-, rfl⟩ := List.cons.inj heq
    have hblank := eq_false_of_isSpace (p := isHexDigit) (by decide) (hafter d rfl)
    exact absurd hd (ne_true_of_eq_false hblank)
  · obtain ⟨rfl, htail⟩ := List.cons.inj heq
    obtain ⟨rfl, -⟩ := List.cons.inj htail
    exact ⟨y, e, ys, hc, rfl, hx, hd⟩

theorem Lexeme.ofNumber_of_not_marked {c : Char} {cs : List Char} (h : ¬ Marked c cs) :
    Lexeme.ofNumber c cs =
      ⟨c :: cs.takeWhile isDigit, cs.dropWhile isDigit,
        ofDigits? 10 (c :: cs.takeWhile isDigit)⟩ := by
  unfold ofNumber
  split
  next x d rest =>
    refine if_neg fun hmark => h ?_
    obtain ⟨hx, hd⟩ := Bool.and_eq_true_iff.mp hmark
    exact ⟨x, d, rest, rfl, rfl, hx, hd⟩
  next => rfl

theorem Lexeme.ofNumber_append (hafter : Separated after) (c : Char) (cs : List Char) :
    Lexeme.ofNumber c (cs ++ after) = (Lexeme.ofNumber c cs).before after := by
  by_cases hmark : Marked c cs
  · obtain ⟨x, d, rest, rfl, rfl, hx, hd⟩ := hmark
    obtain ⟨htake, hdrop⟩ := hafter.takeWhile_append (p := isHexDigit) (by decide) rest
    simp only [ofNumber, List.cons_append, hx, hd, Bool.and_self, if_true, htake, hdrop]
    rfl
  · obtain ⟨htake, hdrop⟩ := hafter.takeWhile_append (p := isDigit) (by decide) cs
    rw [ofNumber_of_not_marked hmark, ofNumber_of_not_marked (mt (Marked.of_append hafter) hmark),
      htake, hdrop]
    rfl

/-- A word may have an index: an opening bracket and a digit stand behind it. -/
def Indexed (cs : List Char) : Prop :=
  ∃ d inner, cs.dropWhile isWordPart = '[' :: d :: inner ∧ isDigit d = true

theorem Indexed.of_append (hafter : Separated after) {cs : List Char}
    (h : Indexed (cs ++ after)) : Indexed cs := by
  obtain ⟨d, inner, heq, hd⟩ := h
  rw [(hafter.takeWhile_append (p := isWordPart) (by decide) cs).2] at heq
  rcases hrest : cs.dropWhile isWordPart with _ | ⟨b, _ | ⟨e, more⟩⟩ <;> rw [hrest] at heq
  · exact absurd heq hafter.ne_bracket
  · obtain ⟨-, rfl⟩ := List.cons.inj heq
    have hblank := eq_false_of_isSpace (p := isDigit) (by decide) (hafter d rfl)
    exact absurd hd (ne_true_of_eq_false hblank)
  · obtain ⟨rfl, htail⟩ := List.cons.inj heq
    obtain ⟨rfl, -⟩ := List.cons.inj htail
    exact ⟨e, more, hrest, hd⟩

theorem Lexeme.ofWord_of_not_indexed {c : Char} {cs : List Char} (h : ¬ Indexed cs) :
    Lexeme.ofWord c cs =
      ⟨c :: cs.takeWhile isWordPart, cs.dropWhile isWordPart,
        some (.word (String.ofList (c :: cs.takeWhile isWordPart)))⟩ := by
  unfold ofWord
  dsimp only
  split
  next d inner heq => exact if_neg fun hd => h ⟨d, inner, heq, hd⟩
  next => rfl

theorem Lexeme.ofWord_append (hafter : Separated after) (c : Char) (cs : List Char) :
    Lexeme.ofWord c (cs ++ after) = (Lexeme.ofWord c cs).before after := by
  obtain ⟨htake, hdrop⟩ := hafter.takeWhile_append (p := isWordPart) (by decide) cs
  by_cases hindex : Indexed cs
  · obtain ⟨d, inner, hrest, hd⟩ := hindex
    obtain ⟨hrun, hclose⟩ := hafter.takeWhile_append (p := isDigit) (by decide) inner
    simp only [ofWord, htake, hdrop, hrest, List.cons_append, hd, if_true, hrun, hclose]
    -- both texts have the same character behind the digits, unless the text ends there
    rcases inner.dropWhile isDigit with _ | ⟨b, more⟩
    · rw [List.nil_append]
      split
      next => exact absurd (hafter ']' rfl) (by decide)
      next => rfl
    · rw [List.cons_append]
      split
      next hb =>
        obtain ⟨rfl, rfl⟩ := List.cons.inj hb
        rfl
      next hb =>
        split
        next hb' =>
          obtain ⟨rfl, rfl⟩ := List.cons.inj hb'
          exact absurd rfl (hb _)
        next => rfl
  · rw [ofWord_of_not_indexed hindex, ofWord_of_not_indexed (mt (Indexed.of_append hafter) hindex),
      htake, hdrop]
    rfl

theorem lexeme_append (hafter : Separated after) (c : Char) (cs : List Char) :
    lexeme c (cs ++ after) = (lexeme c cs).before after := by
  unfold lexeme
  split
  · exact Lexeme.ofNumber_append hafter c cs
  split
  · exact Lexeme.ofWord_append hafter c cs
  · rfl

theorem Lexeme.taken_append_rest_ofNumber (c : Char) (cs : List Char) :
    (Lexeme.ofNumber c cs).taken ++ (Lexeme.ofNumber c cs).rest = c :: cs := by
  unfold ofNumber
  split
  next x d rest => split <;> simp
  next => simp

theorem Lexeme.taken_append_rest_ofWord (c : Char) (cs : List Char) :
    (Lexeme.ofWord c cs).taken ++ (Lexeme.ofWord c cs).rest = c :: cs := by
  have hstem := List.takeWhile_append_dropWhile (p := isWordPart) (l := cs)
  unfold ofWord
  dsimp only
  split
  next d inner hrest =>
    rw [hrest] at hstem
    split
    · have hrun := List.takeWhile_append_dropWhile (p := isDigit) (l := inner)
      split
      next after hclose =>
        rw [hclose] at hrun
        simp [hrun, hstem]
      next => simp [hrun, hstem]
    · simp [hrest, hstem]
  next => simp

theorem taken_append_rest (c : Char) (cs : List Char) :
    (lexeme c cs).taken ++ (lexeme c cs).rest = c :: cs := by
  unfold lexeme
  split
  · exact Lexeme.taken_append_rest_ofNumber c cs
  split
  · exact Lexeme.taken_append_rest_ofWord c cs
  · rfl

end Lexemes

/-! ### One step of the scanner -/

theorem scanFrom_nil (column : Nat) : scanFrom column [] = .ok [] := by
  rw [scanFrom]

theorem scanFrom_comment (column : Nat) (cs : List Char) :
    scanFrom column (';' :: cs) =
      scanFrom (column + 1 + byteLength (cs.takeWhile (· != '\n'))) (cs.dropWhile (· != '\n')) := by
  rw [scanFrom, if_neg (by decide), if_pos rfl]

theorem scanFrom_no_token {c : Char} {cs : List Char} (hspace : ¬ isSpace c = true)
    (hcomment : c ≠ ';') (htoken : (lexeme c cs).token? = none) (column : Nat) :
    scanFrom column (c :: cs) = .error ⟨column, String.ofList (lexeme c cs).taken⟩ := by
  rw [scanFrom, if_neg hspace, if_neg hcomment]
  simp only [htoken]

theorem scanFrom_token {c : Char} {cs : List Char} (hspace : ¬ isSpace c = true)
    (hcomment : c ≠ ';') {token : Token} (htoken : (lexeme c cs).token? = some token)
    (column : Nat) :
    scanFrom column (c :: cs) =
      (scanFrom (column + byteLength (lexeme c cs).taken) (lexeme c cs).rest).map (token :: ·) := by
  rw [scanFrom, if_neg hspace, if_neg hcomment]
  simp only [htoken]
  rfl

/-- Only the columns of errors depend on where a text stands. -/
theorem scanFrom_add (column bytes : Nat) (cs : List Char) :
    scanFrom (column + bytes) cs = (scanFrom column cs).mapError (·.shifted bytes) := by
  induction column, cs using scanFrom.induct with
  | case1 column =>
    rw [scanFrom_nil, scanFrom_nil]
    rfl
  | case2 column c rest hspace ih =>
    rw [scanFrom_space hspace, scanFrom_space hspace, Nat.add_right_comm, ih]
  | case3 column rest hspace ih =>
    rw [scanFrom_comment, scanFrom_comment, ← ih]
    congr 1
    omega
  | case4 column c rest hspace hcomment found =>
    rename_i hnone
    rw [scanFrom_no_token hspace hcomment hnone, scanFrom_no_token hspace hcomment hnone]
    rfl
  | case5 column c rest hspace hcomment found token htoken =>
    rename_i ih
    rw [scanFrom_token hspace hcomment htoken, scanFrom_token hspace hcomment htoken,
      Nat.add_right_comm, ih]
    cases scanFrom (column + byteLength found.taken) found.rest <;> rfl

/-- A run of blanks only moves what stands behind it. -/
theorem scanFrom_blanks {blanks : List Char} (h : ∀ c ∈ blanks, isSpace c = true) (column : Nat)
    (cs : List Char) :
    scanFrom column (blanks ++ cs) = scanFrom (column + byteLength blanks) cs := by
  induction blanks generalizing column with
  | nil => rfl
  | cons c rest ih =>
    have hc := h c (List.mem_cons_self ..)
    rw [List.cons_append, scanFrom_space hc, ih fun d hd => h d (List.mem_cons_of_mem c hd)]
    rw [byteLength_cons, utf8Size_of_isSpace hc, Nat.add_assoc]

/-- Without a line feed a comment does not end. -/
theorem dropWhile_of_oneLine {cs : List Char} (h : '\n' ∉ cs) :
    cs.dropWhile (· != '\n') = [] := by
  rw [List.dropWhile_eq_nil_iff]
  intro c hc
  rw [bne_iff_ne]
  rintro rfl
  exact h hc

/-- A comment that ends in the text ends there whatever follows. -/
theorem comment_append {cs : List Char} (h : cs.dropWhile (· != '\n') ≠ []) (after : List Char) :
    (cs ++ after).takeWhile (· != '\n') = cs.takeWhile (· != '\n') ∧
      (cs ++ after).dropWhile (· != '\n') = cs.dropWhile (· != '\n') ++ after := by
  have hcs := List.takeWhile_append_dropWhile (p := (· != '\n')) (l := cs)
  have hlength := congrArg List.length hcs
  have hpos := List.length_pos_iff.mpr h
  rw [List.length_append] at hlength
  rw [List.takeWhile_append, List.dropWhile_append, if_neg (by omega), if_neg (by simpa using h)]
  exact ⟨rfl, rfl⟩

/-- **A text and what a blank separates from it.** -/
theorem scanFrom_append {cs after : List Char} (hafter : Separated after)
    (hends : ';' ∉ cs ∨ '\n' ∉ after ∧ ∀ column, scanFrom column after = .ok [])
    (column : Nat) :
    scanFrom column (cs ++ after) = (scanFrom column cs).bind fun tokens =>
      (scanFrom (column + byteLength cs) after).map (tokens ++ ·) := by
  induction column, cs using scanFrom.induct with
  | case1 column =>
    rw [scanFrom_nil]
    show scanFrom column after = (scanFrom column after).map _
    cases scanFrom column after <;> rfl
  | case2 column c rest hspace ih =>
    have hrest := hends.imp_left fun h hc => h (List.mem_cons_of_mem c hc)
    rw [List.cons_append, scanFrom_space hspace, scanFrom_space hspace, ih hrest, byteLength_cons,
      utf8Size_of_isSpace hspace, Nat.add_assoc]
  | case3 column rest hspace ih =>
    rcases hends with hno | ⟨hline, hnothing⟩
    · exact absurd (List.mem_cons_self ..) hno
    rw [List.cons_append, scanFrom_comment, scanFrom_comment]
    by_cases hend : rest.dropWhile (· != '\n') = []
    · have hdrop : (rest ++ after).dropWhile (· != '\n') = [] := by
        rw [List.dropWhile_append, hend, List.isEmpty_nil, if_pos rfl, dropWhile_of_oneLine hline]
      rw [hend, hdrop, scanFrom_nil, scanFrom_nil, hnothing]
      rfl
    · obtain ⟨htake, hdrop⟩ := comment_append hend after
      rw [htake, hdrop, ih (.inr ⟨hline, hnothing⟩), hnothing, hnothing]
  | case4 column c rest hspace hcomment found =>
    rename_i hnone
    have happend := lexeme_append hafter c rest
    have hnone' : (lexeme c (rest ++ after)).token? = none := by
      rw [happend, Lexeme.token?_before]
      exact hnone
    rw [List.cons_append, scanFrom_no_token hspace hcomment hnone,
      scanFrom_no_token hspace hcomment hnone', happend]
    rfl
  | case5 column c rest hspace hcomment found token htoken =>
    rename_i ih
    dsimp only [found] at htoken ih
    have happend := lexeme_append hafter c rest
    have htext := taken_append_rest c rest
    have hrest := hends.imp_left fun h hc => h (htext ▸ List.mem_append_right _ hc)
    have htoken' : (lexeme c (rest ++ after)).token? = some token := by
      rw [happend, Lexeme.token?_before, htoken]
    rw [List.cons_append, scanFrom_token hspace hcomment htoken',
      scanFrom_token hspace hcomment htoken, happend, Lexeme.taken_before, Lexeme.rest_before,
      ih hrest, ← htext, byteLength_append, ← Nat.add_assoc]
    cases scanFrom (column + byteLength (lexeme c rest).taken) (lexeme c rest).rest with
    | error e => rfl
    | ok tokens =>
      show Except.map _ (Except.map _ _) = Except.map _ _
      cases scanFrom (column + byteLength (lexeme c rest).taken + byteLength (lexeme c rest).rest)
        after <;> rfl

/-! ### Texts -/

theorem separated_append {blanks : List Char} (hne : blanks ≠ [])
    (h : ∀ c ∈ blanks, isSpace c = true) (cs : List Char) : Separated (blanks ++ cs) := by
  obtain ⟨c, rest, rfl⟩ := List.exists_cons_of_ne_nil hne
  rintro _ ⟨⟩
  exact h c (List.mem_cons_self ..)

theorem scan_append_blanks {a blanks : String} {tokens : List Token} (ha : scan a = .ok tokens)
    (hcomment : ';' ∉ a.toList) (hne : blanks ≠ "")
    (hblanks : ∀ c ∈ blanks.toList, isSpace c = true) (b : String) :
    scan (a ++ blanks ++ b) =
      ((scan b).map (tokens ++ ·)).mapError (·.shifted (a ++ blanks).utf8ByteSize) := by
  have hafter : Separated (blanks.toList ++ b.toList) :=
    separated_append (mt String.toList_eq_nil_iff.mp hne) hblanks b.toList
  have hbytes : byteLength a.toList + byteLength blanks.toList = (a ++ blanks).utf8ByteSize := by
    rw [← byteLength_append, ← String.toList_append, byteLength_toList]
  rw [scan, String.toList_append, String.toList_append, List.append_assoc,
    scanFrom_append hafter (.inl hcomment), ← scan, ha]
  show Except.map _ _ = _
  rw [scanFrom_blanks hblanks, Nat.add_assoc, hbytes, scanFrom_add, ← scan]
  cases scan b <;> rfl

theorem scan_append_comment (text : String) {comment : String} (h : '\n' ∉ comment.toList) :
    scan (text ++ " ;" ++ comment) = scan text := by
  have hcomment : ∀ column, scanFrom column (' ' :: ';' :: comment.toList) = .ok [] := by
    intro column
    rw [scanFrom_space (by decide), scanFrom_comment, dropWhile_of_oneLine h, scanFrom_nil]
  have hafter : Separated (' ' :: ';' :: comment.toList) := by
    rintro _ ⟨⟩
    rfl
  have hline : '\n' ∉ ' ' :: ';' :: comment.toList := by
    simpa using h
  rw [scan, String.toList_append, String.toList_append, List.append_assoc]
  show scanFrom 0 (text.toList ++ ' ' :: ';' :: comment.toList) = scan text
  rw [scanFrom_append hafter (.inr ⟨hline, hcomment⟩), hcomment, ← scan]
  cases scan text with
  | error e => rfl
  | ok tokens =>
    show Except.ok (tokens ++ []) = _
    rw [List.append_nil]

/-- **Texts joined at blanks.** The tokens of a text without comments come before those of what
follows the blanks; an error of what follows is found further on, by the bytes of the text and the
blanks. A trailing comment has no effect on a line, errors included. -/
theorem scan_joined :
    (∀ (a blanks b : String) (tokens : List Token), scan a = .ok tokens → ';' ∉ a.toList →
      blanks ≠ "" → (∀ c ∈ blanks.toList, isSpace c = true) →
        (∀ more, scan b = .ok more → scan (a ++ blanks ++ b) = .ok (tokens ++ more)) ∧
          ∀ e, scan b = .error e →
            scan (a ++ blanks ++ b) = .error ⟨e.column + (a ++ blanks).utf8ByteSize, e.text⟩) ∧
      ∀ (line : Nat) (text comment : String), '\n' ∉ comment.toList →
        Statement.ofLine line (text ++ " ;" ++ comment) = Statement.ofLine line text := by
  constructor
  · intro a blanks b tokens ha hcomment hne hblanks
    have hjoined := scan_append_blanks ha hcomment hne hblanks b
    constructor
    · intro more hb
      rw [hjoined, hb]
      rfl
    · intro e hb
      rw [hjoined, hb]
      rfl
  · intro line text comment hcomment
    rw [Statement.ofLine, scan_append_comment text hcomment, ← Statement.ofLine]

/-- A number in two parts, a character of two bytes that is no token, and a bracket that a trailing
comment does not close. -/
theorem scan_joined_unfinished :
    scan ("PERM 0x" ++ "\t\r " ++ "1F") =
        .ok ([.word "PERM", .number 0, .word "x"] ++ [.number 1, .word "F"]) ∧
      scan ("PERM 0x" ++ "\t\r " ++ "9 é") = .error ⟨2 + 10, "é"⟩ ∧
      Statement.ofLine 3 ("PERM VWR_0[1" ++ " ;" ++ "] 7") = Statement.ofLine 3 "PERM VWR_0[1" := by
  have hjoined := scan_joined.1 "PERM 0x" "\t\r "
  have ha : scan "PERM 0x" = .ok [.word "PERM", .number 0, .word "x"] := by decide +kernel
  have hblanks : ∀ c ∈ "\t\r ".toList, isSpace c = true := List.all_eq_true.mp (by decide)
  refine ⟨?_, ?_, scan_joined.2 3 "PERM VWR_0[1" "] 7" (by decide)⟩
  · exact (hjoined "1F" _ ha (by decide) (by decide) hblanks).1 _ (by decide +kernel)
  · exact (hjoined "9 é" _ ha (by decide) (by decide) hblanks).2 ⟨2, "é"⟩ (by decide +kernel)

end Token

end NearMemory
