import NearMemory.OperandStream

/-!
# Lines and words read back

A text that is put together from lines falls apart into the same lines, and a line that is put
together from words falls apart into the same words. Both are cuts at separators, and both hold as
soon as no separator occurs inside a piece.

## Main results

* `cutAt_append_cons`, `cutAt_of_forall` — the pieces before and after a separator
* `lines_unlines` — the lines of a text of lines
* `terminatedBy_unlines` — the same for operand streams, which keep carriage returns
* `words_intercalate` — the words of a line of words
-/

namespace NearMemory

/-! ### Cuts -/

section Cut

variable {α : Type} {p : α → Bool}

theorem cutAt_cons_of_pos {x : α} (h : p x = true) (xs : List α) :
    cutAt p (x :: xs) = [] :: cutAt p xs := by
  simp [cutAt, h]

theorem cutAt_cons_of_neg {x : α} {xs piece : List α} {rest : List (List α)} (h : p x = false)
    (hxs : cutAt p xs = piece :: rest) : cutAt p (x :: xs) = (x :: piece) :: rest := by
  rw [cutAt] at hxs ⊢
  rw [List.foldr_cons, hxs, h]
  rfl

/-- A list without a separator is one piece. -/
theorem cutAt_of_forall {xs : List α} (h : ∀ x ∈ xs, p x = false) : cutAt p xs = [xs] := by
  induction xs with
  | nil => rfl
  | cons x xs ih =>
    exact cutAt_cons_of_neg (h x (List.mem_cons_self ..))
      (ih fun y hy => h y (List.mem_cons_of_mem _ hy))

/-- The first separator ends the first piece. -/
theorem cutAt_append_cons {xs : List α} {x : α} (hxs : ∀ y ∈ xs, p y = false) (hx : p x = true)
    (ys : List α) : cutAt p (xs ++ x :: ys) = xs :: cutAt p ys := by
  induction xs with
  | nil => exact cutAt_cons_of_pos hx ys
  | cons y xs ih =>
    exact cutAt_cons_of_neg (hxs y (List.mem_cons_self ..))
      (ih fun z hz => hxs z (List.mem_cons_of_mem _ hz))

/-- Pieces that end with a separator each, and nothing behind the last one. -/
theorem cutAt_flatMap {x : α} {pieces : List (List α)} (hx : p x = true)
    (h : ∀ piece ∈ pieces, ∀ y ∈ piece, p y = false) :
    cutAt p (pieces.flatMap (· ++ [x])) = pieces ++ [[]] := by
  induction pieces with
  | nil => rfl
  | cons piece rest ih =>
    rw [List.flatMap_cons, List.append_assoc, List.singleton_append,
      cutAt_append_cons (h piece (List.mem_cons_self ..)) hx,
      ih fun q hq => h q (List.mem_cons_of_mem _ hq), List.cons_append]

theorem cutAt_ne_nil (xs : List α) : cutAt p xs ≠ [] := by
  cases xs with
  | nil => exact List.cons_ne_nil _ _
  | cons x xs =>
    rw [cutAt, List.foldr_cons]
    split
    · exact List.cons_ne_nil _ _
    · split <;> exact List.cons_ne_nil _ _

/-- A separator divides the pieces before it from those after it. -/
theorem cutAt_append_separator {x : α} (hx : p x = true) (xs ys : List α) :
    cutAt p (xs ++ x :: ys) = cutAt p xs ++ cutAt p ys := by
  induction xs with
  | nil => exact cutAt_cons_of_pos hx ys
  | cons z xs ih =>
    rw [List.cons_append]
    cases hz : p z with
    | true => rw [cutAt_cons_of_pos hz, cutAt_cons_of_pos hz, ih, List.cons_append]
    | false =>
      obtain ⟨piece, rest, hxs⟩ := List.exists_cons_of_ne_nil (cutAt_ne_nil (p := p) xs)
      rw [hxs, List.cons_append] at ih
      rw [cutAt_cons_of_neg hz ih, cutAt_cons_of_neg hz hxs, List.cons_append]

/-- Behind a terminator the pieces of what follows are added. -/
theorem terminatedBy_append_separator {x : α} (hx : p x = true) (xs ys : List α) :
    terminatedBy p (xs ++ x :: ys) = cutAt p xs ++ terminatedBy p ys := by
  have hlast : (cutAt p xs ++ cutAt p ys).getLast? = (cutAt p ys).getLast? := by
    rw [List.getLast?_append, List.getLast?_eq_some_getLast (cutAt_ne_nil ys), Option.some_or]
  rw [terminatedBy, terminatedBy, cutAt_append_separator hx, hlast,
    List.dropLast_append_of_ne_nil (cutAt_ne_nil ys)]
  split <;> rfl

theorem terminatedBy_append {xs : List α} (h : ∀ x ∈ xs.getLast?, p x = true) (ys : List α) :
    terminatedBy p (xs ++ ys) = terminatedBy p xs ++ terminatedBy p ys := by
  rcases List.eq_nil_or_concat xs with rfl | ⟨front, x, rfl⟩
  · rfl
  · have hx : p x = true := h x (by simp)
    rw [List.concat_eq_append, List.append_assoc, List.singleton_append,
      terminatedBy_append_separator hx, terminatedBy_append_separator hx]
    exact congrArg (· ++ terminatedBy p ys) (List.append_nil _).symm

theorem terminatedBy_flatMap {x : α} {pieces : List (List α)} (hx : p x = true)
    (h : ∀ piece ∈ pieces, ∀ y ∈ piece, p y = false) :
    terminatedBy p (pieces.flatMap (· ++ [x])) = pieces := by
  rw [terminatedBy, cutAt_flatMap hx h]
  simp

end Cut

/-! ### Lines -/

theorem toList_unlines (ls : List String) :
    (unlines ls).toList = (ls.map String.toList).flatMap (· ++ ['\n']) := by
  simp only [unlines, String.toList_join, List.flatMap_map, String.toList_append]
  rfl

/-- The text holds no line feed and no carriage return. -/
def OneLine (cs : List Char) : Prop := ∀ c ∈ cs, c ≠ '\n' ∧ c ≠ '\r'

instance (cs : List Char) : Decidable (OneLine cs) := List.decidableBAll _ cs

theorem OneLine.append {cs ds : List Char} (hcs : OneLine cs) (hds : OneLine ds) :
    OneLine (cs ++ ds) := by
  intro c hc
  rcases List.mem_append.mp hc with hc | hc
  · exact hcs c hc
  · exact hds c hc

theorem oneLine_append_iff {cs ds : List Char} :
    OneLine (cs ++ ds) ↔ OneLine cs ∧ OneLine ds :=
  ⟨fun h => ⟨fun c hc => h c (List.mem_append_left ds hc),
    fun c hc => h c (List.mem_append_right cs hc)⟩, fun h => h.1.append h.2⟩

/-- Numbers in remarks. -/
theorem oneLine_toString (n : Nat) : OneLine (toString n).toList := by
  intro c hc
  have hdigit : c.isDigit = true := by
    rw [show toString n = n.repr from rfl, Nat.toList_repr] at hc
    exact Nat.isDigit_of_mem_toDigits (by decide) (by decide) hc
  constructor
  · rintro rfl
    exact absurd hdigit (by decide)
  · rintro rfl
    exact absurd hdigit (by decide)

theorem OneLine.dropReturn {cs : List Char} (h : OneLine cs) : dropReturn cs = cs := by
  rw [NearMemory.dropReturn, if_neg]
  intro hlast
  exact (h '\r' (List.mem_of_getLast? hlast)).2 rfl

/-- **Lines read back.** -/
theorem lines_unlines {ls : List String} (h : ∀ l ∈ ls, OneLine l.toList) :
    lines (unlines ls) = ls := by
  have hpieces : ∀ piece ∈ ls.map String.toList, ∀ c ∈ piece, (c == '\n') = false := by
    intro piece hpiece c hc
    obtain ⟨l, hl, rfl⟩ := List.mem_map.mp hpiece
    simpa using (h l hl c hc).1
  have hreturn : (ls.map String.toList).map dropReturn = ls.map String.toList := by
    rw [List.map_map]
    refine List.map_congr_left fun l hl => ?_
    exact (h l hl).dropReturn
  rw [lines, toList_unlines, cutAt_flatMap (by decide) hpieces]
  simp [hreturn]

theorem terminatedBy_unlines_of_not_mem {ls : List String} (h : ∀ l ∈ ls, '\n' ∉ l.toList) :
    terminatedBy (· == '\n') (unlines ls).toList = ls.map String.toList := by
  rw [toList_unlines]
  refine terminatedBy_flatMap (by decide) ?_
  intro piece hpiece c hc
  obtain ⟨l, hl, rfl⟩ := List.mem_map.mp hpiece
  exact beq_false_of_ne fun heq => h l hl (heq ▸ hc)

theorem terminatedBy_unlines {ls : List String} (h : ∀ l ∈ ls, OneLine l.toList) :
    terminatedBy (· == '\n') (unlines ls).toList = ls.map String.toList :=
  terminatedBy_unlines_of_not_mem fun l hl hmem => (h l hl '\n' hmem).1 rfl

/-! ### Words -/

theorem words_of_forall {w : List Char} (hw : w ≠ []) (h : ∀ c ∈ w, isBlank c = false) :
    words w = [w] := by
  rw [words, cutAt_of_forall h]
  simp [hw]

theorem words_append_blank {w : List Char} (hw : w ≠ []) (h : ∀ c ∈ w, isBlank c = false)
    (rest : List Char) : words (w ++ ' ' :: rest) = w :: words rest := by
  rw [words, cutAt_append_cons h (by decide), words]
  simp [hw]

/-- **Words read back.** -/
theorem words_intercalate {ws : List (List Char)}
    (h : ∀ w ∈ ws, w ≠ [] ∧ ∀ c ∈ w, isBlank c = false) : words ([' '].intercalate ws) = ws := by
  match ws with
  | [] => rfl
  | [w] =>
    rw [List.intercalate_singleton]
    exact words_of_forall (h w (by simp)).1 (h w (by simp)).2
  | w :: w' :: rest =>
    have ih := words_intercalate fun v hv => h v (List.mem_cons_of_mem w hv)
    rw [List.intercalate_cons_cons, List.append_assoc, List.singleton_append,
      words_append_blank (h w (by simp)).1 (h w (by simp)).2, ih]

end NearMemory
