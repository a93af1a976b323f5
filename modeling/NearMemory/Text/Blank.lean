/-!
# Blanks, words and lines

Texts are cut in two ways: into lines, at each line feed, and into words, at each run of blank
characters. A blank is any character of the Unicode property `White_Space`.

## Main definitions

* `isBlank` — the property `White_Space`
* `cutAt` — the pieces of a list between the elements that satisfy a predicate
* `words` — the maximal runs of characters that are not blank
* `lines` — the lines of a text, without their line ends
-/

namespace NearMemory

/-- Characters with the Unicode property `White_Space`. -/
def isBlank (c : Char) : Bool :=
  let n := c.toNat
  (9 ≤ n && n ≤ 13) || n == 0x20 || n == 0x85 || n == 0xa0 || n == 0x1680
    || (0x2000 ≤ n && n ≤ 0x200a) || n == 0x2028 || n == 0x2029 || n == 0x202f || n == 0x205f
    || n == 0x3000

/-- The pieces of a list between the elements that satisfy `p`. There is one piece more than there
are such elements. -/
def cutAt {α : Type} (p : α → Bool) (xs : List α) : List (List α) :=
  xs.foldr
    (fun x pieces =>
      if p x then [] :: pieces
      else match pieces with
        | [] => [[x]]
        | piece :: rest => (x :: piece) :: rest)
    [[]]

/-- The words of a text: the maximal runs of characters that are not blank. -/
def words (cs : List Char) : List (List Char) :=
  (cutAt isBlank cs).filter (!·.isEmpty)

/-- The pieces of a text that a terminator ends, and a last piece that none ends unless it is
empty. -/
def terminatedBy {α : Type} (p : α → Bool) (xs : List α) : List (List α) :=
  let pieces := cutAt p xs
  if pieces.getLast?.getD [] |>.isEmpty then pieces.dropLast else pieces

/-- One carriage return less at the end, if there is one. -/
def dropReturn (cs : List Char) : List Char :=
  if cs.getLast? = some '\r' then cs.dropLast else cs

/-- The lines of a text. A line ends at a line feed, or at a carriage return and a line feed; the
last line may lack its end. -/
def lines (text : String) : List String :=
  let pieces := cutAt (· == '\n') text.toList
  let last := pieces.getLast?.getD []
  let ended := pieces.dropLast.map dropReturn
  (if last.isEmpty then ended else ended ++ [last]).map String.ofList

end NearMemory
