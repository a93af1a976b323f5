import NearMemory.Proofs.StreamText

/-!
# Streams with remarks

The text of a stream may be annotated by hand: blank lines and remarks can stand anywhere between
the lines of the records. None of them is seen by a program. Whoever takes records one after the
other gets those that were written, each counted as it is taken, and learns from the first call
behind the last record that the stream has run out, whatever is left of the text.

A line is passed over for how it begins, so that one equation about the words of a line is enough:
blanks in front do not matter (`words_blanks_append`).

## Main definitions

* `PassedOver` — a line without a record
* `Annotates` — lines with such lines added anywhere
* `OperandStream.takeAll` — the results of calls in turn
* `OperandStream.takenInOrder` — what they are if the calls take some values in order

## Main results

* `OperandStream.takeFrom_passedOver` — no record is taken from a line without one
* `OperandStream.takeAll_annotated` — the records and addresses that were written are taken
-/

namespace NearMemory

/-! ### Lines without a record -/

/-- One line that holds no record: blanks and nothing else, or a remark behind blanks. -/
def PassedOver (l : String) : Prop :=
  '\n' ∉ l.toList ∧ ∃ blanks rest : List Char, l.toList = blanks ++ rest ∧
    (∀ c ∈ blanks, isBlank c = true) ∧ (rest = [] ∨ rest.head? = some '#')

/-- The second lines are the first with lines without a record added anywhere. -/
inductive Annotates : List String → List String → Prop
  /-- The end of both. -/
  | nil : Annotates [] []
  /-- A line of both. -/
  | line (l : String) {ls annotated : List String} (h : Annotates ls annotated) :
    Annotates (l :: ls) (l :: annotated)
  /-- A line that is added. -/
  | added {l : String} {ls annotated : List String} (hl : PassedOver l)
    (h : Annotates ls annotated) : Annotates ls (l :: annotated)

theorem words_cons_blank {c : Char} (hc : isBlank c = true) (cs : List Char) :
    words (c :: cs) = words cs := by
  rw [words, cutAt_cons_of_pos hc, words]
  rfl

theorem words_blanks_append {blanks : List Char} (h : ∀ c ∈ blanks, isBlank c = true)
    (cs : List Char) : words (blanks ++ cs) = words cs := by
  induction blanks with
  | nil => rfl
  | cons c blanks ih =>
    rw [List.cons_append, words_cons_blank (h c (List.mem_cons_self ..)),
      ih fun d hd => h d (List.mem_cons_of_mem c hd)]

/-- The first word begins where the line does, if it does not begin with a blank. -/
theorem exists_words_cons {c : Char} (hc : isBlank c = false) (cs : List Char) :
    ∃ w ws, words (c :: cs) = (c :: w) :: ws := by
  obtain ⟨piece, rest, hcut⟩ := List.exists_cons_of_ne_nil (cutAt_ne_nil (p := isBlank) cs)
  refine ⟨piece, rest.filter (!·.isEmpty), ?_⟩
  rw [words, cutAt_cons_of_neg hc hcut]
  rfl

theorem PassedOver.words {l : String} (h : PassedOver l) :
    words l.toList = [] ∨ ∃ w ws, words l.toList = ('#' :: w) :: ws := by
  obtain ⟨-, blanks, rest, hl, hblanks, hrest⟩ := h
  rw [hl, words_blanks_append hblanks]
  rcases hrest with rfl | hrest
  · exact .inl rfl
  · obtain ⟨cs, rfl⟩ := List.head?_eq_some_iff.mp hrest
    exact .inr (exists_words_cons (by decide) cs)

theorem Annotates.not_mem {ls annotated : List String} (h : Annotates ls annotated)
    (hls : ∀ l ∈ ls, '\n' ∉ l.toList) : ∀ l ∈ annotated, '\n' ∉ l.toList := by
  induction h with
  | nil => exact hls
  | line l _ ih =>
    rw [List.forall_mem_cons] at hls ⊢
    exact ⟨hls.1, ih hls.2⟩
  | added hl _ ih =>
    rw [List.forall_mem_cons]
    exact ⟨hl.1, ih hls⟩

theorem lines_recordsText (records : List (List UInt64)) :
    lines (recordsText records) = records.map hexWords := by
  refine lines_unlines fun l hl => ?_
  obtain ⟨record, -, rfl⟩ := List.mem_map.mp hl
  exact oneLine_hexWords record

namespace OperandStream

theorem takeFrom_passedOver {l : String} (h : PassedOver l) (kind : OperandKind)
    (consumed asmLine line : Nat) (rest : List StreamLine) :
    takeFrom kind consumed asmLine line (.text l.toList :: rest) =
      takeFrom kind consumed asmLine (line + 1) rest := by
  rw [takeFrom]
  rcases h.words with hwords | ⟨w, ws, hwords⟩
  · rw [hwords]
  · rw [hwords]
    rfl

/-! ### Calls in turn -/

/-- The results of calls in turn, for the given source lines, each with the number of records taken
by then. -/
def takeAll {α : Type} (take : OperandStream → Nat → OperandStream × Except AssemblyError α) :
    OperandStream → List Nat → List (Except AssemblyError α × Nat)
  | _, [] => []
  | c, asmLine :: rest =>
    let (next, result) := take c asmLine
    (result, next.consumed) :: takeAll take next rest

/-- The results of calls that take values in order, when `taken` records were taken before, and of
further calls on the stream that has then run out. -/
def takenInOrder {α : Type} (kind : OperandKind) (taken : Nat) (values : List α)
    (further : List Nat) : List (Except AssemblyError α × Nat) :=
  values.mapIdx (fun i value => (.ok value, taken + i + 1)) ++
    further.map fun asmLine => (.error (.atLine asmLine (.exhausted kind)), taken + values.length)

section Calls

variable {α : Type} {take : OperandStream → Nat → OperandStream × Except AssemblyError α}

theorem takeAll_cons {c next : OperandStream} {asmLine : Nat} {result : Except AssemblyError α}
    (h : take c asmLine = (next, result)) (rest : List Nat) :
    takeAll take c (asmLine :: rest) = (result, next.consumed) :: takeAll take next rest := by
  rw [takeAll, h]

/-- Streams that give the same at the first call give the same at all. -/
theorem takeAll_congr {c c' : OperandStream} (h : ∀ asmLine, take c asmLine = take c' asmLine)
    (calls : List Nat) : takeAll take c calls = takeAll take c' calls := by
  cases calls with
  | nil => rfl
  | cons asmLine rest => rw [takeAll, takeAll, h]

theorem takenInOrder_cons (kind : OperandKind) (taken : Nat) (value : α) (values : List α)
    (further : List Nat) :
    takenInOrder kind taken (value :: values) further =
      (.ok value, taken + 1) :: takenInOrder kind (taken + 1) values further := by
  simp only [takenInOrder, List.mapIdx_cons, List.length_cons, List.cons_append, Nat.add_assoc,
    Nat.add_comm 1]

theorem map_takenInOrder {β : Type} (kind : OperandKind) (taken : Nat) (values : List α)
    (further : List Nat) (g : α → β) :
    (takenInOrder kind taken values further).map (fun x => (x.1.map g, x.2)) =
      takenInOrder kind taken (values.map g) further := by
  induction values generalizing taken with
  | nil =>
    rw [takenInOrder, List.mapIdx_nil, List.nil_append, List.map_map]
    rfl
  | cons value values ih =>
    rw [takenInOrder_cons, List.map_cons, ih, List.map_cons, takenInOrder_cons]
    rfl

end Calls

/-- A stream without lines has run out for every caller. -/
theorem takeAll_nil (kind : OperandKind) (line consumed : Nat) (calls : List Nat) :
    takeAll takeRecord ⟨kind, [], line, consumed⟩ calls =
      calls.map fun asmLine => (.error (.atLine asmLine (.exhausted kind)), consumed) := by
  induction calls with
  | nil => rfl
  | cons asmLine rest ih => rw [takeAll_cons rfl, ih, List.map_cons]

/-- **The records among the lines are taken,** by induction on what was added to them. -/
theorem takeAll_of_annotates {records : List (List UInt64)} {ls : List String}
    (hne : ∀ record ∈ records, record ≠ []) (hls : Annotates (records.map hexWords) ls)
    (kind : OperandKind) (line consumed : Nat) {callers : List Nat}
    (hcallers : callers.length = records.length) (further : List Nat) :
    takeAll takeRecord ⟨kind, ls.map (.text ·.toList), line, consumed⟩ (callers ++ further) =
      takenInOrder kind consumed records further := by
  generalize hwritten : records.map hexWords = written at hls
  induction hls generalizing records line consumed callers with
  | nil =>
    obtain rfl := List.map_eq_nil_iff.mp hwritten
    obtain rfl := List.eq_nil_of_length_eq_zero hcallers
    exact takeAll_nil kind line consumed further
  | line l _ ih =>
    obtain ⟨record, rest, rfl, rfl, hrest⟩ := List.map_eq_cons_iff.mp hwritten
    obtain ⟨asmLine, callers, rfl⟩ := List.exists_cons_of_length_eq_add_one hcallers
    rw [List.forall_mem_cons] at hne
    have hmore := ih hne.2 (line + 1) (consumed + 1) (Nat.succ.inj hcallers) hrest
    rw [List.map_cons, List.cons_append,
      takeAll_cons (takeFrom_hexWords hne.1 kind consumed asmLine line _), hmore, takenInOrder_cons]
  | added hl _ ih =>
    rw [← ih hne (line + 1) consumed hcallers hwritten]
    exact takeAll_congr (fun asmLine => takeFrom_passedOver hl kind consumed asmLine line _) _

theorem takeWord_of_takeRecord {c next : OperandStream} {asmLine : Nat}
    {result : Except AssemblyError UInt64}
    (h : c.takeRecord asmLine = (next, result.map ([·]))) :
    c.takeWord asmLine = (next, result) := by
  cases result with
  | error e => rw [takeWord, h]; rfl
  | ok word => rw [takeWord, h]; rfl

/-- Where every record is a single word, records and words are taken alike. -/
theorem takeAll_takeWord {c : OperandStream} {calls : List Nat}
    {results : List (Except AssemblyError UInt64 × Nat)}
    (h : takeAll takeRecord c calls = results.map fun x => (x.1.map ([·]), x.2)) :
    takeAll takeWord c calls = results := by
  induction calls generalizing c results with
  | nil => exact (List.map_eq_nil_iff.mp h.symm).symm
  | cons asmLine rest ih =>
    obtain ⟨next, got, htake⟩ : ∃ next got, c.takeRecord asmLine = (next, got) := ⟨_, _, rfl⟩
    rw [takeAll_cons htake] at h
    obtain ⟨⟨result, count⟩, results, rfl, hresult, hrest⟩ := List.map_eq_cons_iff.mp h.symm
    obtain ⟨rfl, rfl⟩ := Prod.mk.inj hresult
    rw [takeAll_cons (takeWord_of_takeRecord htake), ih hrest.symm]

theorem takeAll_recordsText {records : List (List UInt64)} {ls : List String}
    (hne : ∀ record ∈ records, record ≠ [])
    (hls : Annotates (NearMemory.lines (recordsText records)) ls) (kind : OperandKind)
    {callers : List Nat} (hcallers : callers.length = records.length) (further : List Nat) :
    takeAll takeRecord (ofText kind (unlines ls)) (callers ++ further) =
      takenInOrder kind 0 records further := by
  rw [lines_recordsText] at hls
  have hfeeds : ∀ l ∈ ls, '\n' ∉ l.toList := by
    refine hls.not_mem fun l hl hmem => ?_
    obtain ⟨record, -, rfl⟩ := List.mem_map.mp hl
    exact (oneLine_hexWords record '\n' hmem).1 rfl
  rw [ofText, terminatedBy_unlines_of_not_mem hfeeds, List.map_map]
  exact takeAll_of_annotates hne hls kind 0 0 hcallers further

/-- **A stream is read back as it was written,** whatever lines without a record are added to its
text: the records of a data stream in order, or the addresses of an address stream one by one, each
counted when it is taken, and behind the last of them every call fails for its own source line. -/
theorem takeAll_annotated (kind : OperandKind) (ls : List String) (callers further : List Nat) :
    (∀ records : List (List UInt64), (∀ record ∈ records, record ≠ []) →
      Annotates (NearMemory.lines (recordsText records)) ls → callers.length = records.length →
      takeAll takeRecord (ofText kind (unlines ls)) (callers ++ further) =
        takenInOrder kind 0 records further) ∧
    ∀ addresses : List UInt64,
      Annotates (NearMemory.lines (addressesText addresses)) ls →
      callers.length = addresses.length →
      takeAll takeWord (ofText kind (unlines ls)) (callers ++ further) =
        takenInOrder kind 0 addresses further := by
  refine ⟨fun records hne hls hcallers => takeAll_recordsText hne hls kind hcallers further, ?_⟩
  intro addresses hls hcallers
  rw [addressesText_eq] at hls
  have hlength : callers.length = (addresses.map ([·])).length := by rwa [List.length_map]
  refine takeAll_takeWord ?_
  rw [takeAll_recordsText ne_nil_of_mem_singletons hls kind hlength, map_takenInOrder]

/-- The least and the largest word, with a remark, a blank line and an empty line around them. -/
theorem takeAll_annotated_extremes :
    let text := unlines ["\t# bounds", "0x0 0xffffffffffffffff", " \r", "0x10", ""]
    let words := unlines ["0xffffffffffffffff", "#0x1", "0x0"]
    takeAll takeRecord (ofText .data text) ([4, 7] ++ [9]) =
        [(.ok [0, 18446744073709551615], 1), (.ok [16], 2),
          (.error (.atLine 9 (.exhausted .data)), 2)] ∧
      takeAll takeWord (ofText .address words) ([4, 7] ++ [9, 11]) =
        [(.ok 18446744073709551615, 1), (.ok 0, 2),
          (.error (.atLine 9 (.exhausted .address)), 2),
          (.error (.atLine 11 (.exhausted .address)), 2)] := by
  have hremark : PassedOver "\t# bounds" :=
    ⟨by decide, ['\t'], "# bounds".toList, by decide, List.all_eq_true.mp rfl, .inr (by decide)⟩
  have hblank : PassedOver " \r" :=
    ⟨by decide, [' ', '\r'], [], by decide, List.all_eq_true.mp rfl, .inl rfl⟩
  have hempty : PassedOver "" :=
    ⟨by decide, [], [], by decide, List.all_eq_true.mp rfl, .inl rfl⟩
  have hmark : PassedOver "#0x1" :=
    ⟨by decide, [], "#0x1".toList, by decide, List.all_eq_true.mp rfl, .inr (by decide)⟩
  have hrecords : Annotates (NearMemory.lines (recordsText [[0, 18446744073709551615], [16]]))
      ["\t# bounds", "0x0 0xffffffffffffffff", " \r", "0x10", ""] := by
    have hlines : NearMemory.lines (recordsText [[0, 18446744073709551615], [16]]) =
        ["0x0 0xffffffffffffffff", "0x10"] := by decide +kernel
    rw [hlines]
    exact .added hremark (.line _ (.added hblank (.line _ (.added hempty .nil))))
  have haddresses : Annotates (NearMemory.lines (addressesText [18446744073709551615, 0]))
      ["0xffffffffffffffff", "#0x1", "0x0"] := by
    have hlines : NearMemory.lines (addressesText [18446744073709551615, 0]) =
        ["0xffffffffffffffff", "0x0"] := by decide +kernel
    rw [hlines]
    exact .line _ (.added hmark (.line _ .nil))
  exact ⟨(takeAll_annotated .data _ [4, 7] [9]).1 _ (by decide) hrecords rfl,
    (takeAll_annotated .address _ [4, 7] [9, 11]).2 _ haddresses rfl⟩

end OperandStream

end NearMemory
