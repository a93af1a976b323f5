import NearMemory.Proofs.FoldRun
import NearMemory.Proofs.PlanBounds

/-!
# The limits of bodies

A body is built from few kinds of instructions, and each of them stays inside the hardware:
`BodyInstruction` lists them with their bounds, so that later arguments about the instructions of a
program are arguments by cases on it.

A body fits the instruction buffer for one reason: what comes before the end of the body keeps to
the budget, and the end, at most two permutations and two row writes, takes no more than the entries
that the budget leaves free, less the one for the exit marker.

## Main definitions

* `BodyInstruction` — the instructions of bodies
* `Body.Sound` — a body inside the hardware that folds what it should

## Main results

* `Body.sound_ofChunk`, `Body.sound_ofReduction` — the bodies of the passes are sound
* `bodyInstruction_of_mem_tailInstructions` — so are the instructions of the tail
-/

namespace NearMemory

/-- The instructions of bodies, inside the given hardware. -/
inductive BodyInstruction (hw : Hardware) : Instruction → Prop
  /-- Load a constant. -/
  | constantLoad {k : Nat} (hk : k < hw.storeEntries) : BodyInstruction hw (constantLoad k)
  /-- Read a row. -/
  | rowRead {v : Nat} (hv : v < 2) : BodyInstruction hw (rowRead v)
  /-- Write a row. -/
  | rowWrite {v : Nat} (hv : v < 2) : BodyInstruction hw (rowWrite v)
  /-- Multiply a word by a constant. -/
  | multiply {width v word k : Nat} (hwidth : width ∈ Subword.ladder) (hv : v < 2)
    (hword : word < hw.registerWords) (hk : k < hw.storeEntries) :
    BodyInstruction hw (.plain (.multiply width v word k))
  /-- Wait. -/
  | wait : BodyInstruction hw (.plain .nop)
  /-- Swap the halves of a very wide register. -/
  | swapHalves {v : Nat} (hv : v < 2) : BodyInstruction hw (.plain (.permute v 1))
  /-- An operation of folding. -/
  | fold {op : Operation} (hop : FoldOperation hw.registerWords op) : BodyInstruction hw (.plain op)

/-- A body inside the hardware, which has folded `count` sums from layer `first` on. -/
structure Body.Sound (hw : Hardware) (first count : Nat) (b : Body) : Prop where
  instructions_within : ∀ i ∈ b.instructions, BodyInstruction hw i
  length_pos : 0 < b.instructions.length
  length_lt : b.instructions.length < hw.bufferEntries
  first_le : first ≤ b.cursor.layer
  operands_eq : b.cursor.operands = sumsAfter count (b.cursor.layer - first)

/-! ### The end of a body -/

theorem lt_two_of_mem_heldRegisters {packets : List Packet} {v : Nat}
    (h : v ∈ heldRegisters packets) : v < 2 := by
  have hmem := (List.mem_filter.mp h).1
  simp only [List.mem_cons, List.not_mem_nil, or_false] at hmem
  omega

theorem bodyInstruction_of_mem_bodyEnd {hw : Hardware} {packets : List Packet} {half : Nat}
    {i : Instruction} (h : i ∈ bodyEnd packets half) : BodyInstruction hw i := by
  rcases List.mem_append.mp h with h | h
  · split at h
    · obtain ⟨v, hv, rfl⟩ := List.mem_map.mp h
      exact .swapHalves (lt_two_of_mem_heldRegisters hv)
    · simp at h
  · obtain ⟨v, hv, rfl⟩ := List.mem_map.mp h
    exact .rowWrite (lt_two_of_mem_heldRegisters hv)

theorem length_bodyEnd_lt (packets : List Packet) (half : Nat) :
    (bodyEnd packets half).length < Plan.reservedEntries := by
  have hheld : (heldRegisters packets).length ≤ 2 := List.length_filter_le _ [0, 1]
  rw [bodyEnd, List.length_append, List.length_map, Plan.reservedEntries]
  split
  · rw [List.length_map]
    omega
  · rw [List.length_nil]
    omega

/-! ### Folding and ending a body -/

/-- The halves are those of the hardware, and the layers are a chain from the initial width on. -/
structure Reducer.Sound (hw : Hardware) (r : Reducer) : Prop where
  wordsPerHalf_eq : r.wordsPerHalf = hw.wordsPerHalf
  initial_mem : r.initial ∈ Subword.ladder
  widthChain : WidthChain r.initial r.layers

theorem Reducer.Sound.two_mul_wordsPerHalf_le {hw : Hardware} {r : Reducer} (h : r.Sound hw)
    (hhw : hw.WithinLimits) : 2 * r.wordsPerHalf ≤ hw.registerWords := by
  rw [h.wordsPerHalf_eq, hhw.two_mul_wordsPerHalf]

section Folded

variable {hw : Hardware} {r : Reducer} {limit : Option Nat} {first count width : Nat}

/-- A body is sound if its front keeps to the budget and its folding starts in order. -/
theorem Body.sound_folded {front : List Instruction} {cursor : Cursor} {packets : List Packet}
    (hhw : hw.WithinLimits) (hr : r.Sound hw)
    (hentries : Plan.reservedEntries ≤ hw.bufferEntries)
    (hfront : ∀ i ∈ front, BodyInstruction hw i) (hpos : 0 < front.length)
    (hbudget : front.length ≤ bodyBudget hw)
    (htracks : Folding.Tracks r hw.registerWords first count front.length width
      { cursor, packets })
    (hchain : WidthChain width (r.layers.drop cursor.layer)) :
    (Body.folded hw r limit front cursor packets).Sound hw first count := by
  have hissued : cursor.issued ≤ bodyBudget hw := by
    have heq : cursor.issued = front.length := htracks.issued_eq
    rwa [heq]
  obtain ⟨width', hrun, hrunBudget⟩ := htracks.foldLayers limit
    (hr.two_mul_wordsPerHalf_le hhw) hchain hissued
  have hend := length_bodyEnd_lt (r.fold (bodyBudget hw) limit { cursor, packets }).1.packets
    (r.fold (bodyBudget hw) limit { cursor, packets }).1.cursor.half
  have hbudgetEq : bodyBudget hw = hw.bufferEntries - Plan.reservedEntries := rfl
  rw [hrun.issued_eq] at hrunBudget
  refine ⟨?_, ?_, ?_, hrun.first_le, hrun.operands_eq.trans hrun.length_packets⟩
  · intro i hi
    simp only [Body.folded, List.mem_append, List.mem_map] at hi
    rcases hi with (hi | ⟨op, hop, rfl⟩) | hi
    · exact hfront i hi
    · exact .fold (hrun.out_folds op hop)
    · exact bodyInstruction_of_mem_bodyEnd hi
  · simp only [Body.folded, List.length_append]
    omega
  · simp only [Body.folded, List.length_append, List.length_map]
    simp only [Reducer.fold] at hend ⊢
    omega

theorem Body.layer_folded_le {front : List Instruction} {cursor : Cursor} {packets : List Packet}
    (h : cursor.layer ≤ r.layers.length) :
    (Body.folded hw r limit front cursor packets).cursor.layer ≤ r.layers.length := by
  have hle : (Body.folded hw r limit front cursor packets).cursor.layer ≤
      cursor.layer + (r.layers.drop cursor.layer).length :=
    r.layer_foldLayers_le (bodyBudget hw) limit _ _
  rw [List.length_drop] at hle
  omega

end Folded

/-! ### Loaded packets -/

theorem fits_of_mem_loadedPackets {count packet words : Nat} {p : Packet}
    (hwords : ∀ i < count, i / 2 * packet + packet ≤ words)
    (h : p ∈ loadedPackets count packet) : p.Fits packet words := by
  obtain ⟨i, hi, rfl⟩ := List.mem_map.mp h
  exact ⟨Nat.mod_lt _ Nat.zero_lt_two, hwords i (List.mem_range.mp hi)⟩

/-! ### Chunks -/

section Chunk

variable {hw : Hardware} {r : Reducer} {limit : Option Nat} {nops count : Nat}

theorem bodyInstruction_of_mem_chunkLoads (hstore : count ≤ hw.storeEntries) {i : Instruction}
    (h : i ∈ chunkLoads count) : BodyInstruction hw i := by
  rw [chunkLoads, List.mem_append, List.mem_cons] at h
  rcases h with h | rfl | h
  · obtain ⟨k, hk, rfl⟩ := List.mem_map.mp h
    exact .constantLoad (Nat.lt_of_lt_of_le (List.mem_range.mp hk) hstore)
  · exact .rowRead Nat.zero_lt_two
  · split at h
    · obtain rfl := List.mem_singleton.mp h
      exact .rowRead Nat.one_lt_two
    · simp at h

theorem bodyInstruction_of_mem_paddedMultiply {width v word : Nat}
    (hwidth : width ∈ Subword.ladder) (hv : v < 2) (hword : word < hw.registerWords)
    (hk : 2 * word + v < hw.storeEntries) {i : Instruction}
    (h : i ∈ paddedMultiply width nops v word) : BodyInstruction hw i := by
  rcases List.mem_cons.mp h with rfl | h
  · exact .multiply hwidth hv hword hk
  · obtain rfl := List.eq_of_mem_replicate h
    exact .wait

/-- Products are spread over both registers, so that word `word` of register `v` is product number
`2 * word + v`, and its constant has that number too. -/
theorem bodyInstruction_of_mem_chunkMultiplies {width : Nat} {pairs : List (List Operation)}
    (hwidth : width ∈ Subword.ladder) (hwords : count ≤ hw.registerWords)
    (hstore : count ≤ hw.storeEntries)
    (hpairs : ∀ ops ∈ pairs, ∀ op ∈ ops, FoldOperation hw.registerWords op) {i : Instruction}
    (h : i ∈ chunkMultiplies width nops count pairs) : BodyInstruction hw i := by
  rw [chunkMultiplies, List.mem_append, List.mem_flatMap, List.mem_flatMap] at h
  rcases h with ⟨word, hword, h⟩ | ⟨word, hword, h⟩
  · rw [List.mem_range, ceilDiv_two] at hword
    exact bodyInstruction_of_mem_paddedMultiply hwidth Nat.zero_lt_two (by omega) (by omega) h
  · rw [List.mem_range] at hword
    rcases List.mem_append.mp h with h | h
    · exact bodyInstruction_of_mem_paddedMultiply hwidth Nat.one_lt_two (by omega) (by omega) h
    · obtain ⟨op, hop, rfl⟩ := List.mem_map.mp h
      rw [List.getD_eq_getElem?_getD] at hop
      cases hget : pairs[word]? with
      | none => simp [hget] at hop
      | some ops =>
        rw [hget, Option.getD_some] at hop
        exact .fold (hpairs ops (List.mem_of_getElem? hget) op hop)

theorem sum_map_range_getD_length {α : Type} (lists : List (List α)) {bound : Nat}
    (h : lists.length ≤ bound) :
    ((List.range bound).map fun i => (lists.getD i []).length).sum =
      (lists.map List.length).sum := by
  induction lists generalizing bound with
  | nil => simp
  | cons first rest ih =>
    obtain ⟨bound, rfl⟩ := Nat.exists_eq_succ_of_ne_zero (show bound ≠ 0 by rintro rfl; simp at h)
    have hrest := ih (Nat.le_of_succ_le_succ h)
    simp only [List.range_succ_eq_map, List.map_cons, List.map_map, List.sum_cons,
      List.getD_cons_zero, Function.comp_def, List.getD_cons_succ, hrest]

theorem length_chunkLoads (count : Nat) :
    (chunkLoads count).length = count + if 1 < count then 2 else 1 := by
  rw [chunkLoads, List.length_append, List.length_map, List.length_range, List.length_cons]
  split <;> rfl

theorem length_chunkMultiplies (width nops : Nat) {pairs : List (List Operation)}
    (h : pairs.length ≤ count / 2) :
    (chunkMultiplies width nops count pairs).length =
      count * (1 + nops) + (pairs.map List.length).sum := by
  have hsum := sum_map_range_getD_length pairs h
  have hsplit : ceilDiv count 2 + count / 2 = count := by
    rw [ceilDiv_two]
    omega
  have hmul : ceilDiv count 2 * (1 + nops) + count / 2 * (1 + nops) = count * (1 + nops) := by
    rw [← Nat.add_mul, hsplit]
  simp only [chunkMultiplies, paddedMultiply, List.length_append, List.length_flatMap,
    List.length_cons, List.length_replicate, List.length_map, List.map_const',
    List.sum_replicate_nat, List.length_range, List.sum_map_add, hsum]
  rw [← hmul, Nat.add_comm 1 nops, Nat.add_assoc]

theorem fits_of_mem_chunkPackets (hr : r.Sound hw) (hwords : count ≤ hw.registerWords) {p : Packet}
    (h : p ∈ loadedPackets count 1) :
    p.Fits (Subword.wordsPerPacket r.initial r.initial) hw.registerWords := by
  rw [Subword.wordsPerPacket_self hr.initial_mem]
  exact fits_of_mem_loadedPackets (fun i hi => by omega) h

theorem halves_of_chunkLayer? {first : FoldedLayer} (hhw : hw.WithinLimits) (hr : r.Sound hw)
    (hwords : count ≤ hw.registerWords) (h : chunkLayer? r count limit = some first) :
    ∃ l, r.layers[0]? = some l ∧ first.Halves hw.registerWords (r.packetOut l) count := by
  rw [chunkLayer?] at h
  split at h
  next =>
    obtain ⟨l, hl, h⟩ := Option.bind_eq_some_iff.mp h
    obtain ⟨rest, hlayers⟩ : ∃ rest, r.layers = l :: rest := by
      rwa [← List.head?_eq_getElem?, List.head?_eq_some_iff] at hl
    have hchain := hr.widthChain
    rw [hlayers] at hchain
    refine ⟨l, hl, ?_⟩
    have hhalves := Reducer.halves_of_foldLayer? hchain.2.1 Nat.zero_lt_two
      (hr.two_mul_wordsPerHalf_le hhw) (fun p hp => ?_) h
    · rwa [length_loadedPackets] at hhalves
    · rw [Reducer.packetIn, hchain.1]
      exact fits_of_mem_chunkPackets hr hwords hp
  next => simp at h

/-- The entries that a chunk takes up to the end of its first layer. -/
def chunkCost (nops count : Nat) (first? : Option FoldedLayer) : Nat :=
  count + (if 1 < count then 2 else 1) + count * (1 + nops) + (first?.map (·.size)).getD 0

/-- A chunk takes no more entries than a larger chunk that is known to fit. A single product may be
folded as well, but then the larger chunk is of more than one. -/
theorem chunkCost_le {c : Nat} (hfits : Plan.fits r nops hw.bufferEntries c = true)
    (hpos : 0 < count) (hle : count ≤ c) (hlimit : count < c ∨ limit = none) :
    chunkCost nops count (chunkLayer? r count limit) + Plan.reservedEntries ≤
      hw.bufferEntries := by
  obtain ⟨cost, hcost, hentries⟩ := Plan.fits_iff.mp hfits
  have hsize : ((chunkLayer? r count limit).map (·.size)).getD 0 ≤ cost := by
    cases hfirst : chunkLayer? r count limit with
    | none => exact Nat.zero_le _
    | some first =>
      rw [chunkLayer?] at hfirst
      split at hfirst
      next hfold =>
        have hmany : 2 ≤ c := by
          rcases hlimit with hlt | rfl
          · omega
          · have hcount : 1 < count := by simpa using hfold
            omega
        rw [Plan.foldCost?, if_neg (Nat.not_lt.mpr hmany)] at hcost
        obtain ⟨whole, hwhole, rfl⟩ := Option.map_eq_some_iff.mp hcost
        obtain ⟨first', hfirst', hle'⟩ := Reducer.foldAt?_of_length_le hwhole
          (show (loadedPackets count 1).length ≤ _ by simpa using hle)
        rw [hfirst] at hfirst'
        obtain rfl := Option.some.inj hfirst'
        exact hle'
      next => simp at hfirst
  have hmul : count * (1 + nops) ≤ c * (1 + nops) := Nat.mul_le_mul_right _ hle
  have hreads : (if 1 < count then 2 else 1) ≤ (if 1 < c then 2 else 1) := by
    split <;> split <;> omega
  rw [chunkCost]
  omega

/-- **The body of a chunk.** The size `c` is one that is known to fit, and the chunk is of that size
or smaller. -/
theorem Body.sound_ofChunk {c : Nat} (hhw : hw.WithinLimits) (hr : r.Sound hw)
    (hfits : Plan.fits r nops hw.bufferEntries c = true) (hpos : 0 < count) (hle : count ≤ c)
    (hlimit : count < c ∨ limit = none) (hwords : c ≤ hw.registerWords)
    (hstore : c ≤ hw.storeEntries) :
    (Body.ofChunk hw r nops count limit).Sound hw 0 count := by
  have hcost := chunkCost_le hfits hpos hle hlimit
  have hbudget : bodyBudget hw = hw.bufferEntries - Plan.reservedEntries := rfl
  have hloads := length_chunkLoads count
  have hstore' := Nat.le_trans hle hstore
  have hwords' := Nat.le_trans hle hwords
  rw [Body.ofChunk]
  cases hfirst : chunkLayer? r count limit with
  | none =>
    have hmultiplies := length_chunkMultiplies r.initial nops
      (show ([] : List (List Operation)).length ≤ count / 2 from Nat.zero_le _)
    simp only [hfirst, chunkCost, Option.map_none, Option.getD_none] at hcost
    simp only [List.map_nil, List.sum_nil] at hmultiplies
    refine sound_folded hhw hr (by omega) ?_ ?_ ?_ ?_ hr.widthChain
    · intro i hi
      rcases List.mem_append.mp hi with hi | hi
      · exact bodyInstruction_of_mem_chunkLoads hstore' hi
      · exact bodyInstruction_of_mem_chunkMultiplies hr.initial_mem hwords' hstore' (by simp) hi
    · rw [List.length_append]
      omega
    · rw [List.length_append, hmultiplies, hloads]
      omega
    · exact ⟨Nat.le_refl _, by simp, by simp, Nat.zero_lt_two,
        fun p hp => fits_of_mem_chunkPackets hr hwords' hp, rfl, by simp⟩
  | some first =>
    obtain ⟨l, hl, hhalves⟩ := halves_of_chunkLayer? hhw hr hwords' hfirst
    have hmultiplies := length_chunkMultiplies r.initial nops (Nat.le_of_eq hhalves.length_pairs)
    simp only [hfirst, chunkCost, Option.map_some, Option.getD_some,
      FoldedLayer.size_eq_sum] at hcost
    refine sound_folded hhw hr (by omega) ?_ ?_ ?_ ?_ (hr.widthChain.drop_succ hl)
    · intro i hi
      rw [List.mem_append, List.mem_append, List.mem_map] at hi
      rcases hi with (hi | hi) | ⟨op, hop, rfl⟩
      · exact bodyInstruction_of_mem_chunkLoads hstore' hi
      · exact bodyInstruction_of_mem_chunkMultiplies hr.initial_mem hwords' hstore'
          hhalves.pairs_fold hi
      · exact .fold (hhalves.carry_folds op hop)
    · rw [List.length_append, List.length_append]
      omega
    · rw [List.length_append, List.length_append, List.length_map, hmultiplies, hloads]
      omega
    · exact ⟨Nat.zero_le _, hhalves.reduced_add_carried, hhalves.length_packets, Nat.one_lt_two,
        hhalves.packets_fit, rfl, by simp⟩

theorem Body.layer_ofChunk_le (hw : Hardware) (r : Reducer) (nops count : Nat)
    (limit : Option Nat) : (Body.ofChunk hw r nops count limit).cursor.layer ≤ r.layers.length := by
  rw [Body.ofChunk]
  split
  · exact layer_folded_le (Nat.zero_le _)
  next first hfirst =>
    rw [chunkLayer?] at hfirst
    split at hfirst
    · obtain ⟨l, hl, -⟩ := Option.bind_eq_some_iff.mp hfirst
      exact layer_folded_le (List.getElem?_eq_some_iff.mp hl).1
    · simp at hfirst

end Chunk

/-! ### Reductions -/

section Reduction

variable {hw : Hardware} {r : Reducer} {l : TreeLayer} {layer size : Nat}

theorem bodyInstruction_of_mem_rowReads {i : Instruction} (h : i ∈ [rowRead 0, rowRead 1]) :
    BodyInstruction hw i := by
  simp only [List.mem_cons, List.not_mem_nil, or_false] at h
  rcases h with rfl | rfl
  · exact .rowRead Nat.zero_lt_two
  · exact .rowRead Nat.one_lt_two

/-- The packets of a group start in order: they fill both registers from the first word on. -/
theorem tracks_loadedPackets (hhw : hw.WithinLimits)
    (hsize : size ≤ 2 * (hw.wordsPerHalf / r.packetIn l)) (layer front : Nat) :
    Folding.Tracks r hw.registerWords layer size front l.widthIn
      { cursor := { layer, issued := front, operands := size }
        packets := loadedPackets size (r.packetIn l) } := by
  refine ⟨Nat.le_refl _, by simp, by simp, Nat.zero_lt_two, ?_, rfl, by simp⟩
  intro p hp
  refine fits_of_mem_loadedPackets (fun i hi => ?_) hp
  have hhalf : (i / 2 + 1) * r.packetIn l ≤ hw.wordsPerHalf := by
    refine Nat.le_trans (Nat.mul_le_mul_right _ ?_) (Nat.div_mul_le_self _ (r.packetIn l))
    omega
  have hwords := hhw.two_mul_wordsPerHalf
  rw [Nat.add_mul, Nat.one_mul] at hhalf
  exact Nat.le_trans hhalf (by omega)

/-- **The body of a reduction.** -/
theorem Body.sound_ofReduction (hhw : hw.WithinLimits) (hr : r.Sound hw)
    (hentries : Plan.reservedEntries ≤ hw.bufferEntries) (hbudget : 2 ≤ bodyBudget hw)
    (hl : r.layers[layer]? = some l) (hsize : size ≤ 2 * (hw.wordsPerHalf / r.packetIn l)) :
    (Body.ofReduction hw r layer size (r.packetIn l)).Sound hw layer size :=
  sound_folded hhw hr hentries (fun _ => bodyInstruction_of_mem_rowReads) Nat.zero_lt_two hbudget
    (tracks_loadedPackets hhw hsize _ _) (hr.widthChain.drop hl)

/-- A reduction whose first layer fits behind the row reads folds at least that layer. -/
theorem Body.lt_layer_ofReduction {folded : FoldedLayer} (hl : r.layers[layer]? = some l)
    (hsize : 2 ≤ size)
    (hfolded : r.foldLayer? l (loadedPackets size (r.packetIn l)) 0 = some folded)
    (hbudget : 2 + folded.size ≤ bodyBudget hw) :
    layer < (Body.ofReduction hw r layer size (r.packetIn l)).cursor.layer := by
  obtain ⟨hlt, rfl⟩ := List.getElem?_eq_some_iff.mp hl
  rw [Body.ofReduction, Body.folded, Reducer.fold, List.drop_eq_getElem_cons hlt]
  exact Reducer.lt_layer_foldLayers (f := ⟨⟨layer, 2, size, 0⟩, loadedPackets size _, []⟩)
    (by simpa using hsize) hfolded hbudget

end Reduction

/-! ### The tail -/

theorem bodyInstruction_of_mem_tailInstructions {hw : Hardware} {width packet : Nat}
    (hwidth : width ∈ Subword.ladder) (hpacket : packet ≤ hw.registerWords) {i : Instruction}
    (h : i ∈ tailInstructions width packet) : BodyInstruction hw i := by
  rw [tailInstructions, List.mem_append, List.mem_append, List.mem_flatMap,
    List.mem_singleton] at h
  rcases h with (h | ⟨w, hw', h⟩) | rfl
  · exact bodyInstruction_of_mem_rowReads h
  · have hword : w < hw.registerWords := Nat.lt_of_lt_of_le (List.mem_range.mp hw') hpacket
    simp only [List.mem_cons, List.not_mem_nil, or_false] at h
    rcases h with rfl | rfl | rfl | rfl
    · exact .fold (.loadWord (by simp) Nat.zero_lt_two hword)
    · exact .fold (.loadWord (by simp) Nat.one_lt_two hword)
    · exact .fold (.addPair hwidth)
    · exact .fold (.storeWord Nat.zero_lt_two hword)
  · exact .rowWrite Nat.zero_lt_two

theorem length_tailInstructions (width packet : Nat) :
    (tailInstructions width packet).length = 4 * packet + 3 := by
  simp only [tailInstructions, List.length_append, List.length_flatMap, List.length_cons,
    List.length_nil, List.map_const', List.sum_replicate_nat, List.length_range]
  omega

end NearMemory
