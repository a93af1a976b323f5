import NearMemory.Proofs.LayerLayout
import NearMemory.Proofs.ScheduleRun

/-!
# Data dependencies in the body of a chunk

The body of a chunk loads constants and rows, multiplies, and folds the products, and the sums of
the first layer stand between the multiplies. Nothing in the hardware waits for a word, so the order
of the operations is all that makes a body right: a product is read after its multiply, a multiply
comes after its constant and its row, and whatever folding reads has been written before.

The last of these is a property of operation lists with a list of known words, `ReadsWritten`: known
words grow by what is written. A layer reads only the words of its packets and writes the words of
its results, so if its packets are known then its results become known, and a run of folding never
reads anything else (`Reducer.reads_foldLayers`). Between the multiplies the argument is closer: the
sum of a pair reads two products, and the one in the second register is multiplied right before it.

## Main definitions

* `Operation.multiplied`, `Operation.changes` — the words of a multiply, and the words written
* `ReadsWritten` — operations that read what is known or written before
* `DataOrdered` — the order of the operations of a chunk

## Main results

* `Reducer.reads_foldLayers` — folding reads known words
* `dataOrdered_of_parts` — multiplies with sums between them, and a tail that reads what they write
* `Plan.bodies_ordered` — the bodies of the chunks of a plan are in order
-/

namespace NearMemory

namespace Operation

/-- The words that a multiply takes and gives. -/
def multiplied : Operation → List WordPlace
  | .arithmetic a =>
    if a.opcode = .mul then a.src.places a.srcIndex ++ a.dst.places a.dstIndex else []
  | _ => []

/-- The words that a multiply, a move or a pack changes. -/
def changes : Operation → List WordPlace
  | .arithmetic a => if a.opcode = .mul then a.dst.places a.dstIndex else []
  | op => op.stores

/-- The entry of the constant store that an operation loads. -/
def constant? : Operation → Option UInt32
  | .move m => if m.opcode = .glmv then some m.imm else none
  | _ => none

/-- Operations that load no operands, do not multiply and do not wait. -/
def Quiet (op : Operation) : Prop := op.opcode ∉ [.glmv, .rlb, .mul, .nop]

/-- The multiply of product number `i`, which is in register `i % 2`. -/
def product (width i : Nat) : Operation := .multiply width (i % 2) (i / 2) i

variable {op : Operation}

theorem multiplied_eq_nil (h : op.opcode ≠ .mul) : op.multiplied = [] := by
  cases op with
  | move m => rfl
  | arithmetic a => exact if_neg h
  | pack p => rfl

theorem constant?_eq_none (h : op.opcode ≠ .glmv) : op.constant? = none := by
  cases op with
  | move m => exact if_neg h
  | arithmetic a => rfl
  | pack p => rfl

theorem changes_eq_stores (h : op.opcode ≠ .mul) : op.changes = op.stores := by
  cases op with
  | move m => rfl
  | arithmetic a => exact if_neg h
  | pack p => rfl

namespace Quiet

theorem opcode_ne (h : op.Quiet) {code : Opcode} (hcode : code ∈ [Opcode.glmv, .rlb, .mul, .nop]) :
    op.opcode ≠ code := by
  rintro rfl
  exact h hcode

theorem multiplied_eq_nil (h : op.Quiet) : op.multiplied = [] :=
  Operation.multiplied_eq_nil (h.opcode_ne (by simp))

theorem constant?_eq_none (h : op.Quiet) : op.constant? = none :=
  Operation.constant?_eq_none (h.opcode_ne (by simp))

theorem changes_eq_stores (h : op.Quiet) : op.changes = op.stores :=
  Operation.changes_eq_stores (h.opcode_ne (by simp))

theorem ne_readRow (h : op.Quiet) (v : Nat) : op ≠ .readRow v := by
  rintro rfl
  exact h.opcode_ne (show Opcode.rlb ∈ _ by simp) rfl

theorem ne_nop (h : op.Quiet) : op ≠ .nop := by
  rintro rfl
  exact h.opcode_ne (show Opcode.nop ∈ _ by simp) rfl

end Quiet

end Operation

/-- The word of product number `i`. -/
def productPlace (i : Nat) : WordPlace := ⟨i % 2, UInt32.ofNat (i / 2)⟩

theorem productPlace_inj {i j : Nat} (hi : i < UInt32.size) (hj : j < UInt32.size) :
    productPlace i = productPlace j ↔ i = j := by
  rw [productPlace, productPlace, WordPlace.mk.injEq, ← UInt32.toNat_inj,
    UInt32.toNat_ofNat_of_lt' (by omega), UInt32.toNat_ofNat_of_lt' (by omega)]
  omega

/-! ### Reads and writes -/

/-- Operations that read known words, or words that were written before. -/
def ReadsWritten (known : List WordPlace) : List Operation → Prop
  | [] => True
  | op :: rest => op.loads ⊆ known ∧ ReadsWritten (known ++ op.changes) rest

namespace ReadsWritten

variable {known more : List WordPlace} {ops rest : List Operation}

theorem append_iff : ReadsWritten known (ops ++ rest) ↔
    ReadsWritten known ops ∧ ReadsWritten (known ++ ops.flatMap Operation.changes) rest := by
  induction ops generalizing known with
  | nil => simp [ReadsWritten]
  | cons op ops ih =>
    rw [List.cons_append, ReadsWritten, ReadsWritten, ih, List.flatMap_cons, List.append_assoc,
      and_assoc]

theorem mono (h : ReadsWritten known ops) (hknown : known ⊆ more) : ReadsWritten more ops := by
  induction ops generalizing known more with
  | nil => trivial
  | cons op ops ih =>
    refine ⟨List.Subset.trans h.1 hknown, ih h.2 ?_⟩
    exact List.append_subset.mpr ⟨List.subset_append_of_subset_left _ hknown,
      List.subset_append_right _ _⟩

/-- Nothing has to be written in between if all that is read is known. -/
theorem of_loads_subset (h : ∀ op ∈ ops, op.loads ⊆ known) : ReadsWritten known ops := by
  induction ops generalizing known with
  | nil => trivial
  | cons op ops ih =>
    refine ⟨h op (by simp), ih fun other hother => ?_⟩
    exact List.subset_append_of_subset_left _ (h other (by simp [hother]))

theorem flatMap {ι : Type} {items : List ι} {f : ι → List Operation}
    (h : ∀ item ∈ items, ReadsWritten known (f item)) : ReadsWritten known (items.flatMap f) := by
  induction items with
  | nil => trivial
  | cons item items ih =>
    rw [List.flatMap_cons, append_iff]
    refine ⟨h item (by simp), (ih fun other hother => h other (by simp [hother])).mono ?_⟩
    exact List.subset_append_left _ _

/-- Where nothing is known at first, every word that is read has been written before. -/
theorem exists_writer (h : ReadsWritten [] ops) {front back : List Operation} {op : Operation}
    (hops : ops = front ++ op :: back) {place : WordPlace} (hplace : place ∈ op.loads) :
    ∃ writer ∈ front, place ∈ writer.changes := by
  rw [hops, append_iff, List.nil_append] at h
  exact List.mem_flatMap.mp (h.2.1 hplace)

end ReadsWritten

/-! ### Folding -/

namespace Reducer

variable {r : Reducer} {l : TreeLayer}

theorem quiet_of_mem_storeResult {dst : Packet} {w : Nat} {op : Operation}
    (h : op ∈ r.storeResult l dst w) : op.Quiet := by
  rw [storeResult] at h
  split at h
  · obtain rfl := List.mem_singleton.mp h
    show Opcode.vmv ∉ _
    decide
  · obtain ⟨⟨offset, out⟩, -, rfl⟩ := List.mem_map.mp h
    show Opcode.pack ∉ _
    decide

theorem quiet_of_mem_addPackets {a b dst : Packet} {op : Operation}
    (h : op ∈ r.addPackets l a b dst) : op.Quiet := by
  obtain ⟨w, -, h⟩ := List.mem_flatMap.mp h
  simp only [List.cons_append, List.nil_append, List.mem_cons] at h
  rcases h with rfl | rfl | rfl | h
  · show Opcode.vmv ∉ _
    decide
  · show Opcode.vmv ∉ _
    decide
  · show Opcode.add ∉ _
    decide
  · exact quiet_of_mem_storeResult h

theorem quiet_of_mem_carryPacket {c dst : Packet} {op : Operation}
    (h : op ∈ r.carryPacket l c dst) : op.Quiet := by
  obtain ⟨w, -, h⟩ := List.mem_flatMap.mp h
  rcases List.mem_cons.mp h with rfl | h
  · show Opcode.vmv ∉ _
    decide
  · exact quiet_of_mem_storeResult h

theorem quiet_of_mem_dealLayer {base pair : Nat} {packets : List Packet} {op : Operation}
    (h : op ∈ (r.dealLayer l base pair packets).operations) : op.Quiet := by
  match packets with
  | [] => simp [dealLayer, FoldedLayer.operations] at h
  | [c] =>
    simp only [dealLayer, FoldedLayer.operations, List.flatten_nil, List.nil_append] at h
    exact quiet_of_mem_carryPacket h
  | a :: b :: rest =>
    rw [operations_dealLayer_pair, List.mem_append] at h
    rcases h with h | h
    · exact quiet_of_mem_addPackets h
    · exact quiet_of_mem_dealLayer h

section Layer

variable {packets : List Packet} {half : Nat} {folded : FoldedLayer}

theorem quiet_of_foldLayer? (h : r.foldLayer? l packets half = some folded) :
    ∀ op ∈ folded.operations, op.Quiet := by
  obtain ⟨base, rfl⟩ := exists_eq_dealLayer h
  exact fun _ => quiet_of_mem_dealLayer

/-- The words of the results are among those that a layer changes. -/
theorem places_subset_of_foldLayer? (hl : l.Sound)
    (h : r.foldLayer? l packets half = some folded) :
    ∀ p ∈ folded.packets,
      p.places (r.packetOut l) ⊆ folded.operations.flatMap Operation.changes := by
  have hquiet := quiet_of_foldLayer? h
  obtain ⟨base, rfl⟩ := exists_eq_dealLayer h
  intro p hp place hplace
  have hmem := (stores_dealLayer (r := r) hl base 0 packets).mem_iff.mpr
    (List.mem_flatMap.mpr ⟨p, hp, hplace⟩)
  obtain ⟨op, hop, hmem⟩ := List.mem_flatMap.mp hmem
  rw [← (hquiet op hop).changes_eq_stores] at hmem
  exact List.mem_flatMap.mpr ⟨op, hop, hmem⟩

theorem loads_subset_of_foldLayer? {known : List WordPlace}
    (hknown : ∀ p ∈ packets, p.places (r.packetIn l) ⊆ known)
    (h : r.foldLayer? l packets half = some folded) :
    ∀ op ∈ folded.operations, op.loads ⊆ known := by
  obtain ⟨base, rfl⟩ := exists_eq_dealLayer h
  intro op hop place hplace
  have hmem := loads_dealLayer r l base 0 packets place (List.mem_flatMap.mpr ⟨op, hop, hplace⟩)
  obtain ⟨p, hp, hmem⟩ := List.mem_flatMap.mp hmem
  exact hknown p hp hmem

end Layer

/-- **Folding reads known words.** By induction on the layers that are left: the results of a layer
are known when the next one reads them. -/
theorem reads_foldLayers {width : Nat} {layers : List TreeLayer} {f : Folding}
    {known : List WordPlace} (budget : Nat) (limit : Option Nat) (hchain : WidthChain width layers)
    (hknown : ∀ p ∈ f.packets, p.places (Subword.wordsPerPacket r.initial width) ⊆ known) :
    ∃ ops, (r.foldLayers budget limit layers f).1.out = f.out ++ ops ∧ ReadsWritten known ops ∧
      ∀ op ∈ ops, op.Quiet := by
  induction layers generalizing f width known with
  | nil => exact ⟨[], by simp [foldLayers], trivial, by simp⟩
  | cons l rest ih =>
    rcases r.foldLayers_cons_cases budget limit l rest f with hstop | ⟨folded, hfolded, -, hrun⟩
    · exact ⟨[], by rw [hstop, List.append_nil], trivial, by simp⟩
    · obtain ⟨rfl, hl, hrest⟩ := hchain
      have hresults : ∀ p ∈ (f.advance folded).packets, p.places (r.packetOut l) ⊆
          known ++ folded.operations.flatMap Operation.changes := fun p hp =>
        List.subset_append_of_subset_right known (places_subset_of_foldLayer? hl hfolded p hp)
      obtain ⟨ops, hout, hreads, hquiet⟩ := ih hrest hresults
      refine ⟨folded.operations ++ ops, ?_, ReadsWritten.append_iff.mpr ⟨?_, hreads⟩, ?_⟩
      · rw [hrun, hout, ← List.append_assoc]
        rfl
      · exact .of_loads_subset (loads_subset_of_foldLayer? hknown hfolded)
      · intro op hop
        rcases List.mem_append.mp hop with hop | hop
        · exact quiet_of_foldLayer? hfolded op hop
        · exact hquiet op hop

/-- The sum of a pair adds two neighbours. -/
theorem pairs_dealLayer {base pair w : Nat} {packets : List Packet} {ops : List Operation}
    (h : (r.dealLayer l base pair packets).pairs[w]? = some ops) :
    ∃ a b dst, packets[2 * w]? = some a ∧ packets[2 * w + 1]? = some b ∧
      ops = r.addPackets l a b dst := by
  induction w generalizing pair packets with
  | zero =>
    rcases packets with _ | ⟨a, _ | ⟨b, rest⟩⟩
    · simp [dealLayer] at h
    · simp [dealLayer] at h
    · exact ⟨a, b, _, rfl, rfl, (Option.some.inj h).symm⟩
  | succ w ih =>
    rcases packets with _ | ⟨a, _ | ⟨b, rest⟩⟩
    · simp [dealLayer] at h
    · simp [dealLayer] at h
    · exact ih h

end Reducer

/-! ### Multiplies -/

/-- The products of a chunk in the order of their multiplies, one register after the other. -/
def productOrder (count : Nat) : List Nat :=
  (List.range (ceilDiv count 2)).map (2 * ·) ++ (List.range (count / 2)).map (2 * · + 1)

/-- A multiply, the wait after it and, in the second register, the sum of its pair. -/
def productBlock (width nops : Nat) (pairs : List (List Operation)) (i : Nat) : List Operation :=
  .product width i ::
    (List.replicate nops .nop ++ if i % 2 = 1 then pairs.getD (i / 2) [] else [])

/-- The multiplies of a chunk with the sums between them. -/
def productBlocks (width nops count : Nat) (pairs : List (List Operation)) : List Operation :=
  (productOrder count).flatMap (productBlock width nops pairs)

theorem mem_productOrder {count i : Nat} : i ∈ productOrder count ↔ i < count := by
  simp only [productOrder, List.mem_append, List.mem_map, List.mem_range, ceilDiv_two]
  constructor
  · rintro (⟨w, hw, rfl⟩ | ⟨w, hw, rfl⟩)
    · omega
    · omega
  · intro hi
    by_cases hodd : i % 2 = 1
    · exact .inr ⟨i / 2, by omega, by omega⟩
    · exact .inl ⟨i / 2, by omega, by omega⟩

/-- Every product has its own multiply, and none of the first register comes after one of the
second. -/
theorem pairwise_productOrder (count : Nat) :
    (productOrder count).Pairwise fun i j => i ≠ j ∧ (i % 2 = 1 → j % 2 = 1) := by
  rw [productOrder, List.pairwise_append]
  refine ⟨?_, ?_, ?_⟩
  · refine List.Pairwise.map _ ?_ List.pairwise_lt_range
    intro v w hlt
    exact ⟨by omega, by omega⟩
  · refine List.Pairwise.map _ ?_ List.pairwise_lt_range
    intro v w hlt
    exact ⟨by omega, by omega⟩
  · intro i hi j hj
    obtain ⟨v, -, rfl⟩ := List.mem_map.mp hi
    obtain ⟨w, -, rfl⟩ := List.mem_map.mp hj
    exact ⟨by omega, by omega⟩

theorem map_op_plain (ops : List Operation) : (ops.map .plain).map Instruction.op = ops := by
  rw [List.map_map]
  exact List.map_id ops

theorem operations_chunkMultiplies (width nops count : Nat) (pairs : List (List Operation)) :
    (chunkMultiplies width nops count pairs).map Instruction.op =
      productBlocks width nops count pairs := by
  have heven : ∀ w, (paddedMultiply width nops 0 w).map Instruction.op =
      productBlock width nops pairs (2 * w) := by
    intro w
    rw [productBlock, Operation.product, Nat.mul_mod_right,
      Nat.mul_div_cancel_left w Nat.zero_lt_two, if_neg Nat.zero_ne_one, List.append_nil]
    simp [paddedMultiply, Instruction.plain]
  have hodd : ∀ w, (paddedMultiply width nops 1 w).map Instruction.op ++ pairs.getD w [] =
      productBlock width nops pairs (2 * w + 1) := by
    intro w
    rw [productBlock, Operation.product, show (2 * w + 1) % 2 = 1 by omega,
      show (2 * w + 1) / 2 = w by omega, if_pos rfl]
    simp [paddedMultiply, Instruction.plain]
  simp only [chunkMultiplies, productBlocks, productOrder, List.map_append, List.map_flatMap,
    List.flatMap_append, List.flatMap_map, map_op_plain, heven, hodd]

/-- The sum of each pair of neighbouring products. -/
structure AddsNeighbours (pairs : List (List Operation)) : Prop where
  quiet : ∀ w, ∀ op ∈ pairs.getD w [], op.Quiet
  loads_subset : ∀ w, ∀ op ∈ pairs.getD w [],
    op.loads ⊆ [productPlace (2 * w), productPlace (2 * w + 1)]

namespace AddsNeighbours

variable {pairs : List (List Operation)} {width nops count i : Nat} {op : Operation}

theorem nil : AddsNeighbours [] := ⟨by simp, by simp⟩

theorem mem_productBlock_cases (h : op ∈ productBlock width nops pairs i) :
    op = .product width i ∨ op = .nop ∨ i % 2 = 1 ∧ op ∈ pairs.getD (i / 2) [] := by
  simp only [productBlock, List.mem_cons, List.mem_append] at h
  rcases h with rfl | h | h
  · exact .inl rfl
  · exact .inr (.inl (List.eq_of_mem_replicate h))
  · split at h
    next hodd => exact .inr (.inr ⟨hodd, h⟩)
    next => simp at h

/-- In the block of a product, its pair is read and nothing else. -/
theorem loads_productBlock (h : AddsNeighbours pairs) (hop : op ∈ productBlock width nops pairs i) :
    ∀ place ∈ op.loads, i % 2 = 1 ∧ (place = productPlace (i - 1) ∨ place = productPlace i) := by
  intro place hplace
  rcases mem_productBlock_cases hop with rfl | rfl | ⟨hodd, hop⟩
  · simp [Operation.loads, Operation.product, Operation.multiply] at hplace
  · simp [Operation.loads, Operation.nop] at hplace
  · have hmem := h.loads_subset _ op hop hplace
    rw [show 2 * (i / 2) = i - 1 by omega, show i - 1 + 1 = i by omega] at hmem
    exact ⟨hodd, by simpa using hmem⟩

theorem multiplied_productBlock (h : AddsNeighbours pairs)
    (hop : op ∈ productBlock width nops pairs i) :
    ∀ place ∈ op.multiplied, place = productPlace i := by
  intro place hplace
  rcases mem_productBlock_cases hop with rfl | rfl | ⟨-, hop⟩
  · simpa [Operation.multiplied, Operation.product, Operation.multiply, Storage.places,
      productPlace] using hplace
  · simp [Operation.multiplied, Operation.nop] at hplace
  · rw [(h.quiet _ op hop).multiplied_eq_nil] at hplace
    simp at hplace

theorem multiplied_productBlocks (h : AddsNeighbours pairs)
    (hop : op ∈ productBlocks width nops count pairs) :
    ∀ place ∈ op.multiplied, ∃ i < count, place = productPlace i := by
  intro place hplace
  obtain ⟨i, hi, hop⟩ := List.mem_flatMap.mp hop
  exact ⟨i, mem_productOrder.mp hi, h.multiplied_productBlock hop place hplace⟩

theorem constant?_productBlocks (h : AddsNeighbours pairs)
    (hop : op ∈ productBlocks width nops count pairs) : op.constant? = none := by
  obtain ⟨i, -, hop⟩ := List.mem_flatMap.mp hop
  rcases mem_productBlock_cases hop with rfl | rfl | ⟨-, hop⟩
  · rfl
  · rfl
  · exact (h.quiet _ op hop).constant?_eq_none

theorem ne_readRow_productBlocks (h : AddsNeighbours pairs)
    (hop : op ∈ productBlocks width nops count pairs) (v : Nat) : op ≠ .readRow v := by
  obtain ⟨i, -, hop⟩ := List.mem_flatMap.mp hop
  rcases mem_productBlock_cases hop with rfl | rfl | ⟨-, hop⟩
  · exact Operation.noConfusion
  · simp [Operation.nop, Operation.readRow]
  · exact (h.quiet _ op hop).ne_readRow v

theorem reads_productBlock {known : List WordPlace} (h : AddsNeighbours pairs) (width nops : Nat)
    (hknown : i % 2 = 1 → productPlace (i - 1) ∈ known) :
    ReadsWritten known (productBlock width nops pairs i) := by
  refine ⟨List.nil_subset _, .of_loads_subset fun op hop place hplace => ?_⟩
  obtain ⟨hodd, rfl | rfl⟩ := h.loads_productBlock (List.mem_cons_of_mem (.product width i) hop)
    place hplace
  · exact List.mem_append_left _ (hknown hodd)
  · exact List.mem_append_right _ (List.mem_singleton.mpr rfl)

theorem productPlace_mem_changes {items : List Nat} (width nops : Nat)
    (pairs : List (List Operation)) (hi : i ∈ items) :
    productPlace i ∈ (items.flatMap (productBlock width nops pairs)).flatMap Operation.changes := by
  refine List.mem_flatMap.mpr ⟨.product width i, List.mem_flatMap.mpr ⟨i, hi, ?_⟩, ?_⟩
  · exact List.mem_cons_self
  · exact List.mem_singleton.mpr rfl

/-- **The sums between the multiplies read products.** All products of the first register are
multiplied before, and the one of the second register right before. -/
theorem reads_productBlocks (h : AddsNeighbours pairs) (width nops count : Nat) :
    ReadsWritten [] (productBlocks width nops count pairs) := by
  rw [productBlocks, productOrder, List.flatMap_append, ReadsWritten.append_iff]
  refine ⟨.flatMap fun i hi => ?_, .flatMap fun i hi => ?_⟩
  · obtain ⟨w, -, rfl⟩ := List.mem_map.mp hi
    exact h.reads_productBlock width nops fun hodd => by omega
  · obtain ⟨w, hw, rfl⟩ := List.mem_map.mp hi
    refine h.reads_productBlock width nops fun _ => productPlace_mem_changes width nops pairs ?_
    rw [List.mem_range] at hw
    refine List.mem_map.mpr ⟨w, List.mem_range.mpr ?_, rfl⟩
    rw [ceilDiv_two]
    omega

end AddsNeighbours

/-! ### The order of a chunk -/

/-- The operations of a chunk of `count` products respect their data dependencies. -/
structure DataOrdered (width nops count : Nat) (ops : List Operation) : Prop where
  /-- The constant of a product is loaded once. -/
  constant_once : ∀ i < count, (ops.filter fun op => op.constant? = some (UInt32.ofNat i)) =
    [.loadConstant (UInt32.ofNat i)]
  /-- The row of a product is read once. -/
  row_once : ∀ i < count, (ops.filter fun op => op = .readRow (i % 2)) = [.readRow (i % 2)]
  /-- A product is multiplied once, by its own constant. -/
  product_once : ∀ i < count, (ops.filter fun op => productPlace i ∈ op.multiplied) =
    [.product width i]
  /-- The multiply comes after the constant and the row, and before every read; so many waits follow
  and no more. -/
  product_placed : ∀ i < count, ∃ front back,
    ops = front ++ .product width i :: (List.replicate nops .nop ++ back) ∧
      back.head? ≠ some .nop ∧ .loadConstant (UInt32.ofNat i) ∈ front ∧
      .readRow (i % 2) ∈ front ∧ ∀ op ∈ front, productPlace i ∉ op.loads
  /-- Nothing but products is multiplied. -/
  multiplied_product : ∀ op ∈ ops, ∀ place ∈ op.multiplied, ∃ i < count, place = productPlace i
  /-- What is read from the very wide registers was written before. -/
  loads_written : ∀ front op back, ops = front ++ op :: back → ∀ place ∈ op.loads,
    ∃ writer ∈ front, place ∈ writer.changes

section Parts

variable {pairs : List (List Operation)} {tail : List Operation} {width nops count i : Nat}
  {op : Operation}

theorem operations_chunkLoads (count : Nat) :
    (chunkLoads count).map Instruction.op =
      (List.range count).map (fun k => .loadConstant (UInt32.ofNat k)) ++
        .readRow 0 :: (if 1 < count then [.readRow 1] else []) := by
  simp only [chunkLoads, List.map_append, List.map_map, List.map_cons]
  split
  · rfl
  · rfl

/-- A chunk loads constants and rows first, which reads no words and multiplies none. -/
theorem words_of_mem_chunkLoads (h : op ∈ (chunkLoads count).map Instruction.op) :
    op.multiplied = [] ∧ op.loads = [] := by
  rw [operations_chunkLoads, List.mem_append, List.mem_cons] at h
  rcases h with h | rfl | h
  · obtain ⟨k, -, rfl⟩ := List.mem_map.mp h
    exact ⟨rfl, rfl⟩
  · exact ⟨rfl, rfl⟩
  · split at h
    · obtain rfl := List.mem_singleton.mp h
      exact ⟨rfl, rfl⟩
    · simp at h

theorem loadConstant_mem_chunkLoads (hi : i < count) :
    .loadConstant (UInt32.ofNat i) ∈ (chunkLoads count).map Instruction.op := by
  rw [operations_chunkLoads]
  exact List.mem_append_left _ (List.mem_map.mpr ⟨i, List.mem_range.mpr hi, rfl⟩)

theorem readRow_mem_chunkLoads (hi : i < count) :
    .readRow (i % 2) ∈ (chunkLoads count).map Instruction.op := by
  rw [operations_chunkLoads]
  refine List.mem_append_right _ ?_
  by_cases heven : i % 2 = 0
  · rw [heven]
    exact List.mem_cons_self
  · rw [if_pos (by omega), show i % 2 = 1 by omega]
    simp

theorem filter_constant_chunkLoads (hcount : count ≤ UInt32.size) (hi : i < count) :
    (((chunkLoads count).map Instruction.op).filter fun op =>
      op.constant? = some (UInt32.ofNat i)) = [.loadConstant (UInt32.ofNat i)] := by
  have hrows : ((.readRow 0 :: if 1 < count then [.readRow 1] else []).filter fun op : Operation =>
      op.constant? = some (UInt32.ofNat i)) = [] := by
    split
    · rfl
    · rfl
  have hsame : ∀ k ∈ List.range count,
      decide (Operation.constant? (.loadConstant (UInt32.ofNat k)) = some (UInt32.ofNat i)) =
        decide (k = i) := by
    intro k hk
    rw [List.mem_range] at hk
    rw [decide_eq_decide, show Operation.constant? (.loadConstant _) = some _ from rfl,
      Option.some.injEq, ← UInt32.toNat_inj, UInt32.toNat_ofNat_of_lt' (by omega),
      UInt32.toNat_ofNat_of_lt' (by omega)]
  rw [operations_chunkLoads, List.filter_append, hrows, List.append_nil, List.filter_map]
  simp only [Function.comp_def]
  rw [List.filter_congr hsame, List.filter_eq, List.count_eq_one_of_mem List.nodup_range
    (List.mem_range.mpr hi)]
  rfl

theorem filter_row_chunkLoads (hi : i < count) :
    (((chunkLoads count).map Instruction.op).filter fun op => op = .readRow (i % 2)) =
      [.readRow (i % 2)] := by
  have hconstants : (((List.range count).map fun k =>
      Operation.loadConstant (UInt32.ofNat k)).filter fun op => op = .readRow (i % 2)) = [] := by
    rw [List.filter_eq_nil_iff]
    intro op hop
    obtain ⟨k, -, rfl⟩ := List.mem_map.mp hop
    simp [Operation.loadConstant, Operation.readRow]
  rw [operations_chunkLoads, List.filter_append, hconstants, List.nil_append]
  by_cases heven : i % 2 = 0
  · rw [heven]
    split
    · rfl
    · rfl
  · rw [if_pos (by omega), show i % 2 = 1 by omega]
    rfl

/-- The multiplies before and after that of a product. -/
theorem exists_productOrder_eq (hi : i < count) :
    ∃ before after, productOrder count = before ++ i :: after ∧
      (∀ j ∈ before, j < count ∧ j ≠ i ∧ (j % 2 = 1 → i % 2 = 1)) ∧
      ∀ j ∈ after, j < count ∧ j ≠ i := by
  obtain ⟨before, after, horder⟩ := List.append_of_mem (mem_productOrder.mpr hi)
  have hpairwise := pairwise_productOrder count
  have hmem : ∀ j ∈ before ++ i :: after, j < count := fun j hj =>
    mem_productOrder.mp (horder ▸ hj)
  rw [horder, List.pairwise_append, List.pairwise_cons] at hpairwise
  obtain ⟨-, ⟨hafter, -⟩, hbefore⟩ := hpairwise
  refine ⟨before, after, horder, fun j hj => ?_, fun j hj => ?_⟩
  · exact ⟨hmem j (by simp [hj]), hbefore j hj i List.mem_cons_self⟩
  · exact ⟨hmem j (by simp [hj]), (hafter j hj).1.symm⟩

/-- Behind the wait comes a sum, the next multiply or the tail, and none of them starts with a
wait. -/
theorem head?_ne_nop (hpairs : AddsNeighbours pairs) (hquiet : ∀ op ∈ tail, op.Quiet)
    (width nops i : Nat) (after : List Nat) :
    ((if i % 2 = 1 then pairs.getD (i / 2) [] else []) ++
      (after.flatMap (productBlock width nops pairs) ++ tail)).head? ≠ some .nop := by
  intro hhead
  rw [List.head?_append, Option.or_eq_some_iff] at hhead
  rcases hhead with hhead | ⟨-, hhead⟩
  · have hmem := List.mem_of_head? hhead
    split at hmem
    · exact (hpairs.quiet _ _ hmem).ne_nop rfl
    · simp at hmem
  · cases after with
    | nil => exact (hquiet _ (List.mem_of_head? hhead)).ne_nop rfl
    | cons j after => exact Operation.noConfusion (Option.some.inj hhead)

/-- A chunk around the multiply of a product. -/
theorem exists_chunk_eq (hcount : count ≤ UInt32.size) (hpairs : AddsNeighbours pairs)
    (hquiet : ∀ op ∈ tail, op.Quiet) (hi : i < count) :
    ∃ front back, (chunkLoads count).map Instruction.op ++
        productBlocks width nops count pairs ++ tail =
          front ++ .product width i :: (List.replicate nops .nop ++ back) ∧
      (chunkLoads count).map Instruction.op ⊆ front ∧
      (∀ op ∈ front, productPlace i ∉ op.multiplied ∧ productPlace i ∉ op.loads) ∧
      (∀ op ∈ back, productPlace i ∉ op.multiplied) ∧ back.head? ≠ some .nop := by
  obtain ⟨before, after, horder, hbefore, hafter⟩ := exists_productOrder_eq hi
  have hother : ∀ j < count, j ≠ i → ∀ op ∈ productBlock width nops pairs j,
      productPlace i ∉ op.multiplied := by
    intro j hj hne op hop hmem
    have heq := hpairs.multiplied_productBlock hop _ hmem
    exact hne ((productPlace_inj (by omega) (by omega)).mp heq).symm
  refine ⟨(chunkLoads count).map Instruction.op ++ before.flatMap (productBlock width nops pairs),
    (if i % 2 = 1 then pairs.getD (i / 2) [] else []) ++
      (after.flatMap (productBlock width nops pairs) ++ tail), ?_, List.subset_append_left _ _,
    ?_, ?_, head?_ne_nop hpairs hquiet width nops i after⟩
  · rw [productBlocks, horder, List.flatMap_append, List.flatMap_cons, productBlock]
    simp only [List.append_assoc, List.cons_append]
  · intro op hop
    rcases List.mem_append.mp hop with hop | hop
    · obtain ⟨hmultiplied, hloads⟩ := words_of_mem_chunkLoads hop
      rw [hmultiplied, hloads]
      exact ⟨List.not_mem_nil, List.not_mem_nil⟩
    · obtain ⟨j, hj, hop⟩ := List.mem_flatMap.mp hop
      obtain ⟨hlt, hne, hparity⟩ := hbefore j hj
      refine ⟨hother j hlt hne op hop, fun hmem => ?_⟩
      -- a sum before the multiply is one of the second register, and then so is the product
      obtain ⟨hodd, heq | heq⟩ := hpairs.loads_productBlock hop _ hmem
      · have hsame := (productPlace_inj (by omega) (by omega)).mp heq
        have hproduct := hparity hodd
        omega
      · exact hne ((productPlace_inj (by omega) (by omega)).mp heq).symm
  · intro op hop
    rcases List.mem_append.mp hop with hop | hop
    · split at hop
      · rw [(hpairs.quiet _ op hop).multiplied_eq_nil]
        exact List.not_mem_nil
      · simp at hop
    rcases List.mem_append.mp hop with hop | hop
    · obtain ⟨j, hj, hop⟩ := List.mem_flatMap.mp hop
      exact hother j (hafter j hj).1 (hafter j hj).2 op hop
    · rw [(hquiet op hop).multiplied_eq_nil]
      exact List.not_mem_nil

theorem filter_multiplied {front back : List Operation} (width nops : Nat)
    (hfront : ∀ op ∈ front, productPlace i ∉ op.multiplied)
    (hback : ∀ op ∈ back, productPlace i ∉ op.multiplied) :
    ((front ++ Operation.product width i :: (List.replicate nops .nop ++ back)).filter fun op =>
      productPlace i ∈ op.multiplied) = [.product width i] := by
  have hproduct : decide (productPlace i ∈ (Operation.product width i).multiplied) = true :=
    decide_eq_true List.mem_cons_self
  have hbefore : (front.filter fun op => productPlace i ∈ op.multiplied) = [] :=
    List.filter_eq_nil_iff.mpr fun op hop => by simp [hfront op hop]
  have hwaits : ((List.replicate nops Operation.nop).filter fun op =>
      productPlace i ∈ op.multiplied) = [] :=
    List.filter_eq_nil_iff.mpr fun op hop => by
      simp [List.eq_of_mem_replicate hop, Operation.multiplied, Operation.nop]
  have hafter : (back.filter fun op => productPlace i ∈ op.multiplied) = [] :=
    List.filter_eq_nil_iff.mpr fun op hop => by simp [hback op hop]
  rw [List.filter_append, List.filter_cons, if_pos hproduct, List.filter_append, hbefore, hwaits,
    hafter]
  rfl

theorem readsWritten_chunk (hpairs : AddsNeighbours pairs)
    (hreads : ReadsWritten ((productBlocks width nops count pairs).flatMap Operation.changes)
      tail) :
    ReadsWritten []
      ((chunkLoads count).map Instruction.op ++ productBlocks width nops count pairs ++ tail) := by
  rw [ReadsWritten.append_iff, ReadsWritten.append_iff, List.nil_append]
  refine ⟨⟨.of_loads_subset fun op hop => ?_, ?_⟩, hreads.mono ?_⟩
  · rw [(words_of_mem_chunkLoads hop).2]
    exact List.nil_subset _
  · exact (hpairs.reads_productBlocks width nops count).mono (List.nil_subset _)
  · rw [List.flatMap_append]
    exact List.subset_append_right _ _

/-- **The order of a chunk.** Between the multiplies stand the sums of neighbouring products, and
behind them operations that read what is written there. -/
theorem dataOrdered_of_parts (hcount : count ≤ UInt32.size) (hpairs : AddsNeighbours pairs)
    (hquiet : ∀ op ∈ tail, op.Quiet)
    (hreads : ReadsWritten ((productBlocks width nops count pairs).flatMap Operation.changes)
      tail) :
    DataOrdered width nops count
      ((chunkLoads count).map Instruction.op ++ productBlocks width nops count pairs ++ tail) := by
  refine ⟨fun i hi => ?_, fun i hi => ?_, fun i hi => ?_, fun i hi => ?_, ?_, ?_⟩
  · rw [List.filter_append, List.filter_append, filter_constant_chunkLoads hcount hi,
      List.filter_eq_nil_iff.mpr fun op hop => by simp [hpairs.constant?_productBlocks hop],
      List.filter_eq_nil_iff.mpr fun op hop => by simp [(hquiet op hop).constant?_eq_none]]
    rfl
  · rw [List.filter_append, List.filter_append, filter_row_chunkLoads hi,
      List.filter_eq_nil_iff.mpr fun op hop => by simp [hpairs.ne_readRow_productBlocks hop],
      List.filter_eq_nil_iff.mpr fun op hop => by simp [(hquiet op hop).ne_readRow]]
    rfl
  · obtain ⟨front, back, heq, -, hfront, hback, -⟩ := exists_chunk_eq hcount hpairs hquiet hi
    rw [heq]
    exact filter_multiplied width nops (fun op hop => (hfront op hop).1) hback
  · obtain ⟨front, back, heq, hloads, hfront, -, hhead⟩ := exists_chunk_eq hcount hpairs hquiet hi
    exact ⟨front, back, heq, hhead, hloads (loadConstant_mem_chunkLoads hi),
      hloads (readRow_mem_chunkLoads hi), fun op hop => (hfront op hop).2⟩
  · intro op hop place hplace
    rw [List.mem_append, List.mem_append] at hop
    rcases hop with (hop | hop) | hop
    · rw [(words_of_mem_chunkLoads hop).1] at hplace
      simp at hplace
    · exact hpairs.multiplied_productBlocks hop place hplace
    · rw [(hquiet op hop).multiplied_eq_nil] at hplace
      simp at hplace
  · intro front op back heq place hplace
    exact (readsWritten_chunk hpairs hreads).exists_writer heq hplace

end Parts

/-! ### Bodies -/

section Chunk

variable {hw : Hardware} {r : Reducer} {limit : Option Nat} {nops count : Nat}
  {first : FoldedLayer}

theorem quiet_of_mem_bodyEnd {packets : List Packet} {half : Nat} {op : Operation}
    (h : op ∈ (bodyEnd packets half).map Instruction.op) : op.Quiet ∧ op.loads = [] := by
  obtain ⟨i, hi, rfl⟩ := List.mem_map.mp h
  rcases List.mem_append.mp hi with hi | hi
  · split at hi
    · obtain ⟨v, -, rfl⟩ := List.mem_map.mp hi
      exact ⟨show Opcode.perm ∉ _ by decide, rfl⟩
    · simp at hi
  · obtain ⟨v, -, rfl⟩ := List.mem_map.mp hi
    exact ⟨show Opcode.wlb ∉ _ by decide, rfl⟩

/-- A body is in order if folding starts from words that its front writes. Behind the multiplies,
the front has the operations that carry a product over, which read products. -/
theorem Body.dataOrdered_folded {front : List Instruction} {cursor : Cursor}
    {packets : List Packet} {pairs : List (List Operation)} {width : Nat} (carry : List Operation)
    (hfront : front.map Instruction.op = (chunkLoads count).map Instruction.op ++
      productBlocks r.initial nops count pairs ++ carry)
    (hcount : count ≤ UInt32.size) (hpairs : AddsNeighbours pairs)
    (hquiet : ∀ op ∈ carry, op.Quiet)
    (hcarry : ∀ op ∈ carry, op.loads ⊆
      (productBlocks r.initial nops count pairs).flatMap Operation.changes)
    (hchain : WidthChain width (r.layers.drop cursor.layer))
    (hpackets : ∀ p ∈ packets, p.places (Subword.wordsPerPacket r.initial width) ⊆
      (productBlocks r.initial nops count pairs).flatMap Operation.changes ++
        carry.flatMap Operation.changes) :
    DataOrdered r.initial nops count
      ((Body.folded hw r limit front cursor packets).instructions.map Instruction.op) := by
  obtain ⟨ops, hout, hreads, hfolds⟩ := Reducer.reads_foldLayers (f := { cursor, packets })
    (bodyBudget hw) limit hchain hpackets
  have hend : ∀ packets half, ∀ op ∈ (bodyEnd packets half).map Instruction.op,
      op.loads ⊆ [] := fun packets half op hop => by
    rw [(quiet_of_mem_bodyEnd hop).2]
    exact List.nil_subset _
  simp only [Body.folded, Reducer.fold, hout, List.map_append, map_op_plain, List.nil_append,
    hfront]
  rw [List.append_assoc _ carry, List.append_assoc _ (carry ++ ops)]
  refine dataOrdered_of_parts hcount hpairs ?_ ?_
  · intro op hop
    rw [List.mem_append, List.mem_append] at hop
    rcases hop with (hop | hop) | hop
    · exact hquiet op hop
    · exact hfolds op hop
    · exact (quiet_of_mem_bodyEnd hop).1
  · rw [ReadsWritten.append_iff, ReadsWritten.append_iff]
    refine ⟨⟨.of_loads_subset hcarry, hreads⟩, ReadsWritten.mono (.of_loads_subset (hend _ _)) ?_⟩
    exact List.nil_subset _

theorem place_of_loadedPackets {i : Nat} {p : Packet} (h : (loadedPackets count 1)[i]? = some p) :
    p.place 0 = productPlace i := by
  rw [loadedPackets, List.getElem?_map] at h
  obtain ⟨k, hk, rfl⟩ := Option.map_eq_some_iff.mp h
  obtain ⟨-, rfl⟩ := List.getElem?_eq_some_iff.mp hk
  simp [Packet.place, productPlace]

/-- The words of the products that a chunk has loaded. -/
theorem places_of_mem_loadedPackets {p : Packet} (h : p ∈ loadedPackets count 1) :
    ∃ i < count, p.places 1 = [productPlace i] := by
  obtain ⟨i, hi, hp⟩ := List.mem_iff_getElem.mp h
  rw [length_loadedPackets] at hi
  refine ⟨i, hi, ?_⟩
  rw [← place_of_loadedPackets (List.getElem?_eq_some_iff.mpr ⟨_, hp⟩)]
  rfl

theorem exists_foldLayer?_of_chunkLayer? (h : chunkLayer? r count limit = some first) :
    ∃ l, r.layers[0]? = some l ∧ r.foldLayer? l (loadedPackets count 1) 0 = some first := by
  rw [chunkLayer?] at h
  split at h
  · exact Option.bind_eq_some_iff.mp h
  · simp at h

theorem Reducer.Sound.packetIn_first (hr : r.Sound hw) {l : TreeLayer}
    (hl : r.layers[0]? = some l) : r.packetIn l = 1 := by
  have hwidth : some r.initial = some l.widthIn := hr.widthChain.getElem?_widths hl
  rw [Reducer.packetIn, ← Option.some.inj hwidth]
  exact Subword.wordsPerPacket_self hr.initial_mem

theorem addsNeighbours_of_chunkLayer? (hr : r.Sound hw)
    (h : chunkLayer? r count limit = some first) : AddsNeighbours first.pairs := by
  obtain ⟨l, hl, h⟩ := exists_foldLayer?_of_chunkLayer? h
  obtain ⟨base, rfl⟩ := Reducer.exists_eq_dealLayer h
  have hpair : ∀ w, ∀ op ∈ (r.dealLayer l base 0 (loadedPackets count 1)).pairs.getD w [],
      ∃ a b dst, a.place 0 = productPlace (2 * w) ∧ b.place 0 = productPlace (2 * w + 1) ∧
        op ∈ r.addPackets l a b dst := by
    intro w op hop
    rw [List.getD_eq_getElem?_getD] at hop
    cases hw : (r.dealLayer l base 0 (loadedPackets count 1)).pairs[w]? with
    | none =>
      rw [hw] at hop
      simp at hop
    | some ops =>
      rw [hw, Option.getD_some] at hop
      obtain ⟨a, b, dst, ha, hb, rfl⟩ := Reducer.pairs_dealLayer hw
      exact ⟨a, b, dst, place_of_loadedPackets ha, place_of_loadedPackets hb, hop⟩
  refine ⟨fun w op hop => ?_, fun w op hop place hplace => ?_⟩
  · obtain ⟨a, b, dst, -, -, hop⟩ := hpair w op hop
    exact Reducer.quiet_of_mem_addPackets hop
  · obtain ⟨a, b, dst, ha, hb, hop⟩ := hpair w op hop
    have hmem := List.mem_flatMap.mpr ⟨op, hop, hplace⟩
    rw [Reducer.loads_addPackets, hr.packetIn_first hl] at hmem
    simpa [ha, hb] using hmem

theorem mem_productBlocks_of_mem_flatten {pairs : List (List Operation)} {op : Operation}
    (width nops : Nat) (hpairs : pairs.length ≤ count / 2) (hop : op ∈ pairs.flatten) :
    op ∈ productBlocks width nops count pairs := by
  obtain ⟨ops, hops, hop⟩ := List.mem_flatten.mp hop
  obtain ⟨w, hw, rfl⟩ := List.mem_iff_getElem.mp hops
  refine List.mem_flatMap.mpr ⟨2 * w + 1, mem_productOrder.mpr (by omega), ?_⟩
  rw [productBlock, show (2 * w + 1) % 2 = 1 by omega, show (2 * w + 1) / 2 = w by omega,
    if_pos rfl, List.getD_eq_getElem?_getD, List.getElem?_eq_getElem hw, Option.getD_some]
  exact List.mem_cons_of_mem _ (List.mem_append_right _ hop)

/-- **The body of a chunk respects its data dependencies.** -/
theorem Body.dataOrdered_ofChunk (hhw : hw.WithinLimits) (hr : r.Sound hw) (nops : Nat)
    (limit : Option Nat) (hwords : count ≤ hw.registerWords) :
    DataOrdered r.initial nops count
      ((Body.ofChunk hw r nops count limit).instructions.map Instruction.op) := by
  have hcount : count ≤ UInt32.size :=
    Nat.le_trans hwords (Nat.le_trans hhw.registerWords_le (by decide))
  have hproducts : ∀ pairs, ∀ p ∈ loadedPackets count 1, p.places 1 ⊆
      (productBlocks r.initial nops count pairs).flatMap Operation.changes := by
    intro pairs p hp place hplace
    obtain ⟨i, hi, hplaces⟩ := places_of_mem_loadedPackets hp
    rw [hplaces, List.mem_singleton] at hplace
    subst hplace
    exact AddsNeighbours.productPlace_mem_changes _ _ pairs (mem_productOrder.mpr hi)
  rw [Body.ofChunk]
  cases hfirst : chunkLayer? r count limit with
  | none =>
    refine Body.dataOrdered_folded [] ?_ hcount .nil (by simp) (by simp) hr.widthChain ?_
    · rw [List.map_append, operations_chunkMultiplies, List.append_nil]
    · intro p hp
      rw [Subword.wordsPerPacket_self hr.initial_mem]
      exact List.subset_append_of_subset_left _ (hproducts [] p hp)
  | some first =>
    obtain ⟨l, hl, hhalves⟩ := halves_of_chunkLayer? hhw hr hwords hfirst
    obtain ⟨l', hl', hfolded⟩ := exists_foldLayer?_of_chunkLayer? hfirst
    obtain rfl : l = l' := Option.some.inj (hl.symm.trans hl')
    have hknown : ∀ p ∈ loadedPackets count 1, p.places (r.packetIn l) ⊆
        (productBlocks r.initial nops count first.pairs).flatMap Operation.changes := by
      rw [hr.packetIn_first hl]
      exact hproducts first.pairs
    refine Body.dataOrdered_folded first.carry ?_ hcount
      (addsNeighbours_of_chunkLayer? hr hfirst) ?_ ?_ (hr.widthChain.drop_succ hl) ?_
    · rw [List.map_append, List.map_append, operations_chunkMultiplies, map_op_plain]
    · intro op hop
      exact Reducer.quiet_of_foldLayer? hfolded op (List.mem_append_right _ hop)
    · intro op hop
      exact Reducer.loads_subset_of_foldLayer? hknown hfolded op (List.mem_append_right _ hop)
    · intro p hp place hplace
      have hmem := Reducer.places_subset_of_foldLayer? (hr.widthChain.sound hl) hfolded p hp hplace
      obtain ⟨op, hop, hmem⟩ := List.mem_flatMap.mp hmem
      rcases List.mem_append.mp hop with hop | hop
      · refine List.mem_append_left _ (List.mem_flatMap.mpr ⟨op, ?_, hmem⟩)
        exact mem_productBlocks_of_mem_flatten _ _ (Nat.le_of_eq hhalves.length_pairs) hop
      · exact List.mem_append_right _ (List.mem_flatMap.mpr ⟨op, hop, hmem⟩)

end Chunk

/-- **The bodies of a plan respect their data dependencies**, those of the full chunks and that of
the remainder. -/
theorem Plan.bodies_ordered {hw : Hardware} {w : Workload} {plan : Plan}
    (h : Plan.make hw w = .ok plan) :
    let r := Reducer.ofTree plan.tree w.subwordWidth hw
    let full := Body.ofChunk hw r plan.padding.nops plan.chunk none
    let rest := Body.ofChunk hw r plan.padding.nops plan.remainder (some full.cursor.layer)
    DataOrdered w.subwordWidth plan.padding.nops plan.chunk (full.instructions.map Instruction.op) ∧
      DataOrdered w.subwordWidth plan.padding.nops plan.remainder
        (rest.instructions.map Instruction.op) := by
  intro r full rest
  have hsound := sound_of_make h
  have hwords := hsound.chunk_le_registerWords
  have hlt := hsound.remainder_lt
  refine ⟨Body.dataOrdered_ofChunk hsound.limits hsound.sound_reducer _ none hwords, ?_⟩
  exact Body.dataOrdered_ofChunk hsound.limits hsound.sound_reducer _ _ (by omega)

/-- Seven products with a constant store of four entries are multiplied in a chunk of four and a
remainder of three, with a wait after every multiply. The product of the remainder that has no pair
is carried over and added in the second layer. -/
theorem Plan.bodies_ordered_carried :
    ∃ plan, Plan.make { storeEntries := 4 } { m := 1, n := 7, q := 8, digitLength := 12 } =
        .ok plan ∧ plan.chunk = 4 ∧ plan.remainder = 3 ∧ plan.padding.nops = 1 ∧
      (let r := Reducer.ofTree plan.tree 8 { storeEntries := 4 }
      let full := Body.ofChunk { storeEntries := 4 } r 1 4 none
      let rest := Body.ofChunk { storeEntries := 4 } r 1 3 (some full.cursor.layer)
      rest.cursor.layer = 2 ∧ rest.instructions.length = 28 ∧
        DataOrdered 8 1 4 (full.instructions.map Instruction.op) ∧
        DataOrdered 8 1 3 (rest.instructions.map Instruction.op)) := by
  have hvalues : (Plan.make { storeEntries := 4 }
      { m := 1, n := 7, q := 8, digitLength := 12 }).toOption.map (fun plan =>
        let r := Reducer.ofTree plan.tree 8 { storeEntries := 4 }
        let full := Body.ofChunk { storeEntries := 4 } r 1 4 none
        let rest := Body.ofChunk { storeEntries := 4 } r 1 3 (some full.cursor.layer)
        (plan.chunk, plan.remainder, plan.padding.nops, rest.cursor.layer,
          rest.instructions.length)) = some (4, 3, 1, 2, 28) := by decide +kernel
  obtain ⟨plan, hplan, hvalues⟩ := Option.map_eq_some_iff.mp hvalues
  rw [toOption_eq_some_iff] at hplan
  simp only [Prod.mk.injEq] at hvalues
  obtain ⟨hchunk, hremainder, hnops, hlayer, hlength⟩ := hvalues
  obtain ⟨hfull, hrest⟩ := Plan.bodies_ordered hplan
  rw [hchunk, hnops] at hfull hrest
  rw [hremainder] at hrest
  exact ⟨plan, hplan, hchunk, hremainder, hnops, hlayer, hlength, hfull, hrest⟩

end NearMemory
