import NearMemory.Proofs.LayerFold
import Mathlib.Data.List.Nodup

/-!
# The layout of a folded layer

A layer gives out the words of its results as it goes, and gives up as soon as they run out. Both
have a closed form (`Reducer.foldLayer?_eq`): result number `j` is in register `j % 2`, behind the
`j / 2` results that are there before it, so the layer can be folded exactly if the fuller register,
the first one, has room for its share. What is left to say of a layer is said of
`Reducer.dealLayer`, which cannot fail.

Result words come about in two ways, by moves where the width stays and by packs where it grows.
Over the words of a packet both ways write every word of the result once
(`Reducer.storedWords_perm`): a pack fills the output word that begins in the word at hand, and
every output word begins in one of them.

An operation names a word by a 32-bit number, whereas packets are placed by unbounded ones. What is
read and written is therefore compared as operations name it, and the names are distinct if the very
wide registers have no more words than there are numbers.

## Main definitions

* `WordPlace` — a word of a very wide register, as operations name it
* `Operation.loads`, `Operation.stores` — the words that an operation takes and puts
* `Packet.InHalf`, `Packet.Apart` — packets in a half, and packets without a common word
* `Reducer.dealLayer` — a layer whose results fit

## Main results

* `Reducer.foldLayer?_eq` — whether a layer can be folded, and what it is
* `Reducer.stores_dealLayer` — a layer writes every word of its results once
* `Reducer.foldAt?_layout` — the layout of a layer of an adder tree
-/

namespace NearMemory

/-- A word of a very wide register, as operations name it. -/
structure WordPlace where
  /-- The very wide register. -/
  vwr : Nat
  /-- The number of the word. -/
  index : UInt32
  deriving DecidableEq, Repr

/-- The word that a storage operand names, if it is one of a very wide register. -/
def Storage.places (s : Storage) (index : UInt32) : List WordPlace :=
  match s with
  | .vwr v => [⟨v, index⟩]
  | _ => []

namespace Operation

/-- The words that a move takes from the very wide registers. -/
def loads : Operation → List WordPlace
  | .move m => if m.opcode = .vmv then m.src.places m.imm else []
  | _ => []

/-- The words that a move or a pack puts into the very wide registers. -/
def stores : Operation → List WordPlace
  | .move m => if m.opcode = .vmv then m.dst.places m.imm else []
  | .pack p => p.dst.places p.dstIndex
  | .arithmetic _ => []

end Operation

namespace Packet

/-- A word of a packet. -/
def place (p : Packet) (w : Nat) : WordPlace := ⟨p.vwr, UInt32.ofNat (p.word + w)⟩

/-- The words of a packet of the given size. -/
def places (p : Packet) (packet : Nat) : List WordPlace := (List.range packet).map p.place

/-- A packet of the given size lies in a half of a very wide register, whose halves have `words`
words each. -/
structure InHalf (p : Packet) (words half packet : Nat) : Prop where
  vwr_lt : p.vwr < 2
  le_word : half * words ≤ p.word
  word_le : p.word + packet ≤ (half + 1) * words

instance (p : Packet) (words half packet : Nat) : Decidable (p.InHalf words half packet) :=
  decidable_of_iff (p.vwr < 2 ∧ half * words ≤ p.word ∧ p.word + packet ≤ (half + 1) * words)
    ⟨fun h => ⟨h.1, h.2.1, h.2.2⟩, fun h => ⟨h.vwr_lt, h.le_word, h.word_le⟩⟩

/-- Packets of the given size without a common word. -/
def Apart (packet : Nat) (p q : Packet) : Prop :=
  p.vwr ≠ q.vwr ∨ p.word + packet ≤ q.word ∨ q.word + packet ≤ p.word

/-! ### The words of packets -/

variable {p q : Packet} {words half packet w v : Nat}

theorem mem_places {place : WordPlace} :
    place ∈ p.places packet ↔ ∃ w < packet, p.place w = place := by
  simp [places]

theorem place_mem_places (p : Packet) (h : w < packet) : p.place w ∈ p.places packet :=
  mem_places.mpr ⟨w, h, rfl⟩

/-- Words that operations can name have different names. -/
theorem place_eq_place_iff (hp : p.word + w < UInt32.size) (hq : q.word + v < UInt32.size) :
    p.place w = q.place v ↔ p.vwr = q.vwr ∧ p.word + w = q.word + v := by
  rw [place, place, WordPlace.mk.injEq, ← UInt32.toNat_inj, UInt32.toNat_ofNat_of_lt' hp,
    UInt32.toNat_ofNat_of_lt' hq]

theorem InHalf.word_lt (h : p.InHalf words half packet) (hhalf : half < 2) (hw : w < packet) :
    p.word + w < 2 * words := by
  have hle := h.word_le
  have hend : (half + 1) * words ≤ 2 * words := Nat.mul_le_mul_right words hhalf
  omega

theorem nodup_places (h : p.word + packet ≤ UInt32.size) : (p.places packet).Nodup := by
  refine List.Nodup.map_on ?_ List.nodup_range
  intro w hw v hv heq
  rw [List.mem_range] at hw hv
  have hsame := (place_eq_place_iff (by omega) (by omega)).mp heq
  omega

theorem Apart.disjoint_places (h : p.Apart packet q) (hp : p.word + packet ≤ UInt32.size)
    (hq : q.word + packet ≤ UInt32.size) : (p.places packet).Disjoint (q.places packet) := by
  intro place hplace hplace'
  obtain ⟨w, hw, rfl⟩ := mem_places.mp hplace
  obtain ⟨v, hv, heq⟩ := mem_places.mp hplace'
  obtain ⟨hvwr, hword⟩ := (place_eq_place_iff (by omega) (by omega)).mp heq
  rcases h with hne | hle | hle
  · exact hne hvwr.symm
  · omega
  · omega

/-- Packets of different halves have no common word. -/
theorem InHalf.place_ne (hp : p.InHalf words half packet) (hq : q.InHalf words (1 - half) packet)
    (hhalf : half < 2) (hwords : 2 * words ≤ UInt32.size) (hw : w < packet) (hv : v < packet) :
    p.place w ≠ q.place v := by
  intro heq
  have hplt := hp.word_lt hhalf hw
  have hqlt := hq.word_lt (Nat.lt_of_le_of_lt (Nat.sub_le 1 half) Nat.one_lt_two) hv
  obtain ⟨-, hword⟩ := (place_eq_place_iff (by omega) (by omega)).mp heq
  have hple := hp.le_word
  have hpend := hp.word_le
  have hqle := hq.le_word
  have hqend := hq.word_le
  obtain rfl | rfl : half = 0 ∨ half = 1 := by omega
  · omega
  · omega

end Packet

/-! ### Words given out in turn -/

/-- The state of giving out packets of one size to the two registers in turn, after `count` of
them. -/
def FreeWords.dealt (base size packet count : Nat) : FreeWords :=
  ⟨base, size, (count + 1) / 2 * packet, count / 2 * packet⟩

/-- Packet number `j` of those that are given out in turn. -/
def dealtPacket (base packet j : Nat) : Packet := ⟨j % 2, base + j / 2 * packet⟩

theorem FreeWords.take?_dealt (base size packet count : Nat) :
    (dealt base size packet count).take? packet (count % 2) =
      if size < (count + 2) / 2 * packet then none
      else some (dealtPacket base packet count, dealt base size packet (count + 1)) := by
  obtain ⟨k, rfl | rfl⟩ : ∃ k, count = 2 * k ∨ count = 2 * k + 1 := ⟨count / 2, by omega⟩
  · rw [take?, dealt, dealt, dealtPacket, show 2 * k % 2 = 0 by omega, if_pos rfl, if_pos rfl,
      show (2 * k + 1) / 2 = k by omega, show (2 * k + 2) / 2 = k + 1 by omega,
      show 2 * k / 2 = k by omega, Nat.succ_mul]
  · rw [take?, dealt, dealt, dealtPacket, show (2 * k + 1) % 2 = 1 by omega, if_neg Nat.one_ne_zero,
      if_neg Nat.one_ne_zero, show (2 * k + 1) / 2 = k by omega,
      show (2 * k + 1 + 2) / 2 = k + 1 by omega, show (2 * k + 1 + 1) / 2 = k + 1 by omega,
      Nat.succ_mul]

theorem apart_dealtPacket {j k : Nat} (base packet : Nat) (h : j ≠ k) :
    (dealtPacket base packet j).Apart packet (dealtPacket base packet k) := by
  by_cases hparity : j % 2 = k % 2
  · refine .inr ?_
    have hlt : j / 2 + 1 ≤ k / 2 ∨ k / 2 + 1 ≤ j / 2 := by omega
    show base + j / 2 * packet + packet ≤ base + k / 2 * packet ∨
      base + k / 2 * packet + packet ≤ base + j / 2 * packet
    rcases hlt with hlt | hlt
    · have hmul := Nat.mul_le_mul_right packet hlt
      rw [Nat.succ_mul] at hmul
      omega
    · have hmul := Nat.mul_le_mul_right packet hlt
      rw [Nat.succ_mul] at hmul
      omega
  · exact .inl hparity

/-- The packets given out lie in the half if the first register has room for its share. -/
theorem inHalf_dealtPacket {words half packet count j : Nat} (hj : j < count)
    (hroom : (count + 1) / 2 * packet ≤ words) :
    (dealtPacket (half * words) packet j).InHalf words half packet := by
  refine ⟨Nat.mod_lt j Nat.zero_lt_two, Nat.le_add_right _ _, ?_⟩
  show half * words + j / 2 * packet + packet ≤ (half + 1) * words
  have hmul : (j / 2 + 1) * packet ≤ (count + 1) / 2 * packet :=
    Nat.mul_le_mul_right packet (by omega)
  rw [Nat.succ_mul] at hmul ⊢
  omega

namespace Reducer

variable {r : Reducer} {l : TreeLayer}

/-! ### A layer in closed form -/

/-- A layer whose results are given out in turn from a word on, starting with number `pair`. -/
def dealLayer (r : Reducer) (l : TreeLayer) (base : Nat) : Nat → List Packet → FoldedLayer
  | pair, a :: b :: rest =>
    let dst := dealtPacket base (r.packetOut l) pair
    let folded := dealLayer r l base (pair + 1) rest
    { folded with
      pairs := r.addPackets l a b dst :: folded.pairs
      packets := dst :: folded.packets }
  | pair, [c] =>
    let dst := dealtPacket base (r.packetOut l) pair
    { carry := r.carryPacket l c dst, packets := [dst] }
  | _, [] => {}

theorem foldFrom?_dealt {size pair : Nat} (base : Nat) (packets : List Packet)
    (hroom : (pair + 1) / 2 * r.packetOut l ≤ size) :
    r.foldFrom? l pair (.dealt base size (r.packetOut l) pair) packets =
      if size < (pair + ceilDiv packets.length 2 + 1) / 2 * r.packetOut l then none
      else some (r.dealLayer l base pair packets) := by
  match packets with
  | [] =>
    rw [List.length_nil, show ceilDiv 0 2 = 0 from rfl, Nat.add_zero, if_neg (Nat.not_lt.mpr hroom)]
    rfl
  | [c] =>
    rw [List.length_singleton, show ceilDiv 1 2 = 1 from rfl, foldFrom?, FreeWords.take?_dealt]
    split
    · rfl
    · rfl
  | a :: b :: rest =>
    have hcount : pair + ceilDiv (a :: b :: rest).length 2 = pair + 1 + ceilDiv rest.length 2 := by
      simp only [List.length_cons, ceilDiv_two]
      omega
    rw [hcount, foldFrom?, FreeWords.take?_dealt]
    by_cases hfull : size < (pair + 2) / 2 * r.packetOut l
    · -- the words run out at once, so they run out before the end
      have hmore : (pair + 2) / 2 * r.packetOut l ≤
          (pair + 1 + ceilDiv rest.length 2 + 1) / 2 * r.packetOut l :=
        Nat.mul_le_mul_right _ (by omega)
      rw [if_pos hfull, if_pos (Nat.lt_of_lt_of_le hfull hmore)]
      rfl
    · have hrest := foldFrom?_dealt base rest (Nat.le_of_not_lt hfull)
      rw [if_neg hfull]
      simp only [Option.bind_eq_bind, Option.bind_some, hrest]
      split
      · rfl
      · rfl

/-- **A layer in closed form.** It can be folded if the first register has room for its share of the
results, which is half of them, rounded up. -/
theorem foldLayer?_eq (r : Reducer) (l : TreeLayer) (packets : List Packet) (half : Nat) :
    r.foldLayer? l packets half =
      if r.wordsPerHalf < ceilDiv (ceilDiv packets.length 2) 2 * r.packetOut l then none
      else some (r.dealLayer l ((half ^^^ 1) * r.wordsPerHalf) 0 packets) := by
  have hroom : (0 + 1) / 2 * r.packetOut l ≤ r.wordsPerHalf := by simp
  have hdealt := foldFrom?_dealt ((half ^^^ 1) * r.wordsPerHalf) packets hroom
  rw [ceilDiv_two (ceilDiv packets.length 2), foldLayer?]
  simpa only [FreeWords.dealt, Nat.zero_add, Nat.reduceDiv, Nat.zero_mul] using hdealt

/-- A layer that can be folded, wherever its results go. -/
theorem exists_eq_dealLayer {packets : List Packet} {half : Nat} {folded : FoldedLayer}
    (h : r.foldLayer? l packets half = some folded) :
    ∃ base, folded = r.dealLayer l base 0 packets := by
  rw [foldLayer?_eq, Option.ite_none_left_eq_some] at h
  exact ⟨_, (Option.some.inj h.2).symm⟩

theorem length_pairs_dealLayer (r : Reducer) (l : TreeLayer) (base pair : Nat)
    (packets : List Packet) :
    (r.dealLayer l base pair packets).pairs.length = packets.length / 2 := by
  induction pair, packets using dealLayer.induct r l base with
  | case1 pair a b rest ih =>
    rw [dealLayer, List.length_cons, ih, List.length_cons, List.length_cons]
    omega
  | case2 pair c => simp [dealLayer]
  | case3 pair => simp [dealLayer]

theorem packets_dealLayer (r : Reducer) (l : TreeLayer) (base pair : Nat) (packets : List Packet) :
    (r.dealLayer l base pair packets).packets =
      (List.range (ceilDiv packets.length 2)).map
        fun j => dealtPacket base (r.packetOut l) (pair + j) := by
  match packets with
  | [] => simp [dealLayer, ceilDiv_two]
  | [c] => simp [dealLayer, ceilDiv_two]
  | a :: b :: rest =>
    have hrest := packets_dealLayer r l base (pair + 1) rest
    have hcount : ceilDiv (a :: b :: rest).length 2 = ceilDiv rest.length 2 + 1 := by
      simp only [List.length_cons, ceilDiv_two]
      omega
    rw [hcount, List.range_succ_eq_map, List.map_cons, List.map_map, dealLayer, hrest]
    simp only [Nat.add_zero, Function.comp_def, Nat.succ_eq_add_one, Nat.add_assoc, Nat.add_comm 1]

theorem operations_dealLayer_pair (r : Reducer) (l : TreeLayer) (base pair : Nat) (a b : Packet)
    (rest : List Packet) :
    (r.dealLayer l base pair (a :: b :: rest)).operations =
      r.addPackets l a b (dealtPacket base (r.packetOut l) pair) ++
        (r.dealLayer l base (pair + 1) rest).operations := by
  simp only [dealLayer, FoldedLayer.operations, List.flatten_cons, List.append_assoc]

/-! ### What a packet writes -/

/-- The words of the result that are written while word `w` of a packet is at hand. -/
def storedWords (r : Reducer) (l : TreeLayer) (w : Nat) : List Nat :=
  match l.step with
  | none => [w]
  | some _ =>
    (packsOf w (Subword.perWord l.widthIn) (Subword.perWord l.widthOut)
      (Subword.perWord r.initial)).map Prod.snd

theorem stores_storeResult (r : Reducer) (l : TreeLayer) (dst : Packet) (w : Nat) :
    (r.storeResult l dst w).flatMap Operation.stores = (r.storedWords l w).map dst.place := by
  cases hstep : l.step with
  | none => simp only [storeResult, storedWords, hstep]; rfl
  | some step =>
    simp only [storeResult, storedWords, hstep, List.flatMap_map, List.map_map]
    exact List.map_eq_flatMap.symm

theorem loads_storeResult (r : Reducer) (l : TreeLayer) (dst : Packet) (w : Nat) :
    (r.storeResult l dst w).flatMap Operation.loads = [] := by
  cases hstep : l.step with
  | none => simp only [storeResult, hstep]; rfl
  | some step =>
    simp only [storeResult, hstep, List.flatMap_map]
    exact List.flatMap_eq_nil_iff.mpr fun _ _ => rfl

theorem stores_addPackets (r : Reducer) (l : TreeLayer) (a b dst : Packet) :
    (r.addPackets l a b dst).flatMap Operation.stores =
      ((List.range (r.packetIn l)).flatMap (r.storedWords l)).map dst.place := by
  rw [addPackets, List.flatMap_assoc, List.map_flatMap]
  congr 1
  funext w
  rw [List.flatMap_append, stores_storeResult]
  rfl

theorem stores_carryPacket (r : Reducer) (l : TreeLayer) (c dst : Packet) :
    (r.carryPacket l c dst).flatMap Operation.stores =
      ((List.range (r.packetIn l)).flatMap (r.storedWords l)).map dst.place := by
  rw [carryPacket, List.flatMap_assoc, List.map_flatMap]
  congr 1
  funext w
  rw [List.flatMap_cons, stores_storeResult]
  rfl

theorem loads_addPackets (r : Reducer) (l : TreeLayer) (a b dst : Packet) :
    (r.addPackets l a b dst).flatMap Operation.loads =
      (List.range (r.packetIn l)).flatMap fun w => [a.place w, b.place w] := by
  rw [addPackets, List.flatMap_assoc]
  congr 1
  funext w
  rw [List.flatMap_append, loads_storeResult, List.append_nil]
  rfl

theorem loads_carryPacket (r : Reducer) (l : TreeLayer) (c dst : Packet) :
    (r.carryPacket l c dst).flatMap Operation.loads = c.places (r.packetIn l) := by
  rw [carryPacket, List.flatMap_assoc, Packet.places, List.map_eq_flatMap]
  congr 1
  funext w
  rw [List.flatMap_cons, loads_storeResult, List.append_nil]
  rfl

/-- A word of the result is written while the word of the packet is at hand that holds its first
subword. -/
theorem mem_storedWords_iff {w out : Nat} (hl : l.Sound) (hw : w < r.packetIn l) :
    out ∈ r.storedWords l w ↔
      out * Subword.perWord l.widthOut < Subword.perWord r.initial ∧
        out * Subword.perWord l.widthOut / Subword.perWord l.widthIn = w := by
  have hin := Subword.perWord_pos hl.widthIn_mem
  cases hstep : l.step with
  | none =>
    rw [packetIn, Subword.wordsPerPacket, lt_ceilDiv_iff hin] at hw
    simp only [storedWords, hstep, List.mem_singleton, hl.widthOut_eq hstep, Nat.mul_div_left _ hin]
    constructor
    · rintro rfl
      exact ⟨hw, rfl⟩
    · exact fun h => h.2
  | some step =>
    simp only [storedWords, hstep, List.mem_map, Prod.exists, exists_eq_right,
      hl.mem_packsOf_iff]
    constructor
    · rintro ⟨offset, hoffset, hplace, hvalues⟩
      refine ⟨hvalues, ?_⟩
      rw [hplace, Nat.mul_comm, Nat.mul_add_div hin, Nat.div_eq_of_lt hoffset, Nat.add_zero]
    · rintro ⟨hvalues, rfl⟩
      exact ⟨_, Nat.mod_lt _ hin, (Nat.div_add_mod' _ _).symm, hvalues⟩

theorem nodup_storedWords (r : Reducer) (l : TreeLayer) (w : Nat) : (r.storedWords l w).Nodup := by
  rw [storedWords]
  split
  · exact List.nodup_singleton w
  · exact List.pairwise_map.mpr ((pairwise_packsOf _ _ _ _).imp Nat.ne_of_lt)

/-- **Every word of a result is written once**, whether words are moved or packed. -/
theorem storedWords_perm (hl : l.Sound) :
    ((List.range (r.packetIn l)).flatMap (r.storedWords l)).Perm (List.range (r.packetOut l)) := by
  have hnodup : ((List.range (r.packetIn l)).flatMap (r.storedWords l)).Nodup := by
    refine List.nodup_flatMap.mpr ⟨fun w _ => nodup_storedWords r l w, ?_⟩
    refine List.pairwise_lt_range.imp_of_mem ?_
    intro w w' hw hw' hless out hout hout'
    have hfirst := ((mem_storedWords_iff hl (List.mem_range.mp hw)).mp hout).2
    have hsecond := ((mem_storedWords_iff hl (List.mem_range.mp hw')).mp hout').2
    omega
  refine (List.perm_ext_iff_of_nodup hnodup List.nodup_range).mpr fun out => ?_
  rw [List.mem_flatMap, List.mem_range, packetOut, Subword.wordsPerPacket,
    lt_ceilDiv_iff (Subword.perWord_pos hl.widthOut_mem)]
  constructor
  · rintro ⟨w, hw, hstored⟩
    exact ((mem_storedWords_iff hl (List.mem_range.mp hw)).mp hstored).1
  · intro hvalues
    have hw : out * Subword.perWord l.widthOut / Subword.perWord l.widthIn < r.packetIn l := by
      rw [packetIn, Subword.wordsPerPacket, lt_ceilDiv_iff (Subword.perWord_pos hl.widthIn_mem)]
      exact Nat.lt_of_le_of_lt (Nat.div_mul_le_self _ _) hvalues
    exact ⟨_, List.mem_range.mpr hw, (mem_storedWords_iff hl hw).mpr ⟨hvalues, rfl⟩⟩

/-! ### What a layer reads and writes -/

/-- **A layer writes every word of its results once**, and nothing else. -/
theorem stores_dealLayer (hl : l.Sound) (base pair : Nat) (packets : List Packet) :
    ((r.dealLayer l base pair packets).operations.flatMap Operation.stores).Perm
      ((r.dealLayer l base pair packets).packets.flatMap (·.places (r.packetOut l))) := by
  match packets with
  | [] => exact .refl _
  | [c] =>
    simp only [dealLayer, FoldedLayer.operations, List.flatten_nil, List.nil_append,
      stores_carryPacket, List.flatMap_singleton]
    exact (storedWords_perm hl).map _
  | a :: b :: rest =>
    rw [operations_dealLayer_pair, List.flatMap_append, stores_addPackets, dealLayer,
      List.flatMap_cons]
    exact ((storedWords_perm hl).map _).append (stores_dealLayer hl base (pair + 1) rest)

/-- A layer reads no words but those of its packets. -/
theorem loads_dealLayer (r : Reducer) (l : TreeLayer) (base pair : Nat) (packets : List Packet) :
    ∀ place ∈ (r.dealLayer l base pair packets).operations.flatMap Operation.loads,
      place ∈ packets.flatMap (·.places (r.packetIn l)) := by
  match packets with
  | [] => exact fun _ h => h
  | [c] =>
    intro place hplace
    simpa only [dealLayer, FoldedLayer.operations, List.flatten_nil, List.nil_append,
      loads_carryPacket, List.flatMap_singleton] using hplace
  | a :: b :: rest =>
    intro place hplace
    rw [operations_dealLayer_pair, List.flatMap_append, loads_addPackets, List.mem_append] at hplace
    rw [List.flatMap_cons, List.flatMap_cons, List.mem_append, List.mem_append]
    rcases hplace with hplace | hplace
    · obtain ⟨w, hw, hplace⟩ := List.mem_flatMap.mp hplace
      rw [List.mem_range] at hw
      simp only [List.mem_cons, List.not_mem_nil, or_false] at hplace
      rcases hplace with rfl | rfl
      · exact .inl (a.place_mem_places hw)
      · exact .inr (.inl (b.place_mem_places hw))
    · exact .inr (.inr (loads_dealLayer r l base (pair + 1) rest place hplace))

/-! ### The layout -/

section Layout

variable {packets : List Packet} {half : Nat} {folded : FoldedLayer}

theorem other_half (hhalf : half < 2) : half ^^^ 1 = 1 - half := by
  obtain rfl | rfl : half = 0 ∨ half = 1 := by omega
  · rfl
  · rfl

/-- What a layer is, if it can be folded: its results are given out in turn in the other half, where
there is room for them. -/
theorem foldLayer?_eq_some (hhalf : half < 2) (h : r.foldLayer? l packets half = some folded) :
    folded = r.dealLayer l ((1 - half) * r.wordsPerHalf) 0 packets ∧
      ceilDiv (ceilDiv packets.length 2) 2 * r.packetOut l ≤ r.wordsPerHalf := by
  rw [foldLayer?_eq, other_half hhalf, Option.ite_none_left_eq_some, Nat.not_lt] at h
  exact ⟨(Option.some.inj h.2).symm, h.1⟩

theorem inHalf_of_foldLayer? (hhalf : half < 2) (h : r.foldLayer? l packets half = some folded) :
    ∀ p ∈ folded.packets, p.InHalf r.wordsPerHalf (1 - half) (r.packetOut l) := by
  obtain ⟨rfl, hroom⟩ := foldLayer?_eq_some hhalf h
  rw [packets_dealLayer]
  intro p hp
  obtain ⟨j, hj, rfl⟩ := List.mem_map.mp hp
  rw [ceilDiv_two (ceilDiv packets.length 2)] at hroom
  rw [Nat.zero_add]
  exact inHalf_dealtPacket (List.mem_range.mp hj) hroom

theorem apart_of_foldLayer? (hhalf : half < 2) (h : r.foldLayer? l packets half = some folded) :
    folded.packets.Pairwise (Packet.Apart (r.packetOut l)) := by
  obtain ⟨rfl, -⟩ := foldLayer?_eq_some hhalf h
  rw [packets_dealLayer]
  refine List.Pairwise.map _ ?_ List.pairwise_lt_range
  intro j k hlt
  exact apart_dealtPacket _ _ (by omega)

/-- Where operations can name every word of the very wide registers, the words of the results have
different names. -/
theorem nodup_of_foldLayer? (hhalf : half < 2) (hwords : 2 * r.wordsPerHalf ≤ UInt32.size)
    (h : r.foldLayer? l packets half = some folded) :
    (folded.packets.flatMap (·.places (r.packetOut l))).Nodup := by
  have hword : ∀ p ∈ folded.packets, p.word + r.packetOut l ≤ UInt32.size := by
    intro p hp
    have hend := (inHalf_of_foldLayer? hhalf h p hp).word_le
    have hle : (1 - half + 1) * r.wordsPerHalf ≤ 2 * r.wordsPerHalf :=
      Nat.mul_le_mul_right _ (by omega)
    omega
  refine List.nodup_flatMap.mpr ⟨fun p hp => Packet.nodup_places (hword p hp), ?_⟩
  refine (apart_of_foldLayer? hhalf h).imp_of_mem ?_
  intro p q hp hq hapart
  exact hapart.disjoint_places (hword p hp) (hword q hq)

/-- **The layout of a layer.** For a layer of an adder tree, and packets of any number and at any
place: half as many results, rounded up, lie in the other half of the two very wide registers
without a common word. The moves and packs of the layer write the words of the results, every one of
them once, and nothing else; and only words of the packets are read. The results fit, and the layer
can be folded, exactly if half of them, rounded up, fit one register. -/
theorem foldAt?_layout {n width q position : Nat} {tree : AdderTree} (hw : Hardware)
    (packets : List Packet) (hbuild : AdderTree.build n width q = .ok tree)
    (hl : tree.layers[position]? = some l) (hhalf : half < 2) :
    let r := Reducer.ofTree tree width hw
    let packetIn := Subword.wordsPerPacket width l.widthIn
    let packetOut := Subword.wordsPerPacket width l.widthOut
    (∀ folded, r.foldAt? position packets half = some folded →
      folded.packets.length = ceilDiv packets.length 2 ∧
      folded.packets.Pairwise (Packet.Apart packetOut) ∧
      (∀ p ∈ folded.packets, p.InHalf hw.wordsPerHalf (1 - half) packetOut) ∧
      (folded.operations.flatMap Operation.stores).Perm
        (folded.packets.flatMap (·.places packetOut)) ∧
      (hw.registerWords ≤ UInt32.size → (folded.operations.flatMap Operation.stores).Nodup) ∧
      ∀ place ∈ folded.operations.flatMap Operation.loads,
        place ∈ packets.flatMap (·.places packetIn)) ∧
    (r.foldAt? position packets half = none ↔
      hw.wordsPerHalf < ceilDiv (ceilDiv packets.length 2) 2 * packetOut) := by
  intro r packetIn packetOut
  have hsound := (AdderTree.widthChain_of_build hbuild).sound hl
  have hat : ∀ packets, r.foldAt? position packets half = r.foldLayer? l packets half := by
    intro packets
    rw [foldAt?, show r.layers[position]? = some l from hl]
    rfl
  rw [hat]
  refine ⟨?_, ?_⟩
  · intro folded h
    obtain ⟨hfolded, -⟩ := foldLayer?_eq_some hhalf h
    have hstores := stores_dealLayer (r := r) hsound ((1 - half) * r.wordsPerHalf) 0 packets
    rw [← hfolded] at hstores
    refine ⟨length_packets_of_foldFrom? h, apart_of_foldLayer? hhalf h,
      inHalf_of_foldLayer? hhalf h, hstores, ?_, ?_⟩
    · intro hregister
      have hwords : 2 * r.wordsPerHalf ≤ UInt32.size :=
        Nat.le_trans (Nat.mul_div_le hw.registerWords 2) hregister
      exact hstores.nodup_iff.mpr (nodup_of_foldLayer? hhalf hwords h)
    · rw [hfolded]
      exact loads_dealLayer r l _ 0 packets
  · rw [foldLayer?_eq]
    simp only [ite_eq_left_iff, reduceCtorEq, imp_false, Decidable.not_not]
    exact Iff.rfl

/-- Sums of 12 bits over products of 3 bits widen to 16 bits, from packets of four words to packets
of six. The two results of three packets fit half a register, the five results of nine do not. -/
theorem foldAt?_layout_packed :
    ∃ tree l folded, AdderTree.build 600 3 8 = .ok tree ∧ tree.layers[9]? = some l ∧
      (l.step, Subword.wordsPerPacket 3 l.widthIn, Subword.wordsPerPacket 3 l.widthOut) =
        (some .from12, 4, 6) ∧
      (Reducer.ofTree tree 3 {}).foldAt? 9 [⟨0, 0⟩, ⟨1, 0⟩, ⟨0, 4⟩] 0 = some folded ∧
      folded.packets = [⟨0, 16⟩, ⟨1, 16⟩] ∧
      (folded.operations.flatMap Operation.stores).Perm (folded.packets.flatMap (·.places 6)) ∧
      (folded.operations.flatMap Operation.stores).Nodup ∧
      (Reducer.ofTree tree 3 {}).foldAt? 9 (loadedPackets 9 4) 1 = none := by
  have hbuild := AdderTree.build_eq_ok (n := 600) (q := 8) (by decide)
    (show 3 ∈ Subword.ladder by decide) (by decide)
  have hvalues : ((AdderTree.layersFrom 8 1 600 3 0)[9]?.bind fun l =>
      ((Reducer.ofTree ⟨AdderTree.layersFrom 8 1 600 3 0⟩ 3 {}).foldAt? 9
        [⟨0, 0⟩, ⟨1, 0⟩, ⟨0, 4⟩] 0).map fun folded =>
          (l.step, l.widthIn, l.widthOut, folded.packets)) =
      some (some .from12, 12, 16, [⟨0, 16⟩, ⟨1, 16⟩]) := by decide +kernel
  obtain ⟨l, hl, hvalues⟩ := Option.bind_eq_some_iff.mp hvalues
  obtain ⟨folded, hfolded, hvalues⟩ := Option.map_eq_some_iff.mp hvalues
  simp only [Prod.mk.injEq] at hvalues
  obtain ⟨hstep, hin, hout, hpackets⟩ := hvalues
  obtain ⟨-, -, -, hstores, hnodup, -⟩ :=
    (foldAt?_layout {} [⟨0, 0⟩, ⟨1, 0⟩, ⟨0, 4⟩] hbuild hl Nat.zero_lt_two).1 folded hfolded
  have hnone := (foldAt?_layout {} (loadedPackets 9 4) hbuild hl Nat.one_lt_two).2
  rw [hout] at hstores hnone
  refine ⟨_, l, folded, hbuild, hl, ?_, hfolded, hpackets, hstores, hnodup (by decide),
    hnone.mpr (by decide)⟩
  rw [hstep, hin, hout]
  decide

end Layout

end Reducer

end NearMemory
