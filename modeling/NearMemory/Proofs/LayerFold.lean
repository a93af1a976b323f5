import NearMemory.Proofs.PackPlaces
import NearMemory.Proofs.TreeWidths
import Mathlib.Algebra.Order.BigOperators.Group.List

/-!
# One layer folded

What folding one layer of the adder tree issues and where it leaves its results, for packets
anywhere in the very wide registers. Every operation stays inside the registers, every result packet
fits the words it was given, and a pair of packets becomes one.

How many operations are issued depends on the number of packets alone, not on where they are, and a
smaller number never needs more of them (`foldFrom?_of_length_le`). Chunk sizes and group sizes are
searched from above on the strength of this.

## Main definitions

* `FoldOperation` — the operations that folding issues
* `Packet.Fits` — a packet inside the very wide registers
* `FoldedLayer.Halves` — what is known of a folded layer

## Main results

* `Reducer.halves_of_foldFrom?` — folding halves the packets and stays inside the registers
* `Reducer.foldFrom?_of_length_le` — fewer packets fold at no higher cost
-/

namespace NearMemory

/-- A packet of the given number of words lies in the first `words` words of a very wide
register. -/
structure Packet.Fits (p : Packet) (packet words : Nat) : Prop where
  vwr_lt : p.vwr < 2
  word_le : p.word + packet ≤ words

/-- The operations that folding issues, all of them inside very wide registers of `words` words. -/
inductive FoldOperation (words : Nat) : Operation → Prop
  /-- Copy a word to a register. -/
  | loadWord {reg : Storage} {v word : Nat} (hreg : reg ∈ [.r0, .r1, .r2]) (hv : v < 2)
    (hword : word < words) : FoldOperation words (.loadWord reg v word)
  /-- Copy the result register to a word. -/
  | storeWord {v word : Nat} (hv : v < 2) (hword : word < words) :
    FoldOperation words (.storeWord v word .r0)
  /-- Add two words. -/
  | addPair {width : Nat} (hwidth : width ∈ Subword.ladder) : FoldOperation words (.addPair width)
  /-- Widen the result register into a word. -/
  | packInto {step : WidthStep} {offset v word : Nat} (hoffset : offset < 2 ^ Word.offsetBits)
    (hv : v < 2) (hword : word < words) : FoldOperation words (.packInto step offset v word)

/-! ### Packs -/

/-- Words hold few subwords, so no offset is cut. -/
theorem TreeLayer.Sound.mem_packsOf_iff {l : TreeLayer} {r : Reducer} {w offset out : Nat}
    (hl : l.Sound) :
    (offset, out) ∈ packsOf w (Subword.perWord l.widthIn) (Subword.perWord l.widthOut)
        (Subword.perWord r.initial) ↔
      offset < Subword.perWord l.widthIn ∧
        out * Subword.perWord l.widthOut = w * Subword.perWord l.widthIn + offset ∧
        out * Subword.perWord l.widthOut < Subword.perWord r.initial := by
  refine NearMemory.mem_packsOf_iff_of_le (Subword.perWord_pos hl.widthIn_mem)
    (Subword.perWord_pos hl.widthOut_mem) ?_
  exact Nat.le_trans (Subword.perWord_le hl.widthIn_mem) (by decide)

/-- Packets are short, so no place in them overflows, and a layer can do with `packsOf`. -/
theorem TreeLayer.Sound.packsOf?_eq_some {l : TreeLayer} {r : Reducer} {w : Nat} (hl : l.Sound)
    (hw : w < r.packetIn l) :
    packsOf? w (Subword.perWord l.widthIn) (Subword.perWord l.widthOut)
        (Subword.perWord r.initial) =
      some (packsOf w (Subword.perWord l.widthIn) (Subword.perWord l.widthOut)
        (Subword.perWord r.initial)) := by
  have hin := Subword.perWord_pos hl.widthIn_mem
  have hout := Subword.perWord_pos hl.widthOut_mem
  have hperiod : (Subword.perWord l.widthIn).lcm (Subword.perWord l.widthOut) ≤ 16 * 16 :=
    Nat.le_trans (Nat.lcm_le_mul hin hout)
      (Nat.mul_le_mul (Subword.perWord_le hl.widthIn_mem) (Subword.perWord_le hl.widthOut_mem))
  have hplace : w * Subword.perWord l.widthIn < 48 := by
    refine Nat.lt_of_lt_of_le ((lt_ceilDiv_iff hin).mp hw) ?_
    exact Nat.div_le_self wordBits r.initial
  have hblock := Nat.div_mul_le_self (w * Subword.perWord l.widthIn)
    ((Subword.perWord l.widthIn).lcm (Subword.perWord l.widthOut))
  have hsize : 48 + 16 * 16 < UInt64.size := by decide
  exact (packsOf?_eq_some_iff hin hout).mpr ⟨⟨by omega, by omega⟩, rfl⟩

namespace Reducer

variable {r : Reducer} {l : TreeLayer} {words : Nat}

/-! ### Operations of a layer -/

theorem foldOperation_of_mem_storeResult {dst : Packet} {w : Nat} {op : Operation} (hl : l.Sound)
    (hdst : dst.Fits (r.packetOut l) words) (hw : w < r.packetIn l)
    (h : op ∈ r.storeResult l dst w) : FoldOperation words op := by
  obtain ⟨hv, hword⟩ := hdst
  rw [storeResult] at h
  split at h
  next hstep =>
    rw [packetIn, ← hl.widthOut_eq hstep] at hw
    rw [packetOut] at hword
    obtain rfl := List.mem_singleton.mp h
    exact .storeWord hv (by omega)
  next step hstep =>
    obtain ⟨⟨offset, out⟩, hpack, rfl⟩ := List.mem_map.mp h
    obtain ⟨hoffset, -, hvalues⟩ := hl.mem_packsOf_iff.mp hpack
    have hout := (lt_ceilDiv_iff (Subword.perWord_pos hl.widthOut_mem)).mpr hvalues
    rw [packetOut, Subword.wordsPerPacket] at hword
    exact .packInto (Nat.lt_of_lt_of_le hoffset (Subword.perWord_le hl.widthIn_mem)) hv
      (by omega)

theorem foldOperation_of_mem_addPackets {a b dst : Packet} {op : Operation} (hl : l.Sound)
    (ha : a.Fits (r.packetIn l) words) (hb : b.Fits (r.packetIn l) words)
    (hdst : dst.Fits (r.packetOut l) words) (h : op ∈ r.addPackets l a b dst) :
    FoldOperation words op := by
  obtain ⟨w, hw, h⟩ := List.mem_flatMap.mp h
  rw [List.mem_range] at hw
  have haword := ha.word_le
  have hbword := hb.word_le
  rcases List.mem_append.mp h with h | h
  · simp only [List.mem_cons, List.not_mem_nil, or_false] at h
    rcases h with rfl | rfl | rfl
    · exact .loadWord (by simp) ha.vwr_lt (by omega)
    · exact .loadWord (by simp) hb.vwr_lt (by omega)
    · exact .addPair hl.widthIn_mem
  · exact foldOperation_of_mem_storeResult hl hdst hw h

theorem foldOperation_of_mem_carryPacket {c dst : Packet} {op : Operation} (hl : l.Sound)
    (hc : c.Fits (r.packetIn l) words) (hdst : dst.Fits (r.packetOut l) words)
    (h : op ∈ r.carryPacket l c dst) : FoldOperation words op := by
  obtain ⟨w, hw, h⟩ := List.mem_flatMap.mp h
  rw [List.mem_range] at hw
  have hword := hc.word_le
  rcases List.mem_cons.mp h with rfl | h
  · exact .loadWord (by simp) hc.vwr_lt (by omega)
  · exact foldOperation_of_mem_storeResult hl hdst hw h

/-! ### Words given out -/

theorem take?_eq_some {free free' : FreeWords} {packet target : Nat} {dst : Packet}
    (h : free.take? packet target = some (dst, free')) (htarget : target < 2)
    (hwords : free.base + free.size ≤ words) :
    dst.Fits packet words ∧ free'.base + free'.size ≤ words := by
  rw [FreeWords.take?, Option.ite_none_left_eq_some, Option.some.injEq, Prod.mk.injEq] at h
  obtain ⟨hroom, rfl, rfl⟩ := h
  refine ⟨⟨htarget, ?_⟩, ?_⟩
  · show free.base + _ + packet ≤ words
    omega
  · split <;> exact hwords

/-! ### Packets folded -/

theorem foldFrom?_pair_eq_some_iff {pair : Nat} {free : FreeWords} {a b : Packet}
    {rest : List Packet} {folded : FoldedLayer} :
    r.foldFrom? l pair free (a :: b :: rest) = some folded ↔
      ∃ dst free' tail, free.take? (r.packetOut l) (pair % 2) = some (dst, free') ∧
        r.foldFrom? l (pair + 1) free' rest = some tail ∧
        folded = { tail with
          pairs := r.addPackets l a b dst :: tail.pairs
          packets := dst :: tail.packets } := by
  rw [foldFrom?]
  constructor
  · intro h
    obtain ⟨⟨dst, free'⟩, htake, h⟩ := Option.bind_eq_some_iff.mp h
    obtain ⟨tail, htail, h⟩ := Option.bind_eq_some_iff.mp h
    exact ⟨dst, free', tail, htake, htail, (Option.some.inj h).symm⟩
  · rintro ⟨dst, free', tail, htake, htail, rfl⟩
    simp only [htake, Option.bind_eq_bind, Option.bind_some, htail]
    rfl

theorem foldFrom?_single_eq_some_iff {pair : Nat} {free : FreeWords} {c : Packet}
    {folded : FoldedLayer} :
    r.foldFrom? l pair free [c] = some folded ↔
      ∃ dst free', free.take? (r.packetOut l) (pair % 2) = some (dst, free') ∧
        folded = { carry := r.carryPacket l c dst, packets := [dst] } := by
  rw [foldFrom?]
  constructor
  · intro h
    obtain ⟨⟨dst, free'⟩, htake, h⟩ := Option.bind_eq_some_iff.mp h
    exact ⟨dst, free', htake, (Option.some.inj h).symm⟩
  · rintro ⟨dst, free', htake, rfl⟩
    simp only [htake, Option.bind_eq_bind, Option.bind_some]
    rfl

/-- A layer leaves half of its packets, rounded up, wherever they are. -/
theorem length_packets_of_foldFrom? {pair : Nat} {free : FreeWords} {packets : List Packet}
    {folded : FoldedLayer} (h : r.foldFrom? l pair free packets = some folded) :
    folded.packets.length = ceilDiv packets.length 2 := by
  match packets with
  | [] =>
    obtain rfl := Option.some.inj h
    exact (ceilDiv_two 0).symm
  | [c] =>
    obtain ⟨dst, free', -, rfl⟩ := foldFrom?_single_eq_some_iff.mp h
    exact (ceilDiv_two 1).symm
  | a :: b :: rest =>
    obtain ⟨dst, free', tail, -, htail, rfl⟩ := foldFrom?_pair_eq_some_iff.mp h
    have ih := length_packets_of_foldFrom? htail
    simp only [List.length_cons, ih, ceilDiv_two]
    omega

end Reducer

/-- A folded layer of `count` packets: neighbours are paired, the results fit, and no operation
leaves the very wide registers. -/
structure FoldedLayer.Halves (folded : FoldedLayer) (words packet count : Nat) : Prop where
  length_pairs : folded.pairs.length = count / 2
  length_packets : folded.packets.length = ceilDiv count 2
  packets_fit : ∀ p ∈ folded.packets, p.Fits packet words
  pairs_fold : ∀ ops ∈ folded.pairs, ∀ op ∈ ops, FoldOperation words op
  carry_folds : ∀ op ∈ folded.carry, FoldOperation words op

namespace FoldedLayer

variable {folded : FoldedLayer} {words packet count : Nat}

theorem size_eq_sum (folded : FoldedLayer) :
    folded.size = (folded.pairs.map List.length).sum + folded.carry.length := by
  rw [size, List.sum_eq_foldr, List.foldr_map]

theorem size_eq_length_operations (folded : FoldedLayer) :
    folded.size = folded.operations.length := by
  rw [size_eq_sum, operations, List.length_append, List.length_flatten]

theorem Halves.operations_fold (h : folded.Halves words packet count) :
    ∀ op ∈ folded.operations, FoldOperation words op := by
  intro op hop
  rcases List.mem_append.mp hop with hop | hop
  · obtain ⟨ops, hops, hop⟩ := List.mem_flatten.mp hop
    exact h.pairs_fold ops hops op hop
  · exact h.carry_folds op hop

theorem Halves.reduced_add_carried (h : folded.Halves words packet count) :
    folded.reduced + folded.carried = folded.packets.length := by
  rw [reduced, carried, h.length_pairs, h.length_packets, ceilDiv_two]
  omega

end FoldedLayer

namespace Reducer

variable {r : Reducer} {l : TreeLayer} {words : Nat}

/-- **A layer halves its packets.** Wherever the packets are, and whatever has been given out
already. -/
theorem halves_of_foldFrom? {pair : Nat} {free : FreeWords} {packets : List Packet}
    {folded : FoldedLayer} (hl : l.Sound) (hwords : free.base + free.size ≤ words)
    (hpackets : ∀ p ∈ packets, p.Fits (r.packetIn l) words)
    (h : r.foldFrom? l pair free packets = some folded) :
    folded.Halves words (r.packetOut l) packets.length := by
  have htarget : pair % 2 < 2 := Nat.mod_lt _ Nat.zero_lt_two
  match packets with
  | [] =>
    obtain rfl := Option.some.inj h
    exact ⟨rfl, (ceilDiv_two 0).symm, by simp, by simp, by simp⟩
  | [c] =>
    obtain ⟨dst, free', htake, rfl⟩ := foldFrom?_single_eq_some_iff.mp h
    obtain ⟨hdst, -⟩ := take?_eq_some htake htarget hwords
    refine ⟨by simp, (ceilDiv_two 1).symm, by simpa using hdst, by simp, fun op hop => ?_⟩
    exact foldOperation_of_mem_carryPacket hl (hpackets c (by simp)) hdst hop
  | a :: b :: rest =>
    obtain ⟨dst, free', tail, htake, htail, rfl⟩ := foldFrom?_pair_eq_some_iff.mp h
    obtain ⟨hdst, hwords'⟩ := take?_eq_some htake htarget hwords
    have ih := halves_of_foldFrom? hl hwords' (fun p hp => hpackets p (by simp [hp])) htail
    refine ⟨?_, ?_, ?_, ?_, ih.carry_folds⟩
    · rw [List.length_cons, ih.length_pairs, List.length_cons, List.length_cons]
      omega
    · rw [List.length_cons, ih.length_packets, List.length_cons, List.length_cons, ceilDiv_two,
        ceilDiv_two]
      omega
    · intro p hp
      rcases List.mem_cons.mp hp with rfl | hp
      · exact hdst
      · exact ih.packets_fit p hp
    · intro ops hops op hop
      rcases List.mem_cons.mp hops with rfl | hops
      · exact foldOperation_of_mem_addPackets hl (hpackets a (by simp)) (hpackets b (by simp)) hdst
          hop
      · exact ih.pairs_fold ops hops op hop

theorem halves_of_foldLayer? {packets : List Packet} {half : Nat} {folded : FoldedLayer}
    (hl : l.Sound) (hhalf : half < 2) (hwords : 2 * r.wordsPerHalf ≤ words)
    (hpackets : ∀ p ∈ packets, p.Fits (r.packetIn l) words)
    (h : r.foldLayer? l packets half = some folded) :
    folded.Halves words (r.packetOut l) packets.length := by
  refine halves_of_foldFrom? hl ?_ hpackets h
  show (half ^^^ 1) * r.wordsPerHalf + r.wordsPerHalf ≤ words
  have hother : half = 0 ∨ half = 1 := by omega
  rcases hother with rfl | rfl
  · rw [show 0 ^^^ 1 = 1 from rfl]
    omega
  · rw [show 1 ^^^ 1 = 0 from rfl]
    omega

/-! ### Fewer packets -/

theorem length_storeResult (r : Reducer) (l : TreeLayer) (dst dst' : Packet) (w : Nat) :
    (r.storeResult l dst w).length = (r.storeResult l dst' w).length := by
  simp only [storeResult]
  split
  · rfl
  · rw [List.length_map, List.length_map]

theorem length_addPackets (r : Reducer) (l : TreeLayer) (a b dst a' b' dst' : Packet) :
    (r.addPackets l a b dst).length = (r.addPackets l a' b' dst').length := by
  simp only [addPackets, List.length_flatMap, List.length_append, List.length_cons,
    length_storeResult r l dst dst']

theorem length_carryPacket (r : Reducer) (l : TreeLayer) (c dst c' dst' : Packet) :
    (r.carryPacket l c dst).length = (r.carryPacket l c' dst').length := by
  simp only [carryPacket, List.length_flatMap, List.length_cons, length_storeResult r l dst dst']

/-- To carry a packet takes no more operations than to add it to another. -/
theorem length_carryPacket_le (r : Reducer) (l : TreeLayer) (c dst a b dst' : Packet) :
    (r.carryPacket l c dst).length ≤ (r.addPackets l a b dst').length := by
  simp only [carryPacket, addPackets, List.length_flatMap]
  refine List.sum_le_sum fun w _ => ?_
  simp only [List.length_append, List.length_cons, List.length_nil,
    length_storeResult r l dst dst']
  omega

theorem size_pair (folded : FoldedLayer) (ops : List Operation) (dst : Packet) :
    FoldedLayer.size
        { folded with pairs := ops :: folded.pairs, packets := dst :: folded.packets } =
      ops.length + folded.size := by
  simp only [FoldedLayer.size, List.foldr_cons]
  omega

/-- **Fewer packets cost no more.** If some packets can be folded, so can any smaller number of
packets, wherever they are. -/
theorem foldFrom?_of_length_le {pair : Nat} {free : FreeWords} {packets fewer : List Packet}
    {folded : FoldedLayer} (h : r.foldFrom? l pair free packets = some folded)
    (hlen : fewer.length ≤ packets.length) :
    ∃ folded', r.foldFrom? l pair free fewer = some folded' ∧ folded'.size ≤ folded.size := by
  -- both lists are read in pairs, so the cases are those of the definition on either side
  match fewer, packets with
  | [], _ => exact ⟨{}, rfl, Nat.zero_le _⟩
  | [c'], [c] =>
    obtain ⟨dst, free', htake, rfl⟩ := foldFrom?_single_eq_some_iff.mp h
    refine ⟨_, foldFrom?_single_eq_some_iff.mpr ⟨dst, free', htake, rfl⟩, ?_⟩
    simp only [FoldedLayer.size, length_carryPacket r l c' dst c dst]
    exact Nat.le_refl _
  | [c'], a :: b :: rest =>
    obtain ⟨dst, free', tail, htake, -, rfl⟩ := foldFrom?_pair_eq_some_iff.mp h
    refine ⟨_, foldFrom?_single_eq_some_iff.mpr ⟨dst, free', htake, rfl⟩, ?_⟩
    have hle := length_carryPacket_le r l c' dst a b dst
    rw [size_pair]
    simp only [FoldedLayer.size, List.foldr_nil]
    omega
  | a' :: b' :: rest', a :: b :: rest =>
    obtain ⟨dst, free', tail, htake, htail, rfl⟩ := foldFrom?_pair_eq_some_iff.mp h
    have hlen' : rest'.length ≤ rest.length := by simpa using hlen
    obtain ⟨tail', htail', hsize⟩ := foldFrom?_of_length_le htail hlen'
    refine ⟨_, foldFrom?_pair_eq_some_iff.mpr ⟨dst, free', tail', htake, htail', rfl⟩, ?_⟩
    have hadd := length_addPackets r l a' b' dst a b dst
    rw [size_pair, size_pair]
    omega

end Reducer

end NearMemory
