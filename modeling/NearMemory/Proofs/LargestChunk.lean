import NearMemory.Proofs.ChunkSizes
import NearMemory.Proofs.LayerLayout
import NearMemory.Proofs.ScheduleRun
import Mathlib.Algebra.BigOperators.Group.List.Basic
import Mathlib.Order.Bounds.Defs

/-!
# The largest chunk

Whether a chunk fits is said here without folding anything. The first layer takes three operations
for a pair of products, one for a product that is left over, and one more for every word of a
result. The results alternate between the two registers, so the first register takes the larger
share, and whether that fits half a register decides whether the layer can be folded.

With these two numbers a chunk size is feasible or not by arithmetic alone (`Plan.Feasible`), and
what a plan does is to take the largest feasible size, lowered by one if a pair would be cut in two.

## Main definitions

* `Workload.firstPacket`, `Workload.firstFoldSize` — results and operations of the first layer
* `Plan.Feasible` — a chunk size that every capacity allows, in numbers

## Main results

* `Reducer.size_dealLayer` — the number of operations of a layer
* `Plan.foldCost?_reducer` — when the first layer can be folded, and at what cost
* `Plan.make_largest_chunk` — a plan has the largest feasible chunk, and fails if none is feasible
-/

namespace NearMemory

/-! ### The cost of a layer -/

namespace Reducer

variable {r : Reducer} {l : TreeLayer}

theorem length_storeResult_eq (r : Reducer) (l : TreeLayer) (dst : Packet) (w : Nat) :
    (r.storeResult l dst w).length = (r.storedWords l w).length := by
  cases hstep : l.step with
  | none => simp only [storeResult, storedWords, hstep, List.length_singleton]
  | some step => simp only [storeResult, storedWords, hstep, List.length_map]

/-- The results of a packet take as many operations as the packet has words in the end. -/
theorem sum_length_storeResult (hl : l.Sound) (dst : Packet) :
    ((List.range (r.packetIn l)).map fun w => (r.storeResult l dst w).length).sum =
      r.packetOut l := by
  have hperm := (storedWords_perm (r := r) hl).length_eq
  rw [List.length_flatMap, List.length_range] at hperm
  simpa only [length_storeResult_eq] using hperm

theorem length_addPackets_eq (hl : l.Sound) (a b dst : Packet) :
    (r.addPackets l a b dst).length = r.packetIn l * 3 + r.packetOut l := by
  simp only [addPackets, List.length_flatMap, List.length_append, List.length_cons, List.length_nil]
  rw [List.sum_map_add, sum_length_storeResult hl, List.map_const', List.sum_replicate_nat,
    List.length_range]

theorem length_carryPacket_eq (hl : l.Sound) (c dst : Packet) :
    (r.carryPacket l c dst).length = r.packetIn l + r.packetOut l := by
  simp only [carryPacket, List.length_flatMap, List.length_cons]
  rw [List.sum_map_add, sum_length_storeResult hl, List.map_const', List.sum_replicate_nat,
    List.length_range, Nat.mul_one, Nat.add_comm]

/-- **The cost of a layer.** -/
theorem size_dealLayer (hl : l.Sound) (base pair : Nat) (packets : List Packet) :
    (r.dealLayer l base pair packets).size =
      packets.length / 2 * (r.packetIn l * 3 + r.packetOut l) +
        packets.length % 2 * (r.packetIn l + r.packetOut l) := by
  match packets with
  | [] => simp [dealLayer, FoldedLayer.size]
  | [c] => simp [dealLayer, FoldedLayer.size, length_carryPacket_eq hl]
  | a :: b :: rest =>
    have hpairs : (a :: b :: rest).length / 2 = rest.length / 2 + 1 := by
      rw [List.length_cons, List.length_cons]
      omega
    have hcarried : (a :: b :: rest).length % 2 = rest.length % 2 := by
      rw [List.length_cons, List.length_cons]
      omega
    rw [dealLayer, size_pair, size_dealLayer hl base (pair + 1) rest, length_addPackets_eq hl,
      hpairs, hcarried, Nat.succ_mul]
    omega

end Reducer

/-! ### The first layer -/

namespace Workload

/-- The words of a packet that leaves the first layer. -/
def firstPacket (w : Workload) : Nat :=
  Subword.wordsPerPacket w.subwordWidth (AdderTree.layer w.q 1 w.n w.subwordWidth 0).widthOut

/-- The operations that the first layer of `c` products takes. -/
def firstFoldSize (w : Workload) (c : Nat) : Nat :=
  if c < 2 then 0 else c / 2 * (3 + w.firstPacket) + c % 2 * (1 + w.firstPacket)

end Workload

namespace Plan

variable {hw : Hardware} {w : Workload} {c : Nat}

/-- **The first layer in numbers.** -/
theorem foldCost?_reducer (hw : Hardware) (hwl : w.WithinLimits) (hc : c ≤ w.n) :
    foldCost? (w.reducer hw) c =
      if 1 < c ∧ hw.wordsPerHalf < ceilDiv (ceilDiv c 2) 2 * w.firstPacket then none
      else some (w.firstFoldSize c) := by
  rw [foldCost?, Workload.firstFoldSize]
  by_cases hsmall : c < 2
  · rw [if_pos hsmall, if_neg (by omega), if_pos hsmall]
  · have hlayer : (w.reducer hw).layers[0]? = some (AdderTree.layer w.q 1 w.n w.subwordWidth 0) :=
      AdderTree.getElem?_layersFrom_zero.mpr ⟨by omega, rfl⟩
    have hl : (AdderTree.layer w.q 1 w.n w.subwordWidth 0).Sound :=
      AdderTree.sound_layer hwl.width_mem
    have hin : (w.reducer hw).packetIn (AdderTree.layer w.q 1 w.n w.subwordWidth 0) = 1 :=
      Subword.wordsPerPacket_self hwl.width_mem
    have hout : (w.reducer hw).packetOut (AdderTree.layer w.q 1 w.n w.subwordWidth 0) =
      w.firstPacket := rfl
    have hhalf : (w.reducer hw).wordsPerHalf = hw.wordsPerHalf := rfl
    rw [if_neg hsmall, if_neg hsmall, Reducer.foldAt?, hlayer]
    simp only [Option.bind_eq_bind, Option.bind_some, Reducer.foldLayer?_eq, length_loadedPackets,
      hout, hhalf, show 1 < c by omega, true_and]
    split
    · rfl
    · rw [Option.map_some, Reducer.size_dealLayer hl, length_loadedPackets, hin, hout]

/-! ### Feasible sizes -/

/-- Chunks of `c` products are feasible: there are as many products, and the registers and the
constant store hold them; the first register has room for its share of what the first layer leaves,
unless there is nothing to add; and constants, row reads, padded multiplies and the first layer
leave enough of the instruction buffer free. -/
structure Feasible (hw : Hardware) (w : Workload) (c : Nat) : Prop where
  one_le : 1 ≤ c
  le_min : c ≤ min w.n (min hw.registerWords hw.storeEntries)
  fold_fits : 1 < c → ceilDiv (ceilDiv c 2) 2 * w.firstPacket ≤ hw.wordsPerHalf
  entries_le : c + (if 1 < c then 2 else 1) + c * (1 + w.nops hw) + w.firstFoldSize c +
    reservedEntries ≤ hw.bufferEntries

instance (hw : Hardware) (w : Workload) (c : Nat) : Decidable (Feasible hw w c) :=
  decidable_of_iff
    (1 ≤ c ∧ c ≤ min w.n (min hw.registerWords hw.storeEntries) ∧
      (1 < c → ceilDiv (ceilDiv c 2) 2 * w.firstPacket ≤ hw.wordsPerHalf) ∧
      c + (if 1 < c then 2 else 1) + c * (1 + w.nops hw) + w.firstFoldSize c + reservedEntries ≤
        hw.bufferEntries)
    ⟨fun h => ⟨h.1, h.2.1, h.2.2.1, h.2.2.2⟩,
      fun h => ⟨h.one_le, h.le_min, h.fold_fits, h.entries_le⟩⟩

/-- Feasible sizes are those for which the search looks. -/
theorem feasible_iff_allows (hwl : w.WithinLimits) : Feasible hw w c ↔ 1 ≤ c ∧ Allows hw w c := by
  constructor
  · rintro ⟨hone, hmin, hfold, hentries⟩
    refine ⟨hone, by omega, by omega, by omega, ?_⟩
    refine fits_iff.mpr ⟨w.firstFoldSize c, ?_, hentries⟩
    rw [foldCost?_reducer hw hwl (by omega), if_neg]
    rintro ⟨hmany, hlt⟩
    exact Nat.not_lt.mpr (hfold hmany) hlt
  · rintro ⟨hone, hallows⟩
    obtain ⟨cost, hcost, hentries⟩ := fits_iff.mp hallows.fits
    rw [foldCost?_reducer hw hwl hallows.le_n, Option.ite_none_left_eq_some] at hcost
    obtain ⟨hfold, hcost⟩ := hcost
    obtain rfl := Option.some.inj hcost
    refine ⟨hone, ?_, ?_, hentries⟩
    · exact Nat.le_min.mpr
        ⟨hallows.le_n, Nat.le_min.mpr ⟨hallows.le_registerWords, hallows.le_storeEntries⟩⟩
    · intro hmany
      exact Nat.le_of_not_lt fun hlt => hfold ⟨hmany, hlt⟩

/-- **Smaller chunks are feasible.** -/
theorem Feasible.of_le {c' : Nat} (hwl : w.WithinLimits) (h : Feasible hw w c) (hone : 1 ≤ c')
    (hle : c' ≤ c) : Feasible hw w c' := by
  obtain ⟨-, hallows⟩ := (feasible_iff_allows hwl).mp h
  refine (feasible_iff_allows hwl).mpr ⟨hone, ?_, ?_, ?_, fits_of_le hallows.fits hle⟩
  · exact Nat.le_trans hle hallows.le_n
  · exact Nat.le_trans hle hallows.le_registerWords
  · exact Nat.le_trans hle hallows.le_storeEntries

/-- There is a plan if the counts fit and a single product is feasible. -/
theorem exists_make_iff_feasible (hworkload : w.violation? = none)
    (hhardware : hw.violation? = none) (hpacket : w.packet ≤ hw.wordsPerHalf) :
    (∃ plan, make hw w = .ok plan) ↔ w.CountsFit ∧ Feasible hw w 1 := by
  have hwl := Workload.withinLimits_of_violation? hworkload
  have hhw := Hardware.withinLimits_of_violation? hhardware
  rw [exists_make_iff, feasible_iff_allows hwl]
  constructor
  · rintro ⟨-, -, hcounts, -, hfits⟩
    exact ⟨hcounts, Nat.le_refl 1, hwl.n_pos, hhw.registerWords_pos, hhw.storeEntries_pos, hfits⟩
  · rintro ⟨hcounts, -, hallows⟩
    exact ⟨hworkload, hhardware, hcounts, hpacket, hallows.fits⟩

/-- **A plan has the largest feasible chunk.** For hardware and workloads that pass their checks,
and final sums that fit half a register: the first layer costs what the numbers say; the plan
overflows exactly if the counts do not fit, and where they fit there is no plan exactly if a single
product is not feasible; otherwise all sizes up to the largest feasible one are feasible, and the
chunk is that one, lowered by one if it is odd and there are more products, unless it is one. The
chunk itself is feasible, and the full chunks and the remainder, which is smaller, take up the whole
dot product. -/
theorem make_largest_chunk (hw : Hardware) (w : Workload) (hworkload : w.violation? = none)
    (hhardware : hw.violation? = none) (hpacket : w.packet ≤ hw.wordsPerHalf) :
    (∀ c ≤ w.n, foldCost? (w.reducer hw) c =
      if 1 < c ∧ hw.wordsPerHalf < ceilDiv (ceilDiv c 2) 2 * w.firstPacket then none
      else some (w.firstFoldSize c)) ∧
    (make hw w = .error (.schedule .overflow) ↔ ¬w.CountsFit) ∧
    (w.CountsFit → ((∃ e, make hw w = .error e) ↔ ¬Feasible hw w 1)) ∧
    ∀ plan, make hw w = .ok plan →
      ∃ c, IsGreatest {c | Feasible hw w c} c ∧ (∀ k, 1 ≤ k → k ≤ c → Feasible hw w k) ∧
        plan.chunk = (if 1 < c ∧ c % 2 = 1 ∧ c < w.n then c - 1 else c) ∧
        Feasible hw w plan.chunk ∧
        plan.fullChunks * plan.chunk + plan.remainder = w.n ∧ plan.remainder < plan.chunk := by
  have hwl := Workload.withinLimits_of_violation? hworkload
  refine ⟨fun c hc => foldCost?_reducer hw hwl hc, make_eq_overflow_iff hworkload hhardware, ?_, ?_⟩
  · intro hcounts
    have hplans := exists_make_iff_feasible hworkload hhardware hpacket
    rw [and_iff_right hcounts] at hplans
    rw [← hplans]
    cases make hw w with
    | error e => simp
    | ok plan => simp
  · intro plan h
    have hsound := sound_of_make h
    obtain ⟨c, hchunk, hallows, hgreatest⟩ := greatest_of_make h
    have hle : plan.chunk ≤ c := hchunk ▸ evened_le c w.n
    have hfeasible : Feasible hw w c :=
      (feasible_iff_allows hwl).mpr ⟨Nat.le_trans hsound.chunk_pos hle, hallows⟩
    refine ⟨c, ⟨hfeasible, ?_⟩, fun k => hfeasible.of_le hwl, hchunk,
      hfeasible.of_le hwl hsound.chunk_pos hle, hsound.chunks_add_remainder, hsound.remainder_lt⟩
    intro k hk
    exact hgreatest k ((feasible_iff_allows hwl).mp hk).2

/-- A buffer of 32 entries has room for five of 18 products, so chunks of four are planned; one of
seven entries has no room for a single product. -/
theorem make_largest_chunk_odd :
    let w : Workload := { m := 1, n := 18, q := 8, digitLength := 2 }
    ∃ plan, make { bufferEntries := 32 } w = .ok plan ∧
      IsGreatest {c | Feasible { bufferEntries := 32 } w c} 5 ∧ plan.chunk = 4 ∧
      plan.fullChunks * 4 + plan.remainder = 18 ∧ plan.remainder < 4 ∧
      ∃ e, make { bufferEntries := 7 } w = .error e := by
  intro w
  obtain ⟨-, -, hfails, hplans⟩ := make_largest_chunk { bufferEntries := 32 } w
    (by decide) (by decide +kernel) (by decide +kernel)
  obtain ⟨-, -, hfails', -⟩ := make_largest_chunk { bufferEntries := 7 } w
    (by decide) (by decide +kernel) (by decide +kernel)
  have hcounts : w.CountsFit := ⟨by decide, by decide, by decide +kernel⟩
  cases hmake : make { bufferEntries := 32 } w with
  | error e =>
    have hone : Feasible { bufferEntries := 32 } w 1 := by decide +kernel
    exact absurd hone ((hfails hcounts).mp ⟨e, hmake⟩)
  | ok plan =>
    obtain ⟨c, hgreatest, hsmaller, hchunk, -, hwhole, hrest⟩ := hplans plan hmake
    have hle : 5 ≤ c :=
      hgreatest.2 (show Feasible { bufferEntries := 32 } w 5 by decide +kernel)
    have hlt : c < 6 := Nat.lt_of_not_le fun hsix =>
      absurd (hsmaller 6 (by decide) hsix) (by decide +kernel)
    obtain rfl : c = 5 := by omega
    rw [if_pos (by decide)] at hchunk
    rw [hchunk] at hwhole hrest
    exact ⟨plan, rfl, hgreatest, hchunk, hwhole, hrest, (hfails' hcounts).mpr (by decide +kernel)⟩

/-- A single product can be feasible where there is no plan: the output has so many rows that 64
bits do not count its tiles. -/
theorem feasible_product_overflows :
    let w : Workload := { m := UInt64.size / 2, n := 1, q := 25 }
    w.violation? = none ∧ Hardware.violation? {} = none ∧
      w.packet ≤ Hardware.wordsPerHalf {} ∧ Feasible {} w 1 ∧
      make {} w = .error (.schedule .overflow) := by
  intro w
  refine ⟨by decide, by decide +kernel, by decide +kernel, by decide +kernel, ?_⟩
  exact (make_eq_overflow_iff (by decide) (by decide +kernel)).mpr
    fun hcounts => absurd hcounts.tiles_lt (by decide)

end Plan

end NearMemory
