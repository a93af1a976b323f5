import NearMemory.Proofs.RemainderFold
import NearMemory.Proofs.StockReductions

/-!
# Schedules of the stock hardware

On the stock hardware there is a schedule for every workload of products of eight bits whose
instructions can be counted, and it adds all sums of a row tile to one without a tail. The
reductions keep up with the adder tree once the chunks do, and the chunks do for a simple reason:
either one chunk takes all products, and is folded as the tree folds them, or the chunk fills the
instruction buffer. Such a chunk is even and is folded by its first layer only, so that nothing is
rounded up.

## Main definitions

* `sumsLeft` — the sums of a row tile that are left after some passes

## Main results

* `Plan.chunk_stock` — the chunk in closed form
* `Schedule.Made.chunkSums_stock_le` — the chunks keep up with the tree
* `Schedule.make_stock_no_tail` — a schedule for every workload, without a tail
-/

namespace NearMemory

/-! ### Sums that are left -/

/-- The sums of a row tile that are left after a pass. The chunks add theirs to those that are
there; the other passes take what is there. -/
def Pass.sumsLeft (sums : Nat) (p : Pass) : Nat :=
  match p.kind with
  | .chunk | .remainder => sums + p.executions * p.sumsOut
  | .reduction _ _ | .tail => p.sumsOut

/-- The sums of a row tile that are left after some passes. -/
def sumsLeft (passes : List Pass) : Nat := passes.foldl Pass.sumsLeft 0

namespace FoldsToOne

variable {depth layer sums : Nat} {passes : List Pass}

/-- One sum is left. -/
theorem foldl_sumsLeft (h : FoldsToOne depth layer sums passes) :
    passes.foldl Pass.sumsLeft sums = 1 := by
  induction h with
  | done => rfl
  | reduction hkind _ _ _ _ _ _ _ ih =>
    rw [List.foldl_cons, Pass.sumsLeft, hkind]
    exact ih
  | tail hkind _ _ hone =>
    rw [List.foldl_cons, List.foldl_nil, Pass.sumsLeft, hkind]
    exact hone

/-- A reduction takes all sums that are left, and leaves half of them. -/
theorem sumsIn_eq {before after : List Pass} {p : Pass} {groups size : Nat}
    (h : FoldsToOne depth layer sums (before ++ p :: after))
    (hkind : p.kind = .reduction groups size) :
    p.sumsIn = before.foldl Pass.sumsLeft sums ∧ p.sumsOut ≤ ceilDiv p.sumsIn 2 := by
  generalize hpasses : before ++ p :: after = passes at h
  induction h generalizing before with
  | done => simp at hpasses
  | reduction hfirst hsums _ _ _ _ hhigh _ ih =>
    rcases List.append_eq_cons_iff.mp hpasses with ⟨rfl, hhead⟩ | ⟨before, rfl, hrest⟩
    · obtain rfl := (List.cons.inj hhead).1
      rw [hsums]
      exact ⟨rfl, hhigh⟩
    · rw [List.foldl_cons, Pass.sumsLeft, hfirst]
      exact ih hrest.symm
  | tail htail =>
    rcases List.append_eq_cons_iff.mp hpasses with ⟨rfl, hhead⟩ | ⟨before, rfl, hrest⟩
    · obtain rfl := (List.cons.inj hhead).1
      rw [hkind] at htail
      contradiction
    · simp at hrest

end FoldsToOne

/-! ### The chunks -/

section Chunks

variable {w : Workload} {plan : Plan}

theorem Workload.nops_stock_le (hdigits : w.digitLength ≤ 24) : w.nops {} ≤ 2 := by
  show ceilDiv (ceilDiv w.digitLength 2 - 4) 4 ≤ 2
  rw [ceilDiv_le_iff (by decide), ceilDiv_two]
  omega

theorem Workload.firstPacket_stock (hwidth : w.subwordWidth = 8) : w.firstPacket = 2 := by
  rw [firstPacket, hwidth]
  show Subword.wordsPerPacket 8 (if AdderTree.isDue 1 8 0 && 8 < Subword.widest then
    Subword.next 8 else 8) = 2
  decide

/-- Products of eight bits pass the check of a workload, with constants of 24 digits or fewer. -/
theorem Workload.violation?_stock (hm : 1 ≤ w.m) (hn : 1 ≤ w.n) (hq : 1 ≤ w.q)
    (hwidth : w.subwordWidth = 8) (hdigits : 1 ≤ w.digitLength ∧ w.digitLength ≤ 24) :
    w.violation? = none := by
  rw [violation?, if_neg (by omega), hwidth, if_neg (by decide), if_neg (by omega), constantBits,
    if_neg, if_neg]
  · rw [wordBits]
    omega
  · rw [UInt32.size]
    omega

theorem Workload.packet_stock_le (hwidth : w.subwordWidth = 8) :
    w.packet ≤ ({} : Hardware).wordsPerHalf :=
  Nat.le_trans (w.stock_reducer hwidth).resultPacket_le (by decide)

/-- The instruction buffer has room for twelve products, and for two fewer with every empty
instruction behind a multiply. -/
theorem Plan.feasible_stock_iff {c : Nat} (hwidth : w.subwordWidth = 8) (hnops : w.nops {} ≤ 2) :
    Feasible {} w c ↔ 1 ≤ c ∧ c ≤ min w.n (12 - 2 * w.nops {}) := by
  have hpacket := w.firstPacket_stock hwidth
  have hbuffer : ({} : Hardware).bufferEntries = 64 := rfl
  have hstore : ({} : Hardware).storeEntries = 16 := rfl
  have hwords : ({} : Hardware).registerWords = 32 := rfl
  have hhalf : ({} : Hardware).wordsPerHalf = 16 := rfl
  obtain hnops | hnops | hnops : w.nops {} = 0 ∨ w.nops {} = 1 ∨ w.nops {} = 2 := by omega
  all_goals
    constructor
    · rintro ⟨hone, hmin, -, hentries⟩
      rw [Workload.firstFoldSize, hpacket, hnops, Plan.reservedEntries] at hentries
      refine ⟨hone, ?_⟩
      split at hentries <;> split at hentries <;> omega
    · rintro ⟨hone, hmin⟩
      refine ⟨hone, by omega, ?_, ?_⟩
      · rw [hpacket, ceilDiv_two, ceilDiv_two]
        omega
      · rw [Workload.firstFoldSize, hpacket, hnops, Plan.reservedEntries]
        split <;> split <;> omega

/-- **The chunk of the stock hardware.** -/
theorem Plan.chunk_stock (hwidth : w.subwordWidth = 8) (hnops : w.nops {} ≤ 2)
    (h : Plan.make {} w = .ok plan) : plan.chunk = min w.n (12 - 2 * w.nops {}) := by
  have hwl := Workload.withinLimits_of_violation? (found_of_make h).1
  have hn := hwl.n_pos
  obtain ⟨c, hchunk, hallows, hgreatest⟩ := greatest_of_make h
  have hle : min w.n (12 - 2 * w.nops {}) ≤ c := by
    refine hgreatest _ ((feasible_iff_allows hwl).mp ?_).2
    rw [feasible_stock_iff hwidth hnops]
    omega
  have hfeasible := (feasible_iff_allows hwl).mpr ⟨by omega, hallows⟩
  rw [feasible_stock_iff hwidth hnops] at hfeasible
  obtain rfl := Nat.le_antisymm hfeasible.2 hle
  rw [hchunk, evened]
  split <;> omega

/-- The chunk that fills the buffer is folded by its first layer only. -/
theorem Body.layer_ofChunk_stock {r : Reducer} {nops c : Nat} (h : r.Stock) (hnops : nops ≤ 2)
    (hc : c = 12 - 2 * nops) (hfits : Plan.fits r nops ({} : Hardware).bufferEntries c = true) :
    (Body.ofChunk {} r nops c none).cursor.layer = 1 := by
  obtain ⟨first, hfirst, hfold⟩ := exists_chunkLayer?_of_fits hfits (show 1 < c by omega)
  obtain ⟨_, -, hhalves⟩ := halves_of_chunkLayer? withinLimits_stock h.sound
    (show c ≤ 32 by omega) hfirst
  obtain ⟨l, hl, hfold⟩ := Option.bind_eq_some_iff.mp hfold
  have hcost := Reducer.le_layerCost (h.packetIn_pos hl)
    (Nat.le_of_succ_le (h.two_le_packetOut hl)) c
  have hissued : (Folding.ofChunk r.initial nops c first).cursor.issued =
      c + 2 + c * (1 + nops) + r.layerCost l c := by
    show (chunkFront r.initial nops c first).length = _
    rw [length_chunkFront _ _ (Nat.le_of_eq hhalves.length_pairs), chunkCost, if_pos (by omega),
      Option.map_some, Option.getD_some, Reducer.size_of_foldLayer? (h.sound_layer hl) hfold,
      length_loadedPackets]
  have hpackets : (Folding.ofChunk r.initial nops c first).packets.length = c / 2 := by
    show first.packets.length = _
    rw [hhalves.length_packets, ceilDiv_two]
    omega
  rw [cursor_ofChunk {} nops hfirst, bodyBudget_stock]
  have hone : 1 ≤ (r.foldLayers 59 none (r.layers.drop 1)
      (.ofChunk r.initial nops c first)).1.cursor.layer :=
    r.le_layer_foldLayers 59 none _ (.ofChunk r.initial nops c first)
  refine Nat.le_antisymm (Nat.le_of_not_lt fun hlt => ?_) hone
  cases hrest : r.layers.drop 1 with
  | nil =>
    rw [hrest] at hlt
    exact absurd hlt (Nat.lt_irrefl 1)
  | cons l' rest =>
    have hl' : r.layers[1]? = some l' := by rw [← List.head?_drop, hrest, List.head?_cons]
    have hcost' := Reducer.le_layerCost (h.two_le_packetIn hl' (Nat.le_refl 1))
      (h.two_le_packetOut hl') (c / 2)
    rw [hrest] at hlt
    have hbudget := Reducer.issued_add_layerCost_le
      (f := .ofChunk r.initial nops c first) (h.sound_layer hl') rest hlt
    rw [hissued, hpackets] at hbudget
    obtain rfl | rfl | rfl : nops = 0 ∨ nops = 1 ∨ nops = 2 := by omega
    all_goals
      subst hc
      omega

end Chunks

/-! ### Before the reductions -/

namespace Plan

variable {hw : Hardware} {w : Workload} {plan : Plan}

theorem Found.n_lt {c : Nat} (h : plan.Found hw w c) (hwl : w.WithinLimits) :
    w.n < UInt64.size := by
  have hword := Subword.perWord_pos hwl.width_mem
  have htiles : 0 < Subword.tiles w.q w.subwordWidth := by
    rw [Subword.tiles, lt_ceilDiv_iff (Nat.mul_pos (by decide) hword), Nat.zero_mul]
    exact hwl.q_pos
  exact Nat.lt_of_le_of_lt (Nat.le_mul_of_pos_right w.n htiles) h.counts_fit.multiplies_lt

namespace Sound

/-- The chunks are repeated for every tile, and their count fits. -/
theorem staged_chunkPass (h : plan.Sound hw w) (hmap : hw.addressMap.isAddressable = true)
    (kind : Pass.Kind) (count executions : Nat) (body : Body) :
    (chunkPass plan kind count executions body).staged hw =
      .ok (chunkPass plan kind count executions body) :=
  Pass.staged_eq_ok_iff.mpr ⟨Pass.canStage_iff.mpr ⟨h.tiles_lt, .inr hmap⟩, rfl⟩

/-- A chunk leaves no more sums than it has products. -/
theorem operands_ofChunk_le (h : plan.Sound hw w) {count : Nat} {limit : Option Nat}
    (hpos : 0 < count) (hle : count ≤ plan.chunk) (hlimit : count < plan.chunk ∨ limit = none) :
    (Body.ofChunk hw (.ofTree plan.tree w.subwordWidth hw) plan.padding.nops count
      limit).cursor.operands ≤ count := by
  have hbody : (Body.ofChunk hw (.ofTree plan.tree w.subwordWidth hw) plan.padding.nops count
      limit).Sound hw 0 count := Body.sound_ofChunk h.limits h.sound_reducer h.chunk_fits hpos hle
    hlimit h.chunk_le_registerWords h.chunk_le_storeEntries
  rw [hbody.operands_eq]
  exact sumsAfter_le _ _

/-- The remainder is folded as far as the full chunks. -/
theorem exists_remainderPass? (h : plan.Sound hw w) (hmap : hw.addressMap.isAddressable = true) :
    ∃ p, remainderPass? hw (.ofTree plan.tree w.subwordWidth hw) plan
        (Body.ofChunk hw (.ofTree plan.tree w.subwordWidth hw) plan.padding.nops plan.chunk
          none).cursor.layer = .ok p ∧
      p.elim 0 (·.sumsOut) ≤ plan.remainder := by
  rw [remainderPass?]
  split
  next => exact ⟨none, rfl, Nat.zero_le _⟩
  next hne =>
    have hpos := Nat.pos_of_ne_zero hne
    have hlayer := Body.layer_ofChunk_of_lt h.limits h.sound_reducer h.chunk_fits hpos
      h.remainder_lt h.chunk_le_registerWords
    dsimp only
    rw [if_pos hlayer, h.staged_chunkPass hmap]
    exact ⟨_, rfl, h.operands_ofChunk_le hpos (Nat.le_of_lt h.remainder_lt) (.inl h.remainder_lt)⟩

end Sound

end Plan

/-! ### Schedules -/

namespace Schedule

variable {s : Schedule} {rest : List Pass}

/-- The tree has a layer for every time that the products can be halved. -/
theorem Made.n_le_two_pow (h : s.Made rest) : s.workload.n ≤ 2 ^ s.reducer.layers.length := by
  show _ ≤ 2 ^ s.plan.tree.layers.length
  rw [h.plan_sound.layers_eq, AdderTree.length_layersFrom]
  exact Nat.le_pow_clog Nat.one_lt_two _

/-- A chunk of two products or more is folded by its first layer. -/
theorem Made.one_le_layerTo (h : s.Made rest) (hchunk : 1 < s.plan.chunk) :
    1 ≤ s.fullPass.layerTo := by
  have hfits : Plan.fits s.reducer s.plan.padding.nops s.hardware.bufferEntries s.plan.chunk =
      true := h.plan_sound.chunk_fits
  obtain ⟨first, hfirst, -⟩ := exists_chunkLayer?_of_fits hfits hchunk
  show 1 ≤ (Body.ofChunk s.hardware s.reducer s.plan.padding.nops s.plan.chunk none).cursor.layer
  rw [Body.cursor_ofChunk s.hardware s.plan.padding.nops hfirst]
  exact Reducer.le_layer_foldLayers _ _ none _ (.ofChunk s.reducer.initial s.plan.padding.nops
    s.plan.chunk first)

/-- **The chunks keep up with the tree.** Either one chunk takes all products, or the chunks are
even and folded by one layer. -/
theorem Made.chunkSums_stock_le (h : s.Made rest) (hhardware : s.hardware = {})
    (hstock : s.reducer.Stock) (hnops : s.plan.padding.nops ≤ 2)
    (hchunk : s.plan.chunk = min s.workload.n (12 - 2 * s.plan.padding.nops)) :
    s.chunkSums ≤ 2 ^ (s.reducer.layers.length - s.fullPass.layerTo) := by
  have hn := h.n_le_two_pow
  have hreached : s.fullPass.layerTo ≤ s.reducer.layers.length :=
    Body.layer_ofChunk_le s.hardware s.reducer s.plan.padding.nops s.plan.chunk none
  have hwhole := h.plan_sound.chunks_add_remainder
  rw [h.chunkSums_eq]
  by_cases hall : s.plan.chunk = s.workload.n
  · have hfull : s.plan.fullChunks = 1 := by
      rw [h.plan_sound.fullChunks_eq, hall, Nat.div_self h.plan_sound.n_pos]
    have hremainder : s.plan.remainder = 0 := by
      rw [h.plan_sound.remainder_eq, hall, Nat.mod_self]
    rw [hfull, hremainder, hall, Nat.one_mul, Nat.le_zero.mp (sumsAfter_le 0 _), Nat.add_zero,
      sumsAfter_le_iff, ← Nat.pow_add, Nat.sub_add_cancel hreached]
    exact hn
  · have hfills : s.plan.chunk = 12 - 2 * s.plan.padding.nops := by omega
    have hlayer : s.fullPass.layerTo = 1 := by
      show (Body.ofChunk s.hardware s.reducer s.plan.padding.nops s.plan.chunk
        none).cursor.layer = 1
      rw [hhardware]
      refine Body.layer_ofChunk_stock hstock hnops hfills ?_
      rw [← hhardware]
      exact h.plan_sound.chunk_fits
    rw [hlayer] at hreached ⊢
    obtain ⟨more, hmore⟩ := Nat.exists_eq_add_of_le' hreached
    obtain ⟨half, hhalf⟩ : ∃ half, s.plan.chunk = 2 * half := ⟨6 - s.plan.padding.nops, by omega⟩
    rw [hmore, Nat.pow_succ] at hn
    rw [hhalf, Nat.mul_left_comm] at hwhole
    have hfold (k : Nat) : sumsAfter k 1 = (k + 1) / 2 := ceilDiv_two k
    rw [hmore, Nat.add_sub_cancel, hfold, hfold, hhalf, show (2 * half + 1) / 2 = half by omega]
    omega

/-- Nothing fails before the reductions, where there are addresses, and no more sums are left to
them than there are products. -/
theorem exists_ofPlan_eq {hw : Hardware} {w : Workload} {plan : Plan}
    (hplan : Plan.make hw w = .ok plan) (hmap : hw.addressMap.isAddressable = true) :
    ∃ layer sums before, sums ≤ w.n ∧ ofPlan hw w plan =
      (reductionPasses hw (.ofTree plan.tree w.subwordWidth hw) plan.tiles plan.tree.depth
        layer sums).map fun rest => ⟨hw, w, plan, before ++ rest⟩ := by
  have hsound := Plan.sound_of_make hplan
  obtain ⟨hworkload, -, _, hfound⟩ := Plan.found_of_make hplan
  have hn := hfound.n_lt (Workload.withinLimits_of_violation? hworkload)
  obtain ⟨remainder, hremainder, hleft⟩ := hsound.exists_remainderPass? hmap
  have hchunks := Nat.mul_le_mul_left plan.fullChunks
    (hsound.operands_ofChunk_le hsound.chunk_pos (Nat.le_refl _) (.inr rfl))
  have hle := Nat.le_trans (Nat.add_le_add hchunks hleft)
    (Nat.le_of_eq hsound.chunks_add_remainder)
  exact ⟨_, _, _, hle, ofPlan_eq_map hsound.reservedEntries_le (hsound.staged_chunkPass hmap ..)
    hremainder (Nat.lt_of_le_of_lt hle hn)⟩

/-- Products of eight bits on the stock hardware: there is a schedule, unless 64 bits do not count
the instructions. -/
theorem make_stock_cases {w : Workload} (hm : 1 ≤ w.m) (hn : 1 ≤ w.n) (hq : 1 ≤ w.q)
    (hwidth : w.subwordWidth = 8) (hdigits : 1 ≤ w.digitLength ∧ w.digitLength ≤ 24) :
    (UInt64.size ≤ w.m * w.n * Subword.tiles w.q Subword.widest ∧
        make {} w = .error (.schedule .overflow)) ∨
      ∃ s, make {} w = .ok s := by
  have hworkload := Workload.violation?_stock hm hn hq hwidth hdigits
  have hwl := Workload.withinLimits_of_violation? hworkload
  have hhardware : Hardware.violation? {} = none := by decide
  have hnops := Workload.nops_stock_le hdigits.2
  by_cases hcounts : w.CountsFit
  · obtain ⟨plan, hplan⟩ := (Plan.exists_make_iff_feasible hworkload hhardware
      (Workload.packet_stock_le hwidth)).mpr
        ⟨hcounts, (Plan.feasible_stock_iff hwidth hnops).mpr (by omega)⟩
    obtain ⟨-, -, _, hfound⟩ := Plan.found_of_make hplan
    obtain ⟨layer, sums, before, hsums, heq⟩ := exists_ofPlan_eq hplan (by decide)
    rw [hfound.tree_eq, show Reducer.ofTree w.tree w.subwordWidth {} = w.reducer {} from rfl] at heq
    simp only [make, hhardware, hplan, heq]
    rcases (w.stock_reducer hwidth).reductionPasses_cases plan.tiles w.tree.depth layer sums with
      ⟨rest, hrest⟩ | ⟨hlarge, hrest⟩
    · exact .inr ⟨_, by rw [hrest]; rfl⟩
    · refine .inl ⟨?_, by rw [hrest]; rfl⟩
      calc UInt64.size ≤ plan.tiles * sums := hlarge
        _ ≤ w.m * Subword.tiles w.q Subword.widest * w.n := by
          rw [hfound.tiles_eq, hfound.tilesPerRow_eq]
          have htiles := Subword.tiles_le_widest w.q hwl.width_mem
          exact Nat.mul_le_mul (Nat.mul_le_mul_left _ htiles) hsums
        _ = w.m * w.n * Subword.tiles w.q Subword.widest := Nat.mul_right_comm ..
  · refine .inl ⟨Nat.le_of_not_lt fun hfit => hcounts (hwl.countsFit hfit), ?_⟩
    rw [make, hhardware, (Plan.make_eq_overflow_iff hworkload hhardware).mpr hcounts]

/-! ### Whole schedules -/

/-- The chunks leave the sums that the other passes start with. -/
theorem foldl_sumsLeft_chunks (s : Schedule) :
    (s.fullPass :: s.remainderPasses).foldl Pass.sumsLeft 0 = s.chunkSums := by
  have hfull : Pass.sumsLeft 0 s.fullPass = s.plan.fullChunks * s.fullPass.sumsOut :=
    Nat.zero_add _
  rw [List.foldl_cons, hfull, chunkSums, remainderPasses]
  split
  · rfl
  · show s.plan.fullChunks * s.fullPass.sumsOut + 1 * s.remainderPass.sumsOut = _
    rw [Nat.one_mul, List.map_singleton, List.sum_singleton]

theorem kind_of_mem_chunks (s : Schedule) :
    ∀ p ∈ s.fullPass :: s.remainderPasses, p.kind = .chunk ∨ p.kind = .remainder := by
  intro p hp
  rw [remainderPasses] at hp
  rcases List.mem_cons.mp hp with rfl | hp
  · exact .inl rfl
  · split at hp
    · contradiction
    · obtain rfl := List.mem_singleton.mp hp
      exact .inr rfl

/-- A reduction comes after the chunks. -/
theorem Made.exists_of_reduction {before after : List Pass} {p : Pass} {groups size : Nat}
    (h : s.Made rest) (hpasses : s.passes = before ++ p :: after)
    (hkind : p.kind = .reduction groups size) :
    ∃ more, before = (s.fullPass :: s.remainderPasses) ++ more ∧ rest = more ++ p :: after := by
  rw [h.passes_eq] at hpasses
  rcases List.append_eq_append_iff.mp hpasses with hbehind | ⟨back, hfront, hback⟩
  · exact hbehind
  · cases back with
    | nil => exact ⟨[], by simpa using hfront.symm, by simpa using hback.symm⟩
    | cons first back =>
      obtain ⟨rfl, -⟩ := List.cons.inj hback
      have hmem : p ∈ s.fullPass :: s.remainderPasses := by
        rw [hfront]
        exact List.mem_append_right _ List.mem_cons_self
      rcases s.kind_of_mem_chunks p hmem with hchunk | hchunk <;> simp [hchunk] at hkind

/-- The passes behind the chunks hold no tail. -/
theorem kind_ne_tail_of_make {w : Workload} (hwidth : w.subwordWidth = 8)
    (hdigits : w.digitLength ≤ 24) (h : make {} w = .ok s) :
    ∀ p ∈ s.passes, p.kind ≠ .tail := by
  obtain ⟨hhardware, rfl, hplan, rest, hmade, hsearch⟩ := search_of_make h
  obtain ⟨-, -, _, hfound⟩ := Plan.found_of_make hplan
  have hstock : s.reducer.Stock := by
    rw [reducer, hhardware, hfound.tree_eq]
    exact s.workload.stock_reducer hwidth
  have hpadding : s.plan.padding.nops = s.workload.nops {} :=
    congrArg Padding.nops hfound.padding_eq
  have hnops := Workload.nops_stock_le hdigits
  have hchunk := Plan.chunk_stock hwidth hnops hplan
  rw [← hpadding] at hnops hchunk
  have hreached : s.chunkSums ≤ 1 ∨ 1 ≤ s.fullPass.layerTo := by
    by_cases hone : s.plan.chunk = 1
    · -- the only product there is
      have hle := hmade.chunkSums_le
      omega
    · have hpos := hmade.plan_sound.chunk_pos
      exact .inr (hmade.one_le_layerTo (by omega))
  rw [hhardware] at hsearch
  have hrest := hstock.kind_ne_tail hreached (Nat.le_add_left _ _)
    (hmade.chunkSums_stock_le hhardware hstock hnops hchunk) hsearch
  intro p hp
  rw [hmade.passes_eq] at hp
  rcases List.mem_append.mp hp with hp | hp
  · rcases s.kind_of_mem_chunks p hp with hkind | hkind <;> simp [hkind]
  · exact hrest p hp

/-- **Schedules of the stock hardware need no tail.** For products of eight bits, dot products of
any length and constants of any digits there is a schedule, and none of its passes is a tail. A
reduction takes all sums that are left and leaves at most half of them, rounded up; in the end one
is left. Only a product whose instructions 64 bits do not count has none. -/
theorem make_stock_no_tail (w : Workload) (hm : 1 ≤ w.m) (hn : 1 ≤ w.n) (hq : 1 ≤ w.q)
    (hwidth : w.subwordWidth = 8) (hdigits : 1 ≤ w.digitLength ∧ w.digitLength ≤ 24) :
    (UInt64.size ≤ w.m * w.n * Subword.tiles w.q Subword.widest ∧
        make {} w = .error (.schedule .overflow)) ∨
      ∃ s, make {} w = .ok s ∧ (∀ p ∈ s.passes, p.kind ≠ .tail) ∧
        (∀ before p after groups size, s.passes = before ++ p :: after →
          p.kind = .reduction groups size →
            p.sumsIn = sumsLeft before ∧ p.sumsOut ≤ ceilDiv p.sumsIn 2) ∧
        sumsLeft s.passes = 1 := by
  rcases make_stock_cases hm hn hq hwidth hdigits with hlarge | ⟨s, hs⟩
  · exact .inl hlarge
  · have htail := kind_ne_tail_of_make hwidth hdigits.2 hs
    obtain ⟨-, rfl, rest, hmade⟩ := made_of_make hs
    have hfolds := hmade.foldsToOne_chunkSums
    refine .inr ⟨s, hs, htail, ?_, ?_⟩
    · intro before p after groups size hpasses hkind
      obtain ⟨more, rfl, rfl⟩ := hmade.exists_of_reduction hpasses hkind
      rw [sumsLeft, List.foldl_append, foldl_sumsLeft_chunks]
      exact hfolds.sumsIn_eq hkind
    · rw [sumsLeft, hmade.passes_eq, List.foldl_append, foldl_sumsLeft_chunks]
      exact hfolds.foldl_sumsLeft

/-- Two groups of six sums leave four where the tree has three, and the next layers take care of
them. -/
theorem make_stock_no_tail_excess :
    ∃ s, make {} { m := 2, n := 6144, q := 8, digitLength := 24 } = .ok s ∧
      (s.passes.drop 9).map (fun p => (p.kind, p.sumsIn, p.sumsOut)) =
        [(.reduction 2 6, 12, 4), (.reduction 1 4, 4, 1)] ∧
      (s.plan.tree.layers.drop 9).map (·.inputs) = [12, 6, 3, 2] ∧
      (∀ p ∈ s.passes, p.kind ≠ .tail) ∧
      (∀ before p after groups size, s.passes = before ++ p :: after →
        p.kind = .reduction groups size →
          p.sumsIn = sumsLeft before ∧ p.sumsOut ≤ ceilDiv p.sumsIn 2) ∧
      sumsLeft s.passes = 1 := by
  obtain ⟨s, hs, hstock⟩ := (make_stock_no_tail { m := 2, n := 6144, q := 8, digitLength := 24 }
    (by decide) (by decide) (by decide) rfl (by decide)).resolve_left
      fun h => absurd h.1 (by decide)
  have hvalues : (make {} { m := 2, n := 6144, q := 8, digitLength := 24 }).toOption.map (fun s =>
      ((s.passes.drop 9).map (fun p => (p.kind, p.sumsIn, p.sumsOut)),
        (s.plan.tree.layers.drop 9).map (·.inputs))) =
      some ([(.reduction 2 6, 12, 4), (.reduction 1 4, 4, 1)], [12, 6, 3, 2]) := by
    decide +kernel
  rw [hs] at hvalues
  obtain ⟨hpasses, hlayers⟩ := Prod.mk.inj (Option.some.inj hvalues)
  exact ⟨s, hs, hpasses, hlayers, hstock⟩

end Schedule

end NearMemory
