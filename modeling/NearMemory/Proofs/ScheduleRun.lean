import NearMemory.Proofs.BodyLimits

/-!
# How a schedule comes about

The passes that fold the partial sums are found one after the other, and the search carries a limit
that only serves to end it. `ReductionRun` says the same without the limit: a pass is the reduction
of the widest group that fits, as long as there is a layer to fold, and the tail is the last resort
once every layer is folded. That the limit never runs out is the only thing to prove about it, and
it holds because every reduction folds a layer.

`Schedule.Made` does the same for a whole schedule. Everything about the passes of a schedule is
proved by induction on a run.

## Main definitions

* `Grouping.Covers` — groups that take up all sums, the last one the rest
* `ReductionRun` — the passes behind the multiplies
* `Schedule.Made` — the passes of a schedule

## Main results

* `Grouping.covers_balanced` — balanced groups cover the sums
* `reductionRun_of_reductionPasses` — the search finds a run
* `Schedule.search_of_make` — the passes of a schedule, with the search that finds them
* `Schedule.made_of_make` — every schedule is made in this way
-/

namespace NearMemory

/-! ### Groups -/

/-- Groups of two sums or more that take up all sums. The last one takes what is left, at least one
sum, and where there are several groups their size is even. -/
structure Grouping.Covers (g : Grouping) (operands : Nat) : Prop where
  groups_pos : 0 < g.groups
  two_le_size : 2 ≤ g.size
  lt_operands : (g.groups - 1) * g.size < operands
  operands_le : operands ≤ g.groups * g.size
  size_even : 1 < g.groups → g.size % 2 = 0

namespace Grouping

variable {operands widest : Nat}

theorem size_balanced_le (hwidest : 2 ≤ widest) (hle : widest ≤ operands)
    (heven : widest = operands ∨ widest % 2 = 0) : (balanced operands widest).size ≤ widest := by
  have hpos : 0 < ceilDiv operands widest := by
    rw [lt_ceilDiv_iff (by omega)]
    omega
  have hsize : ceilDiv operands (ceilDiv operands widest) ≤ widest := by
    rw [ceilDiv_le_iff hpos, Nat.mul_comm]
    exact le_ceilDiv_mul (by omega)
  simp only [balanced]
  split
  next hodd =>
    -- several groups, so the widest is not everything and hence even
    rcases heven with rfl | heven
    · rw [lt_ceilDiv_iff (by omega)] at hodd
      omega
    · omega
  next => exact hsize

/-- **Balanced groups cover the sums.** -/
theorem covers_balanced (hwidest : 2 ≤ widest) (hle : widest ≤ operands)
    (heven : widest = operands ∨ widest % 2 = 0) : (balanced operands widest).Covers operands := by
  have hpos : 0 < ceilDiv operands widest := by
    rw [lt_ceilDiv_iff (by omega)]
    omega
  have hfew : ceilDiv operands widest < operands := by
    have hhalf : ceilDiv operands widest ≤ operands - 1 := by
      rw [ceilDiv_le_iff (by omega)]
      calc operands ≤ (operands - 1) * 2 := by omega
        _ ≤ (operands - 1) * widest := Nat.mul_le_mul_left _ hwidest
    omega
  have hlast : (ceilDiv operands widest - 1) * widest < operands := by
    rw [← lt_ceilDiv_iff (by omega)]
    omega
  have hceil : 1 < ceilDiv operands (ceilDiv operands widest) := by
    rw [lt_ceilDiv_iff hpos]
    omega
  have hsize : ceilDiv operands (ceilDiv operands widest) ≤ (balanced operands widest).size := by
    simp only [balanced]
    split <;> omega
  refine ⟨hpos, Nat.le_trans hceil hsize, ?_, ?_, ?_⟩
  · exact Nat.lt_of_le_of_lt
      (Nat.mul_le_mul_left _ (size_balanced_le hwidest hle heven)) hlast
  · have hcover := le_ceilDiv_mul (a := operands) hpos
    rw [Nat.mul_comm] at hcover
    exact Nat.le_trans hcover (Nat.mul_le_mul_left _ hsize)
  · intro hseveral
    simp only [balanced] at hseveral ⊢
    split <;> omega

theorem Covers.add_last {g : Grouping} (h : g.Covers operands) :
    (g.groups - 1) * g.size + g.last operands = operands := by
  have hlt := h.lt_operands
  rw [last]
  omega

end Grouping

/-! ### Reductions -/

section Reduction

variable {hw : Hardware} {r : Reducer} {l : TreeLayer} {tiles layer operands widest : Nat}

/-- What is known of the widest group: its packets are loaded in half a register, and its first
layer fits the budget. -/
structure WidestGroup (hw : Hardware) (r : Reducer) (l : TreeLayer) (operands widest : Nat) :
    Prop where
  two_le : 2 ≤ widest
  le_operands : widest ≤ operands
  even : widest = operands ∨ widest % 2 = 0
  le_half : widest ≤ 2 * (hw.wordsPerHalf / r.packetIn l)
  folds : ∃ folded, r.foldLayer? l (loadedPackets widest (r.packetIn l)) 0 = some folded ∧
    2 + folded.size ≤ bodyBudget hw

theorem widestGroup_of_widestGroup? (h : widestGroup? hw r l operands = some widest) :
    WidestGroup hw r l operands widest := by
  obtain ⟨-, hle, hfits⟩ := greatest?_eq_some h
  simp only [Bool.and_eq_true, Bool.or_eq_true, decide_eq_true_iff, beq_iff_eq,
    Option.any_eq_true] at hfits
  obtain ⟨⟨htwo, heven⟩, folded, hfolded, hbudget⟩ := hfits
  exact ⟨htwo, by omega, heven, by omega, folded, hfolded, hbudget⟩

namespace WidestGroup

theorem covers (h : WidestGroup hw r l operands widest) :
    (Grouping.balanced operands widest).Covers operands :=
  Grouping.covers_balanced h.two_le h.le_operands h.even

/-- The body of the pass, for groups that are no larger than the widest. -/
theorem sound_body (h : WidestGroup hw r l operands widest) (hhw : hw.WithinLimits)
    (hr : r.Sound hw) (hentries : Plan.reservedEntries ≤ hw.bufferEntries)
    (hl : r.layers[layer]? = some l) :
    (Body.ofReduction hw r layer (Grouping.balanced operands widest).size (r.packetIn l)).Sound hw
      layer (Grouping.balanced operands widest).size := by
  have hsize := Grouping.size_balanced_le h.two_le h.le_operands h.even
  obtain ⟨folded, -, hbudget⟩ := h.folds
  exact Body.sound_ofReduction hhw hr hentries (by omega) hl (Nat.le_trans hsize h.le_half)

/-- A group that is no larger than the widest is folded at least as far. -/
theorem layer_lt (h : WidestGroup hw r l operands widest) (hl : r.layers[layer]? = some l)
    (tiles : Nat) :
    layer < (reductionPass hw r tiles layer operands l widest).layerTo := by
  have hsize := Grouping.size_balanced_le h.two_le h.le_operands h.even
  obtain ⟨folded, hfolded, hbudget⟩ := h.folds
  obtain ⟨folded', hfolded', hcost⟩ := Reducer.foldFrom?_of_length_le hfolded
    (show (loadedPackets (Grouping.balanced operands widest).size (r.packetIn l)).length ≤ _ by
      simpa using hsize)
  exact Body.lt_layer_ofReduction hl h.covers.two_le_size hfolded' (by omega)

theorem layerTo_le (hl : r.layers[layer]? = some l) (hw : Hardware)
    (tiles operands widest : Nat) :
    (reductionPass hw r tiles layer operands l widest).layerTo ≤ r.layers.length :=
  Body.layer_folded_le (Nat.le_of_lt (List.getElem?_eq_some_iff.mp hl).1)

end WidestGroup

theorem Pass.canStage_iff {p : Pass} : p.canStage hw = true ↔
    p.iterations < UInt64.size ∧ (p.addressReads = 0 ∨ hw.addressMap.isAddressable = true) := by
  simp [canStage]

theorem Pass.iterations_lt_of_canStage {p : Pass} (h : p.canStage hw = true) :
    p.iterations < UInt64.size :=
  (Pass.canStage_iff.mp h).1

theorem Pass.staged_eq_ok_iff {p p' : Pass} :
    p.staged hw = .ok p' ↔ p.canStage hw = true ∧ p = p' := by
  rw [Pass.staged]
  split <;> simp_all

theorem tailPass_eq_ok {sums : Nat} {p : Pass} (h : tailPass hw r tiles sums = .ok p) :
    4 * Subword.wordsPerPacket r.initial ((AdderTree.mk r.layers).resultWidth r.initial) + 4 ≤
        hw.bufferEntries ∧
      p = {
        kind := .tail
        body := tailInstructions ((AdderTree.mk r.layers).resultWidth r.initial)
          (Subword.wordsPerPacket r.initial ((AdderTree.mk r.layers).resultWidth r.initial))
        iterations := tiles * (sums - 1)
        executions := 1
        sumsIn := sums
        sumsOut := 1
        layerFrom := r.layers.length
        layerTo := r.layers.length } ∧
      p.canStage hw = true := by
  simp only [tailPass] at h
  split at h
  · contradiction
  next hentries =>
    obtain ⟨hstaged, rfl⟩ := Pass.staged_eq_ok_iff.mp h
    exact ⟨Nat.le_of_not_lt hentries, rfl, hstaged⟩

/-- The passes that fold the given number of sums from a layer on. -/
inductive ReductionRun (hw : Hardware) (r : Reducer) (tiles : Nat) : Nat → Nat → List Pass → Prop
  /-- One sum is left, or none. -/
  | done {layer sums : Nat} (hsums : sums ≤ 1) : ReductionRun hw r tiles layer sums []
  /-- A reduction in groups, as wide as possible. -/
  | reduction {layer sums widest : Nat} {l : TreeLayer} {rest : List Pass} (hsums : 1 < sums)
    (hl : r.layers[layer]? = some l) (hwidest : WidestGroup hw r l sums widest)
    (hstaged : (reductionPass hw r tiles layer sums l widest).canStage hw = true)
    (hrest : ReductionRun hw r tiles (reductionPass hw r tiles layer sums l widest).layerTo
      (reductionPass hw r tiles layer sums l widest).sumsOut rest) :
    ReductionRun hw r tiles layer sums (reductionPass hw r tiles layer sums l widest :: rest)
  /-- The tail, when every layer is folded. -/
  | tail {layer sums : Nat} {p : Pass} (hsums : 1 < sums) (hlayer : r.layers.length ≤ layer)
    (hp : tailPass hw r tiles sums = .ok p) : ReductionRun hw r tiles layer sums [p]

/-- **The limit never runs out.** There is one for every layer that is left, and every reduction
folds a layer. -/
theorem reductionRun_of_reductionPasses {limit sums : Nat} {passes : List Pass}
    (hlimit : r.layers.length ≤ layer + limit)
    (h : reductionPasses hw r tiles limit layer sums = .ok passes) :
    ReductionRun hw r tiles layer sums passes := by
  induction limit generalizing layer sums passes with
  | zero =>
    unfold reductionPasses at h
    split at h
    next hsums =>
      obtain rfl := Except.ok.inj h
      exact .done hsums
    next hsums =>
      obtain ⟨p, hp, rfl⟩ := map_eq_ok_iff.mp h
      exact .tail (Nat.lt_of_not_le hsums) hlimit hp
  | succ limit ih =>
    unfold reductionPasses at h
    split at h
    next hsums =>
      obtain rfl := Except.ok.inj h
      exact .done hsums
    next hsums =>
      cases hl : r.layers[layer]? with
      | none =>
        rw [hl] at h
        obtain ⟨p, hp, rfl⟩ := map_eq_ok_iff.mp h
        exact .tail (Nat.lt_of_not_le hsums) (List.getElem?_eq_none_iff.mp hl) hp
      | some l =>
        simp only [hl] at h
        split at h
        · contradiction
        next widest hwidest =>
          obtain ⟨pass, hpass, h⟩ := bind_eq_ok_iff.mp h
          obtain ⟨hstaged, rfl⟩ := Pass.staged_eq_ok_iff.mp hpass
          obtain ⟨rest, hrest, rfl⟩ := map_eq_ok_iff.mp h
          have hgroup := widestGroup_of_widestGroup? hwidest
          have hlt := hgroup.layer_lt hl tiles
          exact .reduction (Nat.lt_of_not_le hsums) hl hgroup hstaged (ih (by omega) hrest)

theorem ReductionRun.canStage_of_mem {sums : Nat} {passes : List Pass}
    (h : ReductionRun hw r tiles layer sums passes) : ∀ p ∈ passes, p.canStage hw = true := by
  induction h with
  | done _ => exact fun p hp => absurd hp List.not_mem_nil
  | reduction _ _ _ hstaged _ ih => exact List.forall_mem_cons.mpr ⟨hstaged, ih⟩
  | tail _ _ htail =>
    exact List.forall_mem_singleton.mpr (tailPass_eq_ok htail).2.2

end Reduction

/-! ### Schedules -/

namespace Plan.Sound

variable {plan : Plan} {hw : Hardware} {w : Workload}

theorem reservedEntries_le (h : plan.Sound hw w) : Plan.reservedEntries ≤ hw.bufferEntries := by
  obtain ⟨cost, -, hentries⟩ := Plan.fits_iff.mp h.chunk_fits
  omega

theorem sound_reducer (h : plan.Sound hw w) :
    (Reducer.ofTree plan.tree w.subwordWidth hw).Sound hw := by
  refine ⟨rfl, h.width_mem, ?_⟩
  show WidthChain w.subwordWidth plan.tree.layers
  rw [h.layers_eq]
  exact AdderTree.widthChain_layersFrom h.width_mem

theorem remainder_lt (h : plan.Sound hw w) : plan.remainder < plan.chunk := by
  rw [h.remainder_eq]
  exact Nat.mod_lt _ h.chunk_pos

/-- The chunks take up the whole dot product. -/
theorem chunks_add_remainder (h : plan.Sound hw w) :
    plan.fullChunks * plan.chunk + plan.remainder = w.n := by
  rw [h.fullChunks_eq, h.remainder_eq, Nat.mul_comm]
  exact Nat.div_add_mod w.n plan.chunk

end Plan.Sound

namespace Schedule

/-- What folding needs to know of a schedule. -/
def reducer (s : Schedule) : Reducer :=
  Reducer.ofTree s.plan.tree s.workload.subwordWidth s.hardware

/-- The body of the full chunks. -/
def fullBody (s : Schedule) : Body :=
  Body.ofChunk s.hardware s.reducer s.plan.padding.nops s.plan.chunk none

/-- The pass of the full chunks. -/
def fullPass (s : Schedule) : Pass :=
  chunkPass s.plan .chunk s.plan.chunk s.plan.fullChunks s.fullBody

/-- The body of the remainder chunk, which is folded as far as the full chunks. -/
def remainderBody (s : Schedule) : Body :=
  Body.ofChunk s.hardware s.reducer s.plan.padding.nops s.plan.remainder (some s.fullPass.layerTo)

/-- The pass of the remainder chunk. -/
def remainderPass (s : Schedule) : Pass :=
  chunkPass s.plan .remainder s.plan.remainder 1 s.remainderBody

/-- The pass of the remainder chunk, if a remainder is left. -/
def remainderPasses (s : Schedule) : List Pass :=
  if s.plan.remainder = 0 then [] else [s.remainderPass]

/-- The sums that the chunks of a row tile leave. -/
def chunkSums (s : Schedule) : Nat :=
  s.plan.fullChunks * s.fullPass.sumsOut + (s.remainderPasses.map (·.sumsOut)).sum

/-- How a schedule is made: its plan is sound, the remainder is folded as far as the full chunks,
and the other passes fold what the chunks leave. Everything is staged without overflow. -/
structure Made (s : Schedule) (rest : List Pass) : Prop where
  plan_sound : s.plan.Sound s.hardware s.workload
  full_staged : s.fullPass.canStage s.hardware = true
  remainder_staged : ∀ p ∈ s.remainderPasses, p.canStage s.hardware = true
  chunkSums_lt : s.chunkSums < UInt64.size
  passes_eq : s.passes = s.fullPass :: s.remainderPasses ++ rest
  remainder_layer : s.plan.remainder ≠ 0 → s.remainderBody.cursor.layer = s.fullPass.layerTo
  reduction_run : ReductionRun s.hardware s.reducer s.plan.tiles s.fullPass.layerTo
    s.chunkSums rest

/-- Every pass of a schedule is staged. -/
theorem Made.canStage_of_mem {s : Schedule} {rest : List Pass} (h : s.Made rest) :
    ∀ p ∈ s.passes, p.canStage s.hardware = true := by
  rw [h.passes_eq, List.cons_append, List.forall_mem_cons, List.forall_mem_append]
  exact ⟨h.full_staged, h.remainder_staged, h.reduction_run.canStage_of_mem⟩

section

variable {hw : Hardware} {w : Workload} {plan : Plan}

/-- Only the reductions are left, once the chunks are counted. -/
theorem ofPlan_eq_map {full : Pass} {remainder : Option Pass}
    (hentries : Plan.reservedEntries ≤ hw.bufferEntries)
    (hfull : (chunkPass plan .chunk plan.chunk plan.fullChunks (Body.ofChunk hw
      (.ofTree plan.tree w.subwordWidth hw) plan.padding.nops plan.chunk none)).staged hw =
        .ok full)
    (hremainder : remainderPass? hw (.ofTree plan.tree w.subwordWidth hw) plan full.layerTo =
      .ok remainder)
    (hsums : plan.fullChunks * full.sumsOut + remainder.elim 0 (·.sumsOut) < UInt64.size) :
    ofPlan hw w plan = (reductionPasses hw (.ofTree plan.tree w.subwordWidth hw) plan.tiles
      plan.tree.depth full.layerTo (plan.fullChunks * full.sumsOut +
        remainder.elim 0 (·.sumsOut))).map fun rest =>
          ⟨hw, w, plan, full :: remainder.toList ++ rest⟩ := by
  have hcounted {k : Nat} (hlt : k < UInt64.size) : counted k = .ok k :=
    counted_eq_ok_iff.mpr ⟨hlt, rfl⟩
  have hchunks := hcounted (Nat.lt_of_le_of_lt (Nat.le_add_right _ _) hsums)
  rw [ofPlan, if_neg (Nat.not_lt.mpr hentries)]
  simp only [hfull, hchunks, hremainder, hcounted hsums, bind, Except.bind]
  cases reductionPasses hw _ _ _ _ _ <;> rfl

/-- What it takes to make the schedule of a plan. -/
theorem ofPlan_eq_ok_iff {s : Schedule} :
    ofPlan hw w plan = .ok s ↔ Plan.reservedEntries ≤ hw.bufferEntries ∧
      ∃ full remainder rest,
        (chunkPass plan .chunk plan.chunk plan.fullChunks (Body.ofChunk hw
          (.ofTree plan.tree w.subwordWidth hw) plan.padding.nops plan.chunk none)).staged hw =
            .ok full ∧
        remainderPass? hw (.ofTree plan.tree w.subwordWidth hw) plan full.layerTo =
          .ok remainder ∧
        plan.fullChunks * full.sumsOut + remainder.elim 0 (·.sumsOut) < UInt64.size ∧
        reductionPasses hw (.ofTree plan.tree w.subwordWidth hw) plan.tiles plan.tree.depth
          full.layerTo (plan.fullChunks * full.sumsOut + remainder.elim 0 (·.sumsOut)) = .ok rest ∧
        (⟨hw, w, plan, full :: remainder.toList ++ rest⟩ : Schedule) = s := by
  constructor
  · intro h
    rw [ofPlan] at h
    split at h
    · contradiction
    next hentries =>
      simp only [bind_eq_ok_iff, counted_eq_ok_iff] at h
      obtain ⟨full, hfull, _, ⟨-, rfl⟩, remainder, hremainder, _, ⟨hsums, rfl⟩, rest, hrest, h⟩ := h
      exact ⟨Nat.le_of_not_lt hentries, full, remainder, rest, hfull, hremainder, hsums, hrest,
        Except.ok.inj h⟩
  · rintro ⟨hentries, full, remainder, rest, hfull, hremainder, hsums, hrest, rfl⟩
    rw [ofPlan_eq_map hentries hfull hremainder hsums, hrest]
    rfl

end

/-- The pass of the remainder, as the scheduler looks for it. -/
theorem of_remainderPass?_eq_ok {s : Schedule} {remainder : Option Pass}
    (h : remainderPass? s.hardware s.reducer s.plan s.fullPass.layerTo = .ok remainder) :
    remainder.toList = s.remainderPasses ∧ (∀ p ∈ remainder, p.canStage s.hardware = true) ∧
      (s.plan.remainder ≠ 0 → s.remainderBody.cursor.layer = s.fullPass.layerTo) := by
  rw [remainderPass?] at h
  rw [remainderPasses]
  split at h
  next hzero =>
    obtain rfl := Except.ok.inj h
    rw [if_pos hzero]
    exact ⟨rfl, fun p hp => absurd hp (Option.not_mem_none p), fun hne => absurd hzero hne⟩
  next hne =>
    dsimp only at h
    split at h
    next hlayer =>
      obtain ⟨pass, hpass, rfl⟩ := map_eq_ok_iff.mp h
      obtain ⟨hstaged, rfl⟩ := Pass.staged_eq_ok_iff.mp hpass
      rw [if_neg hne]
      refine ⟨rfl, ?_, fun _ => hlayer⟩
      rintro p ⟨rfl⟩
      exact hstaged
    next => contradiction

/-- The passes of a schedule with the search that finds them, which stops at the depth of the
tree. -/
theorem search_of_make {hw : Hardware} {w : Workload} {s : Schedule} (h : make hw w = .ok s) :
    s.hardware = hw ∧ s.workload = w ∧ Plan.make hw w = .ok s.plan ∧
      ∃ rest, s.Made rest ∧
        reductionPasses s.hardware s.reducer s.plan.tiles s.plan.tree.depth s.fullPass.layerTo
          s.chunkSums = .ok rest := by
  rw [make] at h
  split at h
  · contradiction
  split at h
  · contradiction
  next plan hplan =>
    have hsound := Plan.sound_of_make hplan
    obtain ⟨-, _, remainder, rest, hfull, hremainder, hlt, hrest, hs⟩ :=
      ofPlan_eq_ok_iff.mp (mapError_eq_ok_iff.mp h)
    obtain ⟨hstaged, rfl⟩ := Pass.staged_eq_ok_iff.mp hfull
    obtain rfl : s.hardware = hw := by rw [← hs]
    obtain rfl : s.workload = w := by rw [← hs]
    obtain rfl : s.plan = plan := by rw [← hs]
    have hpasses : s.passes = s.fullPass :: remainder.toList ++ rest := congrArg passes hs.symm
    obtain ⟨hlist, hremainderStaged, hlayer⟩ := of_remainderPass?_eq_ok hremainder
    have hsums : s.chunkSums = s.plan.fullChunks * s.fullPass.sumsOut +
        remainder.elim 0 (·.sumsOut) := by
      rw [chunkSums, ← hlist]
      cases remainder <;> rfl
    rw [hlist] at hpasses
    refine ⟨rfl, rfl, hplan, rest, ⟨hsound, hstaged, ?_, hsums ▸ hlt, hpasses, hlayer, ?_⟩, ?_⟩
    · rw [← hlist]
      exact fun p hp => hremainderStaged p (Option.mem_toList.mp hp)
    · rw [hsums]
      exact reductionRun_of_reductionPasses (Nat.le_add_left _ _) hrest
    · rw [hsums]
      exact hrest

/-- **Every schedule is made in this way.** -/
theorem made_of_make {hw : Hardware} {w : Workload} {s : Schedule} (h : make hw w = .ok s) :
    s.hardware = hw ∧ s.workload = w ∧ ∃ rest, s.Made rest := by
  obtain ⟨hhardware, hworkload, -, rest, hmade, -⟩ := search_of_make h
  exact ⟨hhardware, hworkload, rest, hmade⟩

end Schedule

end NearMemory
