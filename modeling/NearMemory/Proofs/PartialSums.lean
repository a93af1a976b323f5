import NearMemory.Proofs.HardwareLimits

/-!
# Partial sums

No partial sum is lost on the way from the products to the dot product. A pass folds its sums in
groups, and every group is rounded up by itself, so the count may overshoot what the adder tree
expects, but never fall behind it. Sums in excess of the tree are left to the tail, and the last
pass always leaves exactly one.

The counts are exact. A register holds them all, since a schedule is not made otherwise, and from
the length of the dot product on they only ever shrink.

## Main definitions

* `Pass.groupSizes`, `Pass.sumsAt` — the groups of a pass, and the sums it has at a layer
* `sumsEntering` — the sums that enter a layer
* `FoldsToOne` — passes that fold a number of sums down to one

## Main results

* `ReductionRun.foldsToOne` — the passes behind the multiplies fold to one
* `ReductionRun.le_sumsEntering` — they never fall behind the adder tree
* `Schedule.make_conserves_sums` — partial sums along a schedule
-/

namespace NearMemory

namespace Pass

/-- The sums that a pass folds together: those of a chunk, or of a group. -/
def groupSizes (p : Pass) : List Nat :=
  match p.kind with
  | .chunk | .remainder => List.replicate p.executions p.sumsIn
  | .reduction groups size =>
    List.replicate (groups - 1) size ++ [p.sumsIn - (groups - 1) * size]
  | .tail => [p.sumsIn]

/-- The sums that all groups of a pass have when they reach a layer. -/
def sumsAt (p : Pass) (layer : Nat) : Nat :=
  (p.groupSizes.map (sumsAfter · (layer - p.layerFrom))).sum

/-- Whether a pass folds a layer. -/
def foldsLayer (p : Pass) (layer : Nat) : Bool := p.layerFrom ≤ layer && layer < p.layerTo

theorem foldsLayer_iff {p : Pass} {layer : Nat} :
    p.foldsLayer layer = true ↔ p.layerFrom ≤ layer ∧ layer < p.layerTo := by
  simp [foldsLayer]

end Pass

/-- The sums that enter a layer, in all passes that fold it. -/
def sumsEntering (passes : List Pass) (layer : Nat) : Nat :=
  ((passes.filter (·.foldsLayer layer)).map (·.sumsAt layer)).sum

/-- The passes fold a number of sums, from a layer on, down to one. A reduction starts at the layer
where the pass before it stopped and folds at least one more; it takes all sums that are left, and
leaves between what the layers leave of them and half of them. The tail comes last, when all layers
are folded. -/
inductive FoldsToOne (depth : Nat) : Nat → Nat → List Pass → Prop
  /-- One sum is left. -/
  | done {layer : Nat} : FoldsToOne depth layer 1 []
  /-- A reduction of all sums. -/
  | reduction {layer sums groups size : Nat} {p : Pass} {rest : List Pass}
    (hkind : p.kind = .reduction groups size) (hsums : p.sumsIn = sums)
    (hfrom : p.layerFrom = layer) (hlayer : layer < p.layerTo) (hdepth : p.layerTo ≤ depth)
    (hlow : ceilDiv sums (2 ^ (p.layerTo - layer)) ≤ p.sumsOut)
    (hhigh : p.sumsOut ≤ ceilDiv sums 2) (hrest : FoldsToOne depth p.layerTo p.sumsOut rest) :
    FoldsToOne depth layer sums (p :: rest)
  /-- The tail. -/
  | tail {sums : Nat} {p : Pass} (hkind : p.kind = .tail) (hsums : p.sumsIn = sums)
    (hlayers : p.layerFrom = depth ∧ p.layerTo = depth) (hone : p.sumsOut = 1) :
    FoldsToOne depth depth sums [p]

/-! ### Sums in groups -/

/-- Groups folded apart leave at least what they would leave together. -/
theorem sumsAfter_sum_le (sizes : List Nat) (layers : Nat) :
    sumsAfter sizes.sum layers ≤ (sizes.map (sumsAfter · layers)).sum := by
  induction sizes with
  | nil => exact sumsAfter_le _ _
  | cons size rest ih =>
    rw [List.sum_cons, List.map_cons, List.sum_cons]
    exact Nat.le_trans (sumsAfter_add_le size rest.sum layers) (Nat.add_le_add_left ih _)

/-- Full groups are even, so that only the last one is rounded up at the first layer. -/
theorem Grouping.Covers.sumsAfter_le {g : Grouping} {operands layers : Nat} (h : g.Covers operands)
    (hlayers : 1 ≤ layers) :
    (g.groups - 1) * sumsAfter g.size layers + sumsAfter (g.last operands) layers ≤
      ceilDiv operands 2 := by
  have hlast := h.add_last
  have hlastOut := sumsAfter_le_ceilDiv_two (n := g.last operands) hlayers
  by_cases hone : g.groups = 1
  · rw [hone, Nat.sub_self, Nat.zero_mul, Nat.zero_add] at hlast
    rw [hone, Nat.sub_self, Nat.zero_mul, Nat.zero_add]
    rwa [hlast] at hlastOut ⊢
  · have heven := h.size_even (Nat.lt_of_le_of_ne h.groups_pos (Ne.symm hone))
    obtain ⟨half, hhalf⟩ : ∃ half, g.size = 2 * half := ⟨g.size / 2, by omega⟩
    have hsizeOut : sumsAfter g.size layers ≤ half := by
      have hle := sumsAfter_le_ceilDiv_two (n := g.size) hlayers
      rw [ceilDiv_two] at hle
      omega
    have hgroups := Nat.mul_le_mul_left (g.groups - 1) hsizeOut
    have hfull : (g.groups - 1) * g.size = 2 * ((g.groups - 1) * half) := by
      rw [hhalf, Nat.mul_left_comm]
    rw [ceilDiv_two] at hlastOut ⊢
    omega

theorem sumsEntering_append (front back : List Pass) (layer : Nat) :
    sumsEntering (front ++ back) layer = sumsEntering front layer + sumsEntering back layer := by
  rw [sumsEntering, List.filter_append, List.map_append, List.sum_append]
  rfl

theorem sumsEntering_cons_of_folds {p : Pass} {layer : Nat} (h : p.foldsLayer layer = true)
    (rest : List Pass) :
    sumsEntering (p :: rest) layer = p.sumsAt layer + sumsEntering rest layer := by
  rw [sumsEntering, List.filter_cons, if_pos h, List.map_cons, List.sum_cons]
  rfl

theorem sumsEntering_le_cons (p : Pass) (rest : List Pass) (layer : Nat) :
    sumsEntering rest layer ≤ sumsEntering (p :: rest) layer := by
  rw [← List.singleton_append, sumsEntering_append]
  exact Nat.le_add_left _ _

/-! ### Reductions -/

section Reduction

variable {hw : Hardware} {r : Reducer} {l : TreeLayer} {tiles layer sums widest : Nat}

theorem sum_groupSizes_reductionPass (hwidest : WidestGroup hw r l sums widest) :
    (reductionPass hw r tiles layer sums l widest).groupSizes.sum = sums := by
  have hlast := hwidest.covers.add_last
  simp only [Pass.groupSizes, reductionPass, List.sum_append, List.sum_replicate_nat,
    List.sum_singleton]
  exact hlast

theorem sumsAt_reductionPass (hw : Hardware) (r : Reducer) (l : TreeLayer)
    (tiles layer sums widest reached : Nat) :
    (reductionPass hw r tiles layer sums l widest).sumsAt reached =
      ((Grouping.balanced sums widest).groups - 1) *
          sumsAfter (Grouping.balanced sums widest).size (reached - layer) +
        sumsAfter ((Grouping.balanced sums widest).last sums) (reached - layer) := by
  simp only [Pass.sumsAt, Pass.groupSizes, reductionPass, List.map_append, List.map_replicate,
    List.map_cons, List.map_nil, List.sum_append, List.sum_replicate_nat, List.sum_singleton]
  rfl

/-- The sums that a reduction leaves are those of its groups. -/
theorem sumsOut_reductionPass (hwidest : WidestGroup hw r l sums widest) (hhw : hw.WithinLimits)
    (hr : r.Sound hw) (hentries : Plan.reservedEntries ≤ hw.bufferEntries)
    (hl : r.layers[layer]? = some l) (tiles : Nat) :
    (reductionPass hw r tiles layer sums l widest).sumsOut =
      (reductionPass hw r tiles layer sums l widest).sumsAt
        (reductionPass hw r tiles layer sums l widest).layerTo := by
  have hoperands := (hwidest.sound_body hhw hr hentries hl).operands_eq
  rw [sumsAt_reductionPass]
  simp only [reductionPass]
  rw [hoperands]

theorem sumsAt_reductionPass_le (hwidest : WidestGroup hw r l sums widest)
    (hl : r.layers[layer]? = some l) (tiles : Nat) :
    (reductionPass hw r tiles layer sums l widest).sumsAt
      (reductionPass hw r tiles layer sums l widest).layerTo ≤ ceilDiv sums 2 := by
  have hlt := hwidest.layer_lt hl tiles
  rw [sumsAt_reductionPass]
  exact hwidest.covers.sumsAfter_le (by omega)

theorem le_sumsAt_reductionPass (hwidest : WidestGroup hw r l sums widest)
    (tiles layer reached : Nat) :
    sumsAfter sums (reached - layer) ≤
      (reductionPass hw r tiles layer sums l widest).sumsAt reached := by
  have hle := sumsAfter_sum_le (reductionPass hw r tiles layer sums l widest).groupSizes
    (reached - layer)
  rwa [sum_groupSizes_reductionPass hwidest] at hle

/-- **The passes fold to one.** -/
theorem ReductionRun.foldsToOne {passes : List Pass}
    (h : ReductionRun hw r tiles layer sums passes) (hhw : hw.WithinLimits) (hr : r.Sound hw)
    (hentries : Plan.reservedEntries ≤ hw.bufferEntries) (hpos : 0 < sums)
    (hlayer : layer ≤ r.layers.length) : FoldsToOne r.layers.length layer sums passes := by
  induction h with
  | done hsums =>
    obtain rfl : _ = 1 := Nat.le_antisymm hsums hpos
    exact .done
  | @reduction layer sums widest l rest _ hl hwidest _ _ ih =>
    have hout := sumsOut_reductionPass hwidest hhw hr hentries hl tiles
    have hlow := le_sumsAt_reductionPass hwidest tiles layer
      (reductionPass hw r tiles layer sums l widest).layerTo
    have hhigh := sumsAt_reductionPass_le hwidest hl tiles
    rw [← hout] at hlow hhigh
    have hdepth := WidestGroup.layerTo_le hl hw tiles sums widest
    refine .reduction rfl rfl rfl (hwidest.layer_lt hl tiles) hdepth ?_ hhigh (ih ?_ hdepth)
    · rw [← sumsAfter_eq_ceilDiv]
      exact hlow
    · exact Nat.lt_of_lt_of_le (sumsAfter_pos hpos _) hlow
  | tail _ hdepth htail =>
    obtain ⟨-, rfl, -⟩ := tailPass_eq_ok htail
    obtain rfl := Nat.le_antisymm hlayer hdepth
    exact .tail rfl rfl ⟨rfl, rfl⟩ rfl

/-- **Never behind the tree.** If the run starts with at least the sums that are left of `n` at its
first layer, every layer from there on is entered by at least as many as are left of `n`. -/
theorem ReductionRun.le_sumsEntering {passes : List Pass} {n i : Nat}
    (h : ReductionRun hw r tiles layer sums passes) (hhw : hw.WithinLimits) (hr : r.Sound hw)
    (hentries : Plan.reservedEntries ≤ hw.bufferEntries)
    (hmany : ∀ i < r.layers.length, 1 < sumsAfter n i) (hsums : sumsAfter n layer ≤ sums)
    (hle : layer ≤ i) (hlt : i < r.layers.length) : sumsAfter n i ≤ sumsEntering passes i := by
  -- sums that are left at one layer are left at the layers behind it, folded
  have hfolded : ∀ {j m : Nat}, sumsAfter n j ≤ m → j ≤ i →
      sumsAfter n i ≤ sumsAfter m (i - j) := by
    intro j m hm hj
    rw [← Nat.add_sub_cancel' hj, sumsAfter_add, Nat.add_sub_cancel_left]
    exact sumsAfter_mono hm _
  induction h with
  | done hone =>
    -- a layer that is still to be folded has more than one sum
    have htwo := hmany i hlt
    have hle' := Nat.le_trans (hfolded hsums hle) (sumsAfter_le _ _)
    omega
  | @reduction layer sums widest l rest _ hl hwidest _ _ ih =>
    by_cases hhead : i < (reductionPass hw r tiles layer sums l widest).layerTo
    · have hfolds : (reductionPass hw r tiles layer sums l widest).foldsLayer i = true :=
        Pass.foldsLayer_iff.mpr ⟨hle, hhead⟩
      rw [sumsEntering_cons_of_folds hfolds]
      have hat := le_sumsAt_reductionPass hwidest tiles layer i
      exact Nat.le_trans (Nat.le_trans (hfolded hsums hle) hat) (Nat.le_add_right _ _)
    · have hout := sumsOut_reductionPass hwidest hhw hr hentries hl tiles
      have hlow := le_sumsAt_reductionPass hwidest tiles layer
        (reductionPass hw r tiles layer sums l widest).layerTo
      have hlayer := hwidest.layer_lt hl tiles
      refine Nat.le_trans (ih ?_ (Nat.le_of_not_lt hhead)) (sumsEntering_le_cons _ _ _)
      rw [hout]
      refine Nat.le_trans ?_ hlow
      rw [← Nat.add_sub_cancel' (Nat.le_of_lt hlayer), sumsAfter_add, Nat.add_sub_cancel_left]
      exact sumsAfter_mono hsums _
  | tail _ hdepth _ => omega

end Reduction

/-! ### Schedules -/

namespace Schedule

variable {s : Schedule} {rest : List Pass}

namespace Made

theorem sumsOut_fullPass (h : s.Made rest) :
    s.fullPass.sumsOut = sumsAfter s.plan.chunk s.fullPass.layerTo :=
  h.sound_fullBody.operands_eq

theorem sumsOut_remainderPass (h : s.Made rest) (hne : s.plan.remainder ≠ 0) :
    s.remainderPass.sumsOut = sumsAfter s.plan.remainder s.fullPass.layerTo := by
  have hoperands := (h.sound_remainderBody hne).operands_eq
  rwa [h.remainder_layer hne] at hoperands

/-- The sums of all chunks, whether there is a remainder or not. -/
theorem chunkSums_eq (h : s.Made rest) :
    s.chunkSums = s.plan.fullChunks * sumsAfter s.plan.chunk s.fullPass.layerTo +
      sumsAfter s.plan.remainder s.fullPass.layerTo := by
  rw [chunkSums, remainderPasses, h.sumsOut_fullPass]
  split
  next hzero =>
    rw [hzero, Nat.le_zero.mp (sumsAfter_le 0 _)]
    rfl
  next hne => rw [List.map_singleton, List.sum_singleton, h.sumsOut_remainderPass hne]

theorem le_chunkSums (h : s.Made rest) :
    sumsAfter s.workload.n s.fullPass.layerTo ≤ s.chunkSums := by
  rw [h.chunkSums_eq, ← h.plan_sound.chunks_add_remainder]
  exact Nat.le_trans (sumsAfter_add_le _ _ _)
    (Nat.add_le_add_right (sumsAfter_mul_le _ _ _) _)

theorem chunkSums_le (h : s.Made rest) : s.chunkSums ≤ s.workload.n := by
  rw [h.chunkSums_eq, ← h.plan_sound.chunks_add_remainder]
  exact Nat.add_le_add (Nat.mul_le_mul_left _ (sumsAfter_le _ _)) (sumsAfter_le _ _)

theorem inputs_eq (h : s.Made rest) {i : Nat} {l : TreeLayer}
    (hl : s.plan.tree.layers[i]? = some l) :
    l.inputs = sumsAfter s.workload.n i ∧ 1 < l.inputs := by
  rw [h.plan_sound.layers_eq] at hl
  exact AdderTree.inputs_of_getElem? hl

/-- The layers that are folded with the multiplies are entered by the sums of all chunks. -/
theorem le_sumsEntering_chunks (h : s.Made rest) {i : Nat} (hi : i < s.fullPass.layerTo) :
    sumsAfter s.workload.n i ≤ sumsEntering (s.fullPass :: s.remainderPasses) i := by
  have hfull : s.fullPass.foldsLayer i = true := Pass.foldsLayer_iff.mpr ⟨Nat.zero_le i, hi⟩
  have hat : s.fullPass.sumsAt i = s.plan.fullChunks * sumsAfter s.plan.chunk i := by
    simp only [Pass.sumsAt, Pass.groupSizes, fullPass, chunkPass, List.map_replicate,
      List.sum_replicate_nat, Nat.sub_zero]
  have hremainder : sumsAfter s.plan.remainder i ≤ sumsEntering s.remainderPasses i := by
    rw [remainderPasses]
    split
    next hzero =>
      rw [hzero]
      exact Nat.le_trans (sumsAfter_le 0 _) (Nat.zero_le _)
    next hne =>
      have hlayer : i < s.remainderBody.cursor.layer := by
        rwa [h.remainder_layer hne]
      have hfolds : s.remainderPass.foldsLayer i = true :=
        Pass.foldsLayer_iff.mpr ⟨Nat.zero_le i, hlayer⟩
      rw [sumsEntering_cons_of_folds hfolds]
      refine Nat.le_trans (Nat.le_of_eq ?_) (Nat.le_add_right _ _)
      simp only [Pass.sumsAt, Pass.groupSizes, remainderPass, chunkPass, List.replicate_one,
        List.map_singleton, List.sum_singleton, Nat.sub_zero]
  rw [sumsEntering_cons_of_folds hfull, hat, ← h.plan_sound.chunks_add_remainder]
  exact Nat.le_trans (sumsAfter_add_le _ _ _) (Nat.add_le_add (sumsAfter_mul_le _ _ _) hremainder)

theorem inputs_le_sumsEntering (h : s.Made rest) {i : Nat} {l : TreeLayer}
    (hl : s.plan.tree.layers[i]? = some l) : l.inputs ≤ sumsEntering s.passes i := by
  rw [(h.inputs_eq hl).1, h.passes_eq, sumsEntering_append]
  by_cases hi : i < s.fullPass.layerTo
  · exact Nat.le_trans (h.le_sumsEntering_chunks hi) (Nat.le_add_right _ _)
  · have hmany : ∀ j < s.reducer.layers.length, 1 < sumsAfter s.workload.n j := by
      intro j hj
      obtain ⟨heq, htwo⟩ := h.inputs_eq (List.getElem?_eq_getElem hj)
      rwa [heq] at htwo
    have hrest := h.reduction_run.le_sumsEntering h.plan_sound.limits h.plan_sound.sound_reducer
      h.plan_sound.reservedEntries_le hmany h.le_chunkSums
      (Nat.le_of_not_lt hi) (List.getElem?_eq_some_iff.mp hl).1
    exact Nat.le_trans hrest (Nat.le_add_left _ _)

theorem foldsToOne_chunkSums (h : s.Made rest) :
    FoldsToOne s.plan.tree.depth s.fullPass.layerTo s.chunkSums rest := by
  have hpos : 0 < s.chunkSums :=
    Nat.lt_of_lt_of_le (sumsAfter_pos h.plan_sound.n_pos _) h.le_chunkSums
  exact h.reduction_run.foldsToOne h.plan_sound.limits h.plan_sound.sound_reducer
    h.plan_sound.reservedEntries_le hpos (Body.layer_ofChunk_le _ _ _ _ _)

end Made

/-- **No partial sum is lost.** A schedule starts with the full chunks, and with the remainder if
something remains; between them they take up the dot product and reach the same layer. The other
passes fold the sums that the chunks leave, all of them, down to one. On the way every layer of the
adder tree is entered by at least the sums that the tree expects there. -/
theorem make_conserves_sums {hw : Hardware} {w : Workload} {s : Schedule} (h : make hw w = .ok s) :
    ∃ (chunk : Pass) (remainder? : Option Pass) (rest : List Pass),
      s.passes = chunk :: remainder?.toList ++ rest ∧
      chunk.kind = .chunk ∧ chunk.layerFrom = 0 ∧
      (remainder?.isSome ↔ 0 < s.plan.remainder) ∧
      (∀ p ∈ remainder?, p.kind = .remainder ∧ p.layerFrom = 0 ∧ p.layerTo = chunk.layerTo) ∧
      s.plan.fullChunks * chunk.sumsIn + remainder?.elim 0 (·.sumsIn) = w.n ∧
      FoldsToOne s.plan.tree.depth chunk.layerTo
        (s.plan.fullChunks * chunk.sumsOut + remainder?.elim 0 (·.sumsOut)) rest ∧
      ∀ i l, s.plan.tree.layers[i]? = some l → l.inputs ≤ sumsEntering s.passes i := by
  obtain ⟨rfl, rfl, rest, hmade⟩ := made_of_make h
  have hpasses := hmade.passes_eq
  have hfolds := hmade.foldsToOne_chunkSums
  have hwhole := hmade.plan_sound.chunks_add_remainder
  rw [remainderPasses] at hpasses
  rw [chunkSums, remainderPasses] at hfolds
  by_cases hzero : s.plan.remainder = 0
  · rw [if_pos hzero] at hpasses hfolds
    rw [hzero] at hwhole
    refine ⟨s.fullPass, none, rest, hpasses, rfl, rfl, ?_, ?_, hwhole, hfolds, ?_⟩
    · simp [hzero]
    · rintro p ⟨⟩
    · exact fun i l => hmade.inputs_le_sumsEntering
  · rw [if_neg hzero] at hpasses hfolds
    refine ⟨s.fullPass, some s.remainderPass, rest, hpasses, rfl, rfl, ?_, ?_, hwhole, hfolds, ?_⟩
    · simpa using Nat.pos_of_ne_zero hzero
    · rintro p ⟨⟩
      exact ⟨rfl, rfl, hmade.remainder_layer hzero⟩
    · exact fun i l => hmade.inputs_le_sumsEntering

/-- The full chunks and the remainder leave three sums where the tree expects two, and the tail
takes care of the one in excess. -/
theorem make_conserves_sums_with_tail :
    ∃ s, make { storeEntries := 6 } { m := 2, n := 13, q := 8, digitLength := 2 } = .ok s ∧
      s.passes.map (·.kind) = [.chunk, .remainder, .reduction 1 3, .tail] ∧
      ∃ (chunk : Pass) (remainder? : Option Pass) (rest : List Pass),
        s.passes = chunk :: remainder?.toList ++ rest ∧
        FoldsToOne s.plan.tree.depth chunk.layerTo
          (s.plan.fullChunks * chunk.sumsOut + remainder?.elim 0 (·.sumsOut)) rest := by
  have hkinds : (make { storeEntries := 6 }
      { m := 2, n := 13, q := 8, digitLength := 2 }).toOption.map (·.passes.map (·.kind)) =
        some [.chunk, .remainder, .reduction 1 3, .tail] := by
    decide +kernel
  obtain ⟨s, hs, hkinds⟩ := Option.map_eq_some_iff.mp hkinds
  have hok := toOption_eq_some_iff.mp hs
  obtain ⟨chunk, remainder?, rest, hpasses, -, -, -, -, -, hfolds, -⟩ :=
    make_conserves_sums hok
  exact ⟨s, hok, hkinds, chunk, remainder?, rest, hpasses, hfolds⟩

end Schedule

end NearMemory
