import NearMemory.Proofs.ChunkSizes
import NearMemory.Proofs.FoldedSums
import NearMemory.Proofs.LargestChunk
import NearMemory.Proofs.ReductionLoop
import NearMemory.Proofs.WidthGrowth

/-!
# Reductions on the stock hardware

The adder tree of a workload has as many layers as its products can be halved, and a schedule folds
them in passes. Where a pass folds several groups by more than one layer, each group rounds up for
itself, so that more sums can be left than the tree provides for: twelve sums in two groups of six
leave four after two layers, not three. If that happened too often the layers would be used up
before the sums are, and a tail would have to add what is left.

On the stock hardware it does not happen, for products of eight bits. The sums at a layer never
exceed what the layers ahead can add up to one, which is two to the number of these layers
(`Reducer.Stock.sumsOut_le`). The argument is one of cost. From the second layer on a packet takes
two words or three, so the instruction buffer has no room for two layers of ten sums
(`Reducer.Stock.size_le_nine`), while groups of eight can always be folded by one layer
(`Reducer.Stock.widestGroup_eight`). Groups that are folded by more than one layer are then of
eight sums at most, and there are no more of them than there would be groups of eight.

## Main definitions

* `Reducer.layerCost` — the operations of a layer
* `Reducer.Stock` — the reducers of the stock hardware

## Main results

* `Reducer.two_le_sumsAfter_of_lt_layer` — a run never folds a lone sum
* `Reducer.Stock.sumsOut_le` — one reduction keeps up with the tree
* `Reducer.Stock.reductionPasses_cases` — the search for reductions never fails, but may overflow
* `Reducer.Stock.kind_ne_tail` — the layers never run out
-/

namespace NearMemory

/-! ### The cost of a run -/

namespace Reducer

variable {r : Reducer} {l : TreeLayer} {budget : Nat} {f : Folding}

/-- The operations that a layer takes for the given number of sums. -/
def layerCost (r : Reducer) (l : TreeLayer) (sums : Nat) : Nat :=
  sums / 2 * (r.packetIn l * 3 + r.packetOut l) + sums % 2 * (r.packetIn l + r.packetOut l)

theorem size_of_foldLayer? {packets : List Packet} {half : Nat} {folded : FoldedLayer}
    (hl : l.Sound) (h : r.foldLayer? l packets half = some folded) :
    folded.size = r.layerCost l packets.length := by
  rw [foldLayer?_eq, Option.ite_none_left_eq_some] at h
  obtain rfl := Option.some.inj h.2
  exact size_dealLayer hl _ _ _

/-- A layer whose packets have at least the given number of words on either side. -/
theorem le_layerCost {packet : Nat} (hin : packet ≤ r.packetIn l) (hout : packet ≤ r.packetOut l)
    (sums : Nat) :
    sums / 2 * (packet * 4) + sums % 2 * (packet * 2) ≤ r.layerCost l sums :=
  Nat.add_le_add (Nat.mul_le_mul_left _ (by omega)) (Nat.mul_le_mul_left _ (by omega))

/-- A layer whose packets have at most the given number of words on either side. -/
theorem layerCost_le {packet : Nat} (hin : r.packetIn l ≤ packet) (hout : r.packetOut l ≤ packet)
    (sums : Nat) :
    r.layerCost l sums ≤ sums / 2 * (packet * 4) + sums % 2 * (packet * 2) :=
  Nat.add_le_add (Nat.mul_le_mul_left _ (by omega)) (Nat.mul_le_mul_left _ (by omega))

/-- Without a limit, folding stops here or adds two sums or more. -/
theorem foldLayers_none_cases (r : Reducer) (budget : Nat) (l : TreeLayer)
    (rest : List TreeLayer) (f : Folding) :
    (r.foldLayers budget none (l :: rest) f).1 = f ∨
      ∃ folded, 2 ≤ f.packets.length ∧ r.foldLayer? l f.packets f.cursor.half = some folded ∧
        f.cursor.issued + folded.size ≤ budget ∧
        r.foldLayers budget none (l :: rest) f =
          r.foldLayers budget none rest (f.advance folded) := by
  by_cases hfew : f.packets.length ≤ 1
  · left
    have hnothing : f.packets.isEmpty ∨ f.packets.length = 1 := by
      rw [List.isEmpty_iff_length_eq_zero]
      omega
    rw [foldLayers, if_neg (by simp), if_pos (by simpa using hnothing)]
  · rcases foldLayers_cons_cases r budget none l rest f with hstop | ⟨folded, hfold⟩
    · exact .inl hstop
    · exact .inr ⟨folded, Nat.lt_of_not_le hfew, hfold⟩

/-- **A run never folds a lone sum.** Before the last layer that it folds there are two sums. By
induction on the layers that are left. -/
theorem two_le_sumsAfter_of_lt_layer (layers : List TreeLayer)
    (h : f.cursor.layer < (r.foldLayers budget none layers f).1.cursor.layer) :
    2 ≤ sumsAfter f.packets.length
      ((r.foldLayers budget none layers f).1.cursor.layer - f.cursor.layer - 1) := by
  induction layers generalizing f with
  | nil => exact absurd h (Nat.lt_irrefl _)
  | cons l rest ih =>
    rcases foldLayers_none_cases r budget l rest f with hstop | ⟨folded, hmany, hfold, -, hrun⟩
    · rw [hstop] at h
      exact absurd h (Nat.lt_irrefl _)
    · rw [hrun] at h ⊢
      rw [layers_foldLayers_advance, Nat.add_sub_cancel]
      rcases Nat.eq_or_lt_of_le (le_layer_foldLayers r budget none rest (f.advance folded)) with
        hlast | hlt
      · rwa [← hlast, Nat.sub_self, sumsAfter_zero]
      · have hnext := ih hlt
        rwa [show (f.advance folded).packets = folded.packets from rfl,
          length_packets_of_foldFrom? hfold, ← sumsAfter, Nat.succ_eq_add_one,
          Nat.sub_add_cancel (by omega)] at hnext

/-- A run that folds a layer has the budget for it. -/
theorem issued_add_layerCost_le (hl : l.Sound) (rest : List TreeLayer)
    (h : f.cursor.layer < (r.foldLayers budget none (l :: rest) f).1.cursor.layer) :
    f.cursor.issued + r.layerCost l f.packets.length ≤ budget := by
  rcases foldLayers_none_cases r budget l rest f with hstop | ⟨folded, -, hfold, hbudget, -⟩
  · rw [hstop] at h
    exact absurd h (Nat.lt_irrefl _)
  · rwa [size_of_foldLayer? hl hfold] at hbudget

/-- A run that folds two layers has the budget for both. -/
theorem issued_add_two_layerCost_le {l' : TreeLayer} (hl : l.Sound) (hl' : l'.Sound)
    (rest : List TreeLayer)
    (h : f.cursor.layer + 1 < (r.foldLayers budget none (l :: l' :: rest) f).1.cursor.layer) :
    f.cursor.issued + r.layerCost l f.packets.length +
      r.layerCost l' (ceilDiv f.packets.length 2) ≤ budget := by
  rcases foldLayers_none_cases r budget l (l' :: rest) f with hstop | ⟨folded, -, hfold, -, hrun⟩
  · rw [hstop] at h
    omega
  · rw [hrun] at h
    have hnext := issued_add_layerCost_le (f := f.advance folded) hl' rest h
    rwa [show (f.advance folded).cursor.issued = f.cursor.issued + folded.size from rfl,
      show (f.advance folded).packets = folded.packets from rfl, size_of_foldLayer? hl hfold,
      length_packets_of_foldFrom? hfold] at hnext

end Reducer

/-! ### Stock reducers -/

namespace Subword

theorem wordsPerPacket_eight_le {width : Nat} (h : width ∈ ladder) :
    wordsPerPacket 8 width ≤ 3 := by
  revert width
  decide

theorem wordsPerPacket_eight_pos {width : Nat} (h : width ∈ ladder) :
    0 < wordsPerPacket 8 width := by
  revert width
  decide

theorem two_le_wordsPerPacket_eight {width : Nat} (h : width ∈ ladder) (hlt : 8 < width) :
    2 ≤ wordsPerPacket 8 width := by
  revert width
  decide

end Subword

/-- The reducers of the stock hardware for products of eight bits. The first layer makes the sums
wider, so that a packet takes two words or three from there on. -/
structure Reducer.Stock (r : Reducer) : Prop where
  sound : r.Sound {}
  initial_eq : r.initial = 8
  lt_widthOut : ∀ (i : Nat) (l : TreeLayer), r.layers[i]? = some l → 8 < l.widthOut

namespace Reducer.Stock

variable {r : Reducer} {l : TreeLayer} {i : Nat}

theorem sound_layer (h : r.Stock) (hl : r.layers[i]? = some l) : l.Sound :=
  h.sound.widthChain.sound hl

theorem packetIn_le (h : r.Stock) (hl : r.layers[i]? = some l) : r.packetIn l ≤ 3 := by
  rw [Reducer.packetIn, h.initial_eq]
  exact Subword.wordsPerPacket_eight_le (h.sound_layer hl).widthIn_mem

theorem packetIn_pos (h : r.Stock) (hl : r.layers[i]? = some l) : 0 < r.packetIn l := by
  rw [Reducer.packetIn, h.initial_eq]
  exact Subword.wordsPerPacket_eight_pos (h.sound_layer hl).widthIn_mem

theorem packetOut_le (h : r.Stock) (hl : r.layers[i]? = some l) : r.packetOut l ≤ 3 := by
  rw [Reducer.packetOut, h.initial_eq]
  exact Subword.wordsPerPacket_eight_le (h.sound_layer hl).widthOut_mem

theorem two_le_packetOut (h : r.Stock) (hl : r.layers[i]? = some l) : 2 ≤ r.packetOut l := by
  rw [Reducer.packetOut, h.initial_eq]
  exact Subword.two_le_wordsPerPacket_eight (h.sound_layer hl).widthOut_mem (h.lt_widthOut i l hl)

/-- Behind the first layer a layer takes what the one before leaves. -/
theorem two_le_packetIn (h : r.Stock) (hl : r.layers[i]? = some l) (hi : 1 ≤ i) :
    2 ≤ r.packetIn l := by
  obtain ⟨j, rfl⟩ := Nat.exists_eq_add_of_le' hi
  have hwidth := h.sound.widthChain.getElem?_widths hl
  rw [List.getElem?_cons_succ, List.getElem?_map] at hwidth
  obtain ⟨before, hbefore, hin⟩ := Option.map_eq_some_iff.mp hwidth
  rw [Reducer.packetIn, h.initial_eq, ← hin]
  exact Subword.two_le_wordsPerPacket_eight (h.sound_layer hbefore).widthOut_mem
    (h.lt_widthOut j before hbefore)

end Reducer.Stock

theorem Workload.stock_reducer {w : Workload} (h : w.subwordWidth = 8) : (w.reducer {}).Stock := by
  have hmem : w.subwordWidth ∈ Subword.ladder := by
    rw [h]
    decide
  refine ⟨⟨rfl, hmem, AdderTree.widthChain_layersFrom hmem⟩, h, ?_⟩
  intro i l hl
  obtain ⟨⟨-, hmin⟩, -⟩ := AdderTree.isLeast_widthOut hmem hl
  rw [h, Subword.widest] at hmin
  omega

/-! ### One reduction -/

theorem bodyBudget_stock : bodyBudget {} = 59 := by decide

theorem withinLimits_stock : ({} : Hardware).WithinLimits :=
  Hardware.withinLimits_of_violation? (by decide)

section Reduction

variable {r : Reducer} {l : TreeLayer} {layer size sums widest : Nat}

/-- The state of folding behind the row reads of a group. -/
def Folding.ofGroup (layer size packet : Nat) : Folding where
  cursor := { layer, issued := 2, operands := size }
  packets := loadedPackets size packet

theorem Folding.length_packets_ofGroup (layer size packet : Nat) :
    (ofGroup layer size packet).packets.length = size :=
  length_loadedPackets size packet

theorem Body.cursor_ofReduction (hw : Hardware) (r : Reducer) (layer size packet : Nat) :
    (Body.ofReduction hw r layer size packet).cursor =
      (r.foldLayers (bodyBudget hw) none (r.layers.drop layer)
        (.ofGroup layer size packet)).1.cursor := rfl

/-- A group folds no more layers than it takes to make one sum of it. -/
theorem Body.layer_ofReduction_le {layers : Nat} (hw : Hardware) (r : Reducer) (layer packet : Nat)
    (hsize : size ≤ 2 ^ layers) :
    (Body.ofReduction hw r layer size packet).cursor.layer ≤ layer + layers := by
  rw [cursor_ofReduction]
  by_contra hlt
  rw [Nat.not_le] at hlt
  have htwo := Reducer.two_le_sumsAfter_of_lt_layer (f := .ofGroup layer size packet)
    (r.layers.drop layer) (Nat.lt_of_le_of_lt (Nat.le_add_right layer layers) hlt)
  rw [Folding.length_packets_ofGroup] at htwo
  refine absurd htwo (Nat.not_le.mpr (Nat.lt_succ_of_le ?_))
  rw [sumsAfter_le_iff, Nat.one_mul]
  refine Nat.le_trans hsize (Nat.pow_le_pow_right Nat.two_pos ?_)
  rw [show (Folding.ofGroup layer size packet).cursor.layer = layer from rfl]
  omega

/-- Ten sums are too many for two layers. -/
theorem Reducer.Stock.size_le_nine (h : r.Stock) (hl : r.layers[layer]? = some l)
    (hlayer : 1 ≤ layer)
    (hreached : layer + 1 < (Body.ofReduction {} r layer size (r.packetIn l)).cursor.layer) :
    size ≤ 9 := by
  rw [Body.cursor_ofReduction, bodyBudget_stock] at hreached
  have hsound := h.sound_layer hl
  have hcost := Reducer.le_layerCost (h.two_le_packetIn hl hlayer) (h.two_le_packetOut hl) size
  obtain ⟨hlt, rfl⟩ := List.getElem?_eq_some_iff.mp hl
  rw [List.drop_eq_getElem_cons hlt] at hreached
  cases hrest : r.layers.drop (layer + 1) with
  | nil =>
    rw [hrest] at hreached
    exact absurd hreached (Nat.not_lt.mpr (Reducer.layer_foldLayers_le _ _ _ _ _))
  | cons l' rest =>
    have hl' : r.layers[layer + 1]? = some l' := by
      rw [← List.head?_drop, hrest, List.head?_cons]
    rw [hrest] at hreached
    have hbudget := Reducer.issued_add_two_layerCost_le
      (f := .ofGroup layer size (r.packetIn r.layers[layer])) hsound (h.sound_layer hl') rest
      hreached
    have hcost' := Reducer.le_layerCost (h.two_le_packetIn hl' (by omega)) (h.two_le_packetOut hl')
      (ceilDiv size 2)
    rw [Folding.length_packets_ofGroup,
      show (Folding.ofGroup layer size _).cursor.issued = 2 from rfl, ceilDiv_two] at hbudget
    rw [ceilDiv_two] at hcost'
    omega

/-- The search finds a group that is no smaller than any that fits. -/
theorem WidestGroup.exists_widestGroup? {hw : Hardware} {c : Nat} (h : WidestGroup hw r l sums c) :
    ∃ widest, widestGroup? hw r l sums = some widest ∧ c ≤ widest := by
  obtain ⟨folded, hfolded, hbudget⟩ := h.folds
  refine exists_le_greatest? (Nat.lt_of_lt_of_le Nat.two_pos h.two_le)
    (Nat.le_min.mpr ⟨h.le_operands, h.le_half⟩) ?_
  simp only [hfolded, Option.any_some, Bool.and_eq_true, Bool.or_eq_true, decide_eq_true_iff,
    beq_iff_eq]
  exact ⟨⟨h.two_le, h.even⟩, hbudget⟩

/-- Groups of eight sums can be folded by any layer. -/
theorem Reducer.Stock.widestGroup_eight (h : r.Stock) (hl : r.layers[layer]? = some l)
    (hsums : 2 ≤ sums) : WidestGroup {} r l sums (min sums 8) := by
  have hin := h.packetIn_le hl
  have hout := h.packetOut_le hl
  have hhalf : 16 / 3 ≤ ({} : Hardware).wordsPerHalf / r.packetIn l :=
    Nat.div_le_div_left hin (h.packetIn_pos hl)
  have hroom : ¬ r.wordsPerHalf < ceilDiv (ceilDiv (min sums 8) 2) 2 * r.packetOut l := by
    have hresults : ceilDiv (ceilDiv (min sums 8) 2) 2 ≤ 2 := by
      rw [ceilDiv_two, ceilDiv_two]
      omega
    have hwords : ceilDiv (ceilDiv (min sums 8) 2) 2 * r.packetOut l ≤ 2 * 3 :=
      Nat.mul_le_mul hresults hout
    rw [h.sound.wordsPerHalf_eq, show ({} : Hardware).wordsPerHalf = 16 from rfl]
    omega
  have hcost := Reducer.layerCost_le hin hout (min sums 8)
  refine ⟨by omega, Nat.min_le_left _ _, by omega, by omega, ?_⟩
  rw [Reducer.foldLayer?_eq, length_loadedPackets, if_neg hroom, bodyBudget_stock]
  refine ⟨_, rfl, ?_⟩
  rw [Reducer.size_dealLayer (h.sound_layer hl), length_loadedPackets, ← Reducer.layerCost]
  omega

/-- Several groups are few enough for groups of eight. -/
theorem groups_mul_eight_le {layers : Nat} (hsums : sums ≤ 2 ^ layers) (hwidest : 8 ≤ widest)
    (hseveral : 1 < ceilDiv sums widest) : ceilDiv sums widest * 8 ≤ 2 ^ layers := by
  rw [lt_ceilDiv_iff (by omega)] at hseveral
  have hlayers : 3 < layers := by
    rw [← Nat.pow_lt_pow_iff_right Nat.one_lt_two]
    omega
  obtain ⟨more, rfl⟩ := Nat.exists_eq_add_of_le (Nat.le_of_lt hlayers)
  have hgroups : ceilDiv sums widest ≤ 2 ^ more := by
    rw [ceilDiv_le_iff (by omega)]
    calc sums ≤ 2 ^ (3 + more) := hsums
      _ = 2 ^ more * 8 := by rw [Nat.pow_add, Nat.mul_comm]
      _ ≤ 2 ^ more * widest := Nat.mul_le_mul_left _ hwidest
  calc ceilDiv sums widest * 8 ≤ 2 ^ more * 8 := Nat.mul_le_mul_right 8 hgroups
    _ = 2 ^ (3 + more) := by rw [Nat.pow_add, Nat.mul_comm]

/-- Groups of at most eight sums, folded by three layers at most. -/
theorem Grouping.Covers.sumsAfter_le_of_small {g : Grouping} {layers more : Nat}
    (h : g.Covers sums) (hsize : g.size ≤ 8) (hlayers : layers ≤ 3)
    (hgroups : g.groups * 8 ≤ 2 ^ (layers + more)) :
    (g.groups - 1) * sumsAfter g.size layers + sumsAfter (g.last sums) layers ≤ 2 ^ more := by
  have height : 2 ^ (3 - layers) * 2 ^ layers = 8 := by
    rw [← Nat.pow_add, Nat.sub_add_cancel hlayers]
  have hfull : sumsAfter g.size layers ≤ 2 ^ (3 - layers) := by
    rw [sumsAfter_le_iff, height]
    exact hsize
  have hlast : sumsAfter (g.last sums) layers ≤ 2 ^ (3 - layers) := by
    refine Nat.le_trans (sumsAfter_mono ?_ layers) hfull
    have hcovers := h.operands_le
    obtain ⟨others, hothers⟩ := Nat.exists_eq_add_of_le' h.groups_pos
    rw [hothers, Nat.succ_mul] at hcovers
    rw [Grouping.last, hothers, Nat.add_sub_cancel]
    omega
  have hsum : (g.groups - 1) * sumsAfter g.size layers + sumsAfter (g.last sums) layers ≤
      g.groups * 2 ^ (3 - layers) := by
    calc _ ≤ (g.groups - 1) * 2 ^ (3 - layers) + 2 ^ (3 - layers) :=
          Nat.add_le_add (Nat.mul_le_mul_left _ hfull) hlast
      _ = g.groups * 2 ^ (3 - layers) := by
          rw [← Nat.succ_mul, Nat.succ_eq_add_one, Nat.sub_add_cancel h.groups_pos]
  refine Nat.le_trans hsum (Nat.le_of_mul_le_mul_right ?_ (Nat.two_pow_pos layers))
  rwa [Nat.mul_assoc, height, ← Nat.pow_add, Nat.add_comm more]

/-- **One reduction keeps up with the tree.** Sums that the layers ahead would add up to one are
left as such, whatever the number of layers that the reduction folds: groups that are not folded as
one are even, and if they are folded by more than one layer they have eight sums at most. -/
theorem Reducer.Stock.sumsOut_le (h : r.Stock) (hl : r.layers[layer]? = some l) (hlayer : 1 ≤ layer)
    (hsums : 2 ≤ sums) (hfew : sums ≤ 2 ^ (r.layers.length - layer))
    (hwidest : widestGroup? {} r l sums = some widest) (tiles : Nat) :
    (reductionPass {} r tiles layer sums l widest).sumsOut ≤
      2 ^ (r.layers.length - (reductionPass {} r tiles layer sums l widest).layerTo) := by
  have hgroup := widestGroup_of_widestGroup? hwidest
  obtain ⟨widest', hwidest', hmin⟩ := (h.widestGroup_eight hl hsums).exists_widestGroup?
  obtain rfl := Option.some.inj (hwidest.symm.trans hwidest')
  have hcovers := hgroup.covers
  have hhalved := sumsAt_reductionPass_le hgroup hl tiles
  rw [sumsOut_reductionPass hgroup withinLimits_stock h.sound (by decide) hl tiles]
  have hlt := hgroup.layer_lt hl tiles
  have hdepth := WidestGroup.layerTo_le hl {} tiles sums widest
  obtain ⟨layers, hlayers⟩ := Nat.exists_eq_add_of_le (Nat.le_of_lt hlt)
  obtain ⟨more, hmore⟩ := Nat.exists_eq_add_of_le hdepth
  rw [hmore, hlayers, Nat.add_assoc, Nat.add_sub_cancel_left] at hfew
  rw [hmore, Nat.add_sub_cancel_left]
  by_cases hone : layers = 1
  · -- one layer halves the sums
    subst hone
    refine Nat.le_trans hhalved ?_
    rwa [ceilDiv_le_iff Nat.two_pos, ← Nat.pow_succ, Nat.succ_eq_add_one, Nat.add_comm]
  rw [sumsAt_reductionPass, hlayers, Nat.add_sub_cancel_left]
  by_cases hseveral : 1 < (Grouping.balanced sums widest).groups
  · -- several groups, folded by more than one layer
    have hnine : (Grouping.balanced sums widest).size ≤ 9 :=
      h.size_le_nine hl hlayer
        (show layer + 1 < (reductionPass {} r tiles layer sums l widest).layerTo by omega)
    have heven := hcovers.size_even hseveral
    have hsize : (Grouping.balanced sums widest).size ≤ 2 ^ 3 := by omega
    have hthree : (reductionPass {} r tiles layer sums l widest).layerTo ≤ layer + 3 :=
      Body.layer_ofReduction_le {} r layer _ hsize
    have height : 8 ≤ widest := by
      have hbelow := hseveral
      rw [show (Grouping.balanced sums widest).groups = ceilDiv sums widest from rfl,
        lt_ceilDiv_iff (by have := hgroup.two_le; omega)] at hbelow
      omega
    exact hcovers.sumsAfter_le_of_small hsize (by omega) (groups_mul_eight_le hfew height hseveral)
  · -- one group is folded as the tree folds it
    have hsingle : (Grouping.balanced sums widest).groups = 1 := by
      have hpos := hcovers.groups_pos
      omega
    rw [Grouping.last, hsingle, Nat.sub_self, Nat.zero_mul, Nat.zero_mul, Nat.zero_add,
      Nat.sub_zero, sumsAfter_le_iff, ← Nat.pow_add, Nat.add_comm more]
    exact hfew

end Reduction

/-! ### The reductions in turn -/

section Search

variable {r : Reducer} {tiles limit layer sums : Nat}

/-- The stock hardware has addresses, so only the repetitions of a pass can overflow. -/
theorem Pass.canStage_stock_iff {p : Pass} : p.canStage {} = true ↔ p.iterations < UInt64.size := by
  rw [Pass.canStage_iff]
  exact and_iff_left (.inr (by decide))

/-- There are no more groups than sums. -/
theorem WidestGroup.groups_le {hw : Hardware} {l : TreeLayer} {widest : Nat}
    (h : WidestGroup hw r l sums widest) : (Grouping.balanced sums widest).groups ≤ sums := by
  have hpos : 0 < widest := Nat.lt_of_lt_of_le (by decide) h.two_le
  exact (ceilDiv_le_iff hpos).mpr (Nat.le_mul_of_pos_right sums hpos)

/-- A sum that is left in the end takes three words at most. -/
theorem Reducer.Stock.resultPacket_le (h : r.Stock) :
    Subword.wordsPerPacket r.initial ((AdderTree.mk r.layers).resultWidth r.initial) ≤ 3 := by
  have hmem := h.sound.widthChain.resultWidth_mem h.sound.initial_mem
  rw [h.initial_eq] at hmem ⊢
  exact Subword.wordsPerPacket_eight_le hmem

/-- The tail always fits the instruction buffer, so it can only overflow. -/
theorem Reducer.Stock.tailPass_cases (h : r.Stock) (tiles sums : Nat) :
    (∃ passes, (tailPass {} r tiles sums).map ([·]) = .ok passes) ∨
      (UInt64.size ≤ tiles * sums ∧ (tailPass {} r tiles sums).map ([·]) = .error .overflow) := by
  have hpacket := h.resultPacket_le
  have hentries : ¬ ({} : Hardware).bufferEntries <
      4 * Subword.wordsPerPacket r.initial ((AdderTree.mk r.layers).resultWidth r.initial) + 4 := by
    show ¬ 64 < _
    omega
  simp only [tailPass, if_neg hentries, Pass.staged]
  split
  · exact .inl ⟨_, rfl⟩
  next hstaged =>
    rw [Pass.canStage_stock_iff, Nat.not_lt] at hstaged
    exact .inr ⟨Nat.le_trans hstaged (Nat.mul_le_mul_left tiles (Nat.sub_le sums 1)), rfl⟩

/-- **The search never fails.** There is always a group that can be folded by one layer. There are
no more groups than sums, so it overflows only if the sums of all tiles do. -/
theorem Reducer.Stock.reductionPasses_cases (h : r.Stock) (tiles limit layer sums : Nat) :
    (∃ passes, reductionPasses {} r tiles limit layer sums = .ok passes) ∨
      (UInt64.size ≤ tiles * sums ∧
        reductionPasses {} r tiles limit layer sums = .error .overflow) := by
  induction limit generalizing layer sums with
  | zero =>
    unfold reductionPasses
    split
    · exact .inl ⟨_, rfl⟩
    · exact h.tailPass_cases tiles sums
  | succ limit ih =>
    rcases Nat.lt_or_ge 1 sums with hmany | hfew
    · cases hl : r.layers[layer]? with
      | none =>
        rw [reductionPasses_of_spent hmany (List.getElem?_eq_none_iff.mp hl)]
        exact h.tailPass_cases tiles sums
      | some l =>
        obtain ⟨widest, hwidest, -⟩ := (h.widestGroup_eight hl hmany).exists_widestGroup?
        have hgroup := widestGroup_of_widestGroup? hwidest
        have hstep := hgroup.reductionStep withinLimits_stock h.sound (by decide) hl tiles
        by_cases hstaged : (reductionPass {} r tiles layer sums l widest).canStage {} = true
        · rw [reductionPasses_of_some hmany hl hwidest hstaged]
          rcases ih (reductionPass {} r tiles layer sums l widest).layerTo
            (reductionPass {} r tiles layer sums l widest).sumsOut with
            ⟨rest, hrest⟩ | ⟨hlarge, hrest⟩
          · exact .inl ⟨_, by rw [hrest]; rfl⟩
          · refine .inr ⟨?_, by rw [hrest]; rfl⟩
            exact Nat.le_trans hlarge (Nat.mul_le_mul_left tiles (Nat.le_of_lt hstep.sumsOut_lt))
        · rw [reductionPasses_of_not_canStage hmany hl hwidest hstaged]
          rw [Pass.canStage_stock_iff, Nat.not_lt] at hstaged
          exact .inr ⟨Nat.le_trans hstaged (Nat.mul_le_mul_left tiles hgroup.groups_le), rfl⟩
    · rw [reductionPasses_of_le hfew]
      exact .inl ⟨_, rfl⟩

/-- **The layers never run out.** By induction on the limit of the search: sums that the layers
ahead would add up to one are down to one when no layer is left. -/
theorem Reducer.Stock.kind_ne_tail (h : r.Stock) {passes : List Pass}
    (hlayer : sums ≤ 1 ∨ 1 ≤ layer) (hlimit : r.layers.length ≤ layer + limit)
    (hfew : sums ≤ 2 ^ (r.layers.length - layer))
    (hpasses : reductionPasses {} r tiles limit layer sums = .ok passes) :
    ∀ p ∈ passes, p.kind ≠ .tail := by
  induction limit generalizing layer sums passes with
  | zero =>
    rw [Nat.add_zero] at hlimit
    rw [Nat.sub_eq_zero_of_le hlimit, Nat.pow_zero] at hfew
    unfold reductionPasses at hpasses
    rw [if_pos hfew] at hpasses
    obtain rfl := Except.ok.inj hpasses
    simp
  | succ limit ih =>
    unfold reductionPasses at hpasses
    split at hpasses
    next =>
      obtain rfl := Except.ok.inj hpasses
      simp
    next hsums =>
      cases hl : r.layers[layer]? with
      | none =>
        rw [Nat.sub_eq_zero_of_le (List.getElem?_eq_none_iff.mp hl)] at hfew
        exact absurd hfew hsums
      | some l =>
        simp only [hl] at hpasses
        split at hpasses
        · contradiction
        next widest hwidest =>
          obtain ⟨pass, hpass, hpasses⟩ := bind_eq_ok_iff.mp hpasses
          obtain ⟨-, rfl⟩ := Pass.staged_eq_ok_iff.mp hpass
          obtain ⟨rest, hrest, rfl⟩ := map_eq_ok_iff.mp hpasses
          have hlt := (widestGroup_of_widestGroup? hwidest).layer_lt hl tiles
          have hout := h.sumsOut_le hl (hlayer.resolve_left hsums) (Nat.lt_of_not_le hsums) hfew
            hwidest tiles
          intro p hp
          rcases List.mem_cons.mp hp with rfl | hp
          · rintro ⟨⟩
          · exact ih (.inr (by omega)) (by omega) hout hrest p hp

end Search

end NearMemory
