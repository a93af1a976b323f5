import NearMemory.Proofs.PartialSums

/-!
# Reductions come to an end

The passes behind the multiplies come from two loops, one inside the other. The outer one makes a
reduction of the sums that are left, as long as there are several of them and there is a layer to
fold. The inner one looks for the widest group that a reduction can take: it tries smaller and
smaller sizes until the first layer of a group fits, and gives up below two.

`GroupSearch` and `ReductionLoop` are these loops as relations, with a rule for every way to go on
and nothing that would end them but their own tests. A derivation is a run that ends, so that
termination is the existence of a derivation, and the definitions that compute say which one it is
(`searchesGroup_iff`, `reductionLoop_iff`). What makes the outer loop end is progress: one reduction
folds a layer and leaves fewer sums (`WidestGroup.reductionStep`). This in turn is a matter of the
groups, which are made of nearly equal size and then even, and must not outgrow the widest group
that was found to fit.

## Main definitions

* `GroupSearch`, `SearchesGroup` — the search for a group
* `ReductionStep` — what one reduction does
* `ReductionLoop` — reductions until one sum is left

## Main results

* `searchesGroup_iff` — the search comes to an end, with the widest group
* `WidestGroup.reductionStep` — a reduction of the widest group gets somewhere
* `reductionLoop_iff` — the loop comes to an end, with the passes behind the multiplies
-/

namespace NearMemory

/-! ### The search for a group -/

/-- Whether one layer of a group fits the registers, and the budget behind two row reads. -/
def layerFits (hw : Hardware) (r : Reducer) (l : TreeLayer) (size : Nat) : Bool :=
  (r.foldLayer? l (loadedPackets size (r.packetIn l)) 0).any fun folded =>
    2 + folded.size ≤ bodyBudget hw

/-- A size that is made even, unless it is everything there is. -/
def lowered (operands size : Nat) : Nat :=
  if size < operands ∧ size % 2 = 1 then size - 1 else size

/-- A run of the search for a group, from a size on. It tries smaller and smaller sizes until one
fits. -/
inductive GroupSearch (fits : Nat → Bool) (operands : Nat) : Nat → Option Nat → Prop
  /-- There is no group of fewer than two sums. -/
  | failed {size : Nat} (hfew : size < 2) : GroupSearch fits operands size none
  /-- The size fits. -/
  | found {size : Nat} (hmany : 2 ≤ size) (hfits : fits size = true) :
    GroupSearch fits operands size (some size)
  /-- The size does not fit, and the next smaller one is tried. -/
  | smaller {size : Nat} {found? : Option Nat} (hmany : 2 ≤ size) (hfits : fits size = false)
    (hnext : GroupSearch fits operands (lowered operands (size - 1)) found?) :
    GroupSearch fits operands size found?

theorem GroupSearch.unique {fits : Nat → Bool} {operands size : Nat} {found? other? : Option Nat}
    (h : GroupSearch fits operands size found?) (h' : GroupSearch fits operands size other?) :
    found? = other? := by
  induction h with
  | failed hfew =>
    cases h' with
    | failed => rfl
    | found hmany _ => omega
    | smaller hmany _ _ => omega
  | found hmany hfits =>
    cases h' with
    | failed hfew => omega
    | found => rfl
    | smaller _ hfits' _ => simp [hfits] at hfits'
  | smaller hmany hfits _ ih =>
    cases h' with
    | failed hfew => omega
    | found _ hfits' => simp [hfits] at hfits'
    | smaller _ _ hnext => exact ih hnext

/-- **The search comes to an end.** By induction on the size: what is skipped between two tries is
an odd size that is not everything. -/
theorem groupSearch_greatest? (fits : Nat → Bool) {operands : Nat} :
    ∀ size ≤ operands, GroupSearch fits operands (lowered operands size)
      (greatest? (fun w => decide (2 ≤ w) && (w == operands || w % 2 == 0) && fits w) size) := by
  intro size hle
  induction size with
  | zero => exact .failed (by simp [lowered])
  | succ n ih =>
    have hnext := ih (Nat.le_of_succ_le hle)
    rw [greatest?]
    by_cases hodd : n + 1 < operands ∧ (n + 1) % 2 = 1
    · -- the size is skipped, and the search starts where it would start one below
      rw [lowered, if_pos hodd, Nat.add_sub_cancel, if_neg]
      · rwa [lowered, if_neg (by omega)] at hnext
      · have hne : n + 1 ≠ operands := by omega
        simp [hne, hodd.2]
    rw [lowered, if_neg hodd]
    have hwhole : n + 1 = operands ∨ (n + 1) % 2 = 0 := by omega
    by_cases hfew : n + 1 < 2
    · obtain rfl : n = 0 := by omega
      exact .failed hfew
    cases hfits : fits (n + 1) with
    | false =>
      rw [if_neg (by simp)]
      exact .smaller (Nat.le_of_not_lt hfew) hfits hnext
    | true =>
      rw [if_pos (by simpa using ⟨by omega, hwhole⟩)]
      exact .found (Nat.le_of_not_lt hfew) hfits

section Reduction

variable {hw : Hardware} {r : Reducer} {l : TreeLayer} {tiles layer operands widest : Nat}

/-- A run of the search for the group of a reduction. It starts at the packets that half a register
holds. -/
def SearchesGroup (hw : Hardware) (r : Reducer) (l : TreeLayer) (operands : Nat)
    (found? : Option Nat) : Prop :=
  GroupSearch (layerFits hw r l) operands
    (lowered operands (min operands (2 * (hw.wordsPerHalf / r.packetIn l)))) found?

theorem searchesGroup_iff {found? : Option Nat} :
    SearchesGroup hw r l operands found? ↔ found? = widestGroup? hw r l operands := by
  have hsearch : SearchesGroup hw r l operands (widestGroup? hw r l operands) :=
    groupSearch_greatest? (layerFits hw r l) _ (Nat.min_le_left _ _)
  constructor
  · intro h
    exact h.unique hsearch
  · rintro rfl
    exact hsearch

/-! ### One reduction -/

/-- What one reduction does: it takes the sums in groups that are no wider than the widest, all of
the same even size but for the last one, which takes what is left; it folds a layer or more, and
leaves fewer sums. -/
structure ReductionStep (depth layer operands widest groups size : Nat) (p : Pass) : Prop where
  kind_eq : p.kind = .reduction groups size
  groups_eq : groups = ceilDiv operands widest
  two_le_size : 2 ≤ size
  size_le : size ≤ widest
  size_even : 1 < groups → size % 2 = 0
  one_le_last : 1 ≤ operands - (groups - 1) * size
  last_le : operands - (groups - 1) * size ≤ size
  layer_lt : layer < p.layerTo
  layerTo_le : p.layerTo ≤ depth
  one_le_sumsOut : 1 ≤ p.sumsOut
  sumsOut_lt : p.sumsOut < operands

theorem Grouping.Covers.last_le {g : Grouping} (h : g.Covers operands) :
    g.last operands ≤ g.size := by
  obtain ⟨others, hothers⟩ := Nat.exists_eq_add_of_le' h.groups_pos
  have hcovers := h.operands_le
  rw [hothers, Nat.succ_mul] at hcovers
  rw [Grouping.last, hothers, Nat.add_sub_cancel]
  omega

/-- **A reduction of the widest group gets somewhere.** -/
theorem WidestGroup.reductionStep (h : WidestGroup hw r l operands widest)
    (hhw : hw.WithinLimits) (hr : r.Sound hw) (hentries : Plan.reservedEntries ≤ hw.bufferEntries)
    (hl : r.layers[layer]? = some l) (tiles : Nat) :
    ReductionStep r.layers.length layer operands widest (Grouping.balanced operands widest).groups
      (Grouping.balanced operands widest).size
      (reductionPass hw r tiles layer operands l widest) := by
  have hcovers := h.covers
  have hlt := hcovers.lt_operands
  have htwo := h.two_le
  have hle := h.le_operands
  have hsums := sumsOut_reductionPass h hhw hr hentries hl tiles
  have hlow := le_sumsAt_reductionPass h tiles layer
    (reductionPass hw r tiles layer operands l widest).layerTo
  have hhigh := sumsAt_reductionPass_le h hl tiles
  rw [← hsums] at hlow hhigh
  rw [ceilDiv_two] at hhigh
  exact {
    kind_eq := rfl
    groups_eq := rfl
    two_le_size := hcovers.two_le_size
    size_le := Grouping.size_balanced_le htwo hle h.even
    size_even := hcovers.size_even
    one_le_last := by omega
    last_le := hcovers.last_le
    layer_lt := h.layer_lt hl tiles
    layerTo_le := WidestGroup.layerTo_le hl hw tiles operands widest
    one_le_sumsOut := Nat.lt_of_lt_of_le (sumsAfter_pos (by omega) _) hlow
    sumsOut_lt := by omega }

/-! ### The loop -/

/-- A run of the loop over reductions, from a layer and a number of sums on, with the passes that it
makes or the error that stops it. -/
inductive ReductionLoop (hw : Hardware) (r : Reducer) (tiles : Nat) :
    Nat → Nat → Except ScheduleError (List Pass) → Prop
  /-- One sum is left, or none. -/
  | done {layer operands : Nat} (hfew : operands ≤ 1) :
    ReductionLoop hw r tiles layer operands (.ok [])
  /-- There is no layer left, and the tail adds the sums. -/
  | tail {layer operands : Nat} (hmany : 1 < operands) (hlayer : r.layers.length ≤ layer) :
    ReductionLoop hw r tiles layer operands ((tailPass hw r tiles operands).map ([·]))
  /-- No group fits. -/
  | stuck {layer operands : Nat} {l : TreeLayer} (hmany : 1 < operands)
    (hl : r.layers[layer]? = some l) (hsearch : SearchesGroup hw r l operands none) :
    ReductionLoop hw r tiles layer operands (.error (.reduction hw.bufferEntries (layer + 1)))
  /-- A reduction is found, but to stage it overflows. -/
  | overflow {layer operands widest : Nat} {l : TreeLayer} (hmany : 1 < operands)
    (hl : r.layers[layer]? = some l) (hsearch : SearchesGroup hw r l operands (some widest))
    (hstaged : ¬ (reductionPass hw r tiles layer operands l widest).canStage hw = true) :
    ReductionLoop hw r tiles layer operands (.error .overflow)
  /-- A reduction is made, and the loop goes on with what it leaves. -/
  | reduce {layer operands widest : Nat} {l : TreeLayer} {result : Except ScheduleError (List Pass)}
    (hmany : 1 < operands) (hl : r.layers[layer]? = some l)
    (hsearch : SearchesGroup hw r l operands (some widest))
    (hstaged : (reductionPass hw r tiles layer operands l widest).canStage hw = true)
    (hrest : ReductionLoop hw r tiles (reductionPass hw r tiles layer operands l widest).layerTo
      (reductionPass hw r tiles layer operands l widest).sumsOut result) :
    ReductionLoop hw r tiles layer operands
      (result.map (reductionPass hw r tiles layer operands l widest :: ·))

section Steps

variable {limit : Nat}

theorem reductionPasses_of_le (hfew : operands ≤ 1) :
    reductionPasses hw r tiles limit layer operands = .ok [] := by
  unfold reductionPasses
  exact if_pos hfew

theorem reductionPasses_of_spent (hmany : 1 < operands) (hlayer : r.layers.length ≤ layer) :
    reductionPasses hw r tiles limit layer operands = (tailPass hw r tiles operands).map ([·]) := by
  unfold reductionPasses
  rw [if_neg (Nat.not_le.mpr hmany), List.getElem?_eq_none hlayer]
  cases limit <;> rfl

theorem reductionPasses_of_none (hmany : 1 < operands) (hl : r.layers[layer]? = some l)
    (hwidest : widestGroup? hw r l operands = none) :
    reductionPasses hw r tiles (limit + 1) layer operands =
      .error (.reduction hw.bufferEntries (layer + 1)) := by
  unfold reductionPasses
  rw [if_neg (Nat.not_le.mpr hmany), hl]
  simp only [hwidest]

theorem reductionPasses_of_not_canStage (hmany : 1 < operands) (hl : r.layers[layer]? = some l)
    (hwidest : widestGroup? hw r l operands = some widest)
    (hstaged : ¬ (reductionPass hw r tiles layer operands l widest).canStage hw = true) :
    reductionPasses hw r tiles (limit + 1) layer operands = .error .overflow := by
  unfold reductionPasses
  rw [if_neg (Nat.not_le.mpr hmany), hl]
  simp only [hwidest, Pass.staged, if_neg hstaged]
  rfl

theorem reductionPasses_of_some (hmany : 1 < operands) (hl : r.layers[layer]? = some l)
    (hwidest : widestGroup? hw r l operands = some widest)
    (hstaged : (reductionPass hw r tiles layer operands l widest).canStage hw = true) :
    reductionPasses hw r tiles (limit + 1) layer operands =
      (reductionPasses hw r tiles limit (reductionPass hw r tiles layer operands l widest).layerTo
        (reductionPass hw r tiles layer operands l widest).sumsOut).map
          (reductionPass hw r tiles layer operands l widest :: ·) := by
  conv_lhs => unfold reductionPasses
  rw [if_neg (Nat.not_le.mpr hmany), hl]
  simp only [hwidest, Pass.staged, if_pos hstaged]
  rfl

end Steps

/-- The loop comes to an end. By induction on the layers that are left: a reduction folds at least
one of them. -/
theorem reductionLoop_reductionPasses {limit : Nat} (hlimit : r.layers.length ≤ layer + limit) :
    ReductionLoop hw r tiles layer operands (reductionPasses hw r tiles limit layer operands) := by
  induction limit generalizing layer operands with
  | zero =>
    rw [Nat.add_zero] at hlimit
    rcases Nat.lt_or_ge 1 operands with hmany | hfew
    · rw [reductionPasses_of_spent hmany hlimit]
      exact .tail hmany hlimit
    · rw [reductionPasses_of_le hfew]
      exact .done hfew
  | succ limit ih =>
    rcases Nat.lt_or_ge 1 operands with hmany | hfew
    · cases hl : r.layers[layer]? with
      | none =>
        have hlayer := List.getElem?_eq_none_iff.mp hl
        rw [reductionPasses_of_spent hmany hlayer]
        exact .tail hmany hlayer
      | some l =>
        cases hwidest : widestGroup? hw r l operands with
        | none =>
          rw [reductionPasses_of_none hmany hl hwidest]
          exact .stuck hmany hl (searchesGroup_iff.mpr hwidest.symm)
        | some widest =>
          have hlt := (widestGroup_of_widestGroup? hwidest).layer_lt hl tiles
          have hsearch := searchesGroup_iff.mpr hwidest.symm
          by_cases hstaged : (reductionPass hw r tiles layer operands l widest).canStage hw = true
          · rw [reductionPasses_of_some hmany hl hwidest hstaged]
            exact .reduce hmany hl hsearch hstaged (ih (by omega))
          · rw [reductionPasses_of_not_canStage hmany hl hwidest hstaged]
            exact .overflow hmany hl hsearch hstaged
    · rw [reductionPasses_of_le hfew]
      exact .done hfew

theorem ReductionLoop.eq_reductionPasses {limit : Nat} {result : Except ScheduleError (List Pass)}
    (h : ReductionLoop hw r tiles layer operands result)
    (hlimit : r.layers.length ≤ layer + limit) :
    result = reductionPasses hw r tiles limit layer operands := by
  induction h generalizing limit with
  | done hfew => rw [reductionPasses_of_le hfew]
  | tail hmany hlayer => rw [reductionPasses_of_spent hmany hlayer]
  | stuck hmany hl hsearch =>
    have hlayer := (List.getElem?_eq_some_iff.mp hl).1
    obtain ⟨more, rfl⟩ := Nat.exists_eq_add_of_le' (show 1 ≤ limit by omega)
    rw [reductionPasses_of_none hmany hl (searchesGroup_iff.mp hsearch).symm]
  | overflow hmany hl hsearch hstaged =>
    have hlayer := (List.getElem?_eq_some_iff.mp hl).1
    obtain ⟨more, rfl⟩ := Nat.exists_eq_add_of_le' (show 1 ≤ limit by omega)
    rw [reductionPasses_of_not_canStage hmany hl (searchesGroup_iff.mp hsearch).symm hstaged]
  | reduce hmany hl hsearch hstaged _ ih =>
    have hwidest := (searchesGroup_iff.mp hsearch).symm
    have hlt := (widestGroup_of_widestGroup? hwidest).layer_lt hl tiles
    have hlayer := (List.getElem?_eq_some_iff.mp hl).1
    obtain ⟨more, rfl⟩ := Nat.exists_eq_add_of_le' (show 1 ≤ limit by omega)
    rw [reductionPasses_of_some hmany hl hwidest hstaged, ← ih (by omega)]

/-- **The loop comes to an end**, with the passes behind the multiplies. -/
theorem reductionLoop_iff {limit : Nat} {result : Except ScheduleError (List Pass)}
    (hlimit : r.layers.length ≤ layer + limit) :
    ReductionLoop hw r tiles layer operands result ↔
      result = reductionPasses hw r tiles limit layer operands := by
  constructor
  · intro h
    exact h.eq_reductionPasses hlimit
  · rintro rfl
    exact reductionLoop_reductionPasses hlimit

end Reduction

/-! ### The reductions of a plan -/

/-- **Reductions make progress and come to an end.** Whatever the layer and the number of sums, the
search for a group ends. Either it fails, and the loop stops with an error, or a reduction of the
group that it finds folds a layer and leaves fewer sums. So the loop ends too, from everywhere, if
only by an overflow, and its result is that of the passes behind the multiplies. -/
theorem Plan.reductions_end {hw : Hardware} {w : Workload} {plan : Plan}
    (hplan : Plan.make hw w = .ok plan) :
    let r := Reducer.ofTree plan.tree w.subwordWidth hw
    (∀ layer < plan.tree.depth, ∀ operands ≥ 2, ∃ l, plan.tree.layers[layer]? = some l ∧
      0 < r.packetIn l ∧
      ((SearchesGroup hw r l operands none ∧
          ReductionLoop hw r plan.tiles layer operands
            (.error (.reduction hw.bufferEntries (layer + 1)))) ∨
        ∃ widest groups size, SearchesGroup hw r l operands (some widest) ∧
          ReductionStep plan.tree.depth layer operands widest groups size
            (reductionPass hw r plan.tiles layer operands l widest))) ∧
      ∀ layer operands result, ReductionLoop hw r plan.tiles layer operands result ↔
        result = reductionPasses hw r plan.tiles plan.tree.depth layer operands := by
  intro r
  have hsound := Plan.sound_of_make hplan
  have hr := hsound.sound_reducer
  refine ⟨?_, fun layer operands result => reductionLoop_iff (Nat.le_add_left _ _)⟩
  intro layer hlayer operands hoperands
  have hl : r.layers[layer]? = some plan.tree.layers[layer] := List.getElem?_eq_getElem hlayer
  refine ⟨plan.tree.layers[layer], hl, ?_, ?_⟩
  · rw [Reducer.packetIn, Subword.wordsPerPacket,
      lt_ceilDiv_iff (Subword.perWord_pos (hr.widthChain.sound hl).widthIn_mem), Nat.zero_mul]
    exact Subword.perWord_pos hr.initial_mem
  · cases hwidest : widestGroup? hw r plan.tree.layers[layer] operands with
    | none =>
      have hsearch := searchesGroup_iff.mpr hwidest.symm
      exact .inl ⟨hsearch, .stuck hoperands hl hsearch⟩
    | some widest =>
      have hstep := (widestGroup_of_widestGroup? hwidest).reductionStep hsound.limits hr
        hsound.reservedEntries_le hl plan.tiles
      exact .inr ⟨widest, _, _, searchesGroup_iff.mpr hwidest.symm, hstep⟩

/-- Fifteen sums behind the first layer are taken in a group of eight and one of seven. -/
theorem Plan.reductions_end_fifteen :
    ∃ plan, Plan.make {} { m := 1, n := 29, q := 8 } = .ok plan ∧
      ∃ l, plan.tree.layers[1]? = some l ∧
        ReductionStep 5 1 15 14 2 8
          (reductionPass {} (Reducer.ofTree plan.tree 8 {}) plan.tiles 1 15 l 14) := by
  have hvalues : (Plan.make {} { m := 1, n := 29, q := 8 }).toOption.map (fun plan =>
      (plan.tree.depth, plan.tree.layers[1]?.bind fun l =>
        widestGroup? {} (Reducer.ofTree plan.tree 8 {}) l 15)) = some (5, some 14) := by
    decide +kernel
  obtain ⟨plan, hplan, hvalues⟩ := Option.map_eq_some_iff.mp hvalues
  obtain ⟨hdepth, hwidest⟩ := Prod.mk.inj hvalues
  have hok := toOption_eq_some_iff.mp hplan
  obtain ⟨l, hl, -, hiteration⟩ := (Plan.reductions_end hok).1 1 (by omega) 15 (by decide)
  rw [hl, Option.bind_some] at hwidest
  refine ⟨plan, hok, l, hl, ?_⟩
  rcases hiteration with ⟨hsearch, -⟩ | ⟨widest, groups, size, hsearch, hstep⟩
  · have hnone := (searchesGroup_iff.mp hsearch).trans hwidest
    contradiction
  · obtain rfl := Option.some.inj ((searchesGroup_iff.mp hsearch).trans hwidest)
    obtain ⟨rfl, rfl⟩ := Pass.Kind.reduction.inj hstep.kind_eq
    rw [hdepth] at hstep
    exact hstep

end NearMemory
