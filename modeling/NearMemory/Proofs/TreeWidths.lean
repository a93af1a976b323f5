import NearMemory.Proofs.Rounding

/-!
# The widths of an adder tree

Every layer of an adder tree hands its sums to the next one at the width they have grown to. The
sizes of packets depend on the width only, so this is all that folding needs to know of a tree:
widths are on the ladder, a layer without a width step keeps its width, and neighbouring layers
agree on the width between them.

## Main definitions

* `TreeLayer.Sound` — the widths of one layer
* `WidthChain` — the widths of layers that follow each other

## Main results

* `AdderTree.widthChain_layersFrom` — the layers of an adder tree are a chain
* `AdderTree.inputs_of_getElem?` — the sums that enter a layer
* `AdderTree.build_eq_ok_iff` — which dot products have a tree
* `AdderTree.all_isCounted_layersFrom` — a bound below which registers hold the counts of all layers
* `AdderTree.widthChain_of_build` — the layers of every tree are a chain
-/

namespace NearMemory

namespace Subword

theorem isSome_index?_iff {width : Nat} : (index? width).isSome ↔ width ∈ ladder := by
  rw [index?, Option.isSome_iff_ne_none, ne_eq, List.idxOf?_eq_none_iff, Decidable.not_not]

theorem next_mem_ladder {width : Nat} (h : width ∈ ladder) : next width ∈ ladder := by
  revert width
  decide

theorem perWord_pos {width : Nat} (h : width ∈ ladder) : 0 < perWord width := by
  revert width
  decide

theorem perWord_le {width : Nat} (h : width ∈ ladder) : perWord width ≤ 2 ^ Word.offsetBits := by
  revert width
  decide

theorem wordsPerPacket_self {width : Nat} (h : width ∈ ladder) :
    wordsPerPacket width width = 1 := by
  revert width
  decide

theorem perWord_widest_le {width : Nat} (h : width ∈ ladder) : perWord widest ≤ perWord width := by
  revert width
  decide

/-- No width takes more instructions than the widest one. -/
theorem tiles_le_widest {width : Nat} (q : Nat) (h : width ∈ ladder) :
    tiles q width ≤ tiles q widest := by
  rw [tiles, ceilDiv_le_iff (Nat.mul_pos (by decide) (perWord_pos h))]
  calc q ≤ tiles q widest * (cores * perWord widest) := le_ceilDiv_mul (by decide)
    _ ≤ tiles q widest * (cores * perWord width) :=
      Nat.mul_le_mul_left _ (Nat.mul_le_mul_left _ (perWord_widest_le h))

end Subword

namespace WidthStep

theorem between?_next {width : Nat} (h : width ∈ Subword.ladder) (hlt : width < Subword.widest) :
    (between? width (Subword.next width)).isSome := by
  revert width
  decide

theorem between?_self {width : Nat} (h : width ∈ Subword.ladder) :
    between? width width = none := by
  revert width
  decide

end WidthStep

/-- The widths of a layer are on the ladder, and they differ only across a width step. -/
structure TreeLayer.Sound (l : TreeLayer) : Prop where
  widthIn_mem : l.widthIn ∈ Subword.ladder
  widthOut_mem : l.widthOut ∈ Subword.ladder
  widthOut_eq : l.step = none → l.widthOut = l.widthIn

/-- Layers whose widths are sound, the first of which takes sums of the given width, and each of
which takes the sums of the one before. -/
def WidthChain : Nat → List TreeLayer → Prop
  | _, [] => True
  | width, l :: rest => l.widthIn = width ∧ l.Sound ∧ WidthChain l.widthOut rest

namespace WidthChain

variable {width : Nat} {layers : List TreeLayer}

/-- The layers from some place on are a chain, from the width of the first of them. -/
theorem drop {i : Nat} {l : TreeLayer} (h : WidthChain width layers)
    (hl : layers[i]? = some l) : WidthChain l.widthIn (layers.drop i) := by
  induction layers generalizing width i with
  | nil => simp at hl
  | cons first rest ih =>
    cases i with
    | zero =>
      obtain rfl : first = l := by simpa using hl
      rw [h.1]
      exact h
    | succ i => exact ih h.2.2 (by simpa using hl)

/-- The layers behind one of them are a chain, from its own width on. -/
theorem drop_succ {i : Nat} {l : TreeLayer} (h : WidthChain width layers)
    (hl : layers[i]? = some l) : WidthChain l.widthOut (layers.drop (i + 1)) := by
  obtain ⟨hi, rfl⟩ := List.getElem?_eq_some_iff.mp hl
  have hdrop := h.drop hl
  rw [List.drop_eq_getElem_cons hi] at hdrop
  exact hdrop.2.2

theorem sound {i : Nat} {l : TreeLayer} (h : WidthChain width layers)
    (hl : layers[i]? = some l) : l.Sound := by
  obtain ⟨hi, rfl⟩ := List.getElem?_eq_some_iff.mp hl
  have hdrop := h.drop hl
  rw [List.drop_eq_getElem_cons hi] at hdrop
  exact hdrop.2.1

/-- The sums that enter a layer have the width at which the layer before leaves them. -/
theorem getElem?_widths {i : Nat} {l : TreeLayer} (h : WidthChain width layers)
    (hl : layers[i]? = some l) :
    (width :: layers.map (·.widthOut))[i]? = some l.widthIn := by
  induction layers generalizing width i with
  | nil => simp at hl
  | cons first rest ih =>
    cases i with
    | zero =>
      obtain rfl : first = l := by simpa using hl
      rw [List.getElem?_cons_zero, h.1]
    | succ i =>
      rw [List.map_cons, List.getElem?_cons_succ]
      exact ih h.2.2 (by simpa using hl)

theorem resultWidth_mem (h : WidthChain width layers) (hwidth : width ∈ Subword.ladder) :
    (AdderTree.mk layers).resultWidth width ∈ Subword.ladder := by
  rw [AdderTree.resultWidth]
  cases hlast : layers.getLast? with
  | none => exact hwidth
  | some l =>
    rw [List.getLast?_eq_getElem?] at hlast
    exact (h.sound hlast).widthOut_mem

end WidthChain

namespace AdderTree

variable {q index inputs width sinceGrowth : Nat}

theorem sound_layer (h : width ∈ Subword.ladder) :
    (layer q index inputs width sinceGrowth).Sound := by
  simp only [layer]
  split
  next hgrow =>
    rw [Bool.and_eq_true, decide_eq_true_iff] at hgrow
    refine ⟨h, Subword.next_mem_ladder h, fun hnone => ?_⟩
    have hsome := Option.isSome_iff_ne_none.mp (WidthStep.between?_next h hgrow.2)
    exact absurd hnone hsome
  next => exact ⟨h, h, fun _ => rfl⟩

theorem widthChain_layersFrom (h : width ∈ Subword.ladder) :
    WidthChain width (layersFrom q index inputs width sinceGrowth) := by
  fun_induction layersFrom q index inputs width sinceGrowth with
  | case1 => trivial
  | case2 index inputs width sinceGrowth _ l ih =>
    have hl : l.Sound := sound_layer h
    exact ⟨rfl, hl, ih hl.widthOut_mem⟩

theorem getElem?_layersFrom_zero {l : TreeLayer} :
    (layersFrom q index inputs width sinceGrowth)[0]? = some l ↔
      1 < inputs ∧ layer q index inputs width sinceGrowth = l := by
  rw [layersFrom]
  split
  next hfew => simp [Nat.not_lt.mpr hfew]
  next hmany => simp [Nat.lt_of_not_le hmany]

theorem getElem?_layersFrom_succ {i : Nat} {l : TreeLayer} :
    (layersFrom q index inputs width sinceGrowth)[i + 1]? = some l ↔
      1 < inputs ∧
        (layersFrom q (index + 1) (ceilDiv inputs 2)
          (layer q index inputs width sinceGrowth).widthOut
          (if (layer q index inputs width sinceGrowth).widthOut = width then sinceGrowth + 1
            else 1))[i]? = some l := by
  rw [layersFrom]
  split
  next hfew => simp [Nat.not_lt.mpr hfew]
  next hmany => simp [Nat.lt_of_not_le hmany]

/-- The sums that enter a layer are halved and rounded up once for every layer before it, and there
are at least two of them. -/
theorem inputs_of_getElem? {i : Nat} {l : TreeLayer}
    (h : (layersFrom q index inputs width sinceGrowth)[i]? = some l) :
    l.inputs = sumsAfter inputs i ∧ 1 < l.inputs := by
  induction i generalizing index inputs width sinceGrowth with
  | zero =>
    obtain ⟨hmany, rfl⟩ := getElem?_layersFrom_zero.mp h
    exact ⟨rfl, hmany⟩
  | succ i ih => exact ih (getElem?_layersFrom_succ.mp h).2

/-- A layer has at most as many instructions of a kind as it has sums, for every tile of the widest
width. -/
theorem isCounted_layer (h : width ∈ Subword.ladder)
    (hfit : inputs * Subword.tiles q Subword.widest < UInt64.size) :
    (layer q index inputs width sinceGrowth).isCounted = true := by
  have hcount : ∀ {sums tiles : Nat}, sums ≤ inputs → tiles ≤ Subword.tiles q Subword.widest →
      sums * tiles < UInt64.size := fun hsums htiles =>
    Nat.lt_of_le_of_lt (Nat.mul_le_mul hsums htiles) hfit
  rw [TreeLayer.isCounted, Bool.and_eq_true, decide_eq_true_eq, decide_eq_true_eq]
  refine ⟨hcount (Nat.div_le_self inputs 2) (Subword.tiles_le_widest q h), ?_⟩
  have hpack : (layer q index inputs width sinceGrowth).packCount =
      if (layer q index inputs width sinceGrowth).step.isSome then
        sumsAfter inputs 1 * Subword.tiles q (layer q index inputs width sinceGrowth).widthOut
      else 0 := rfl
  rw [hpack]
  split
  · exact hcount (sumsAfter_le inputs 1) (Subword.tiles_le_widest q (sound_layer h).widthOut_mem)
  · decide

theorem all_isCounted_layersFrom (h : width ∈ Subword.ladder)
    (hfit : inputs * Subword.tiles q Subword.widest < UInt64.size) :
    (layersFrom q index inputs width sinceGrowth).all (·.isCounted) = true := by
  fun_induction layersFrom q index inputs width sinceGrowth with
  | case1 => rfl
  | case2 index inputs width sinceGrowth _ l ih =>
    have hrest : ceilDiv inputs 2 * Subword.tiles q Subword.widest < UInt64.size :=
      Nat.lt_of_le_of_lt (Nat.mul_le_mul_right _ (sumsAfter_le inputs 1)) hfit
    rw [List.all_cons, Bool.and_eq_true]
    exact ⟨isCounted_layer h hfit, ih (sound_layer h).widthOut_mem hrest⟩

/-- The dot products that have a tree: they have a length and a supported width, and registers hold
the counts of all layers. -/
theorem build_eq_ok_iff {n : Nat} {tree : AdderTree} :
    build n width q = .ok tree ↔ 0 < n ∧ width ∈ Subword.ladder ∧
      (layersFrom q 1 n width 0).all (·.isCounted) = true ∧ ⟨layersFrom q 1 n width 0⟩ = tree := by
  rw [build, ← Subword.isSome_index?_iff]
  split
  · simp_all
  split
  · simp_all
  split <;> simp_all [Nat.pos_iff_ne_zero, Option.isSome_iff_ne_none]

/-- A dot product of a length and a supported width has no tree only for its counts. -/
theorem build_eq_overflow_iff {n : Nat} (hn : 0 < n) (h : width ∈ Subword.ladder) :
    build n width q = .error .overflow ↔ ¬ (layersFrom q 1 n width 0).all (·.isCounted) = true := by
  have hindex : ¬(Subword.index? width).isNone := by
    rw [Option.isNone_iff_eq_none, ← ne_eq, ← Option.isSome_iff_ne_none, Subword.isSome_index?_iff]
    exact h
  rw [build, if_neg (Nat.ne_of_gt hn), if_neg hindex]
  split <;> simp_all

theorem build_eq_ok {n : Nat} (hn : 0 < n) (h : width ∈ Subword.ladder)
    (hfit : n * Subword.tiles q Subword.widest < UInt64.size) :
    build n width q = .ok ⟨layersFrom q 1 n width 0⟩ :=
  build_eq_ok_iff.mpr ⟨hn, h, all_isCounted_layersFrom h hfit, rfl⟩

theorem widthChain_of_build {n : Nat} {tree : AdderTree} (h : build n width q = .ok tree) :
    WidthChain width tree.layers := by
  obtain ⟨-, hmem, -, rfl⟩ := build_eq_ok_iff.mp h
  exact widthChain_layersFrom hmem

end AdderTree

end NearMemory
