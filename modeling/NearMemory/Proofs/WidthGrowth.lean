import NearMemory.Proofs.TreeWidths
import Mathlib.Algebra.Group.Action.Defs
import Mathlib.Algebra.Order.BigOperators.Group.List
import Mathlib.Data.Nat.Log
import Mathlib.Order.Bounds.Basic

/-!
# How the sums of an adder tree grow

An adder tree decides from layer to layer whether to widen its sums: it counts the layers since the
last climb and climbs again when they have used up what the climb gained. The count is never
compared with the bits that the sums need. It agrees with them all the same: before every layer but
the first, the width below the current one and the count add up to the bits of the sums
(`Headroom`). So a climb is due exactly when the sums fill their width, and the width is always the
smallest one that holds them, as far as the ladder goes.

A tree whose products have the widest width cannot make its first climb. It reports that layer, and
counts on as if the climb had been made: from the second layer on it is the tree of the next
narrower products. So it is silent from the second layer to the eighth, which a climb from 16 to 24
bits would have covered, although its sums overflow in all of them (`widest_second_layer_silent`).

The tree also counts the instructions of each layer, and these are the only thing that can go wrong:
there is a tree exactly if registers hold them (`AdderTree.CountsFit`).

## Main definitions

* `Subword.HoldsSums` — a width that holds every sum of so many products
* `Subword.fitting` — the smallest width for so many bits, as far as the ladder goes
* `AdderTree.Headroom` — the width and the count before a layer
* `TreeLayer.ClosedForm` — a layer in terms of its position alone
* `AdderTree.CountsFit` — the counts of all layers fit, in terms of the dot product alone

## Main results

* `AdderTree.headroom_layersFrom` — the count agrees with the bits of the sums, along the layers
* `AdderTree.build_closed_form` — the layers of a tree, in closed form
* `AdderTree.build_overflow_reports` — the layers that report an overflow
-/

namespace NearMemory

namespace Subword

/-! ### The ladder -/

theorem pos_of_mem {width : Nat} (h : width ∈ ladder) : 0 < width := by
  revert width
  decide

theorem le_widest {width : Nat} (h : width ∈ ladder) : width ≤ widest := by
  revert width
  decide

theorem lt_next {width : Nat} (h : width ∈ ladder) (hlt : width < widest) : width < next width := by
  revert width
  decide

theorem previous_next {width : Nat} (h : width ∈ ladder) (hlt : width < widest) :
    previous (next width) = width := by
  revert width
  decide

/-- Nothing of the ladder lies between a width and the previous one. -/
theorem le_previous_of_lt {narrow width : Nat} (hnarrow : narrow ∈ ladder) (h : width ∈ ladder)
    (hlt : narrow < width) : narrow ≤ previous width := by
  have hladder : ∀ w ∈ ladder, ∀ v ∈ ladder, v < w → v ≤ previous w := by decide
  exact hladder width h narrow hnarrow hlt

/-- The smallest width for so many bits, as far as the ladder goes. -/
def fitting (bits : Nat) : Nat := (ladder.find? (min bits widest ≤ ·)).getD widest

theorem isLeast_fitting (bits : Nat) :
    IsLeast {w | w ∈ ladder ∧ min bits widest ≤ w} (fitting bits) := by
  have hladder : ∀ b ≤ widest, ((ladder.find? (b ≤ ·)).getD widest ∈ ladder ∧
      b ≤ (ladder.find? (b ≤ ·)).getD widest) ∧
      ∀ w ∈ ladder, b ≤ w → (ladder.find? (b ≤ ·)).getD widest ≤ w := by decide
  obtain ⟨hfits, hleast⟩ := hladder (min bits widest) (Nat.min_le_right _ _)
  exact ⟨hfits, fun w hw => hleast w hw.1 hw.2⟩

/-- A width of the ladder fits itself. -/
theorem fitting_of_mem {width : Nat} (h : width ∈ ladder) : fitting width = width := by
  refine (isLeast_fitting width).unique ⟨⟨h, Nat.min_le_left _ _⟩, fun w hw => ?_⟩
  have hmin := hw.2
  rwa [Nat.min_eq_left (le_widest h)] at hmin

/-! ### Sums of products -/

/-- The width holds every sum of `2 ^ layers` products of the given number of bits. -/
def HoldsSums (width bits layers : Nat) : Prop :=
  ∀ products : List Nat, products.length = 2 ^ layers → (∀ p ∈ products, p < 2 ^ bits) →
    products.sum < 2 ^ width

/-- Every layer takes one bit more, and no layer can do with less. -/
theorem holdsSums_iff {width bits layers : Nat} (hbits : 0 < bits) :
    HoldsSums width bits layers ↔ bits + layers ≤ width := by
  constructor
  · intro h
    -- the sum of the largest products needs every bit
    have hsum := h (List.replicate (2 ^ layers) (2 ^ bits - 1)) List.length_replicate fun p hp =>
      List.eq_of_mem_replicate hp ▸ Nat.sub_one_lt_of_lt (Nat.two_pow_pos bits)
    rw [List.sum_replicate, smul_eq_mul] at hsum
    have hlarge : 2 ^ (bits + layers - 1) ≤ 2 ^ layers * (2 ^ bits - 1) := by
      rw [show bits + layers - 1 = layers + (bits - 1) by omega, Nat.pow_add]
      refine Nat.mul_le_mul_left _ ?_
      have hhalf : 2 ^ bits = 2 * 2 ^ (bits - 1) := by
        rw [← Nat.pow_succ', Nat.succ_eq_add_one, Nat.sub_add_cancel hbits]
      have hpos := Nat.two_pow_pos (bits - 1)
      omega
    have hlt := (Nat.pow_lt_pow_iff_right (by decide)).mp (Nat.lt_of_le_of_lt hlarge hsum)
    omega
  · intro h products hlength hproducts
    have hpos := Nat.two_pow_pos bits
    calc products.sum
        ≤ products.length • (2 ^ bits - 1) :=
          List.sum_le_card_nsmul products _ fun p hp => Nat.le_sub_one_of_lt (hproducts p hp)
      _ = 2 ^ layers * (2 ^ bits - 1) := by rw [hlength, smul_eq_mul]
      _ < 2 ^ layers * 2 ^ bits :=
          Nat.mul_lt_mul_of_pos_left (by omega) (Nat.two_pow_pos layers)
      _ = 2 ^ (bits + layers) := by rw [← Nat.pow_add, Nat.add_comm]
      _ ≤ 2 ^ width := Nat.pow_le_pow_right (by decide) h

end Subword

/-- Layer `i`, from one on, of the tree over `n` products of the given width. -/
structure TreeLayer.ClosedForm (l : TreeLayer) (n width i : Nat) : Prop where
  index_eq : l.index = i
  inputs_eq : l.inputs = ceilDiv n (2 ^ (i - 1))
  outputs_eq : l.outputs = ceilDiv n (2 ^ i)
  additions_eq : l.additions = l.inputs / 2
  widthOut_least :
    IsLeast {w | w ∈ Subword.ladder ∧ min (width + i) Subword.widest ≤ w} l.widthOut
  step_iff : l.step.isSome ↔ l.widthOut ≠ l.widthIn

namespace AdderTree

variable {q index inputs width sinceGrowth bits : Nat}

/-! ### One layer -/

/-- Before a layer whose sums have grown to `bits` bits: the count is what they have beyond the
width below the current one, and the current one holds them if any does. -/
structure Headroom (bits width sinceGrowth : Nat) : Prop where
  width_mem : width ∈ Subword.ladder
  sinceGrowth_pos : 0 < sinceGrowth
  previous_add : Subword.previous width + sinceGrowth = bits
  min_le : min bits Subword.widest ≤ width

namespace Headroom

/-- The width is the smallest that holds the sums, as far as the ladder goes. -/
theorem isLeast (h : Headroom bits width sinceGrowth) :
    IsLeast {w | w ∈ Subword.ladder ∧ min bits Subword.widest ≤ w} width := by
  refine ⟨⟨h.width_mem, h.min_le⟩, ?_⟩
  rintro narrow ⟨hmem, hmin⟩
  by_contra hlt
  have hle := Subword.le_previous_of_lt hmem h.width_mem (Nat.lt_of_not_le hlt)
  have hpos := h.sinceGrowth_pos
  have hadd := h.previous_add
  have hwidest := Subword.le_widest h.width_mem
  omega

/-- A climb is due when the sums fill their width. -/
theorem isDue_iff (h : Headroom bits width sinceGrowth) (hindex : index ≠ 1) :
    isDue index width sinceGrowth = true ↔ width ≤ bits := by
  have hadd := h.previous_add
  simp only [isDue, Bool.or_eq_true, beq_iff_eq, hindex, false_or, decide_eq_true_iff]
  omega

/-- Climbing to the next width starts a new count. -/
theorem next (h : width ∈ Subword.ladder) (hlt : width < Subword.widest) :
    Headroom (width + 1) (Subword.next width) 1 where
  width_mem := Subword.next_mem_ladder h
  sinceGrowth_pos := Nat.one_pos
  previous_add := by rw [Subword.previous_next h hlt]
  min_le := Nat.le_trans (Nat.min_le_left _ _) (Subword.lt_next h hlt)

/-- **One layer.** The count keeps up with the sums, and the layer reports an overflow exactly if
the sums that enter it fill the widest width. -/
theorem layer (q inputs : Nat) (h : Headroom bits width sinceGrowth) (hindex : index ≠ 1) :
    Headroom (bits + 1) (layer q index inputs width sinceGrowth).widthOut
        (if (layer q index inputs width sinceGrowth).widthOut = width then sinceGrowth + 1 else 1) ∧
      ((layer q index inputs width sinceGrowth).mayOverflow = true ↔ Subword.widest ≤ bits) := by
  have hmin := h.min_le
  have hwidest := Subword.le_widest h.width_mem
  have hadd := h.previous_add
  simp only [AdderTree.layer, Bool.and_eq_true, h.isDue_iff hindex, decide_eq_true_iff,
    Bool.not_eq_true', decide_eq_false_iff_not]
  by_cases hclimb : width ≤ bits ∧ width < Subword.widest
  · -- the sums fill the width, and there is a wider one
    obtain rfl : width = bits := by omega
    have hne : Subword.next width ≠ width := Nat.ne_of_gt (Subword.lt_next h.width_mem hclimb.2)
    rw [if_pos hclimb, if_neg hne]
    exact ⟨.next h.width_mem hclimb.2, by omega⟩
  · rw [if_neg hclimb, if_pos rfl]
    exact ⟨⟨h.width_mem, by omega, by omega, by omega⟩, by omega⟩

end Headroom

/-- The first layer climbs. Where there is no wider width it reports an overflow, and the count goes
on as after a climb to the widest width. -/
theorem headroom_first (q inputs : Nat) (h : width ∈ Subword.ladder) :
    Headroom (min width (Subword.previous Subword.widest) + 1)
        (layer q 1 inputs width 0).widthOut 1 ∧
      ((layer q 1 inputs width 0).mayOverflow = true ↔ width = Subword.widest) := by
  have hwidest := Subword.le_widest h
  simp only [layer, isDue, beq_self_eq_true, Bool.true_or, Bool.true_and, decide_eq_true_iff,
    Bool.not_eq_true', decide_eq_false_iff_not]
  by_cases hlt : width < Subword.widest
  · have hle := Subword.le_previous_of_lt h (by decide) hlt
    rw [if_pos hlt, Nat.min_eq_left hle]
    exact ⟨.next h hlt, by omega⟩
  · obtain rfl : width = Subword.widest := by omega
    exact ⟨⟨h, Nat.one_pos, by decide, by decide⟩, by decide⟩

/-! ### The layers of a tree -/

section Layers

variable {n i : Nat} {l : TreeLayer}

/-- **Along the layers.** The count agrees with the bits of the sums at every layer, so overflow is
reported from the layer on whose sums need more than the widest width. -/
theorem headroom_layersFrom (h : Headroom bits width sinceGrowth) (hindex : 1 < index)
    (hl : (layersFrom q index inputs width sinceGrowth)[i]? = some l) :
    (∃ count, Headroom (bits + i + 1) l.widthOut count) ∧
      (l.mayOverflow = true ↔ Subword.widest ≤ bits + i) := by
  induction i generalizing index inputs width sinceGrowth bits with
  | zero =>
    obtain ⟨-, rfl⟩ := getElem?_layersFrom_zero.mp hl
    obtain ⟨hnext, hreport⟩ := h.layer q inputs (Nat.ne_of_gt hindex)
    exact ⟨⟨_, hnext⟩, hreport⟩
  | succ i ih =>
    have hnext := (h.layer q inputs (Nat.ne_of_gt hindex)).1
    have hrest := ih hnext (by omega) (getElem?_layersFrom_succ.mp hl).2
    rwa [show bits + 1 + i = bits + (i + 1) by omega] at hrest

/-- The layers of a whole tree. The widest products count as the next narrower ones. -/
theorem headroom_tree (h : width ∈ Subword.ladder)
    (hl : (layersFrom q 1 n width 0)[i]? = some l) :
    (∃ count, Headroom (min width (Subword.previous Subword.widest) + i + 1) l.widthOut count) ∧
      (l.mayOverflow = true ↔ i = 0 ∧ width = Subword.widest ∨
        i ≠ 0 ∧ Subword.widest ≤ min width (Subword.previous Subword.widest) + i) := by
  obtain ⟨hfirst, hreport⟩ := headroom_first q n h
  cases i with
  | zero =>
    obtain ⟨-, rfl⟩ := getElem?_layersFrom_zero.mp hl
    exact ⟨⟨1, hfirst⟩, by simpa using hreport⟩
  | succ i =>
    have hrest := (getElem?_layersFrom_succ.mp hl).2
    rw [Nat.zero_add, ite_self] at hrest
    have hgrown := headroom_layersFrom hfirst (by decide) hrest
    rw [Nat.add_assoc _ 1 i, Nat.add_comm 1 i] at hgrown
    simpa using hgrown

/-- The sums leave a layer at the smallest width that holds them, as far as the ladder goes. -/
theorem isLeast_widthOut (h : width ∈ Subword.ladder)
    (hl : (layersFrom q 1 n width 0)[i]? = some l) :
    IsLeast {w | w ∈ Subword.ladder ∧ min (width + (i + 1)) Subword.widest ≤ w} l.widthOut := by
  obtain ⟨⟨count, hroom⟩, -⟩ := headroom_tree h hl
  have hleast := hroom.isLeast
  rcases Nat.lt_or_ge width Subword.widest with hlt | hge
  · rwa [Nat.min_eq_left (Subword.le_previous_of_lt h (by decide) hlt), Nat.add_assoc] at hleast
  · -- the widest products are counted as narrower ones, but only the widest width holds even those
    obtain rfl := Nat.le_antisymm (Subword.le_widest h) hge
    have htop : l.widthOut = Subword.widest := by
      by_contra hne
      have hle := Subword.le_previous_of_lt hroom.width_mem (by decide)
        (Nat.lt_of_le_of_ne (Subword.le_widest hroom.width_mem) hne)
      have hlt : Subword.previous Subword.widest < Subword.widest := by decide
      have hmin := hroom.min_le
      omega
    rw [htop]
    refine ⟨⟨by decide, Nat.min_le_right _ _⟩, ?_⟩
    rintro w ⟨-, hmin⟩
    omega

/-- **Which layers report an overflow.** For products below the widest width, those whose sums
overflow. For products of the widest width all sums overflow, and the second layer to the eighth do
not report it. -/
theorem mayOverflow_iff (h : width ∈ Subword.ladder)
    (hl : (layersFrom q 1 n width 0)[i]? = some l) :
    l.mayOverflow = true ↔ l.widthOut < width + (i + 1) ∧
      (width = Subword.widest → i + 1 = 1 ∨ 9 ≤ i + 1) := by
  obtain ⟨⟨hmem, hmin⟩, -⟩ := isLeast_widthOut h hl
  have hout := Subword.le_widest hmem
  have hwidth := Subword.le_widest h
  rw [(headroom_tree h hl).2]
  rcases Nat.lt_or_ge width Subword.widest with hlt | hge
  · rw [Nat.min_eq_left (Subword.le_previous_of_lt h (by decide) hlt)]
    omega
  · obtain rfl := Nat.le_antisymm hwidth hge
    rw [show min Subword.widest (Subword.previous Subword.widest) = 16 by decide]
    rw [show Subword.widest = 24 from rfl] at *
    omega

/-- The layer at a position, as the tree makes it. -/
theorem exists_layer_of_getElem? (hl : (layersFrom q index inputs width sinceGrowth)[i]? = some l) :
    ∃ width' count, l = layer q (index + i) (sumsAfter inputs i) width' count := by
  induction i generalizing index inputs width sinceGrowth with
  | zero =>
    obtain ⟨-, rfl⟩ := getElem?_layersFrom_zero.mp hl
    exact ⟨width, sinceGrowth, rfl⟩
  | succ i ih =>
    obtain ⟨width', count, hlayer⟩ := ih (getElem?_layersFrom_succ.mp hl).2
    rw [Nat.add_right_comm] at hlayer
    exact ⟨width', count, hlayer⟩

/-- A layer takes half the sums away, rounded down, until one is left. -/
theorem length_layersFrom :
    (layersFrom q index inputs width sinceGrowth).length = Nat.clog 2 inputs := by
  fun_induction layersFrom q index inputs width sinceGrowth with
  | case1 index inputs width sinceGrowth hfew =>
    rw [List.length_nil, Nat.clog_of_right_le_one hfew]
  | case2 index inputs width sinceGrowth hmany l ih =>
    rw [dite_eq_ite] at ih
    rw [List.length_cons, ih, Nat.clog_of_two_le (by decide) (Nat.lt_of_not_le hmany), ceilDiv]

theorem closedForm (h : width ∈ Subword.ladder) (hl : (layersFrom q 1 n width 0)[i]? = some l) :
    l.ClosedForm n width (i + 1) := by
  have hsound := (widthChain_layersFrom h).sound hl
  have hleast := isLeast_widthOut h hl
  obtain ⟨width', count, rfl⟩ := exists_layer_of_getElem? hl
  refine ⟨Nat.add_comm 1 i, sumsAfter_eq_ceilDiv n i, ?_, rfl, hleast, ?_, ?_⟩
  · exact (sumsAfter_succ n i).symm.trans (sumsAfter_eq_ceilDiv n (i + 1))
  · intro hsome heq
    have hnone : (layer q (1 + i) (sumsAfter n i) width' count).step = none :=
      (congrArg (WidthStep.between? width') heq).trans
        (WidthStep.between?_self hsound.widthIn_mem)
    rw [hnone] at hsome
    exact absurd hsome (by decide)
  · intro hne
    rw [Option.isSome_iff_ne_none]
    exact fun hnone => hne (hsound.widthOut_eq hnone)

/-- The last layer leaves the dot product. -/
theorem outputs_getLast (hn : 0 < n) (h : width ∈ Subword.ladder)
    (hl : (layersFrom q 1 n width 0).getLast? = some l) : l.outputs = 1 := by
  rw [List.getLast?_eq_getElem?] at hl
  have hpos : 0 < (layersFrom q 1 n width 0).length :=
    Nat.zero_lt_of_lt (List.getElem?_eq_some_iff.mp hl).1
  have houtputs := (closedForm h hl).outputs_eq
  rw [Nat.sub_add_cancel hpos, length_layersFrom, ← sumsAfter_eq_ceilDiv] at houtputs
  have hle : sumsAfter n (Nat.clog 2 n) ≤ 1 := by
    rw [sumsAfter_le_iff, Nat.one_mul]
    exact Nat.le_pow_clog (by decide) n
  have hsums := sumsAfter_pos hn (Nat.clog 2 n)
  omega

/-- A layer that reports an overflow has sums of the widest width. -/
theorem widthIn_of_mayOverflow (h : width ∈ Subword.ladder)
    (hl : (layersFrom q 1 n width 0)[i]? = some l) (hreport : l.mayOverflow = true) :
    l.widthIn = Subword.widest := by
  have hle := Subword.le_widest ((widthChain_layersFrom h).sound hl).widthIn_mem
  obtain ⟨width', count, rfl⟩ := exists_layer_of_getElem? hl
  simp only [layer, Bool.and_eq_true, Bool.not_eq_true', decide_eq_false_iff_not] at hreport hle ⊢
  omega

/-- A tree is silent exactly if its sums never outgrow the widest width. -/
theorem warnings_layersFrom_eq_nil_iff (h : width ∈ Subword.ladder) :
    (AdderTree.mk (layersFrom q 1 n width 0)).warnings = [] ↔
      width + (layersFrom q 1 n width 0).length ≤ Subword.widest := by
  have hwidth := Subword.le_widest h
  rw [warnings, List.map_eq_nil_iff, List.filter_eq_nil_iff]
  constructor
  · intro hsilent
    by_contra hdeep
    -- the first layer reports for the widest products, the last one for all others
    obtain ⟨i, hi, hreports⟩ : ∃ i < (layersFrom q 1 n width 0).length,
        Subword.widest < width + (i + 1) ∧ (width = Subword.widest → i + 1 = 1 ∨ 9 ≤ i + 1) := by
      rcases Nat.lt_or_ge width Subword.widest with hlt | hge
      · exact ⟨(layersFrom q 1 n width 0).length - 1, by omega, by omega, by omega⟩
      · exact ⟨0, by omega, by omega, by omega⟩
    have hl := List.getElem?_eq_getElem hi
    have hout := Subword.le_widest (isLeast_widthOut h hl).1.1
    exact hsilent _ (List.getElem_mem hi) ((mayOverflow_iff h hl).mpr ⟨by omega, hreports.2⟩)
  · intro hshallow l hmem hreport
    obtain ⟨i, hl⟩ := List.mem_iff_getElem?.mp hmem
    have hi : i < (layersFrom q 1 n width 0).length := (List.getElem?_eq_some_iff.mp hl).1
    have hmin := (isLeast_widthOut h hl).1.2
    have hlt := ((mayOverflow_iff h hl).mp hreport).1
    omega

/-! ### Counts -/

/-- Registers hold the counts of the layer behind `i` others, over `n` products of the given width:
the additions at the width of the sums that enter, and the packs, if there are any, at the width of
those that leave. -/
def LayerCountsFit (n width q i : Nat) : Prop :=
  ceilDiv n (2 ^ i) / 2 * Subword.tiles q (Subword.fitting (width + i)) < UInt64.size ∧
    (Subword.fitting (width + (i + 1)) ≠ Subword.fitting (width + i) →
      ceilDiv n (2 ^ (i + 1)) * Subword.tiles q (Subword.fitting (width + (i + 1))) < UInt64.size)

/-- Registers hold the counts of all layers. -/
def CountsFit (n width q : Nat) : Prop := ∀ i < Nat.clog 2 n, LayerCountsFit n width q i

theorem widthOut_eq_fitting (h : width ∈ Subword.ladder)
    (hl : (layersFrom q 1 n width 0)[i]? = some l) :
    l.widthOut = Subword.fitting (width + (i + 1)) :=
  (isLeast_widthOut h hl).unique (Subword.isLeast_fitting _)

theorem widthIn_eq_fitting (h : width ∈ Subword.ladder)
    (hl : (layersFrom q 1 n width 0)[i]? = some l) : l.widthIn = Subword.fitting (width + i) := by
  have hin := (widthChain_layersFrom h).getElem?_widths hl
  cases i with
  | zero =>
    rw [Nat.add_zero, Subword.fitting_of_mem h]
    exact (Option.some.inj hin).symm
  | succ i =>
    rw [List.getElem?_cons_succ, List.getElem?_map, Option.map_eq_some_iff] at hin
    obtain ⟨before, hbefore, hin⟩ := hin
    rw [← hin, widthOut_eq_fitting h hbefore]

/-- The counts of a layer at a position. -/
theorem isCounted_iff_of_getElem? (h : width ∈ Subword.ladder)
    (hl : (layersFrom q 1 n width 0)[i]? = some l) :
    l.isCounted = true ↔ LayerCountsFit n width q i := by
  have hform := closedForm h hl
  have hadd : l.addCount = l.inputs / 2 * Subword.tiles q l.widthIn := by
    obtain ⟨width', count, rfl⟩ := exists_layer_of_getElem? hl
    rfl
  have hpack : l.packCount =
      if l.step.isSome then l.outputs * Subword.tiles q l.widthOut else 0 := by
    obtain ⟨width', count, rfl⟩ := exists_layer_of_getElem? hl
    rfl
  rw [TreeLayer.isCounted, Bool.and_eq_true, decide_eq_true_eq, decide_eq_true_eq, LayerCountsFit,
    hadd, hpack, ← widthIn_eq_fitting h hl, ← widthOut_eq_fitting h hl, hform.inputs_eq,
    hform.outputs_eq, Nat.add_sub_cancel]
  refine and_congr_right fun _ => ?_
  by_cases hstep : l.step.isSome
  · rw [if_pos hstep]
    exact (imp_iff_right (hform.step_iff.mp hstep)).symm
  · rw [if_neg hstep]
    exact iff_of_true (by decide) fun hne => absurd (hform.step_iff.mpr hne) hstep

/-- **Which dot products have a tree,** among those of a length and a supported width. -/
theorem all_isCounted_iff (h : width ∈ Subword.ladder) :
    (layersFrom q 1 n width 0).all (·.isCounted) = true ↔ CountsFit n width q := by
  rw [List.all_eq_true]
  constructor
  · intro hall i hi
    have hlength : (layersFrom q 1 n width 0).length = Nat.clog 2 n := length_layersFrom
    rw [← hlength] at hi
    exact (isCounted_iff_of_getElem? h (List.getElem?_eq_getElem hi)).mp
      (hall _ (List.getElem_mem hi))
  · intro hfit l hmem
    obtain ⟨i, hl⟩ := List.mem_iff_getElem?.mp hmem
    have hi := (List.getElem?_eq_some_iff.mp hl).1
    rw [length_layersFrom] at hi
    exact (isCounted_iff_of_getElem? h hl).mpr (hfit i hi)

/-- **The layers of a tree in closed form.** A dot product of a supported width has a tree exactly
if registers hold its counts, and otherwise overflows; it is enough that they hold one instruction
for every product and every tile of the widest width. The number of layers is the logarithm of the
length, rounded up; the sums are halved and rounded up at each layer, and leave it at the smallest
width that holds them, as far as the ladder goes. So the tree is silent exactly if the widest width
holds the dot product, and then every layer holds its sums. -/
theorem build_closed_form (q : Nat) (hn : 0 < n) (hwidth : width ∈ Subword.ladder) :
    ((∃ t, build n width q = .ok t) ↔ CountsFit n width q) ∧
    (build n width q = .error .overflow ↔ ¬ CountsFit n width q) ∧
    (n * Subword.tiles q Subword.widest < UInt64.size → CountsFit n width q) ∧
    ∀ t, build n width q = .ok t →
      t.depth = Nat.clog 2 n ∧
      (∀ (i : Nat) (l : TreeLayer), t.layers[i]? = some l → l.ClosedForm n width (i + 1) ∧
        (width :: t.layers.map (·.widthOut))[i]? = some l.widthIn) ∧
      (∀ l, t.layers.getLast? = some l → l.outputs = 1) ∧
      (t.warnings = [] ↔ width + t.depth ≤ Subword.widest) ∧
      (t.warnings = [] → ∀ (i : Nat) (l : TreeLayer), t.layers[i]? = some l →
        width + (i + 1) ≤ l.widthOut ∧ Subword.HoldsSums l.widthOut width (i + 1)) := by
  have hpos := Subword.pos_of_mem hwidth
  have hsilent := warnings_layersFrom_eq_nil_iff (q := q) (n := n) hwidth
  refine ⟨?_, ?_, ?_, ?_⟩
  · rw [← all_isCounted_iff hwidth]
    simp only [build_eq_ok_iff, hn, hwidth, true_and, exists_and_left, exists_eq', and_true]
  · rw [← all_isCounted_iff hwidth]
    exact build_eq_overflow_iff hn hwidth
  · intro hfit
    exact (all_isCounted_iff hwidth).mp (all_isCounted_layersFrom hwidth hfit)
  intro t ht
  obtain ⟨-, -, -, rfl⟩ := build_eq_ok_iff.mp ht
  refine ⟨length_layersFrom, ?_, ?_, hsilent, ?_⟩
  · intro i l hl
    exact ⟨closedForm hwidth hl, (widthChain_layersFrom hwidth).getElem?_widths hl⟩
  · intro l hl
    exact outputs_getLast hn hwidth hl
  · intro hnone i l hl
    have hdepth := hsilent.mp hnone
    have hi : i < (layersFrom q 1 n width 0).length := (List.getElem?_eq_some_iff.mp hl).1
    have hmin := (isLeast_widthOut hwidth hl).1.2
    have hle : width + (i + 1) ≤ l.widthOut := by omega
    exact ⟨hle, (Subword.holdsSums_iff hpos).mpr hle⟩

/-- Dot products of length 500 and 16 bits: nine layers, the last of which outgrows the ladder. -/
theorem build_closed_form_nine_layers :
    0 < 500 ∧ 16 ∈ Subword.ladder ∧
      ∃ t, build 500 16 8 = .ok t ∧ t.depth = 9 ∧ t.warnings ≠ [] ∧
        ∃ l, t.layers[8]? = some l ∧ l.ClosedForm 500 16 9 ∧ l.outputs = 1 := by
  have hwidth : 16 ∈ Subword.ladder := by decide
  obtain ⟨hbuilds, -, hfits, htrees⟩ := build_closed_form (n := 500) 8 (by decide) hwidth
  obtain ⟨t, hbuild⟩ := hbuilds.mpr (hfits (by decide))
  obtain ⟨hdepth, hlayers, -, hsilent, -⟩ := htrees t hbuild
  have hnine : t.depth = 9 := hdepth.trans (by decide +kernel)
  have hlt : 8 < t.layers.length := by
    rw [← depth, hnine]
    decide
  have hform := (hlayers 8 _ (List.getElem?_eq_getElem hlt)).1
  refine ⟨by decide, hwidth, t, hbuild, hnine, ?_, _, List.getElem?_eq_getElem hlt, hform,
    hform.outputs_eq.trans (by decide)⟩
  rw [ne_eq, hsilent, hnine]
  decide

/-- Not every dot product has a tree: with so many columns, 64 bits do not count the additions of
the first layer. -/
theorem build_counts_overflow : build 18 24 (UInt64.size - 1) = .error .overflow := by
  refine (build_eq_overflow_iff (by decide) (by decide)).mpr ?_
  decide +kernel

/-- **The layers that report an overflow.** Below the widest width these are the layers whose sums
overflow, and the tree has one remark for each of them in order. For products of the widest width,
the first layer reports and those from the ninth on do. This is so of every tree, and there is one
unless the counts are too large for registers. -/
theorem build_overflow_reports (q : Nat) (hn : 0 < n) (hwidth : width ∈ Subword.ladder) :
    (n * Subword.tiles q Subword.widest < UInt64.size → ∃ t, build n width q = .ok t) ∧
    ∀ t, build n width q = .ok t →
      (∀ (i : Nat) (l : TreeLayer), t.layers[i]? = some l →
        (l.mayOverflow = true ↔ l.widthOut < width + (i + 1) ∧
          (width = Subword.widest → i + 1 = 1 ∨ 9 ≤ i + 1)) ∧
        (l.widthOut < width + (i + 1) ↔ ¬ Subword.HoldsSums l.widthOut width (i + 1))) ∧
      t.warnings =
        (t.layers.filter fun l => l.widthOut < width + l.index ∧
          (width = Subword.widest → l.index = 1 ∨ 9 ≤ l.index)).map
          fun l => { notice := .mayOverflow l.index Subword.widest } := by
  have hpos := Subword.pos_of_mem hwidth
  refine ⟨fun hfit => ⟨_, build_eq_ok hn hwidth hfit⟩, ?_⟩
  intro t ht
  obtain ⟨-, -, -, rfl⟩ := build_eq_ok_iff.mp ht
  constructor
  · intro i l hl
    refine ⟨mayOverflow_iff hwidth hl, ?_⟩
    rw [Subword.holdsSums_iff hpos, Nat.not_le]
  · -- a layer knows its own position, so the remarks can be read off the layers
    have hlayer : ∀ l ∈ layersFrom q 1 n width 0, l.mayOverflow =
        decide (l.widthOut < width + l.index ∧
          (width = Subword.widest → l.index = 1 ∨ 9 ≤ l.index)) := by
      intro l hmem
      obtain ⟨i, hl⟩ := List.mem_iff_getElem?.mp hmem
      rw [Bool.eq_iff_iff, decide_eq_true_iff, (closedForm hwidth hl).index_eq]
      exact mayOverflow_iff hwidth hl
    rw [warnings, List.filter_congr hlayer]
    refine List.map_congr_left fun l hmem => ?_
    obtain ⟨hmem, hreport⟩ := List.mem_filter.mp hmem
    obtain ⟨i, hl⟩ := List.mem_iff_getElem?.mp hmem
    rw [← hlayer l hmem] at hreport
    rw [widthIn_of_mayOverflow hwidth hl hreport]

/-- Products of 24 bits: ten layers, of which the first and the last two report. -/
theorem build_overflow_reports_widest :
    0 < 1024 ∧ 24 ∈ Subword.ladder ∧
      ∃ t, build 1024 24 8 = .ok t ∧ t.depth = 10 ∧
        t.warnings.map (·.notice) = [.mayOverflow 1 24, .mayOverflow 9 24, .mayOverflow 10 24] := by
  have hwidth : 24 ∈ Subword.ladder := by decide
  obtain ⟨hbuilds, htrees⟩ := build_overflow_reports (n := 1024) 8 (by decide) hwidth
  obtain ⟨t, hbuild⟩ := hbuilds (by decide)
  obtain ⟨-, hwarnings⟩ := htrees t hbuild
  obtain ⟨-, -, -, rfl⟩ := build_eq_ok_iff.mp hbuild
  refine ⟨by decide, hwidth, _, hbuild, ?_, ?_⟩
  · decide +kernel
  · rw [hwarnings]
    decide +kernel

/-- Not every layer whose sums overflow reports it: of the two layers over four products of 24 bits
only the first does. -/
theorem widest_second_layer_silent :
    ∃ t l, build 4 24 8 = .ok t ∧ t.depth = 2 ∧ t.layers[1]? = some l ∧ l.widthOut < 24 + 2 ∧
      l.mayOverflow = false ∧ t.warnings.length = 1 := by
  refine ⟨⟨layersFrom 8 1 4 24 0⟩, layer 8 2 2 24 1,
    build_eq_ok (by decide) (by decide) (by decide), ?_⟩
  decide +kernel

end Layers

end AdderTree

end NearMemory
