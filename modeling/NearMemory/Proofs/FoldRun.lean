import NearMemory.Proofs.LayerFold

/-!
# Layers folded in turn

A run of folding goes from layer to layer, and every layer finds its packets where the one before
left them. The invariant of a run, `Folding.Tracks`, ties the cursor to the packets and to the
operations: the sums left are those of the count halved once a layer, the operations issued are
counted, and packets and operations stay inside the very wide registers.

## Main definitions

* `Folding.Tracks` — the invariant of a run

## Main results

* `Folding.Tracks.advance` — one layer keeps the invariant
* `Folding.Tracks.foldLayers` — a run keeps it, and the budget
* `Reducer.lt_layer_foldLayers` — a run whose first layer fits gets somewhere
-/

namespace NearMemory

/-- The state of folding `count` sums from layer `first` on, behind `front` instructions, when the
sums have reached the given width. -/
structure Folding.Tracks (r : Reducer) (words first count front width : Nat) (f : Folding) :
    Prop where
  first_le : first ≤ f.cursor.layer
  operands_eq : f.cursor.operands = f.packets.length
  length_packets : f.packets.length = sumsAfter count (f.cursor.layer - first)
  half_lt : f.cursor.half < 2
  packets_fit : ∀ p ∈ f.packets, p.Fits (Subword.wordsPerPacket r.initial width) words
  issued_eq : f.cursor.issued = front + f.out.length
  out_folds : ∀ op ∈ f.out, FoldOperation words op

namespace Folding.Tracks

variable {r : Reducer} {words first count front width budget : Nat} {f : Folding}

/-- **One layer.** The sums move to the other half at the width of the layer. -/
theorem advance {l : TreeLayer} {folded : FoldedLayer}
    (h : f.Tracks r words first count front width)
    (hwords : 2 * r.wordsPerHalf ≤ words) (hwidth : l.widthIn = width) (hl : l.Sound)
    (hfolded : r.foldLayer? l f.packets f.cursor.half = some folded) :
    (f.advance folded).Tracks r words first count front l.widthOut := by
  subst hwidth
  have hhalves := Reducer.halves_of_foldLayer? hl h.half_lt hwords h.packets_fit hfolded
  have hfirst := h.first_le
  refine ⟨Nat.le_succ_of_le hfirst, hhalves.reduced_add_carried, ?_, ?_, hhalves.packets_fit, ?_,
    ?_⟩
  · show folded.packets.length = sumsAfter count (f.cursor.layer + 1 - first)
    rw [Nat.succ_sub hfirst, sumsAfter_succ, ← h.length_packets, hhalves.length_packets]
  · exact Nat.xor_lt_two_pow (n := 1) h.half_lt Nat.one_lt_two
  · show f.cursor.issued + folded.size = front + (f.out ++ folded.operations).length
    rw [h.issued_eq, folded.size_eq_length_operations, List.length_append, Nat.add_assoc]
  · intro op hop
    rcases List.mem_append.mp hop with hop | hop
    · exact h.out_folds op hop
    · exact hhalves.operations_fold op hop

/-- **A run.** By induction on the layers that are left, each of which takes the width of the one
before. -/
theorem foldLayers {layers : List TreeLayer} (h : f.Tracks r words first count front width)
    (limit : Option Nat) (hwords : 2 * r.wordsPerHalf ≤ words) (hchain : WidthChain width layers)
    (hbudget : f.cursor.issued ≤ budget) :
    ∃ width', (r.foldLayers budget limit layers f).1.Tracks r words first count front width' ∧
      (r.foldLayers budget limit layers f).1.cursor.issued ≤ budget := by
  induction layers generalizing f width with
  | nil => exact ⟨width, h, hbudget⟩
  | cons l rest ih =>
    obtain ⟨hwidth, hl, hrest⟩ := hchain
    rw [Reducer.foldLayers]
    split
    · exact ⟨width, h, hbudget⟩
    split
    · exact ⟨width, h, hbudget⟩
    split
    · exact ⟨width, h, hbudget⟩
    next folded hfolded =>
      split
      · exact ⟨width, h, hbudget⟩
      next hfits => exact ih (h.advance hwords hwidth hl hfolded) hrest (Nat.le_of_not_lt hfits)

end Folding.Tracks

namespace Reducer

variable {r : Reducer} {budget : Nat} {f : Folding}

theorem le_layer_foldLayers (r : Reducer) (budget : Nat) (limit : Option Nat)
    (layers : List TreeLayer) (f : Folding) :
    f.cursor.layer ≤ (r.foldLayers budget limit layers f).1.cursor.layer := by
  fun_induction foldLayers r budget limit layers f with
  | case6 => exact Nat.le_of_succ_le ‹_›
  | _ => exact Nat.le_refl _

theorem layer_foldLayers_le (r : Reducer) (budget : Nat) (limit : Option Nat)
    (layers : List TreeLayer) (f : Folding) :
    (r.foldLayers budget limit layers f).1.cursor.layer ≤ f.cursor.layer + layers.length := by
  fun_induction foldLayers r budget limit layers f with
  | case6 l rest f _ _ folded _ _ ih =>
    refine Nat.le_trans ih ?_
    show f.cursor.layer + 1 + rest.length ≤ f.cursor.layer + (l :: rest).length
    rw [List.length_cons]
    omega
  | _ => exact Nat.le_add_right _ _

/-- Folding stops here or folds the next layer. -/
theorem foldLayers_cons_cases (r : Reducer) (budget : Nat) (limit : Option Nat) (l : TreeLayer)
    (rest : List TreeLayer) (f : Folding) :
    (r.foldLayers budget limit (l :: rest) f).1 = f ∨
      ∃ folded, r.foldLayer? l f.packets f.cursor.half = some folded ∧
        f.cursor.issued + folded.size ≤ budget ∧
        r.foldLayers budget limit (l :: rest) f =
          r.foldLayers budget limit rest (f.advance folded) := by
  rw [foldLayers]
  split
  · exact .inl rfl
  split
  · exact .inl rfl
  split
  · exact .inl rfl
  next folded hfolded =>
    split
    · exact .inl rfl
    next hbudget => exact .inr ⟨folded, hfolded, Nat.le_of_not_lt hbudget, rfl⟩

/-- **Progress.** At least two sums whose first layer fits are folded by a layer at least. -/
theorem lt_layer_foldLayers {l : TreeLayer} {rest : List TreeLayer} {folded : FoldedLayer}
    (hsums : 2 ≤ f.packets.length)
    (hfolded : r.foldLayer? l f.packets f.cursor.half = some folded)
    (hbudget : f.cursor.issued + folded.size ≤ budget) :
    f.cursor.layer < (r.foldLayers budget none (l :: rest) f).1.cursor.layer := by
  have hmany : (f.packets.isEmpty || (f.packets.length == 1 && (none : Option Nat).isNone))
      = false := by
    have hne : f.packets ≠ [] := List.ne_nil_of_length_pos (by omega)
    have hone : f.packets.length ≠ 1 := by omega
    simp [hne, hone]
  rw [foldLayers, if_neg (by simp), hmany, if_neg Bool.false_ne_true, hfolded]
  simp only [if_neg (Nat.not_lt.mpr hbudget)]
  exact le_layer_foldLayers r budget none rest (f.advance folded)

end Reducer

end NearMemory
