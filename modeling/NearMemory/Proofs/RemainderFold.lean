import NearMemory.Proofs.ScheduleRun

/-!
# The remainder is folded as far as the full chunks

The sums of the remainder chunk meet those of the full chunks in one reduction, so they have to be
of the same width: the remainder is folded up to the layer where the full chunks stop. The two are
folded under different rules. A full chunk stops as soon as a single sum is left, while the
remainder carries a single sum on; a full chunk may stop for want of room or of entries at a layer
that the remainder never looks at.

They have the order of costs in common: fewer packets need no more words and no more operations
(`Reducer.foldFrom?_of_length_le`). `Folding.Trails` is this comparison of two runs, layer by layer.
Whatever layer the run with more sums folds, the other one can fold as well, and is still behind in
sums and operations after it. So the layer where the first one stops is reached by the second.

## Main definitions

* `Folding.Trails` — a run beside another one that has more sums at the same layer
* `chunkFront`, `Folding.ofChunk` — a chunk up to the end of its first layer

## Main results

* `Folding.Trails.advance` — a layer that the one run folds, the other one folds too
* `Folding.Trails.layer_foldLayers` — the run with fewer sums reaches the layer of the other one
* `Body.layer_ofChunk_of_lt` — a smaller chunk reaches the layer of a larger one
* `Plan.remainder_folds_as_far` — the remainder of a plan is never left behind
-/

namespace NearMemory

/-! ### Two runs of folding -/

namespace Reducer

variable {r : Reducer} {l : TreeLayer} {rest : List TreeLayer} {budget : Nat} {f : Folding}

/-- Nothing is folded at the limit. -/
theorem foldLayers_at_limit (r : Reducer) (budget : Nat) (layers : List TreeLayer) (f : Folding) :
    (r.foldLayers budget (some f.cursor.layer) layers f).1 = f := by
  cases layers with
  | nil => rfl
  | cons l rest =>
    rw [foldLayers, if_pos]
    simp

/-- Below the limit only room and entries count, however few sums there are. -/
theorem foldLayers_cons_of_lt {reached : Nat} {folded : FoldedLayer}
    (hlt : f.cursor.layer < reached) (hpos : 0 < f.packets.length)
    (hfolded : r.foldLayer? l f.packets f.cursor.half = some folded)
    (hbudget : f.cursor.issued + folded.size ≤ budget) :
    r.foldLayers budget (some reached) (l :: rest) f =
      r.foldLayers budget (some reached) rest (f.advance folded) := by
  have hbelow : (some reached).any (· ≤ f.cursor.layer) = false := by
    simpa using hlt
  have hsome : (f.packets.isEmpty || (f.packets.length == 1 && (some reached).isNone)) = false := by
    simp [List.ne_nil_of_length_pos hpos]
  rw [foldLayers, hbelow, hsome, hfolded]
  simp only [Bool.false_eq_true, if_false, if_neg (Nat.not_lt.mpr hbudget)]

end Reducer

/-- A run of folding at the same layer as another one, with some sums but no more than that one, and
with no more instructions. -/
structure Folding.Trails (trailing leading : Folding) : Prop where
  layer_eq : trailing.cursor.layer = leading.cursor.layer
  half_eq : trailing.cursor.half = leading.cursor.half
  issued_le : trailing.cursor.issued ≤ leading.cursor.issued
  length_pos : 0 < trailing.packets.length
  length_le : trailing.packets.length ≤ leading.packets.length

namespace Folding.Trails

variable {r : Reducer} {f g : Folding}

/-- **One layer.** What the leading run folds, the trailing run folds at no higher cost. -/
theorem advance {l : TreeLayer} {folded : FoldedLayer} (h : g.Trails f)
    (hfolded : r.foldLayer? l f.packets f.cursor.half = some folded) :
    ∃ folded', r.foldLayer? l g.packets g.cursor.half = some folded' ∧
      folded'.size ≤ folded.size ∧ (g.advance folded').Trails (f.advance folded) := by
  obtain ⟨folded', hfolded', hsize⟩ := Reducer.foldFrom?_of_length_le hfolded h.length_le
  rw [← h.half_eq] at hfolded'
  have hleading := Reducer.length_packets_of_foldFrom? hfolded
  have htrailing := Reducer.length_packets_of_foldFrom? hfolded'
  have hpos := h.length_pos
  have hle := h.length_le
  rw [ceilDiv_two] at hleading htrailing
  refine ⟨folded', hfolded', hsize, ?_, ?_, ?_, ?_, ?_⟩
  · exact congrArg (· + 1) h.layer_eq
  · exact congrArg (· ^^^ 1) h.half_eq
  · exact Nat.add_le_add h.issued_le hsize
  · show 0 < folded'.packets.length
    omega
  · show folded'.packets.length ≤ folded.packets.length
    omega

/-- **The run.** Where the leading run stops, for whatever reason, is where the trailing run gets
to. By induction on the layers that are left. -/
theorem layer_foldLayers (h : g.Trails f) (r : Reducer) (budget : Nat) (layers : List TreeLayer) :
    (r.foldLayers budget (some (r.foldLayers budget none layers f).1.cursor.layer) layers
      g).1.cursor.layer = (r.foldLayers budget none layers f).1.cursor.layer := by
  induction layers generalizing f g with
  | nil => exact h.layer_eq
  | cons l rest ih =>
    rcases r.foldLayers_cons_cases budget none l rest f with
      hstop | ⟨folded, hfolded, hbudget, hrun⟩
    · rw [hstop, ← h.layer_eq, Reducer.foldLayers_at_limit]
    · obtain ⟨folded', hfolded', hsize, hnext⟩ := h.advance hfolded
      have hissued := h.issued_le
      have hlt : g.cursor.layer <
          (r.foldLayers budget none rest (f.advance folded)).1.cursor.layer := by
        rw [h.layer_eq]
        exact r.le_layer_foldLayers budget none rest (f.advance folded)
      rw [hrun, Reducer.foldLayers_cons_of_lt hlt h.length_pos hfolded' (by omega)]
      exact ih hnext

end Folding.Trails

/-! ### Two chunks -/

/-- The instructions of a chunk up to the end of its first layer. -/
def chunkFront (width nops count : Nat) (first : FoldedLayer) : List Instruction :=
  chunkLoads count ++ chunkMultiplies width nops count first.pairs ++ first.carry.map .plain

/-- The state of folding behind the first layer of a chunk. -/
def Folding.ofChunk (width nops count : Nat) (first : FoldedLayer) : Folding where
  cursor :=
    { layer := 1
      issued := (chunkFront width nops count first).length
      operands := first.reduced + first.carried
      half := 1 }
  packets := first.packets

section Chunk

variable {hw : Hardware} {r : Reducer} {limit : Option Nat} {nops count : Nat}
  {first : FoldedLayer}

theorem length_chunkFront (width nops : Nat) (h : first.pairs.length ≤ count / 2) :
    (chunkFront width nops count first).length = chunkCost nops count (some first) := by
  rw [chunkFront, List.length_append, List.length_append, List.length_map, length_chunkLoads,
    length_chunkMultiplies width nops h, chunkCost, Option.map_some, Option.getD_some,
    FoldedLayer.size_eq_sum]
  omega

theorem Body.cursor_ofChunk (hw : Hardware) (nops : Nat)
    (h : chunkLayer? r count limit = some first) :
    (Body.ofChunk hw r nops count limit).cursor =
      (r.foldLayers (bodyBudget hw) limit (r.layers.drop 1)
        (.ofChunk r.initial nops count first)).1.cursor := by
  rw [Body.ofChunk, h]
  rfl

/-- The first layer of a chunk of more than one product that is known to fit. -/
theorem exists_chunkLayer?_of_fits {entries : Nat} (hfits : Plan.fits r nops entries count = true)
    (hcount : 1 < count) :
    ∃ first, chunkLayer? r count none = some first ∧
      r.foldAt? 0 (loadedPackets count 1) 0 = some first := by
  obtain ⟨cost, hcost, -⟩ := Plan.fits_iff.mp hfits
  rw [Plan.foldCost?, if_neg (Nat.not_lt.mpr hcount)] at hcost
  obtain ⟨first, hfirst, -⟩ := Option.map_eq_some_iff.mp hcost
  refine ⟨first, ?_, hfirst⟩
  rw [chunkLayer?, Option.elim_none, if_pos (decide_eq_true hcount), hfirst]

/-- The first layer of a smaller chunk, if it is to be folded at all. -/
theorem exists_chunkLayer?_of_le {c reached : Nat}
    (hfirst : r.foldAt? 0 (loadedPackets c 1) 0 = some first) (hle : count ≤ c)
    (hreached : 0 < reached) :
    ∃ first', chunkLayer? r count (some reached) = some first' ∧ first'.size ≤ first.size := by
  obtain ⟨first', hfirst', hsize⟩ := Reducer.foldAt?_of_length_le hfirst
    (show (loadedPackets count 1).length ≤ _ by simpa using hle)
  refine ⟨first', ?_, hsize⟩
  rw [chunkLayer?, Option.elim_some, if_pos (decide_eq_true hreached), hfirst']

theorem chunkCost_mono {c : Nat} {first' : FoldedLayer} (nops : Nat) (hle : count ≤ c)
    (hsize : first'.size ≤ first.size) :
    chunkCost nops count (some first') ≤ chunkCost nops c (some first) := by
  have hmul : count * (1 + nops) ≤ c * (1 + nops) := Nat.mul_le_mul_right _ hle
  have hreads : (if 1 < count then 2 else 1) ≤ (if 1 < c then 2 else 1) := by
    split <;> split <;> omega
  simp only [chunkCost, Option.map_some, Option.getD_some]
  omega

/-- A smaller chunk starts behind a larger one. -/
theorem Folding.trails_ofChunk {c words packet packet' : Nat} {first' : FoldedLayer}
    (width nops : Nat) (hpos : 0 < count) (hle : count ≤ c)
    (hhalves : first.Halves words packet c) (hhalves' : first'.Halves words packet' count)
    (hsize : first'.size ≤ first.size) :
    (Folding.ofChunk width nops count first').Trails (.ofChunk width nops c first) := by
  refine ⟨rfl, rfl, ?_, ?_, ?_⟩
  · show (chunkFront ..).length ≤ (chunkFront ..).length
    rw [length_chunkFront _ _ (Nat.le_of_eq hhalves.length_pairs),
      length_chunkFront _ _ (Nat.le_of_eq hhalves'.length_pairs)]
    exact chunkCost_mono nops hle hsize
  · show 0 < first'.packets.length
    rw [hhalves'.length_packets, ceilDiv_two]
    omega
  · show first'.packets.length ≤ first.packets.length
    rw [hhalves'.length_packets, hhalves.length_packets, ceilDiv_two, ceilDiv_two]
    omega

/-- **A smaller chunk is folded as far as a larger one.** The size `c` is one that is known to
fit. -/
theorem Body.layer_ofChunk_of_lt {c : Nat} (hhw : hw.WithinLimits) (hr : r.Sound hw)
    (hfits : Plan.fits r nops hw.bufferEntries c = true) (hpos : 0 < count) (hlt : count < c)
    (hwords : c ≤ hw.registerWords) :
    (Body.ofChunk hw r nops count
      (some (Body.ofChunk hw r nops c none).cursor.layer)).cursor.layer =
        (Body.ofChunk hw r nops c none).cursor.layer := by
  obtain ⟨first, hfirst, hfold⟩ := exists_chunkLayer?_of_fits hfits (show 1 < c by omega)
  obtain ⟨l, -, hhalves⟩ := halves_of_chunkLayer? hhw hr hwords hfirst
  rw [cursor_ofChunk hw nops hfirst]
  have hone : 1 ≤ (r.foldLayers (bodyBudget hw) none (r.layers.drop 1)
      (.ofChunk r.initial nops c first)).1.cursor.layer :=
    r.le_layer_foldLayers (bodyBudget hw) none _ (.ofChunk r.initial nops c first)
  obtain ⟨first', hfirst', hsize⟩ := exists_chunkLayer?_of_le hfold (Nat.le_of_lt hlt) hone
  obtain ⟨l', -, hhalves'⟩ := halves_of_chunkLayer? hhw hr (by omega) hfirst'
  rw [cursor_ofChunk hw nops hfirst']
  exact (Folding.trails_ofChunk r.initial nops hpos (Nat.le_of_lt hlt) hhalves hhalves'
    hsize).layer_foldLayers r (bodyBudget hw) (r.layers.drop 1)

end Chunk

/-! ### Plans -/

theorem bind_eq_error_iff {ε α β : Type} {x : Except ε α} {f : α → Except ε β} {e : ε} :
    x >>= f = .error e ↔ x = .error e ∨ ∃ a, x = .ok a ∧ f a = .error e := by
  cases x with
  | error e' => simp [bind, Except.bind]
  | ok a => simp [bind, Except.bind]

theorem map_eq_error_iff {ε α β : Type} {x : Except ε α} {f : α → β} {e : ε} :
    x.map f = .error e ↔ x = .error e := by
  cases x with
  | error e' => simp [Except.map]
  | ok a => simp [Except.map]

/-- A pass can only overflow when it is staged. -/
theorem Pass.eq_overflow_of_staged {hw : Hardware} {p : Pass} {e : ScheduleError}
    (h : p.staged hw = .error e) : e = .overflow := by
  rw [Pass.staged] at h
  split at h
  · contradiction
  · exact (Except.error.inj h).symm

theorem eq_overflow_of_counted {n : Nat} {e : ScheduleError} (h : counted n = .error e) :
    e = .overflow := by
  rw [counted] at h
  split at h
  · contradiction
  · exact (Except.error.inj h).symm

/-- The passes behind the chunks have other reasons to fail. -/
theorem reductionPasses_ne_remainder (hw : Hardware) (r : Reducer)
    (tiles limit layer operands products stopped reached : Nat) :
    reductionPasses hw r tiles limit layer operands ≠
      .error (.remainder products stopped reached) := by
  fun_induction reductionPasses hw r tiles limit layer operands with
  | case1 => rintro ⟨⟩
  | case2 => rintro ⟨⟩
  | case3 layer operands _ limit l _ widest _ ih =>
    intro hfail
    rcases bind_eq_error_iff.mp hfail with hstaged | ⟨pass, -, hrest⟩
    · cases Pass.eq_overflow_of_staged hstaged
    · exact ih pass (map_eq_error_iff.mp hrest)
  | case4 =>
    intro hfail
    have htail := map_eq_error_iff.mp hfail
    rw [tailPass] at htail
    split at htail
    · cases htail
    · cases Pass.eq_overflow_of_staged htail

/-- **The remainder is folded as far as the full chunks.** For every plan that is made with a
remainder, the body of the remainder stops at the very layer where the body of the full chunks
stops, so no schedule is refused because of it. -/
theorem Plan.remainder_folds_as_far {hw : Hardware} {w : Workload} {plan : Plan}
    (h : Plan.make hw w = .ok plan) (hremainder : 0 < plan.remainder) :
    let r := Reducer.ofTree plan.tree w.subwordWidth hw
    let reached := (Body.ofChunk hw r plan.padding.nops plan.chunk none).cursor.layer
    (Body.ofChunk hw r plan.padding.nops plan.remainder (some reached)).cursor.layer = reached ∧
      ∀ products stopped target,
        Schedule.ofPlan hw w plan ≠ .error (.remainder products stopped target) := by
  intro r reached
  have hsound := sound_of_make h
  have hlayer : (Body.ofChunk hw r plan.padding.nops plan.remainder (some reached)).cursor.layer =
      reached :=
    Body.layer_ofChunk_of_lt hsound.limits hsound.sound_reducer hsound.chunk_fits hremainder
      hsound.remainder_lt hsound.chunk_le_registerWords
  refine ⟨hlayer, ?_⟩
  intro products stopped target
  have hpass : remainderPass? hw r plan reached ≠ .error (.remainder products stopped target) := by
    rw [remainderPass?, if_neg (Nat.ne_of_gt hremainder)]
    dsimp only
    rw [if_pos hlayer]
    intro hfail
    cases Pass.eq_overflow_of_staged (map_eq_error_iff.mp hfail)
  intro hfail
  rw [Schedule.ofPlan, if_neg (Nat.not_lt.mpr hsound.reservedEntries_le)] at hfail
  -- the steps of the scheduler in turn, of which only that of the remainder could fail in this way
  rcases bind_eq_error_iff.mp hfail with hstaged | ⟨full, hfull, hfail⟩
  · cases Pass.eq_overflow_of_staged hstaged
  obtain ⟨-, rfl⟩ := Pass.staged_eq_ok_iff.mp hfull
  rcases bind_eq_error_iff.mp hfail with hcount | ⟨_, -, hfail⟩
  · cases eq_overflow_of_counted hcount
  rcases bind_eq_error_iff.mp hfail with hremainder | ⟨_, -, hfail⟩
  · exact hpass hremainder
  rcases bind_eq_error_iff.mp hfail with hcount | ⟨_, -, hfail⟩
  · cases eq_overflow_of_counted hcount
  rcases bind_eq_error_iff.mp hfail with hrest | ⟨_, -, hdone⟩
  · exact reductionPasses_ne_remainder _ _ _ _ _ _ _ _ _ hrest
  · contradiction

/-- Chunks of eight products have two sums left when the buffer is full, after two of five layers.
The remainder is a single product, which is carried through the same two layers. -/
theorem Plan.remainder_folds_as_far_single :
    ∃ plan, Plan.make { registerWords := 8 } { m := 2, n := 17, q := 8, digitLength := 2 } =
        .ok plan ∧
      plan.chunk = 8 ∧ plan.remainder = 1 ∧ plan.tree.depth = 5 ∧
      (let r := Reducer.ofTree plan.tree 8 { registerWords := 8 }
      let full := Body.ofChunk { registerWords := 8 } r plan.padding.nops plan.chunk none
      full.cursor.layer = 2 ∧ full.cursor.operands = 2 ∧
        (Body.ofChunk { registerWords := 8 } r plan.padding.nops plan.remainder
          (some 2)).cursor.layer = 2) ∧
      ∀ products stopped target,
        Schedule.ofPlan { registerWords := 8 } { m := 2, n := 17, q := 8, digitLength := 2 } plan ≠
          .error (.remainder products stopped target) := by
  have hvalues : (Plan.make { registerWords := 8 }
      { m := 2, n := 17, q := 8, digitLength := 2 }).toOption.map (fun plan =>
        let full := Body.ofChunk { registerWords := 8 } (.ofTree plan.tree 8 { registerWords := 8 })
          plan.padding.nops plan.chunk none
        (plan.chunk, plan.remainder, plan.tree.depth, full.cursor.layer, full.cursor.operands)) =
      some (8, 1, 5, 2, 2) := by
    decide +kernel
  obtain ⟨plan, hplan, hvalues⟩ := Option.map_eq_some_iff.mp hvalues
  simp only [Prod.mk.injEq] at hvalues
  obtain ⟨hchunk, hremainder, hdepth, hlayer, hoperands⟩ := hvalues
  have hok := toOption_eq_some_iff.mp hplan
  obtain ⟨hreached, hfail⟩ := remainder_folds_as_far hok (by omega)
  refine ⟨plan, hok, hchunk, hremainder, hdepth, ⟨hlayer, hoperands, ?_⟩, hfail⟩
  rwa [hlayer] at hreached

end NearMemory
