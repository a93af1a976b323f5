import NearMemory.Proofs.LayerLayout

/-!
# Where folding stops

Folding goes on from layer to layer until there is a reason to stop. The reasons are said here of
the state alone (`FoldStop.Holds`), without folding anything but the next layer, and they are asked
in a fixed order, so that the one that is given is the first that holds. What folding does at a
state is then said once: it stops there for the first reason that holds, or none holds and it goes
on behind the next layer (`Reducer.fold_cases`). Everything else is an induction on the layers left,
and that one is packaged as well (`Reducer.fold_induction`).

Folding keeps nothing but the state from one layer to the next. It can therefore be interrupted:
under bounds that are reached no later than those of a second run, a first run stops somewhere on
the way of the second, which resumes there as if it had come all the way by itself.

## Main definitions

* `FoldStop.Holds`, `FoldStop.IsFirst` — the reasons to stop, and the one that is given
* `Reducer.Folds` — a number of layers folded in turn
* `Reducer.foldTwice` — a run and a second one where the first stopped
* `Folding.Advanced` — what a number of layers does to the cursor

## Main results

* `Reducer.fold_cases` — what folding does at a state
* `Reducer.fold_resumed` — a run in two parts is one run
* `Reducer.fold_accounted` — the cursor after a run, and the reason why it stopped
-/

namespace NearMemory

/-! ### Reasons to stop -/

namespace FoldStop

variable {r : Reducer} {budget : Nat} {limit : Option Nat} {f : Folding}

/-- What a reason to stop says of the state. Results go to the two registers in turn, so that the
first register has to hold half of them, rounded up. A lone sum is nothing to add, unless a limit
asks for its width. Operations beyond the budget are reported only if 64 bits count them. -/
def Holds (r : Reducer) (budget : Nat) (limit : Option Nat) (f : Folding) : FoldStop → Prop
  | .noLayers => r.layers.length ≤ f.cursor.layer
  | .limit => ∃ last ∈ limit, last ≤ f.cursor.layer
  | .nothingToAdd => f.packets.length = 0 ∨ f.packets.length < 2 ∧ limit = none
  | .capacity => ∃ l ∈ r.layers[f.cursor.layer]?,
      r.wordsPerHalf < ceilDiv (ceilDiv f.packets.length 2) 2 * r.packetOut l
  | .overflow => ∃ folded ∈ r.foldAt? f.cursor.layer f.packets f.cursor.half,
      budget < f.cursor.issued + folded.operations.length ∧
        UInt64.size ≤ f.cursor.issued + folded.operations.length
  | .budget => ∃ folded ∈ r.foldAt? f.cursor.layer f.packets f.cursor.half,
      budget < f.cursor.issued + folded.operations.length

/-- The place of a reason in the order in which they are asked. -/
def rank : FoldStop → Nat
  | .noLayers => 0
  | .limit => 1
  | .nothingToAdd => 2
  | .capacity => 3
  | .overflow => 4
  | .budget => 5

/-- A reason holds, and none that is asked before it does. -/
structure IsFirst (r : Reducer) (budget : Nat) (limit : Option Nat) (f : Folding)
    (stop : FoldStop) : Prop where
  holds : stop.Holds r budget limit f
  not_earlier : ∀ earlier : FoldStop, earlier.rank < stop.rank → ¬ earlier.Holds r budget limit f

theorem rank_injective : Function.Injective rank := by
  intro a b h
  cases a <;> cases b <;> first | rfl | exact absurd h (by decide)

theorem rank_lt (stop : FoldStop) : stop.rank < 6 := by
  cases stop <;> decide

/-- A reason that is refuted joins those before it. -/
theorem not_holds_of_lt_succ (stop : FoldStop)
    (hearlier : ∀ earlier : FoldStop, earlier.rank < stop.rank → ¬ earlier.Holds r budget limit f)
    (h : ¬ stop.Holds r budget limit f) (other : FoldStop) (hlt : other.rank < stop.rank + 1) :
    ¬ other.Holds r budget limit f := by
  rcases Nat.lt_or_eq_of_le (Nat.le_of_lt_succ hlt) with hlt | heq
  · exact hearlier other hlt
  · rwa [rank_injective heq]

/-- Only one reason is the first. -/
theorem IsFirst.unique {stop other : FoldStop} (h : stop.IsFirst r budget limit f)
    (hother : other.IsFirst r budget limit f) : stop = other := by
  rcases Nat.lt_trichotomy stop.rank other.rank with hlt | heq | hlt
  · exact absurd h.holds (hother.not_earlier stop hlt)
  · exact rank_injective heq
  · exact absurd hother.holds (h.not_earlier other hlt)

theorem holds_limit_iff :
    FoldStop.limit.Holds r budget limit f ↔ limit.any (· ≤ f.cursor.layer) = true := by
  cases limit with
  | none => simp [Holds]
  | some last => simp [Holds]

theorem holds_nothingToAdd_iff :
    FoldStop.nothingToAdd.Holds r budget limit f ↔
      (f.packets.isEmpty || (f.packets.length == 1 && limit.isNone)) = true := by
  cases limit with
  | none =>
    simp only [Holds, Bool.or_eq_true, List.isEmpty_iff_length_eq_zero, Bool.and_eq_true,
      beq_iff_eq, Option.isNone_none, and_true]
    omega
  | some last => simp [Holds]

theorem holds_capacity_iff {l : TreeLayer} (hl : r.layers[f.cursor.layer]? = some l) :
    FoldStop.capacity.Holds r budget limit f ↔
      r.foldLayer? l f.packets f.cursor.half = none := by
  simp [Holds, hl, r.foldLayer?_eq l]

theorem holds_overflow_iff {l : TreeLayer} {folded : FoldedLayer}
    (hl : r.layers[f.cursor.layer]? = some l)
    (hfolded : r.foldLayer? l f.packets f.cursor.half = some folded) :
    FoldStop.overflow.Holds r budget limit f ↔
      budget < f.cursor.issued + folded.size ∧ UInt64.size ≤ f.cursor.issued + folded.size := by
  simp [Holds, Reducer.foldAt?, hl, hfolded, folded.size_eq_length_operations]

theorem holds_budget_iff {l : TreeLayer} {folded : FoldedLayer}
    (hl : r.layers[f.cursor.layer]? = some l)
    (hfolded : r.foldLayer? l f.packets f.cursor.half = some folded) :
    FoldStop.budget.Holds r budget limit f ↔ budget < f.cursor.issued + folded.size := by
  simp [Holds, Reducer.foldAt?, hl, hfolded, folded.size_eq_length_operations]

end FoldStop

namespace Folding

variable {r : Reducer} {budget : Nat} {limit : Option Nat} {f : Folding}

/-- No reason to stop holds. -/
def GoesOn (r : Reducer) (budget : Nat) (limit : Option Nat) (f : Folding) : Prop :=
  ∀ stop : FoldStop, ¬ stop.Holds r budget limit f

theorem GoesOn.of_budget_le {more : Nat} (h : f.GoesOn r budget limit) (hle : budget ≤ more) :
    f.GoesOn r more limit := by
  intro stop hstop
  cases stop with
  | budget =>
    obtain ⟨folded, hfolded, hlt⟩ := hstop
    exact h .budget ⟨folded, hfolded, Nat.lt_of_le_of_lt hle hlt⟩
  | overflow =>
    obtain ⟨folded, hfolded, hlt, -⟩ := hstop
    exact h .budget ⟨folded, hfolded, Nat.lt_of_le_of_lt hle hlt⟩
  | nothingToAdd => exact h .nothingToAdd hstop
  | limit => exact h .limit hstop
  | noLayers => exact h .noLayers hstop
  | capacity => exact h .capacity hstop

/-- With a limit a lone sum is carried on, wherever the limit is. -/
theorem GoesOn.of_last_le {last more : Nat} (h : f.GoesOn r budget (some last))
    (hle : last ≤ more) : f.GoesOn r budget (some more) := by
  intro stop hstop
  cases stop with
  | limit =>
    obtain ⟨reached, hreached, hle'⟩ := hstop
    obtain rfl := Option.mem_some_iff.mp hreached
    exact h .limit ⟨last, rfl, Nat.le_trans hle hle'⟩
  | nothingToAdd =>
    obtain hnone | ⟨-, hlimit⟩ := hstop
    · exact h .nothingToAdd (.inl hnone)
    · exact absurd hlimit (Option.some_ne_none more)
  | budget => exact h .budget hstop
  | overflow => exact h .overflow hstop
  | noLayers => exact h .noLayers hstop
  | capacity => exact h .capacity hstop

/-- The state behind operations that were issued before it. -/
def behind (f : Folding) (front : List Operation) : Folding := { f with out := front ++ f.out }

theorem advance_behind (f : Folding) (front : List Operation) (folded : FoldedLayer) :
    (f.behind front).advance folded = (f.advance folded).behind front := by
  simp only [advance, behind, List.append_assoc]

end Folding

namespace Reducer

variable {r : Reducer} {budget : Nat} {limit : Option Nat} {f : Folding}

/-! ### One layer at a time -/

/-- Folding at a state that has a next layer. -/
theorem fold_of_getElem? {l : TreeLayer} (hl : r.layers[f.cursor.layer]? = some l) :
    r.fold budget limit f =
      if limit.any (· ≤ f.cursor.layer) then (f, .limit)
      else if f.packets.isEmpty || (f.packets.length == 1 && limit.isNone) then (f, .nothingToAdd)
      else
        match r.foldLayer? l f.packets f.cursor.half with
        | none => (f, .capacity)
        | some folded =>
          if budget < f.cursor.issued + folded.size then
            (f, if f.cursor.issued + folded.size < UInt64.size then .budget else .overflow)
          else r.fold budget limit (f.advance folded) := by
  have hdrop : r.layers.drop f.cursor.layer = l :: r.layers.drop (f.cursor.layer + 1) := by
    rw [List.drop_eq_getElem?_toList_append, hl]
    rfl
  rw [fold, hdrop, foldLayers]
  rfl

/-- **What folding does at a state.** It stops for the first reason that holds, or goes on behind
the next layer. -/
theorem fold_cases (r : Reducer) (budget : Nat) (limit : Option Nat) (f : Folding) :
    (∃ stop : FoldStop, stop.IsFirst r budget limit f ∧ r.fold budget limit f = (f, stop)) ∨
      f.GoesOn r budget limit ∧
        ∃ folded, r.foldAt? f.cursor.layer f.packets f.cursor.half = some folded ∧
          r.fold budget limit f = r.fold budget limit (f.advance folded) := by
  cases hl : r.layers[f.cursor.layer]? with
  | none =>
    have hlayers : r.layers.length ≤ f.cursor.layer := List.getElem?_eq_none_iff.mp hl
    refine .inl ⟨.noLayers, ⟨hlayers, fun _ hlt => absurd hlt (Nat.not_lt_zero _)⟩, ?_⟩
    rw [fold, List.drop_eq_nil_of_le hlayers, foldLayers]
  | some l =>
    have hlayers : ¬ FoldStop.noLayers.Holds r budget limit f := by
      obtain ⟨hlt, -⟩ := List.getElem?_eq_some_iff.mp hl
      exact Nat.not_le_of_lt hlt
    have hbefore := FoldStop.not_holds_of_lt_succ .noLayers
      (fun _ hlt => absurd hlt (Nat.not_lt_zero _)) hlayers
    rw [fold_of_getElem? hl]
    by_cases hlimit : FoldStop.limit.Holds r budget limit f
    · exact .inl ⟨.limit, ⟨hlimit, hbefore⟩, if_pos (FoldStop.holds_limit_iff.mp hlimit)⟩
    have hbefore := FoldStop.not_holds_of_lt_succ .limit hbefore hlimit
    rw [if_neg (mt FoldStop.holds_limit_iff.mpr hlimit)]
    by_cases hfew : FoldStop.nothingToAdd.Holds r budget limit f
    · exact .inl ⟨.nothingToAdd, ⟨hfew, hbefore⟩,
        if_pos (FoldStop.holds_nothingToAdd_iff.mp hfew)⟩
    have hbefore := FoldStop.not_holds_of_lt_succ .nothingToAdd hbefore hfew
    rw [if_neg (mt FoldStop.holds_nothingToAdd_iff.mpr hfew)]
    cases hfolded : r.foldLayer? l f.packets f.cursor.half with
    | none =>
      exact .inl ⟨.capacity, ⟨(FoldStop.holds_capacity_iff hl).mpr hfolded, hbefore⟩, rfl⟩
    | some folded =>
      have hcapacity : ¬ FoldStop.capacity.Holds r budget limit f := by
        rw [FoldStop.holds_capacity_iff hl, hfolded]
        exact Option.some_ne_none folded
      have hbefore := FoldStop.not_holds_of_lt_succ .capacity hbefore hcapacity
      have hiff : FoldStop.budget.Holds r budget limit f ↔ _ :=
        FoldStop.holds_budget_iff hl hfolded
      have hoverflow : FoldStop.overflow.Holds r budget limit f ↔ _ :=
        FoldStop.holds_overflow_iff hl hfolded
      dsimp only
      by_cases hlarge : FoldStop.overflow.Holds r budget limit f
      · refine .inl ⟨.overflow, ⟨hlarge, hbefore⟩, ?_⟩
        obtain ⟨hlt, hsize⟩ := hoverflow.mp hlarge
        rw [if_pos hlt, if_neg (Nat.not_lt.mpr hsize)]
      have hbefore := FoldStop.not_holds_of_lt_succ .overflow hbefore hlarge
      by_cases hbudget : FoldStop.budget.Holds r budget limit f
      · refine .inl ⟨.budget, ⟨hbudget, hbefore⟩, ?_⟩
        have hlt := hiff.mp hbudget
        have hsize : f.cursor.issued + folded.size < UInt64.size :=
          Nat.lt_of_not_le fun hsize => hlarge (hoverflow.mpr ⟨hlt, hsize⟩)
        rw [if_pos hlt, if_pos hsize]
      · refine .inr ⟨fun stop => ?_, folded, ?_, if_neg (mt hiff.mpr hbudget)⟩
        · exact FoldStop.not_holds_of_lt_succ .budget hbefore hbudget stop stop.rank_lt
        · rw [foldAt?, hl]
          exact hfolded

/-- Induction along a run: what holds of a state where folding stops, and of a state if it holds
behind the next layer. -/
theorem fold_induction {motive : Folding → Folding × FoldStop → Prop}
    (stops : ∀ f stop, FoldStop.IsFirst r budget limit f stop → motive f (f, stop))
    (goesOn : ∀ f folded, f.GoesOn r budget limit →
      r.foldAt? f.cursor.layer f.packets f.cursor.half = some folded →
      motive (f.advance folded) (r.fold budget limit (f.advance folded)) →
      motive f (r.fold budget limit (f.advance folded)))
    (f : Folding) : motive f (r.fold budget limit f) := by
  induction hleft : r.layers.length - f.cursor.layer generalizing f with
  | zero =>
    obtain ⟨stop, hstop, heq⟩ | ⟨hon, -⟩ := r.fold_cases budget limit f
    · rw [heq]
      exact stops f stop hstop
    · exact absurd (Nat.sub_eq_zero_iff_le.mp hleft) (hon .noLayers)
  | succ left ih =>
    obtain ⟨stop, hstop, heq⟩ | ⟨hon, folded, hfolded, heq⟩ := r.fold_cases budget limit f
    · rw [heq]
      exact stops f stop hstop
    · rw [heq]
      refine goesOn f folded hon hfolded (ih (f.advance folded) ?_)
      show r.layers.length - (f.cursor.layer + 1) = left
      omega

theorem fold_of_goesOn {folded : FoldedLayer} (h : f.GoesOn r budget limit)
    (hfolded : r.foldAt? f.cursor.layer f.packets f.cursor.half = some folded) :
    r.fold budget limit f = r.fold budget limit (f.advance folded) := by
  obtain ⟨stop, hstop, -⟩ | ⟨-, folded', hfolded', heq⟩ := r.fold_cases budget limit f
  · exact absurd hstop.holds (h stop)
  · obtain rfl := Option.some.inj (hfolded.symm.trans hfolded')
    exact heq

theorem fold_of_isFirst {stop : FoldStop} (h : stop.IsFirst r budget limit f) :
    r.fold budget limit f = (f, stop) := by
  obtain ⟨other, hother, heq⟩ | ⟨hon, -⟩ := r.fold_cases budget limit f
  · rw [heq, h.unique hother]
  · exact absurd h.holds (hon stop)

/-- A run gives the first reason that holds where it stops. -/
theorem isFirst_fold (r : Reducer) (budget : Nat) (limit : Option Nat) (f : Folding) :
    (r.fold budget limit f).2.IsFirst r budget limit (r.fold budget limit f).1 := by
  refine fold_induction (motive := fun _ result => result.2.IsFirst r budget limit result.1) ?_ ?_ f
  · intro f stop hstop
    exact hstop
  · intro f folded _ _ ih
    exact ih

/-! ### Runs in two parts -/

/-- A run that stops no sooner than another one passes through its end. -/
theorem fold_fold {budget' : Nat} {limit' : Option Nat}
    (hmore : ∀ f : Folding, f.GoesOn r budget limit → f.GoesOn r budget' limit') (f : Folding) :
    r.fold budget' limit' (r.fold budget limit f).1 = r.fold budget' limit' f := by
  refine fold_induction (motive := fun f result => r.fold budget' limit' result.1 =
    r.fold budget' limit' f) ?_ ?_ f
  · intro f stop _
    rfl
  · intro f folded hon hfolded ih
    rw [ih, fold_of_goesOn (hmore f hon) hfolded]

/-- Folding only adds to the operations. -/
theorem fold_behind (r : Reducer) (budget : Nat) (limit : Option Nat) (front : List Operation)
    (f : Folding) :
    r.fold budget limit (f.behind front) =
      ((r.fold budget limit f).1.behind front, (r.fold budget limit f).2) := by
  -- the reasons to stop do not look at the operations
  refine fold_induction (motive := fun f result => r.fold budget limit (f.behind front) =
    (result.1.behind front, result.2)) ?_ ?_ f
  · intro f stop hstop
    exact fold_of_isFirst ⟨hstop.holds, hstop.not_earlier⟩
  · intro f folded hon hfolded ih
    have hon' : (f.behind front).GoesOn r budget limit := hon
    rw [fold_of_goesOn hon' hfolded, Folding.advance_behind, ih]

/-- A run, and a second one under other bounds where the first stopped, with the operations of
both. -/
def foldTwice (r : Reducer) (budget : Nat) (limit : Option Nat) (budget' : Nat)
    (limit' : Option Nat) (cursor : Cursor) (packets : List Packet) : Folding × FoldStop :=
  let first := (r.fold budget limit { cursor, packets }).1
  let second := r.fold budget' limit' { cursor := first.cursor, packets := first.packets }
  ({ second.1 with out := first.out ++ second.1.out }, second.2)

theorem foldTwice_eq {budget' : Nat} {limit' : Option Nat}
    (hmore : ∀ f : Folding, f.GoesOn r budget limit → f.GoesOn r budget' limit') (cursor : Cursor)
    (packets : List Packet) :
    r.foldTwice budget limit budget' limit' cursor packets =
      r.fold budget' limit' { cursor, packets } := by
  rw [← fold_fold hmore { cursor, packets }, foldTwice]
  generalize (r.fold budget limit { cursor, packets }).1 = first
  have hfirst : Folding.behind { cursor := first.cursor, packets := first.packets } first.out =
      first := by
    rw [Folding.behind, List.append_nil]
  have hbehind := r.fold_behind budget' limit' first.out
    { cursor := first.cursor, packets := first.packets }
  rw [hfirst] at hbehind
  exact hbehind.symm

/-- **A run in two parts is one run.** Folding stops at the end of a layer with everything that a
later run needs in the cursor and the packets. A run under a smaller budget, or up to an earlier
limit, and then a run under the larger one end where the second ends by itself, for the same reason
and with the same operations; and a run that is repeated does nothing. -/
theorem fold_resumed (r : Reducer) (cursor : Cursor) (packets : List Packet) :
    (∀ limit budget budget', budget ≤ budget' →
      r.foldTwice budget limit budget' limit cursor packets =
        r.fold budget' limit { cursor, packets }) ∧
    (∀ budget last last', last ≤ last' →
      r.foldTwice budget (some last) budget (some last') cursor packets =
        r.fold budget (some last') { cursor, packets }) ∧
    ∀ budget limit,
      let once := r.fold budget limit { cursor, packets }
      r.fold budget limit { cursor := once.1.cursor, packets := once.1.packets } =
        ({ cursor := once.1.cursor, packets := once.1.packets, out := [] }, once.2) := by
  refine ⟨?_, ?_, ?_⟩
  · intro limit budget budget' hle
    exact foldTwice_eq (fun f hon => hon.of_budget_le hle) cursor packets
  · intro budget last last' hle
    exact foldTwice_eq (fun f hon => hon.of_last_le hle) cursor packets
  · intro budget limit once
    have hstop := r.isFirst_fold budget limit { cursor, packets }
    exact fold_of_isFirst ⟨hstop.holds, hstop.not_earlier⟩

/-- Five sums are stopped behind the first layer by their budget, or behind the second by a limit,
and then folded to the end. -/
theorem fold_resumed_five :
    let cursor : Cursor := { issued := 10, operands := 5 }
    let packets := loadedPackets 5 1
    ∃ tree, AdderTree.build 5 8 8 = .ok tree ∧
      let r := Reducer.ofTree tree 8 {}
      30 ≤ 60 ∧ (r.fold 30 none { cursor, packets }).2 = .budget ∧
      r.foldTwice 30 none 60 none cursor packets = r.fold 60 none { cursor, packets } ∧
      2 ≤ 9 ∧ (r.fold 60 (some 2) { cursor, packets }).2 = .limit ∧
      r.foldTwice 60 (some 2) 60 (some 9) cursor packets = r.fold 60 (some 9) { cursor, packets } ∧
      (r.fold 60 (some 9) { cursor, packets }).1.cursor =
        { layer := 3, issued := 43, operands := 1, half := 1 } := by
  intro cursor packets
  have hbuild := AdderTree.build_eq_ok (n := 5) (q := 8) (by decide)
    (show 8 ∈ Subword.ladder by decide) (by decide)
  obtain ⟨hbudgets, hlimits, -⟩ :=
    fold_resumed (Reducer.ofTree ⟨AdderTree.layersFrom 8 1 5 8 0⟩ 8 {}) cursor packets
  refine ⟨_, hbuild, by decide, ?_, hbudgets none 30 60 (by decide), by decide, ?_,
    hlimits 60 2 9 (by decide), ?_⟩
  · decide +kernel
  · decide +kernel
  · decide +kernel

end Reducer

/-! ### The account of a run -/

/-- A number of layers folded in turn, each the next one of the tree. -/
inductive Reducer.Folds (r : Reducer) : Nat → Folding → Folding → Prop
  /-- No layer. -/
  | none (f : Folding) : r.Folds 0 f f
  /-- One layer and then others. -/
  | layer {f g : Folding} {folded : FoldedLayer} {count : Nat}
    (hfolded : r.foldAt? f.cursor.layer f.packets f.cursor.half = some folded)
    (hrest : r.Folds count (f.advance folded) g) : r.Folds (count + 1) f g

/-- What `count` more layers make of a state: the cursor counts the layers, the sums and the
operations as they are, and the sums have changed halves once a layer. -/
structure Folding.Advanced (count : Nat) (f g : Folding) : Prop where
  layer_eq : g.cursor.layer = f.cursor.layer + count
  operands_eq : g.cursor.operands = g.packets.length
  length_packets : g.packets.length = ceilDiv f.packets.length (2 ^ count)
  half_eq : g.cursor.half = if count % 2 = 1 then f.cursor.half ^^^ 1 else f.cursor.half
  issued_eq : ∃ added, g.out = f.out ++ added ∧ g.cursor.issued = f.cursor.issued + added.length

namespace Reducer

variable {r : Reducer} {budget : Nat} {limit : Option Nat} {f g : Folding}

/-- **One layer.** -/
theorem advanced_advance {folded : FoldedLayer}
    (h : r.foldAt? f.cursor.layer f.packets f.cursor.half = some folded) :
    f.Advanced 1 (f.advance folded) := by
  obtain ⟨l, -, h⟩ := Option.bind_eq_some_iff.mp h
  have hpackets := length_packets_of_foldFrom? h
  have hpairs : folded.pairs.length = f.packets.length / 2 := by
    obtain ⟨base, rfl⟩ := exists_eq_dealLayer h
    exact length_pairs_dealLayer r l base 0 f.packets
  refine ⟨rfl, ?_, hpackets, rfl, folded.operations, rfl, ?_⟩
  · show folded.pairs.length + (folded.packets.length - folded.pairs.length) =
      folded.packets.length
    rw [hpackets, hpairs, ceilDiv_two]
    omega
  · exact congrArg (f.cursor.issued + ·) folded.size_eq_length_operations

/-- **Layers in turn.** -/
theorem Folds.advanced {count : Nat} (h : r.Folds count f g)
    (hoperands : f.cursor.operands = f.packets.length) : f.Advanced count g := by
  induction h with
  | none f => exact ⟨rfl, hoperands, by simp [ceilDiv], rfl, [], (List.append_nil _).symm, rfl⟩
  | @layer f g folded count hfolded hrest ih =>
    have hone := advanced_advance hfolded
    have hmore := ih hone.operands_eq
    obtain ⟨front, hfront, hissued⟩ := hone.issued_eq
    obtain ⟨back, hback, hissued'⟩ := hmore.issued_eq
    refine ⟨?_, hmore.operands_eq, ?_, ?_, front ++ back, ?_, ?_⟩
    · rw [hmore.layer_eq, hone.layer_eq, Nat.add_assoc, Nat.add_comm 1]
    · rw [hmore.length_packets, hone.length_packets, Nat.pow_one,
        ceilDiv_ceilDiv Nat.zero_lt_two (Nat.two_pow_pos count), Nat.pow_succ, Nat.mul_comm 2]
    · rw [hmore.half_eq, hone.half_eq, if_pos rfl]
      rcases Nat.mod_two_eq_zero_or_one count with heven | hodd
      · rw [if_neg (by omega), if_pos (by omega)]
      · rw [if_pos hodd, if_neg (by omega), Nat.xor_assoc, Nat.xor_self, Nat.xor_zero]
    · rw [hback, hfront, List.append_assoc]
    · rw [hissued', hissued, List.length_append, Nat.add_assoc]

theorem issued_advance_le {folded : FoldedLayer} (hon : f.GoesOn r budget limit)
    (hfolded : r.foldAt? f.cursor.layer f.packets f.cursor.half = some folded) :
    (f.advance folded).cursor.issued ≤ budget := by
  refine Nat.le_of_not_lt fun hlt => hon .budget ⟨folded, hfolded, ?_⟩
  rw [← folded.size_eq_length_operations]
  exact hlt

theorem issued_fold_le (r : Reducer) (limit : Option Nat) (h : f.cursor.issued ≤ budget) :
    (r.fold budget limit f).1.cursor.issued ≤ budget := by
  revert h
  refine fold_induction (motive := fun f result => f.cursor.issued ≤ budget →
    result.1.cursor.issued ≤ budget) ?_ ?_ f
  · intro f stop _ h
    exact h
  · intro f folded hon hfolded ih _
    exact ih (issued_advance_le hon hfolded)

/-- **A run folds layers in turn,** and keeps to the budget as soon as it folds one. -/
theorem exists_folds_fold (r : Reducer) (budget : Nat) (limit : Option Nat) (f : Folding) :
    ∃ count, r.Folds count f (r.fold budget limit f).1 ∧
      (1 ≤ count → (r.fold budget limit f).1.cursor.issued ≤ budget) := by
  refine fold_induction (motive := fun f result => ∃ count, r.Folds count f result.1 ∧
    (1 ≤ count → result.1.cursor.issued ≤ budget)) ?_ ?_ f
  · intro f stop _
    exact ⟨0, .none f, fun h => absurd h (Nat.not_succ_le_zero 0)⟩
  · rintro f folded hon hfolded ⟨count, hcount, -⟩
    exact ⟨count + 1, .layer hfolded hcount,
      fun _ => issued_fold_le r limit (issued_advance_le hon hfolded)⟩

/-- **The account of a run.** From a cursor that has the sums right, a run folds some number of
layers, and the cursor in the end says how many, how many sums are left, which half they are in and
how many operations were issued; the budget is kept unless no layer was folded, so 64 bits hold the
count if they hold the budget and the count at the start. The reason that is given holds in the end,
and no reason that is asked before it does. -/
theorem fold_accounted (r : Reducer) (budget : Nat) (limit : Option Nat) {f : Folding}
    (hoperands : f.cursor.operands = f.packets.length) :
    (∃ count, r.Folds count f (r.fold budget limit f).1 ∧
      f.Advanced count (r.fold budget limit f).1 ∧
      (1 ≤ count → (r.fold budget limit f).1.cursor.issued ≤ budget)) ∧
    (budget < UInt64.size → f.cursor.issued < UInt64.size →
      (r.fold budget limit f).1.cursor.issued < UInt64.size) ∧
    (r.fold budget limit f).2.IsFirst r budget limit (r.fold budget limit f).1 := by
  obtain ⟨count, hcount, hbudget⟩ := r.exists_folds_fold budget limit f
  refine ⟨⟨count, hcount, hcount.advanced hoperands, hbudget⟩, ?_, r.isFirst_fold budget limit f⟩
  intro hsize hstart
  generalize (r.fold budget limit f).1 = g at hcount hbudget
  cases hcount with
  | none f => exact hstart
  | layer hfolded hrest => exact Nat.lt_of_le_of_lt (hbudget (Nat.succ_pos _)) hsize

/-- Thirteen sums whose fourth layer no longer fits the budget. -/
theorem fold_accounted_thirteen :
    let start : Folding :=
      { cursor := { issued := 10, operands := 13 }, packets := loadedPackets 13 1 }
    ∃ tree, AdderTree.build 13 8 8 = .ok tree ∧ start.cursor.operands = start.packets.length ∧
      let r := Reducer.ofTree tree 8 {}
      let g := (r.fold 90 none start).1
      g.cursor = { layer := 3, issued := 87, operands := 2, half := 1 } ∧ r.Folds 3 start g ∧
        start.Advanced 3 g ∧ g.cursor.issued ≤ 90 ∧ FoldStop.budget.IsFirst r 90 none g := by
  intro start
  have hbuild := AdderTree.build_eq_ok (n := 13) (q := 8) (by decide)
    (show 8 ∈ Subword.ladder by decide) (by decide)
  generalize htree : AdderTree.mk (AdderTree.layersFrom 8 1 13 8 0) = tree at hbuild
  have hvalues : ((Reducer.ofTree tree 8 {}).fold 90 none start).1.cursor =
        { layer := 3, issued := 87, operands := 2, half := 1 } ∧
      ((Reducer.ofTree tree 8 {}).fold 90 none start).2 = .budget := by
    rw [← htree]
    decide +kernel
  obtain ⟨hcursor, hstop⟩ := hvalues
  obtain ⟨⟨count, hfolds, hadvanced, hbudget⟩, -, hfirst⟩ :=
    fold_accounted (Reducer.ofTree tree 8 {}) 90 none (show start.cursor.operands = _ from rfl)
  obtain rfl : count = 3 := by
    have hlayer := hadvanced.layer_eq
    rw [hcursor] at hlayer
    exact (hlayer.trans (Nat.zero_add count)).symm
  rw [hstop] at hfirst
  exact ⟨tree, hbuild, rfl, hcursor, hfolds, hadvanced, hbudget (by decide), hfirst⟩

end Reducer

end NearMemory
