import NearMemory.Proofs.PlanBounds

/-!
# Chunk sizes on tighter hardware

A plan searches for its chunk size in three rounds, for the very wide registers, the constant store
and the instruction buffer, and then makes it even. The rounds add up to one search: the size before
it is made even is the largest that every capacity allows (`Plan.greatest_of_make`). A size that
tighter hardware allows is allowed by wider hardware too, since a smaller half of the registers
changes where the sums of the first layer go but not how many operations put them there. Making
sizes even keeps their order, so a plan for tighter hardware never has larger chunks.

Whether there is a plan at all depends on the smallest chunk alone, which any constant store holds
(`Plan.exists_make_iff`).

## Main definitions

* `FreeWords.Widens` — the same words given out, of a half that is at least as large
* `Plan.Allows` — a chunk size that every capacity allows

## Main results

* `Reducer.foldFrom?_of_widens` — a layer folds in a larger half at the same cost
* `Plan.greatest_of_make` — the chunk is the largest size that every capacity allows, made even
* `Plan.make_tightened` — tighter hardware means no larger chunks and no looser limit
-/

namespace NearMemory

/-! ### Larger halves -/

/-- The same words are given out, of a half that is at least as large. -/
structure FreeWords.Widens (wide free : FreeWords) : Prop where
  size_le : free.size ≤ wide.size
  used0_eq : wide.used0 = free.used0
  used1_eq : wide.used1 = free.used1

theorem FreeWords.Widens.take? {wide free free' : FreeWords} {packet target : Nat} {dst : Packet}
    (hwide : wide.Widens free) (h : free.take? packet target = some (dst, free')) :
    ∃ dst' wide', wide.take? packet target = some (dst', wide') ∧ wide'.Widens free' := by
  obtain ⟨hsize, hused0, hused1⟩ := hwide
  rw [FreeWords.take?, Option.ite_none_left_eq_some, Option.some.injEq, Prod.mk.injEq] at h
  obtain ⟨hroom, -, rfl⟩ := h
  simp only [FreeWords.take?, hused0, hused1]
  rw [if_neg (by omega)]
  refine ⟨_, _, rfl, ?_⟩
  split
  · exact ⟨hsize, rfl, rfl⟩
  · exact ⟨hsize, rfl, rfl⟩

/-- **A larger half folds at the same cost.** Only the place of the results depends on the half. -/
theorem Reducer.foldFrom?_of_widens {r : Reducer} {l : TreeLayer} {pair : Nat}
    {free wide : FreeWords} {packets : List Packet} {folded : FoldedLayer} (words : Nat)
    (hwide : wide.Widens free) (h : r.foldFrom? l pair free packets = some folded) :
    ∃ folded',
      Reducer.foldFrom? { r with wordsPerHalf := words } l pair wide packets = some folded' ∧
        folded'.size = folded.size := by
  match packets with
  | [] =>
    obtain rfl := Option.some.inj h
    exact ⟨{}, rfl, rfl⟩
  | [c] =>
    obtain ⟨dst, free', htake, rfl⟩ := foldFrom?_single_eq_some_iff.mp h
    obtain ⟨dst', wide', htake', -⟩ := hwide.take? htake
    refine ⟨_, foldFrom?_single_eq_some_iff.mpr ⟨dst', wide', htake', rfl⟩, ?_⟩
    have hcarry := length_carryPacket r l c dst' c dst
    simp only [FoldedLayer.size]
    exact congrArg (0 + ·) hcarry
  | a :: b :: rest =>
    obtain ⟨dst, free', tail, htake, htail, rfl⟩ := foldFrom?_pair_eq_some_iff.mp h
    obtain ⟨dst', wide', htake', hwide'⟩ := hwide.take? htake
    obtain ⟨tail', htail', hsize⟩ := foldFrom?_of_widens words hwide' htail
    refine ⟨_, foldFrom?_pair_eq_some_iff.mpr ⟨dst', wide', tail', htake', htail', rfl⟩, ?_⟩
    have hadd := length_addPackets r l a b dst' a b dst
    rw [size_pair, size_pair, hsize, ← hadd]
    rfl

theorem Reducer.foldLayer?_of_wordsPerHalf_le {r : Reducer} {l : TreeLayer} {packets : List Packet}
    {half words : Nat} {folded : FoldedLayer} (hwords : r.wordsPerHalf ≤ words)
    (h : r.foldLayer? l packets half = some folded) :
    ∃ folded', Reducer.foldLayer? { r with wordsPerHalf := words } l packets half = some folded' ∧
      folded'.size = folded.size := by
  refine foldFrom?_of_widens words ?_ h
  exact ⟨hwords, rfl, rfl⟩

/-! ### Limits -/

theorem ChunkLimit.compare?_eq_lt_iff {a b : ChunkLimit} :
    a.compare? b = some .lt ↔ a = .registers ∧ b ≠ .registers := by
  cases a <;> cases b <;> decide

/-! ### Search -/

theorem le_of_greatest?_eq_some {p : Nat → Bool} {bound c k : Nat} (h : greatest? p bound = some c)
    (hle : k ≤ bound) (hp : p k = true) : k ≤ c := by
  induction bound with
  | zero => simp [greatest?] at h
  | succ n ih =>
    rw [greatest?] at h
    split at h
    next =>
      obtain rfl := Option.some.inj h
      exact hle
    next hn =>
      refine ih h (Nat.le_of_lt_succ (Nat.lt_of_le_of_ne hle ?_))
      rintro rfl
      exact hn hp

theorem exists_le_greatest? {p : Nat → Bool} {bound k : Nat} (hpos : 0 < k) (hle : k ≤ bound)
    (hp : p k = true) : ∃ c, greatest? p bound = some c ∧ k ≤ c := by
  obtain ⟨c, hc⟩ := Option.isSome_iff_exists.mp (isSome_greatest? hpos hle hp)
  exact ⟨c, hc, le_of_greatest?_eq_some hc hle hp⟩

/-! ### Sizes that the capacities allow -/

namespace Plan

variable {hw tight : Hardware} {w : Workload} {plan : Plan}

/-- Chunks of `c` products fit the very wide registers, the constant store and the instruction
buffer. -/
structure Allows (hw : Hardware) (w : Workload) (c : Nat) : Prop where
  le_n : c ≤ w.n
  le_registerWords : c ≤ hw.registerWords
  le_storeEntries : c ≤ hw.storeEntries
  fits : fits (w.reducer hw) (w.nops hw) hw.bufferEntries c = true

theorem foldCost?_of_wordsPerHalf_le {r : Reducer} {words c cost : Nat}
    (hwords : r.wordsPerHalf ≤ words) (h : foldCost? r c = some cost) :
    foldCost? { r with wordsPerHalf := words } c = some cost := by
  rw [foldCost?] at h ⊢
  split at h
  next hsmall => rw [if_pos hsmall, h]
  next hlarge =>
    rw [if_neg hlarge]
    obtain ⟨folded, hfolded, rfl⟩ := Option.map_eq_some_iff.mp h
    obtain ⟨l, hl, hfolded⟩ := Option.bind_eq_some_iff.mp hfolded
    obtain ⟨folded', hfolded', hsize⟩ := Reducer.foldLayer?_of_wordsPerHalf_le hwords hfolded
    exact Option.map_eq_some_iff.mpr
      ⟨folded', Option.bind_eq_some_iff.mpr ⟨l, hl, hfolded'⟩, hsize⟩

theorem fits_of_entries_le {r : Reducer} {nops entries entries' c : Nat}
    (h : Plan.fits r nops entries c = true) (hle : entries ≤ entries') :
    Plan.fits r nops entries' c = true := by
  obtain ⟨cost, hcost, hentries⟩ := fits_iff.mp h
  exact fits_iff.mpr ⟨cost, hcost, Nat.le_trans hentries hle⟩

/-- **Wider hardware allows what tighter hardware allows.** -/
theorem Allows.loosen {c : Nat} (h : Allows tight w c)
    (hentries : tight.bufferEntries ≤ hw.bufferEntries)
    (hstore : tight.storeEntries ≤ hw.storeEntries)
    (hwords : tight.registerWords ≤ hw.registerWords)
    (hinterval : tight.accessInterval = hw.accessInterval) : Allows hw w c := by
  refine ⟨h.le_n, Nat.le_trans h.le_registerWords hwords, Nat.le_trans h.le_storeEntries hstore, ?_⟩
  obtain ⟨cost, hcost, hle⟩ := fits_iff.mp h.fits
  rw [Workload.nops, hinterval] at hle
  have hhalf : tight.wordsPerHalf ≤ hw.wordsPerHalf := Nat.div_le_div_right hwords
  exact fits_iff.mpr ⟨cost, foldCost?_of_wordsPerHalf_le hhalf hcost, Nat.le_trans hle hentries⟩

/-! ### The largest size -/

theorem le_registerChunk {r : Reducer} {n k cost : Nat} (hle : k ≤ min hw.registerWords n)
    (hcost : foldCost? r k = some cost) : k ≤ registerChunk r hw n := by
  rw [registerChunk]
  cases hb : greatest? (fun c => c ≤ 1 || (foldCost? r c).isSome) (min hw.registerWords n) with
  | none =>
    by_contra hpos
    have hsome := isSome_greatest? (p := fun c => c ≤ 1 || (foldCost? r c).isSome)
      (show 0 < k by rw [Option.getD_none] at hpos; omega) hle (by simp [hcost])
    rw [hb] at hsome
    contradiction
  | some b => exact le_of_greatest?_eq_some hb hle (by simp [hcost])

/-- The three rounds of the search find the largest size. -/
theorem le_of_bufferChunk {r : Reducer} {limit : ChunkLimit} {n nops c k : Nat}
    (h : bufferChunk r hw n nops = .ok (limit, c)) (hn : k ≤ n) (hwords : k ≤ hw.registerWords)
    (hstore : k ≤ hw.storeEntries) (hfits : fits r nops hw.bufferEntries k = true) : k ≤ c := by
  obtain ⟨cost, hcost, -⟩ := fits_iff.mp hfits
  have hk : k ≤ (storeChunk r hw n).2 := by
    rw [snd_storeChunk]
    exact Nat.le_min.mpr ⟨le_registerChunk (Nat.le_min.mpr ⟨hwords, hn⟩) hcost, hstore⟩
  rcases bufferChunk_cases h with ⟨heq, -⟩ | ⟨-, -, hc⟩
  · rw [heq] at hk
    exact hk
  · exact le_of_greatest?_eq_some hc hk hfits

/-- The registers are the limit when the size they allow passes the other rounds. -/
theorem limit_eq_registers_iff {r : Reducer} {limit : ChunkLimit} {n nops c : Nat}
    (h : bufferChunk r hw n nops = .ok (limit, c)) :
    limit = .registers ↔ registerChunk r hw n ≤ hw.storeEntries ∧
      fits r nops hw.bufferEntries (registerChunk r hw n) = true := by
  rcases bufferChunk_cases h with ⟨heq, hfits⟩ | ⟨rfl, hfits, -⟩
  · simp only [storeChunk] at heq
    split at heq
    next hlt =>
      obtain ⟨rfl, rfl⟩ := Prod.mk.inj heq
      simp [Nat.not_le.mpr hlt]
    next hle =>
      obtain ⟨rfl, rfl⟩ := Prod.mk.inj heq
      simp [Nat.le_of_not_lt hle, hfits]
  · -- the buffer lowered the size, so it was not the one that the registers allow
    simp only [reduceCtorEq, false_iff, not_and, Bool.not_eq_true]
    intro hle
    rw [snd_storeChunk, Nat.min_eq_left hle] at hfits
    exact hfits

/-- The smallest chunk decides whether the search succeeds. -/
theorem exists_bufferChunk {r : Reducer} {n nops : Nat} (hhw : hw.WithinLimits) (hn : 0 < n)
    (hfits : fits r nops hw.bufferEntries 1 = true) :
    ∃ limit c, bufferChunk r hw n nops = .ok (limit, c) := by
  have hpos : 1 ≤ (storeChunk r hw n).2 := by
    rw [snd_storeChunk]
    exact Nat.le_min.mpr ⟨registerChunk_pos r hhw hn, hhw.storeEntries_pos⟩
  rw [bufferChunk]
  dsimp only
  split
  · exact ⟨_, _, rfl⟩
  · obtain ⟨c, hc⟩ := Option.isSome_iff_exists.mp (isSome_greatest? Nat.one_pos hpos hfits)
    rw [hc]
    exact ⟨_, _, rfl⟩

theorem evened_le_evened {c c' : Nat} (hle : c' ≤ c) (n : Nat) : evened c' n ≤ evened c n := by
  simp only [evened]
  split <;> split <;> omega

/-! ### Plans -/

/-- If the counts fit, a plan fails for its final sums, or goes as the search for the chunk size
goes. -/
theorem makeChecked_cases (hw : Hardware) (hwl : w.WithinLimits) (hcounts : w.CountsFit) :
    (hw.wordsPerHalf < w.packet ∧ makeChecked hw w =
        .error (.registerHalf w.packet (w.tree.resultWidth w.subwordWidth) hw.wordsPerHalf)) ∨
      (w.packet ≤ hw.wordsPerHalf ∧
        (∀ e, bufferChunk (w.reducer hw) hw w.n (w.nops hw) = .error e →
          makeChecked hw w = .error e) ∧
        ∀ found, bufferChunk (w.reducer hw) hw w.n (w.nops hw) = .ok found →
          ∃ plan, makeChecked hw w = .ok plan) := by
  have htree := hwl.build_tree_eq_ok_iff.mpr ⟨hcounts.layers_counted, rfl⟩
  rw [makeChecked, counted_eq_ok_iff.mpr ⟨hcounts.tiles_lt, rfl⟩,
    counted_eq_ok_iff.mpr ⟨hcounts.multiplies_lt, rfl⟩, htree, Workload.packet]
  dsimp only [bind, Except.bind]
  split
  next hlt => exact .inl ⟨hlt, rfl⟩
  next hle =>
    rw [Workload.reducer, Workload.nops]
    refine .inr ⟨Nat.le_of_not_lt hle, ?_, ?_⟩
    · intro e hsearch
      rw [hsearch]
    · intro found hsearch
      rw [hsearch]
      exact ⟨_, rfl⟩

theorem bufferChunk_ne_overflow (r : Reducer) (hw : Hardware) (n nops : Nat) :
    bufferChunk r hw n nops ≠ .error .overflow := by
  rw [bufferChunk]
  dsimp only
  split
  · rintro ⟨⟩
  · split <;> rintro ⟨⟩

/-- **A plan overflows exactly if a count does not fit.** -/
theorem makeChecked_eq_overflow_iff (hw : Hardware) (hwl : w.WithinLimits) :
    makeChecked hw w = .error .overflow ↔ ¬ w.CountsFit := by
  constructor
  · intro h hcounts
    obtain ⟨-, heq⟩ | ⟨-, hfails, hplans⟩ := makeChecked_cases hw hwl hcounts
    · rw [heq] at h
      cases h
    · cases hsearch : bufferChunk (w.reducer hw) hw w.n (w.nops hw) with
      | error e =>
        obtain rfl := Except.error.inj ((hfails e hsearch).symm.trans h)
        exact bufferChunk_ne_overflow _ _ _ _ hsearch
      | ok found =>
        obtain ⟨plan, hplan⟩ := hplans found hsearch
        rw [hplan] at h
        cases h
  · intro hcounts
    rw [makeChecked]
    by_cases htiles : w.m * Subword.tiles w.q w.subwordWidth < UInt64.size
    · by_cases hmultiplies : w.n * Subword.tiles w.q w.subwordWidth < UInt64.size
      · have hlayers : ¬ w.tree.layers.all (·.isCounted) = true :=
          fun hlayers => hcounts ⟨htiles, hmultiplies, hlayers⟩
        rw [counted_eq_ok_iff.mpr ⟨htiles, rfl⟩, counted_eq_ok_iff.mpr ⟨hmultiplies, rfl⟩,
          (AdderTree.build_eq_overflow_iff hwl.n_pos hwl.width_mem).mpr hlayers]
        rfl
      · rw [counted_eq_ok_iff.mpr ⟨htiles, rfl⟩, counted_eq_overflow_iff.mpr hmultiplies]
        rfl
    · rw [counted_eq_overflow_iff.mpr htiles]
      rfl

theorem make_eq_overflow_iff (hworkload : w.violation? = none) (hhardware : hw.violation? = none) :
    make hw w = .error (.schedule .overflow) ↔ ¬ w.CountsFit := by
  rw [make, hworkload, hhardware,
    ← makeChecked_eq_overflow_iff hw (Workload.withinLimits_of_violation? hworkload)]
  cases makeChecked hw w with
  | error e => simp [Except.mapError]
  | ok plan => simp [Except.mapError]

theorem exists_make {limit : ChunkLimit} {c : Nat} (hworkload : w.violation? = none)
    (hhardware : hw.violation? = none) (hcounts : w.CountsFit)
    (hpacket : w.packet ≤ hw.wordsPerHalf)
    (hchunk : bufferChunk (w.reducer hw) hw w.n (w.nops hw) = .ok (limit, c)) :
    ∃ plan, make hw w = .ok plan := by
  obtain ⟨hlt, -⟩ | ⟨-, -, hplans⟩ :=
    makeChecked_cases hw (Workload.withinLimits_of_violation? hworkload) hcounts
  · exact absurd hpacket (Nat.not_le.mpr hlt)
  · obtain ⟨plan, hplan⟩ := hplans _ hchunk
    rw [make, hworkload, hhardware]
    exact ⟨plan, mapError_eq_ok_iff.mpr hplan⟩

/-- **When there is a plan.** Beyond the two checks, registers have to hold the counts, the final
sums have to fit half a very wide register and a chunk of one product the instruction buffer. -/
theorem exists_make_iff : (∃ plan, make hw w = .ok plan) ↔
    w.violation? = none ∧ hw.violation? = none ∧ w.CountsFit ∧ w.packet ≤ hw.wordsPerHalf ∧
      fits (w.reducer hw) (w.nops hw) hw.bufferEntries 1 = true := by
  constructor
  · rintro ⟨plan, h⟩
    have hsound := sound_of_make h
    obtain ⟨hworkload, hhardware, c, hfound⟩ := found_of_make h
    obtain ⟨hpos, -, -, -, hfits⟩ :=
      bufferChunk_eq_ok hsound.limits hsound.n_pos hfound.search
    exact ⟨hworkload, hhardware, hfound.counts_fit, hfound.packet_le, fits_of_le hfits hpos⟩
  · rintro ⟨hworkload, hhardware, hcounts, hpacket, hfits⟩
    obtain ⟨limit, c, hchunk⟩ := exists_bufferChunk
      (Hardware.withinLimits_of_violation? hhardware)
      (Workload.withinLimits_of_violation? hworkload).n_pos hfits
    exact exists_make hworkload hhardware hcounts hpacket hchunk

/-- **The chunk is the largest size that every capacity allows**, made even. -/
theorem greatest_of_make (h : make hw w = .ok plan) :
    ∃ c, plan.chunk = evened c w.n ∧ Allows hw w c ∧ ∀ k, Allows hw w k → k ≤ c := by
  have hsound := sound_of_make h
  obtain ⟨-, -, c, hfound⟩ := found_of_make h
  obtain ⟨-, hn, hwords, hstore, hfits⟩ :=
    bufferChunk_eq_ok hsound.limits hsound.n_pos hfound.search
  refine ⟨c, hfound.chunk_eq, ⟨hn, hwords, hstore, hfits⟩, ?_⟩
  intro k hk
  exact le_of_bufferChunk hfound.search hk.le_n hk.le_registerWords hk.le_storeEntries hk.fits

/-- If the registers limit the chunks of the tighter hardware, they do on the wider one. -/
theorem limit_eq_registers_of_tight {tightPlan : Plan} (h : make hw w = .ok plan)
    (htight : make tight w = .ok tightPlan) (hentries : tight.bufferEntries ≤ hw.bufferEntries)
    (hstore : tight.storeEntries ≤ hw.storeEntries)
    (hwords : tight.registerWords = hw.registerWords)
    (hinterval : tight.accessInterval = hw.accessInterval)
    (hlimit : tightPlan.limit = .registers) : plan.limit = .registers := by
  obtain ⟨-, -, c, hfound⟩ := found_of_make h
  obtain ⟨-, -, c', hfound'⟩ := found_of_make htight
  have hreducer : w.reducer tight = w.reducer hw := by
    simp only [Workload.reducer, Reducer.ofTree, Hardware.wordsPerHalf, hwords]
  have hsize : registerChunk (w.reducer tight) tight w.n = registerChunk (w.reducer hw) hw w.n := by
    simp only [registerChunk, hreducer, hwords]
  obtain ⟨hle, hfits⟩ := (limit_eq_registers_iff hfound'.search).mp hlimit
  rw [hsize] at hle hfits
  rw [hreducer, Workload.nops, hinterval] at hfits
  exact (limit_eq_registers_iff hfound.search).mpr
    ⟨Nat.le_trans hle hstore, fits_of_entries_le hfits hentries⟩

/-- **Tighter hardware has no larger chunks.** Whatever capacities shrink, together or alone, two
plans for one workload have chunks in the order of the hardware. If the very wide registers keep
their size, the limit of the tighter hardware is not a looser one. A smaller constant store never
takes a plan away. -/
theorem make_tightened (hw : Hardware) (w : Workload) :
    (∀ entries ≤ hw.bufferEntries, ∀ store ≤ hw.storeEntries, ∀ words ≤ hw.registerWords,
      ∀ plan tightPlan, make hw w = .ok plan →
        make { hw with bufferEntries := entries, storeEntries := store, registerWords := words } w =
          .ok tightPlan →
        tightPlan.chunk ≤ plan.chunk) ∧
    (∀ entries ≤ hw.bufferEntries, ∀ store ≤ hw.storeEntries,
      ∀ plan tightPlan, make hw w = .ok plan →
        make { hw with bufferEntries := entries, storeEntries := store } w = .ok tightPlan →
        tightPlan.limit.compare? plan.limit ≠ some .lt) ∧
    ∀ store ≤ hw.storeEntries, Hardware.violation? { hw with storeEntries := store } = none →
      ∀ plan, make hw w = .ok plan →
        ∃ tightPlan, make { hw with storeEntries := store } w = .ok tightPlan := by
  refine ⟨?_, ?_, ?_⟩
  · intro entries hentries store hstore words hwords plan tightPlan h htight
    obtain ⟨c, hchunk, -, hgreatest⟩ := greatest_of_make h
    obtain ⟨c', hchunk', hallows, -⟩ := greatest_of_make htight
    rw [hchunk, hchunk']
    exact evened_le_evened (hgreatest c' (hallows.loosen hentries hstore hwords rfl)) w.n
  · intro entries hentries store hstore plan tightPlan h htight hless
    obtain ⟨hlimit, hlimit'⟩ := ChunkLimit.compare?_eq_lt_iff.mp hless
    exact hlimit' (limit_eq_registers_of_tight h htight hentries hstore rfl rfl hlimit)
  · intro store hstore hvalid plan h
    obtain ⟨hworkload, -, hcounts, hpacket, hfits⟩ := exists_make_iff.mp ⟨plan, h⟩
    exact exists_make_iff.mpr ⟨hworkload, hvalid, hcounts, hpacket, hfits⟩

/-- Dot products of length 24 are limited by the instruction buffer at first, by the constant store
when both are smaller, and by the registers when those are. -/
theorem make_tightened_three_limits :
    ∃ plan tightPlan narrowPlan : Plan,
      make {} { m := 2, n := 24, q := 8, digitLength := 2 } = .ok plan ∧
      make { bufferEntries := 40, storeEntries := 7 }
        { m := 2, n := 24, q := 8, digitLength := 2 } = .ok tightPlan ∧
      make { registerWords := 8 } { m := 2, n := 24, q := 8, digitLength := 2 } = .ok narrowPlan ∧
      [plan.limit, tightPlan.limit, narrowPlan.limit] = [.instrBuffer, .constantStore, .registers] ∧
      tightPlan.chunk ≤ plan.chunk ∧ tightPlan.limit.compare? plan.limit ≠ some .lt ∧
      narrowPlan.chunk ≤ plan.chunk ∧
      ∃ leastPlan, make { storeEntries := 1 } { m := 2, n := 24, q := 8, digitLength := 2 } =
        .ok leastPlan := by
  have hplan : (make {} { m := 2, n := 24, q := 8, digitLength := 2 }).toOption.map (·.limit) =
      some .instrBuffer := by decide +kernel
  have htight : (make { bufferEntries := 40, storeEntries := 7 }
      { m := 2, n := 24, q := 8, digitLength := 2 }).toOption.map (·.limit) =
        some .constantStore := by decide +kernel
  have hnarrow : (make { registerWords := 8 }
      { m := 2, n := 24, q := 8, digitLength := 2 }).toOption.map (·.limit) =
        some .registers := by decide +kernel
  obtain ⟨plan, hplan, hlimit⟩ := Option.map_eq_some_iff.mp hplan
  obtain ⟨tightPlan, htight, htightLimit⟩ := Option.map_eq_some_iff.mp htight
  obtain ⟨narrowPlan, hnarrow, hnarrowLimit⟩ := Option.map_eq_some_iff.mp hnarrow
  rw [toOption_eq_some_iff] at hplan htight hnarrow
  obtain ⟨hchunks, hlimits, hstore⟩ :=
    make_tightened {} { m := 2, n := 24, q := 8, digitLength := 2 }
  refine ⟨plan, tightPlan, narrowPlan, hplan, htight, hnarrow, ?_, ?_, ?_, ?_, ?_⟩
  · rw [hlimit, htightLimit, hnarrowLimit]
  · exact hchunks 40 (by decide) 7 (by decide) 32 (by decide) plan tightPlan hplan htight
  · exact hlimits 40 (by decide) 7 (by decide) plan tightPlan hplan htight
  · exact hchunks 64 (by decide) 16 (by decide) 8 (by decide) plan narrowPlan hplan hnarrow
  · exact hstore 1 (by decide) (by decide +kernel) plan hplan

end Plan

end NearMemory
