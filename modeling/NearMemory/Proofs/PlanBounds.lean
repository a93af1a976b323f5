import NearMemory.Proofs.LayerFold

/-!
# What a plan guarantees

A plan is made only for hardware within the stock limits and for workloads that can be scheduled at
all, and its chunk size respects every capacity. `Plan.Sound` collects what the rest of a schedule
relies on, so that nothing later looks into the search for the chunk size.

The search tests one chunk size, yet a schedule also uses smaller ones: the size is made even, and
the remainder takes what is left. Both fit because the cost of a body grows with the chunk
(`fits_of_le`).

## Main definitions

* `Hardware.WithinLimits`, `Workload.WithinLimits` — what the two checks guarantee
* `Workload.CountsFit` — registers hold the counts of a workload
* `Plan.Found` — what a plan rests on
* `Plan.Sound` — what is known of a plan that was made

## Main results

* `Plan.fits_of_le` — smaller chunks fit
* `Plan.sound_of_make` — every plan is sound
-/

namespace NearMemory

/-! ### Hardware -/

/-- The limits of hardware that passes its check. -/
structure Hardware.WithinLimits (hw : Hardware) : Prop where
  bufferEntries_le : hw.bufferEntries ≤ 64
  storeEntries_pos : 0 < hw.storeEntries
  storeEntries_le : hw.storeEntries ≤ 16
  registerWords_pos : 0 < hw.registerWords
  registerWords_le : hw.registerWords ≤ 32
  two_mul_wordsPerHalf : 2 * hw.wordsPerHalf = hw.registerWords

theorem Hardware.withinLimits_of_violation? {hw : Hardware} (h : hw.violation? = none) :
    hw.WithinLimits := by
  rw [violation?] at h
  split at h
  · contradiction
  split at h
  · contradiction
  split at h
  · contradiction
  next hbuffer hstore hregister =>
    refine ⟨by omega, by omega, by omega, by omega, by omega, ?_⟩
    rw [wordsPerHalf]
    omega

/-! ### Results -/

theorem bind_eq_ok_iff {ε α β : Type} {x : Except ε α} {f : α → Except ε β} {b : β} :
    x >>= f = .ok b ↔ ∃ a, x = .ok a ∧ f a = .ok b := by
  cases x with
  | error e => exact ⟨nofun, nofun⟩
  | ok a => exact ⟨fun h => ⟨a, rfl, h⟩, fun ⟨_, ha, h⟩ => Except.ok.inj ha ▸ h⟩

theorem map_eq_ok_iff {ε α β : Type} {x : Except ε α} {f : α → β} {b : β} :
    x.map f = .ok b ↔ ∃ a, x = .ok a ∧ f a = b := by
  cases x with
  | error e => exact ⟨nofun, nofun⟩
  | ok a => simp [Except.map]

theorem toOption_eq_some_iff {ε α : Type} {x : Except ε α} {a : α} :
    x.toOption = some a ↔ x = .ok a := by
  cases x with
  | error e => exact ⟨nofun, nofun⟩
  | ok a' => simp [Except.toOption]

theorem mapError_eq_ok_iff {ε ε' α : Type} {x : Except ε α} {f : ε → ε'} {a : α} :
    x.mapError f = .ok a ↔ x = .ok a := by
  cases x with
  | error e => exact ⟨nofun, nofun⟩
  | ok a' => simp [Except.mapError]

@[simp] theorem counted_eq_ok_iff {n k : Nat} : counted n = .ok k ↔ n < UInt64.size ∧ n = k := by
  rw [counted]
  split <;> simp_all

theorem counted_eq_overflow_iff {n : Nat} : counted n = .error .overflow ↔ ¬ n < UInt64.size := by
  rw [counted]
  split <;> simp_all

/-! ### Workloads -/

namespace Workload

/-- What is known of a workload that passes its check. -/
structure WithinLimits (w : Workload) : Prop where
  m_pos : 0 < w.m
  n_pos : 0 < w.n
  q_pos : 0 < w.q
  width_mem : w.subwordWidth ∈ Subword.ladder

variable {w : Workload}

theorem withinLimits_of_violation? (h : w.violation? = none) : w.WithinLimits := by
  rw [violation?] at h
  split at h
  · contradiction
  split at h
  · contradiction
  next hdimensions hindex =>
    rw [Option.isNone_iff_eq_none, ← ne_eq, ← Option.isSome_iff_ne_none,
      Subword.isSome_index?_iff] at hindex
    exact ⟨by omega, by omega, by omega, hindex⟩

/-- The adder tree of a workload. -/
def tree (w : Workload) : AdderTree := ⟨AdderTree.layersFrom w.q 1 w.n w.subwordWidth 0⟩

/-- Registers hold the counts of a workload: the instructions that cover the output, the multiplies
of an output row, and the instructions of every layer. -/
structure CountsFit (w : Workload) : Prop where
  tiles_lt : w.m * Subword.tiles w.q w.subwordWidth < UInt64.size
  multiplies_lt : w.n * Subword.tiles w.q w.subwordWidth < UInt64.size
  layers_counted : w.tree.layers.all (·.isCounted) = true

/-- A workload has no more instructions of a kind than one for every product and every tile of the
widest width. -/
theorem WithinLimits.countsFit (h : w.WithinLimits)
    (hfit : w.m * w.n * Subword.tiles w.q Subword.widest < UInt64.size) : w.CountsFit := by
  have htiles := Subword.tiles_le_widest w.q h.width_mem
  have hm : w.m ≤ w.m * w.n := Nat.le_mul_of_pos_right w.m h.n_pos
  have hn : w.n ≤ w.m * w.n := Nat.le_mul_of_pos_left w.n h.m_pos
  exact ⟨Nat.lt_of_le_of_lt (Nat.mul_le_mul hm htiles) hfit,
    Nat.lt_of_le_of_lt (Nat.mul_le_mul hn htiles) hfit,
    AdderTree.all_isCounted_layersFrom h.width_mem
      (Nat.lt_of_le_of_lt (Nat.mul_le_mul_right _ hn) hfit)⟩

theorem WithinLimits.build_tree_eq_ok_iff (h : w.WithinLimits) {tree : AdderTree} :
    AdderTree.build w.n w.subwordWidth w.q = .ok tree ↔
      w.tree.layers.all (·.isCounted) = true ∧ w.tree = tree := by
  rw [AdderTree.build_eq_ok_iff, and_iff_right h.n_pos, and_iff_right h.width_mem]
  rfl

/-- What folding needs to know of a workload on the given hardware. -/
def reducer (w : Workload) (hw : Hardware) : Reducer := .ofTree w.tree w.subwordWidth hw

/-- The words of a packet of the final sums. -/
def packet (w : Workload) : Nat :=
  Subword.wordsPerPacket w.subwordWidth (w.tree.resultWidth w.subwordWidth)

/-- The empty instructions after a multiply. -/
def nops (w : Workload) (hw : Hardware) : Nat :=
  (Padding.ofDigits w.digitLength hw.accessInterval).nops

end Workload

/-! ### Search -/

theorem greatest?_eq_some {p : Nat → Bool} {bound c : Nat} (h : greatest? p bound = some c) :
    0 < c ∧ c ≤ bound ∧ p c = true := by
  induction bound with
  | zero => simp [greatest?] at h
  | succ n ih =>
    rw [greatest?] at h
    split at h
    next hp =>
      obtain rfl := Option.some.inj h
      exact ⟨Nat.succ_pos n, Nat.le_refl _, hp⟩
    next =>
      obtain ⟨hpos, hle, hp⟩ := ih h
      exact ⟨hpos, Nat.le_succ_of_le hle, hp⟩

theorem isSome_greatest? {p : Nat → Bool} {bound c : Nat} (hpos : 0 < c) (hle : c ≤ bound)
    (hp : p c = true) : (greatest? p bound).isSome := by
  induction bound with
  | zero => omega
  | succ n ih =>
    rw [greatest?]
    split
    next => rfl
    next hn =>
      refine ih (Nat.le_of_lt_succ (Nat.lt_of_le_of_ne hle ?_))
      rintro rfl
      exact hn hp

/-! ### Smaller chunks -/

@[simp] theorem length_loadedPackets (count packet : Nat) :
    (loadedPackets count packet).length = count := by
  simp [loadedPackets]

theorem Reducer.foldAt?_of_length_le {r : Reducer} {position half : Nat}
    {packets fewer : List Packet} {folded : FoldedLayer}
    (h : r.foldAt? position packets half = some folded) (hlen : fewer.length ≤ packets.length) :
    ∃ folded', r.foldAt? position fewer half = some folded' ∧ folded'.size ≤ folded.size := by
  obtain ⟨l, hl, h⟩ := Option.bind_eq_some_iff.mp h
  obtain ⟨folded', hfolded', hsize⟩ := foldFrom?_of_length_le h hlen
  exact ⟨folded', Option.bind_eq_some_iff.mpr ⟨l, hl, hfolded'⟩, hsize⟩

namespace Plan

variable {r : Reducer} {hw : Hardware} {w : Workload} {plan : Plan} {nops entries : Nat}

theorem foldCost?_of_le {c c' cost : Nat} (h : foldCost? r c = some cost) (hle : c' ≤ c) :
    ∃ cost', foldCost? r c' = some cost' ∧ cost' ≤ cost := by
  rw [foldCost?] at h ⊢
  by_cases hsmall : c' < 2
  · exact ⟨0, if_pos hsmall, Nat.zero_le _⟩
  · rw [if_neg hsmall]
    rw [if_neg (by omega)] at h
    obtain ⟨folded, hfolded, rfl⟩ := Option.map_eq_some_iff.mp h
    obtain ⟨folded', hfolded', hsize⟩ := Reducer.foldAt?_of_length_le
      hfolded (show (loadedPackets c' 1).length ≤ _ by simpa using hle)
    exact ⟨folded'.size, by rw [hfolded', Option.map_some], hsize⟩

theorem fits_iff {c : Nat} :
    fits r nops entries c = true ↔ ∃ cost, foldCost? r c = some cost ∧
      c + (if 1 < c then 2 else 1) + c * (1 + nops) + cost + reservedEntries ≤ entries := by
  simp only [fits, bodyCost?, Option.any_map, Option.any_eq_true, decide_eq_true_iff]

/-- **Smaller chunks fit.** -/
theorem fits_of_le {c c' : Nat} (h : fits r nops entries c = true) (hle : c' ≤ c) :
    fits r nops entries c' = true := by
  rw [fits_iff] at h ⊢
  obtain ⟨cost, hcost, hentries⟩ := h
  obtain ⟨cost', hcost', hsize⟩ := foldCost?_of_le hcost hle
  refine ⟨cost', hcost', ?_⟩
  have hmul : c' * (1 + nops) ≤ c * (1 + nops) := Nat.mul_le_mul_right _ hle
  have hreads : (if 1 < c' then 2 else 1) ≤ (if 1 < c then 2 else 1) := by
    split <;> split <;> omega
  omega

/-! ### Plans -/

/-- What the passes of a schedule rely on. -/
structure Sound (plan : Plan) (hw : Hardware) (w : Workload) : Prop where
  limits : hw.WithinLimits
  m_pos : 0 < w.m
  n_pos : 0 < w.n
  q_pos : 0 < w.q
  width_mem : w.subwordWidth ∈ Subword.ladder
  layers_eq : plan.tree.layers = AdderTree.layersFrom w.q 1 w.n w.subwordWidth 0
  packet_le : Subword.wordsPerPacket w.subwordWidth (plan.tree.resultWidth w.subwordWidth) ≤
    hw.wordsPerHalf
  chunk_pos : 0 < plan.chunk
  chunk_le : plan.chunk ≤ w.n
  chunk_le_registerWords : plan.chunk ≤ hw.registerWords
  chunk_le_storeEntries : plan.chunk ≤ hw.storeEntries
  chunk_fits : fits (Reducer.ofTree plan.tree w.subwordWidth hw) plan.padding.nops hw.bufferEntries
    plan.chunk = true
  fullChunks_eq : plan.fullChunks = w.n / plan.chunk
  remainder_eq : plan.remainder = w.n % plan.chunk
  tilesPerRow_eq : plan.tilesPerRow = Subword.tiles w.q w.subwordWidth
  tiles_eq : plan.tiles = w.m * plan.tilesPerRow
  tiles_lt : plan.tiles < UInt64.size

theorem registerChunk_pos {n : Nat} (r : Reducer) (hhw : hw.WithinLimits) (hn : 0 < n) :
    0 < registerChunk r hw n := by
  have hwords := hhw.registerWords_pos
  obtain ⟨b, hb⟩ := Option.isSome_iff_exists.mp
    (isSome_greatest? (p := fun c => c ≤ 1 || (foldCost? r c).isSome) Nat.one_pos
      (show 1 ≤ min hw.registerWords n by omega) (by simp))
  rw [registerChunk, hb, Option.getD_some]
  exact (greatest?_eq_some hb).1

theorem registerChunk_le (r : Reducer) (hw : Hardware) (n : Nat) :
    registerChunk r hw n ≤ min hw.registerWords n := by
  rw [registerChunk]
  cases hb : greatest? (fun c => c ≤ 1 || (foldCost? r c).isSome) (min hw.registerWords n) with
  | none => exact Nat.zero_le _
  | some b => exact (greatest?_eq_some hb).2.1

@[simp] theorem snd_storeChunk (r : Reducer) (hw : Hardware) (n : Nat) :
    (storeChunk r hw n).2 = min (registerChunk r hw n) hw.storeEntries := by
  simp only [storeChunk]
  split <;> dsimp only <;> omega

/-- The registers and the constant store allow a size, which the buffer may lower. -/
theorem bufferChunk_cases {limit : ChunkLimit} {n c : Nat}
    (h : bufferChunk r hw n nops = .ok (limit, c)) :
    (storeChunk r hw n = (limit, c) ∧ fits r nops hw.bufferEntries c = true) ∨
      (limit = .instrBuffer ∧ fits r nops hw.bufferEntries (storeChunk r hw n).2 = false ∧
        greatest? (fits r nops hw.bufferEntries) (storeChunk r hw n).2 = some c) := by
  rw [bufferChunk] at h
  dsimp only at h
  split at h
  next hfits =>
    obtain ⟨rfl, rfl⟩ := Prod.mk.inj (Except.ok.inj h)
    exact .inl ⟨rfl, hfits⟩
  next hfits =>
    split at h
    next c' hc' =>
      obtain ⟨rfl, rfl⟩ := Prod.mk.inj (Except.ok.inj h)
      exact .inr ⟨rfl, eq_false_of_ne_true hfits, hc'⟩
    next => contradiction

/-- The chunk size before it is made even. -/
theorem bufferChunk_eq_ok {limit : ChunkLimit} {n c : Nat} (hhw : hw.WithinLimits) (hn : 0 < n)
    (h : bufferChunk r hw n nops = .ok (limit, c)) :
    0 < c ∧ c ≤ n ∧ c ≤ hw.registerWords ∧ c ≤ hw.storeEntries ∧
      fits r nops hw.bufferEntries c = true := by
  have hpos := registerChunk_pos r hhw hn
  have hle := registerChunk_le r hw n
  have hstore := snd_storeChunk r hw n
  have hstorepos := hhw.storeEntries_pos
  rcases bufferChunk_cases h with ⟨heq, hfits⟩ | ⟨-, -, hc⟩
  · rw [heq] at hstore
    dsimp only at hstore
    exact ⟨by omega, by omega, by omega, by omega, hfits⟩
  · obtain ⟨hcpos, hcle, hfits⟩ := greatest?_eq_some hc
    exact ⟨hcpos, by omega, by omega, by omega, hfits⟩

theorem evened_le (c n : Nat) : evened c n ≤ c := by
  rw [evened]
  split <;> omega

theorem evened_pos {c : Nat} (hc : 0 < c) (n : Nat) : 0 < evened c n := by
  rw [evened]
  split <;> omega

/-- What a plan rests on: counts that fit, room for the final sums, and a search that found `c`
before the size was made even. -/
structure Found (plan : Plan) (hw : Hardware) (w : Workload) (c : Nat) : Prop where
  counts_fit : w.CountsFit
  packet_le : w.packet ≤ hw.wordsPerHalf
  search : bufferChunk (w.reducer hw) hw w.n (w.nops hw) = .ok (plan.limit, c)
  chunk_eq : plan.chunk = evened c w.n
  tree_eq : plan.tree = w.tree
  padding_eq : plan.padding = .ofDigits w.digitLength hw.accessInterval
  fullChunks_eq : plan.fullChunks = w.n / plan.chunk
  remainder_eq : plan.remainder = w.n % plan.chunk
  tilesPerRow_eq : plan.tilesPerRow = Subword.tiles w.q w.subwordWidth
  tiles_eq : plan.tiles = w.m * plan.tilesPerRow

theorem found_of_makeChecked (hwl : w.WithinLimits) (h : makeChecked hw w = .ok plan) :
    ∃ c, plan.Found hw w c := by
  obtain ⟨tiles, htiles, h⟩ := bind_eq_ok_iff.mp h
  obtain ⟨multiplies, hmultiplies, h⟩ := bind_eq_ok_iff.mp h
  obtain ⟨tree, htree, h⟩ := bind_eq_ok_iff.mp h
  obtain ⟨htilesLt, rfl⟩ := counted_eq_ok_iff.mp htiles
  obtain ⟨hmultipliesLt, rfl⟩ := counted_eq_ok_iff.mp hmultiplies
  obtain ⟨hlayers, rfl⟩ := hwl.build_tree_eq_ok_iff.mp htree
  dsimp only [bind, Except.bind] at h
  split at h
  · contradiction
  next hpacket =>
    obtain ⟨⟨limit, c⟩, hchunk, h⟩ := bind_eq_ok_iff.mp h
    obtain rfl := Except.ok.inj h
    exact ⟨c, ⟨htilesLt, hmultipliesLt, hlayers⟩, Nat.le_of_not_lt hpacket, hchunk, rfl, rfl, rfl,
      rfl, rfl, rfl, rfl⟩

/-- A plan is made after both checks. -/
theorem found_of_make (h : Plan.make hw w = .ok plan) :
    w.violation? = none ∧ hw.violation? = none ∧ ∃ c, plan.Found hw w c := by
  rw [Plan.make] at h
  split at h
  · contradiction
  next hworkload =>
    split at h
    · contradiction
    next hhardware =>
      exact ⟨hworkload, hhardware, found_of_makeChecked
        (Workload.withinLimits_of_violation? hworkload) (mapError_eq_ok_iff.mp h)⟩

/-- **Every plan is sound.** -/
theorem sound_of_make (h : Plan.make hw w = .ok plan) : plan.Sound hw w := by
  obtain ⟨hworkload, hhardware, c, hfound⟩ := found_of_make h
  have hwl := Workload.withinLimits_of_violation? hworkload
  have hhw := Hardware.withinLimits_of_violation? hhardware
  obtain ⟨hpos, hle, hregister, hstore, hfits⟩ := bufferChunk_eq_ok hhw hwl.n_pos hfound.search
  have hevened : plan.chunk ≤ c := hfound.chunk_eq ▸ evened_le c w.n
  exact {
    limits := hhw
    m_pos := hwl.m_pos
    n_pos := hwl.n_pos
    q_pos := hwl.q_pos
    width_mem := hwl.width_mem
    layers_eq := by rw [hfound.tree_eq, Workload.tree]
    packet_le := by rw [hfound.tree_eq]; exact hfound.packet_le
    chunk_pos := hfound.chunk_eq ▸ evened_pos hpos w.n
    chunk_le := Nat.le_trans hevened hle
    chunk_le_registerWords := Nat.le_trans hevened hregister
    chunk_le_storeEntries := Nat.le_trans hevened hstore
    chunk_fits := by rw [hfound.tree_eq, hfound.padding_eq]; exact fits_of_le hfits hevened
    fullChunks_eq := hfound.fullChunks_eq
    remainder_eq := hfound.remainder_eq
    tilesPerRow_eq := hfound.tilesPerRow_eq
    tiles_eq := hfound.tiles_eq
    tiles_lt := by
      rw [hfound.tiles_eq, hfound.tilesPerRow_eq]
      exact hfound.counts_fit.tiles_lt }

end Plan

end NearMemory
