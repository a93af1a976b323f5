import NearMemory.Proofs.ScheduleRun

/-!
# Schedules stay inside the hardware

The plan tests only the first layer of a full chunk against the instruction buffer. The other bodies
are bounded by arguments of their own: the remainder is a smaller chunk, further layers and
reductions keep to the budget, the end of a body takes the entries that the budget leaves free, and
the tail is tested by itself. Here they come together: no program that is scheduled exceeds the
hardware, and no difference that its numbers are computed from falls below zero.

## Main definitions

* `Operation.wordIndices`, `Operation.constantIndices` — the entries that an operation names
* `Schedule.instructions` — every instruction of the program text
* `Schedule.WithinHardware`, `Schedule.NoUnderflow` — the limits that are kept

## Main results

* `Schedule.Made.pass_within` — every pass stays inside the hardware
* `Schedule.make_within_hardware` — so does every program that is scheduled
-/

namespace NearMemory

/-- The words of very wide registers that an operation names. -/
def Operation.wordIndices : Operation → List Nat
  | .move m => if m.opcode = .vmv then [m.imm.toNat] else []
  | .arithmetic c => if c.opcode = .mul then [c.dstIndex.toNat, c.srcIndex.toNat] else []
  | .pack p => [p.dstIndex.toNat]

/-- The entries of the constant store that an operation names. -/
def Operation.constantIndices : Operation → List Nat
  | .move m => if m.opcode = .glmv then [m.imm.toNat] else []
  | .arithmetic c => if c.opcode = .mul then [c.csd.toNat] else []
  | .pack _ => []

/-! ### Instructions -/

namespace BodyInstruction

variable {hw : Hardware} {i : Instruction}

theorem toNat_ofNat {n bound : Nat} (h : n < bound) (hbound : bound ≤ 64) :
    (UInt32.ofNat n).toNat = n := by
  rw [UInt32.toNat_ofNat']
  omega

theorem word_lt (h : BodyInstruction hw i) (hhw : hw.WithinLimits) :
    ∀ k ∈ i.op.wordIndices, k < hw.registerWords := by
  have hwords := hhw.registerWords_le
  have hword : ∀ {word : Nat}, word < hw.registerWords → (UInt32.ofNat word).toNat = word :=
    fun h => toNat_ofNat h (by omega)
  intro k hk
  cases h with
  | multiply _ _ hw' _ =>
    simp only [Instruction.plain, Operation.multiply, Operation.wordIndices, if_true, hword hw',
      List.mem_cons, List.not_mem_nil, or_false, or_self] at hk
    omega
  | fold hop =>
    cases hop with
    | loadWord _ _ hw' | storeWord _ hw' | packInto _ _ hw' =>
      simp only [Instruction.plain, Operation.loadWord, Operation.storeWord, Operation.packInto,
        Operation.wordIndices, if_true, hword hw', List.mem_cons, List.not_mem_nil,
        or_false] at hk
      omega
    | addPair => simp [Instruction.plain, Operation.addPair, Operation.wordIndices] at hk
  | _ =>
    simp [Instruction.plain, NearMemory.constantLoad, NearMemory.rowRead, NearMemory.rowWrite,
      Operation.loadConstant, Operation.readRow, Operation.writeRow, Operation.permute,
      Operation.nop, Operation.wordIndices] at hk

theorem constant_lt (h : BodyInstruction hw i) (hhw : hw.WithinLimits) :
    ∀ k ∈ i.op.constantIndices, k < hw.storeEntries := by
  have hentries := hhw.storeEntries_le
  have hentry : ∀ {k : Nat}, k < hw.storeEntries → (UInt32.ofNat k).toNat = k :=
    fun h => toNat_ofNat h (by omega)
  intro k hk
  cases h with
  | constantLoad hk' =>
    simp only [NearMemory.constantLoad, Operation.loadConstant, Operation.constantIndices, if_true,
      hentry hk', List.mem_cons, List.not_mem_nil, or_false] at hk
    omega
  | multiply _ _ _ hk' =>
    simp only [Instruction.plain, Operation.multiply, Operation.constantIndices, if_true,
      hentry hk', List.mem_cons, List.not_mem_nil, or_false] at hk
    omega
  | fold hop =>
    cases hop <;> simp [Instruction.plain, Operation.loadWord, Operation.storeWord,
      Operation.addPair, Operation.packInto, Operation.constantIndices] at hk
  | _ =>
    simp [Instruction.plain, NearMemory.rowRead, NearMemory.rowWrite, Operation.readRow,
      Operation.writeRow, Operation.permute, Operation.nop, Operation.constantIndices] at hk

/-- The fields of a packed word are as wide as the stock limits, which the hardware only
tightens. -/
theorem cutFields_eq_nil (h : BodyInstruction hw i) (hhw : hw.WithinLimits) :
    i.op.cutFields = [] := by
  have hwords := hhw.registerWords_le
  have hentries := hhw.storeEntries_le
  rw [Operation.cutFields_eq_nil_iff]
  intro f hf
  rw [Nat.one_shiftLeft]
  cases h with
  | constantLoad hk =>
    obtain rfl := List.mem_singleton.mp hf
    show (UInt32.ofNat _).toNat < 32
    rw [toNat_ofNat hk (by omega)]
    omega
  | multiply _ _ hword hk =>
    simp only [Instruction.plain, Operation.multiply, Operation.numericFields, List.mem_cons,
      List.not_mem_nil, or_false] at hf
    rcases hf with rfl | rfl | rfl
    · show (UInt32.ofNat _).toNat < 16
      rw [toNat_ofNat hk (by omega)]
      omega
    all_goals
      show (UInt32.ofNat _).toNat < 32
      rw [toNat_ofNat hword (by omega)]
      omega
  | fold hop =>
    cases hop with
    | loadWord _ _ hword | storeWord _ hword =>
      obtain rfl := List.mem_singleton.mp hf
      show (UInt32.ofNat _).toNat < 32
      rw [toNat_ofNat hword (by omega)]
      omega
    | addPair =>
      simp only [Instruction.plain, Operation.addPair, Operation.numericFields, List.mem_cons,
        List.not_mem_nil, or_false] at hf
      rcases hf with rfl | rfl | rfl <;> exact Nat.two_pow_pos _
    | packInto hoffset _ hword =>
      simp only [Instruction.plain, Operation.packInto, Operation.numericFields, List.mem_cons,
        List.not_mem_nil, or_false] at hf
      rcases hf with rfl | rfl
      · rw [toNat_ofNat hoffset (by decide)]
        exact hoffset
      · show (UInt32.ofNat _).toNat < 32
        rw [toNat_ofNat hword (by omega)]
        omega
  | rowRead | rowWrite | wait =>
    obtain rfl := List.mem_singleton.mp hf
    exact (by decide : (0 : UInt32).toNat < 2 ^ Word.immBits)
  | swapHalves =>
    obtain rfl := List.mem_singleton.mp hf
    exact (by decide : (1 : UInt32).toNat < 2 ^ Word.immBits)

end BodyInstruction

/-! ### Passes -/

/-- A body of the given hardware, with room for the exit marker. -/
structure Pass.Within (hw : Hardware) (p : Pass) : Prop where
  instructions_within : ∀ i ∈ p.body, BodyInstruction hw i
  length_pos : 0 < p.body.length
  length_lt : p.body.length < hw.bufferEntries

theorem Body.Sound.pass_within {hw : Hardware} {first count : Nat} {b : Body}
    (h : b.Sound hw first count) {p : Pass} (hp : p.body = b.instructions) : p.Within hw := by
  refine ⟨?_, ?_, ?_⟩
  all_goals rw [hp]
  · exact h.instructions_within
  · exact h.length_pos
  · exact h.length_lt

theorem tailPass_within {hw : Hardware} {r : Reducer} {tiles sums : Nat} {p : Pass}
    (hhw : hw.WithinLimits) (hr : r.Sound hw)
    (hpacket : Subword.wordsPerPacket r.initial ((AdderTree.mk r.layers).resultWidth r.initial) ≤
      hw.wordsPerHalf)
    (h : tailPass hw r tiles sums = .ok p) : p.Within hw := by
  have hwords := hhw.two_mul_wordsPerHalf
  obtain ⟨hentries, rfl, -⟩ := tailPass_eq_ok h
  refine ⟨?_, ?_, ?_⟩
  · exact fun i => bodyInstruction_of_mem_tailInstructions
      (hr.widthChain.resultWidth_mem hr.initial_mem) (by omega)
  all_goals
    rw [length_tailInstructions]
    omega

theorem ReductionRun.pass_within {hw : Hardware} {r : Reducer} {tiles layer sums : Nat}
    {passes : List Pass} (h : ReductionRun hw r tiles layer sums passes) (hhw : hw.WithinLimits)
    (hr : r.Sound hw) (hentries : Plan.reservedEntries ≤ hw.bufferEntries)
    (hpacket : Subword.wordsPerPacket r.initial ((AdderTree.mk r.layers).resultWidth r.initial) ≤
      hw.wordsPerHalf) : ∀ p ∈ passes, p.Within hw := by
  induction h with
  | done => simp
  | reduction _ hl hwidest _ _ ih =>
    intro p hp
    rcases List.mem_cons.mp hp with rfl | hp
    · exact (hwidest.sound_body hhw hr hentries hl).pass_within rfl
    · exact ih p hp
  | tail _ _ htail =>
    intro p hp
    obtain rfl := List.mem_singleton.mp hp
    exact tailPass_within hhw hr hpacket htail

/-- A pass behind the multiplies is a reduction whose groups cover its sums, or the tail. -/
theorem ReductionRun.kind_of_mem {hw : Hardware} {r : Reducer} {tiles layer sums : Nat}
    {passes : List Pass} (h : ReductionRun hw r tiles layer sums passes) :
    ∀ p ∈ passes,
      (∃ g : Grouping, p.kind = .reduction g.groups g.size ∧ g.Covers p.sumsIn ∧
        p.layerFrom < p.layerTo) ∨ (p.kind = .tail ∧ 1 < p.sumsIn) := by
  induction h with
  | done => simp
  | reduction _ hl hwidest _ _ ih =>
    intro p hp
    rcases List.mem_cons.mp hp with rfl | hp
    · exact .inl ⟨_, rfl, hwidest.covers, hwidest.layer_lt hl _⟩
    · exact ih p hp
  | tail hsums _ htail =>
    intro p hp
    obtain rfl := List.mem_singleton.mp hp
    obtain ⟨-, rfl, -⟩ := tailPass_eq_ok htail
    exact .inr ⟨rfl, hsums⟩

namespace Schedule

variable {s : Schedule} {rest : List Pass}

namespace Made

theorem sound_fullBody (h : s.Made rest) : s.fullBody.Sound s.hardware 0 s.plan.chunk :=
  Body.sound_ofChunk h.plan_sound.limits h.plan_sound.sound_reducer h.plan_sound.chunk_fits
    h.plan_sound.chunk_pos (Nat.le_refl _) (.inr rfl) h.plan_sound.chunk_le_registerWords
    h.plan_sound.chunk_le_storeEntries

/-- The remainder is smaller than a chunk, so it fits although it is folded up to a limit. -/
theorem sound_remainderBody (h : s.Made rest) (hne : s.plan.remainder ≠ 0) :
    s.remainderBody.Sound s.hardware 0 s.plan.remainder :=
  Body.sound_ofChunk h.plan_sound.limits h.plan_sound.sound_reducer h.plan_sound.chunk_fits
    (Nat.pos_of_ne_zero hne) (Nat.le_of_lt h.plan_sound.remainder_lt)
    (.inl h.plan_sound.remainder_lt) h.plan_sound.chunk_le_registerWords
    h.plan_sound.chunk_le_storeEntries

/-- **Every pass stays inside the hardware.** -/
theorem pass_within (h : s.Made rest) : ∀ p ∈ s.passes, p.Within s.hardware := by
  intro p hp
  rw [h.passes_eq, List.cons_append, List.mem_cons, List.mem_append] at hp
  rcases hp with rfl | hp | hp
  · exact h.sound_fullBody.pass_within rfl
  · rw [remainderPasses] at hp
    split at hp
    · simp at hp
    next hne =>
      obtain rfl := List.mem_singleton.mp hp
      exact (h.sound_remainderBody hne).pass_within rfl
  · exact h.reduction_run.pass_within h.plan_sound.limits h.plan_sound.sound_reducer
      h.plan_sound.reservedEntries_le h.plan_sound.packet_le p hp

end Made

/-! ### Programs -/

/-- Every instruction of the program text, the exit markers among them. -/
def instructions (s : Schedule) : List Instruction :=
  s.lines.filterMap fun
    | .statement (.instruction i) => some i
    | _ => none

theorem mem_instructions {i : Instruction} (h : i ∈ s.instructions) :
    i = { op := .exit } ∨ ∃ p ∈ s.passes, i ∈ p.body := by
  obtain ⟨line, hline, hi⟩ := List.mem_filterMap.mp h
  obtain rfl : line = .statement (.instruction i) := by
    split at hi
    · rw [Option.some.inj hi]
    · simp at hi
  simp only [lines, remark, setup, List.mem_append, List.mem_map, List.mem_flatMap] at hline
  rcases hline with (hline | ⟨st, hst, heq⟩) | ⟨p, hp, hline | ⟨st, hst, heq⟩⟩
  · split at hline <;> simp at hline
  · obtain rfl := Line.statement.inj heq
    simp at hst
  · split at hline <;> simp at hline
  · obtain rfl := Line.statement.inj heq
    simp only [Pass.statements, List.mem_append, List.mem_cons, List.mem_map, reduceCtorEq,
      false_or, Statement.instruction.injEq, List.mem_replicate, and_false, or_false] at hst
    rcases hst with ⟨i', hi', rfl⟩ | rfl
    · exact .inr ⟨p, hp, hi'⟩
    · exact .inl rfl

/-- The program keeps to the sizes of the hardware. -/
structure WithinHardware (s : Schedule) (hw : Hardware) : Prop where
  /-- Every body fits the instruction buffer, together with the exit marker. -/
  body_fits : ∀ p ∈ s.passes, p.body.length + 1 ≤ hw.bufferEntries
  /-- Every word that is named exists. -/
  word_exists : ∀ i ∈ s.instructions, ∀ k ∈ i.op.wordIndices, k < hw.registerWords
  /-- Every constant that is named exists. -/
  constant_exists : ∀ i ∈ s.instructions, ∀ k ∈ i.op.constantIndices, k < hw.storeEntries
  /-- Packing an instruction cuts none of its fields. -/
  nothing_cut : ∀ i ∈ s.instructions, i.op.cutFields = []

/-- The differences that a schedule is computed from are not negative. -/
structure NoUnderflow (s : Schedule) (hw : Hardware) : Prop where
  /-- The budget is what the buffer holds less the entries kept free. -/
  budget : Plan.reservedEntries ≤ hw.bufferEntries ∧
    bodyBudget hw + Plan.reservedEntries = hw.bufferEntries
  /-- A body has a last instruction, where its loop ends. -/
  loop_end : ∀ p ∈ s.passes, p.loop.finish + 1 = p.body.length
  /-- All groups but the last are full, and something is left for the last. -/
  last_group : ∀ p ∈ s.passes, ∀ groups size, p.kind = .reduction groups size →
    1 ≤ groups ∧ (groups - 1) * size < p.sumsIn ∧ p.layerFrom ≤ p.layerTo
  /-- The tail starts from one of its sums. -/
  tail_sums : ∀ p ∈ s.passes, p.kind = .tail → 1 ≤ p.sumsIn

theorem Made.withinHardware (h : s.Made rest) : s.WithinHardware s.hardware := by
  have hhw := h.plan_sound.limits
  refine ⟨fun p hp => (h.pass_within p hp).length_lt, ?_, ?_, ?_⟩
  · intro i hi
    rcases mem_instructions hi with rfl | ⟨p, hp, hi⟩
    · simp [Operation.exit, Operation.wordIndices]
    · exact ((h.pass_within p hp).instructions_within i hi).word_lt hhw
  · intro i hi
    rcases mem_instructions hi with rfl | ⟨p, hp, hi⟩
    · simp [Operation.exit, Operation.constantIndices]
    · exact ((h.pass_within p hp).instructions_within i hi).constant_lt hhw
  · intro i hi
    rcases mem_instructions hi with rfl | ⟨p, hp, hi⟩
    · decide
    · exact ((h.pass_within p hp).instructions_within i hi).cutFields_eq_nil hhw

theorem Made.kind_of_mem (h : s.Made rest) {p : Pass} (hp : p ∈ s.passes) :
    p.kind = .chunk ∨ p.kind = .remainder ∨ p ∈ rest := by
  rw [h.passes_eq, List.cons_append, List.mem_cons, List.mem_append] at hp
  rcases hp with rfl | hp | hp
  · exact .inl rfl
  · rw [remainderPasses] at hp
    split at hp
    · simp at hp
    · obtain rfl := List.mem_singleton.mp hp
      exact .inr (.inl rfl)
  · exact .inr (.inr hp)

theorem Made.noUnderflow (h : s.Made rest) : s.NoUnderflow s.hardware := by
  have hreserved := h.plan_sound.reservedEntries_le
  refine ⟨⟨hreserved, ?_⟩, ?_, ?_, ?_⟩
  · rw [bodyBudget]
    omega
  · intro p hp
    have hpos := (h.pass_within p hp).length_pos
    show p.body.length - 1 + 1 = p.body.length
    omega
  · intro p hp groups size hkind
    rcases h.kind_of_mem hp with hchunk | hremainder | hrest
    · simp [hchunk] at hkind
    · simp [hremainder] at hkind
    · rcases h.reduction_run.kind_of_mem p hrest with ⟨g, hg, hcovers, hlayer⟩ | ⟨htail, -⟩
      · rw [hg, Pass.Kind.reduction.injEq] at hkind
        obtain ⟨rfl, rfl⟩ := hkind
        exact ⟨hcovers.groups_pos, hcovers.lt_operands, Nat.le_of_lt hlayer⟩
      · simp [htail] at hkind
  · intro p hp hkind
    rcases h.kind_of_mem hp with hchunk | hremainder | hrest
    · simp [hchunk] at hkind
    · simp [hremainder] at hkind
    · rcases h.reduction_run.kind_of_mem p hrest with ⟨g, hg, -⟩ | ⟨-, hsums⟩
      · simp [hg] at hkind
      · exact Nat.le_of_lt hsums

/-- **Programs stay inside the hardware.** Every workload that can be scheduled gives a program
whose bodies, words, constants and packed fields exist on the hardware it was scheduled for, and no
difference on the way there falls below zero. -/
theorem make_within_hardware {hw : Hardware} {w : Workload} {s : Schedule}
    (h : make hw w = .ok s) : s.WithinHardware hw ∧ s.NoUnderflow hw := by
  obtain ⟨rfl, -, rest, hmade⟩ := made_of_make h
  exact ⟨hmade.withinHardware, hmade.noUnderflow⟩

/-- Thirteen products with six constants at a time take a pass of every kind. -/
theorem make_within_hardware_all_kinds :
    ∃ s, make { storeEntries := 6 } { m := 2, n := 13, q := 8, digitLength := 2 } = .ok s ∧
      s.passes.map (·.kind) = [.chunk, .remainder, .reduction 1 3, .tail] ∧
      s.WithinHardware { storeEntries := 6 } ∧ s.NoUnderflow { storeEntries := 6 } := by
  have hkinds : (make { storeEntries := 6 }
      { m := 2, n := 13, q := 8, digitLength := 2 }).toOption.map (·.passes.map (·.kind)) =
        some [.chunk, .remainder, .reduction 1 3, .tail] := by
    decide +kernel
  obtain ⟨s, hs, hkinds⟩ := Option.map_eq_some_iff.mp hkinds
  have hok := toOption_eq_some_iff.mp hs
  exact ⟨s, hok, hkinds, make_within_hardware hok⟩

end Schedule

end NearMemory
