import NearMemory.Proofs.Rounding

/-!
# Where packs take their subwords

A packet is read word by word into the result register, and every pack fills one output word with
subwords of the register. The packs issued for an input word are those of the output words that
begin in it (`mem_packsOf_iff`). So every output word is filled once, from one input word.

An output word that straddles two input words is filled from the first of them only. Its subwords in
the second are taken by no pack, and this is the one way to lose a subword (`subword_taken_iff`): it
cannot happen where the output words divide the input words, nor in a packet of one input word. It
does happen from 12 to 16 bits, where a packet of six subwords loses the last two.

Input and output words line up in blocks. The packs of an input word are sought in its whole block,
so there are none at all where registers cannot hold the places of a block
(`packsOf?_eq_some_iff`).

## Main definitions

* `PackTakes` — the subwords of the result register that a pack takes

## Main results

* `mem_packsOf_iff` — the packs of an input word
* `packsOf?_eq_some_iff` — where there are packs of an input word
* `subword_taken_iff` — which subwords of a packet are taken, and where they go
-/

namespace NearMemory

/-! ### The packs of a word -/

theorem packPeriod_eq_lcm (perIn perOut : Nat) : packPeriod perIn perOut = perIn.lcm perOut :=
  Nat.div_mul_right_comm (Nat.gcd_dvd_left perIn perOut) perOut

/-- **The packs of an input word are the output words that begin in it.** -/
theorem mem_packsOf_iff {word perIn perOut values : Nat} {pack : Nat × Nat} (hin : 0 < perIn)
    (hout : 0 < perOut) :
    pack ∈ packsOf word perIn perOut values ↔
      word * perIn ≤ pack.2 * perOut ∧ pack.2 * perOut < (word + 1) * perIn ∧
        pack.2 * perOut < values ∧
        pack.1 = (pack.2 * perOut - word * perIn) % UInt32.size := by
  obtain ⟨inWords, hinWords⟩ : ∃ inWords, perIn.lcm perOut = inWords * perIn :=
    (Nat.dvd_lcm_left perIn perOut).imp fun _ h => h.trans (Nat.mul_comm ..)
  obtain ⟨outWords, houtWords⟩ : ∃ outWords, perIn.lcm perOut = outWords * perOut :=
    (Nat.dvd_lcm_right perIn perOut).imp fun _ h => h.trans (Nat.mul_comm ..)
  have hpos : 0 < inWords := Nat.pos_of_mul_pos_right (hinWords ▸ Nat.lcm_pos hin hout)
  -- places in the packet, counted from the start of the block that holds the input word
  have hword : word * perIn = word / inWords * perIn.lcm perOut + word % inWords * perIn := by
    rw [hinWords, ← Nat.mul_assoc, ← Nat.add_mul, Nat.div_add_mod']
  have hplace : ∀ k, (word / inWords * outWords + k) * perOut =
      word / inWords * perIn.lcm perOut + k * perOut := by
    intro k
    rw [houtWords, Nat.add_mul, Nat.mul_assoc]
  simp only [packsOf, packPeriod_eq_lcm, List.mem_filterMap, List.mem_range,
    Option.ite_none_right_eq_some, Option.some.injEq]
  rw [show perIn.lcm perOut / perIn = inWords by rw [hinWords, Nat.mul_div_cancel _ hin],
    show perIn.lcm perOut / perOut = outWords by rw [houtWords, Nat.mul_div_cancel _ hout]]
  constructor
  · rintro ⟨k, -, ⟨hlow, hhigh, hvalues⟩, rfl⟩
    dsimp only
    rw [hplace, Nat.add_mul, hword, Nat.add_sub_add_left]
    exact ⟨by omega, by omega, hvalues, rfl⟩
  · obtain ⟨offset, out⟩ := pack
    dsimp only
    rintro ⟨hlow, hhigh, hvalues, rfl⟩
    have hblock : word / inWords * outWords ≤ out := by
      refine Nat.le_of_mul_le_mul_right ?_ hout
      rw [Nat.mul_assoc, ← houtWords]
      omega
    obtain ⟨k, rfl⟩ := Nat.exists_eq_add_of_le hblock
    rw [hplace, hword] at hlow
    rw [hplace, Nat.add_mul, hword] at hhigh
    rw [hplace] at hvalues
    refine ⟨k, ?_, ⟨by omega, by omega, hvalues⟩, ?_⟩
    · -- the input word ends inside its block, so the output word begins inside it
      have hend : (word % inWords + 1) * perIn ≤ inWords * perIn :=
        Nat.mul_le_mul_right perIn (Nat.mod_lt word hpos)
      rw [Nat.add_mul, ← hinWords, houtWords] at hend
      refine Nat.lt_of_mul_lt_mul_right (a := perOut) ?_
      omega
    · rw [hplace, hword, Nat.add_sub_add_left]

/-- The packs of an input word of which 32 bits count the subwords. -/
theorem mem_packsOf_iff_of_le {word perIn perOut values offset out : Nat} (hin : 0 < perIn)
    (hout : 0 < perOut) (hsize : perIn ≤ UInt32.size) :
    (offset, out) ∈ packsOf word perIn perOut values ↔
      offset < perIn ∧ out * perOut = word * perIn + offset ∧ out * perOut < values := by
  rw [mem_packsOf_iff hin hout, Nat.add_mul, Nat.one_mul]
  dsimp only
  constructor
  · rintro ⟨hlow, hhigh, hvalues, rfl⟩
    rw [Nat.mod_eq_of_lt (by omega)]
    exact ⟨by omega, by omega, hvalues⟩
  · rintro ⟨hoffset, hplace, hvalues⟩
    refine ⟨by omega, by omega, hvalues, ?_⟩
    rw [hplace, Nat.add_sub_cancel_left, Nat.mod_eq_of_lt (by omega)]

/-- The packs of an input word are issued in the order of their output words. -/
theorem pairwise_packsOf (word perIn perOut values : Nat) :
    (packsOf word perIn perOut values).Pairwise (·.2 < ·.2) := by
  unfold packsOf
  refine List.Pairwise.filterMap _ ?_ List.pairwise_lt_range
  intro k k' hlt pack hpack pack' hpack'
  rw [Option.ite_none_right_eq_some] at hpack hpack'
  obtain rfl := Option.some.inj hpack.2
  obtain rfl := Option.some.inj hpack'.2
  exact Nat.add_lt_add_left hlt _

/-- The last output word that begins in the block of an input word, in terms of the block. -/
theorem lastPlace_eq {word perIn perOut : Nat} (hin : 0 < perIn) :
    lastPlace word perIn perOut =
      word * perIn / perIn.lcm perOut * perIn.lcm perOut + (perIn.lcm perOut - perOut) := by
  obtain ⟨inWords, hinWords⟩ : ∃ inWords, perIn.lcm perOut = inWords * perIn :=
    (Nat.dvd_lcm_left perIn perOut).imp fun _ h => h.trans (Nat.mul_comm ..)
  rw [lastPlace, packPeriod_eq_lcm, hinWords, Nat.mul_div_cancel _ hin,
    Nat.mul_div_mul_right _ _ hin]

/-- There are packs of an input word exactly if registers hold the size of a block and the places of
the block that the word is part of. -/
theorem packsOf?_eq_some_iff {word perIn perOut values : Nat} {packs : List (Nat × Nat)}
    (hin : 0 < perIn) (hout : 0 < perOut) :
    packsOf? word perIn perOut values = some packs ↔
      (perIn.lcm perOut < UInt64.size ∧
        word * perIn / perIn.lcm perOut * perIn.lcm perOut + (perIn.lcm perOut - perOut) <
          UInt64.size) ∧
      packsOf word perIn perOut values = packs := by
  rw [packsOf?, if_neg (by omega), lastPlace_eq hin, packPeriod_eq_lcm,
    Option.ite_none_right_eq_some, Option.some.injEq]

/-! ### The subwords of a packet -/

/-- The pack takes the subword at a place of the result register, which holds `perIn` subwords: it
fills an output word of `perOut` subwords with those from its first one on, as far as the register
has them. -/
def PackTakes (perIn perOut : Nat) (pack : Nat × Nat) (place : Nat) : Prop :=
  pack.1 ≤ place ∧ place < pack.1 + perOut ∧ place < perIn

instance (perIn perOut : Nat) (pack : Nat × Nat) (place : Nat) :
    Decidable (PackTakes perIn perOut pack place) :=
  inferInstanceAs (Decidable (_ ∧ _ ∧ _))

theorem lcm_lt_size {perIn perOut : Nat} (hout : 0 < perOut) (hle : perOut ≤ perIn)
    (hsize : perIn ≤ UInt32.size) : perIn.lcm perOut < UInt64.size := by
  obtain rfl | hlt := Nat.eq_or_lt_of_le hle
  · rw [Nat.lcm_self]
    exact Nat.lt_of_le_of_lt hsize (by decide)
  · calc perIn.lcm perOut
        ≤ perIn * perOut := Nat.lcm_le_mul (Nat.lt_of_lt_of_le hout hle) hout
      _ ≤ UInt32.size * perOut := Nat.mul_le_mul_right perOut hsize
      _ < UInt32.size * UInt32.size :=
          Nat.mul_lt_mul_of_pos_left (Nat.lt_of_lt_of_le hlt hsize) (by decide)

section Taken

variable {perIn perOut values g : Nat}

/-- The block of a subword is the block of its input word. -/
theorem block_of_div : g / perIn * perIn / perIn.lcm perOut = g / perIn.lcm perOut := by
  rcases Nat.eq_zero_or_pos perIn with rfl | hin
  · simp
  · obtain ⟨inWords, hinWords⟩ := Nat.dvd_lcm_left perIn perOut
    rw [hinWords, ← Nat.div_div_eq_div_mul, Nat.mul_div_cancel _ hin, Nat.div_div_eq_div_mul]

/-- The pack that takes a subword is the one of its output word, which begins in its input word. -/
theorem eq_of_packTakes {pack : Nat × Nat} (hout : 0 < perOut) (hle : perOut ≤ perIn)
    (hsize : perIn ≤ UInt32.size) (hpack : pack ∈ packsOf (g / perIn) perIn perOut values)
    (htakes : PackTakes perIn perOut pack (g % perIn)) :
    g / perIn * perIn ≤ g / perOut * perOut ∧
      pack = (g / perOut * perOut - g / perIn * perIn, g / perOut) := by
  obtain ⟨offset, out⟩ := pack
  obtain ⟨hoffset, hbegins, -⟩ :=
    (mem_packsOf_iff_of_le (Nat.lt_of_lt_of_le hout hle) hout hsize).mp hpack
  obtain ⟨hfirst, hlast, -⟩ := htakes
  dsimp only at hfirst hlast
  have hplace := Nat.div_add_mod' g perIn
  have hdiv : g / perOut = out :=
    Nat.div_eq_of_lt_le (by omega) (by rw [Nat.add_mul, Nat.one_mul]; omega)
  rw [hdiv, hbegins, Nat.add_sub_cancel_left]
  exact ⟨Nat.le_add_right _ _, rfl⟩

/-- A subword whose output word begins in its input word is taken. -/
theorem exists_packTakes (hout : 0 < perOut) (hle : perOut ≤ perIn) (hsize : perIn ≤ UInt32.size)
    (hg : g < values) (hbegins : g / perIn * perIn ≤ g / perOut * perOut) :
    ∃ pack ∈ packsOf (g / perIn) perIn perOut values, PackTakes perIn perOut pack (g % perIn) := by
  have hin : 0 < perIn := Nat.lt_of_lt_of_le hout hle
  have hplace := Nat.div_add_mod' g perIn
  have hmod := Nat.mod_lt g hin
  have hplace' := Nat.div_add_mod' g perOut
  have hmod' := Nat.mod_lt g hout
  refine ⟨(g / perOut * perOut - g / perIn * perIn, g / perOut),
    (mem_packsOf_iff_of_le hin hout hsize).mpr ⟨by omega, by omega, by omega⟩, ?_⟩
  exact ⟨by dsimp only; omega, by dsimp only; omega, hmod⟩

/-- Where output words divide input words, an output word begins in the input word of each of its
subwords. -/
theorem begins_of_dvd (hout : 0 < perOut) (hdvd : perOut ∣ perIn) :
    g / perIn * perIn ≤ g / perOut * perOut := by
  obtain ⟨k, hk⟩ := Nat.dvd_mul_left_of_dvd hdvd (g / perIn)
  have hle : k * perOut ≤ g := by
    rw [Nat.mul_comm, ← hk]
    exact Nat.div_mul_le_self g perIn
  rw [hk, Nat.mul_comm perOut]
  exact Nat.mul_le_mul_right perOut ((Nat.le_div_iff_mul_le hout).mpr hle)

/-- **A subword is taken where its output word begins.** There are packs of its input word exactly
if 64 bits hold the places of its block. The pack that takes it is the one of its own output word,
and there is one exactly if that output word begins in the same input word. So no subword is lost
where output words divide input words, or where the packet is a single word. -/
theorem subword_taken_iff (hout : 0 < perOut) (hle : perOut ≤ perIn) (hsize : perIn ≤ UInt32.size)
    (hg : g < values) :
    ((packsOf? (g / perIn) perIn perOut values).isSome ↔
        g / perIn.lcm perOut * perIn.lcm perOut + (perIn.lcm perOut - perOut) < UInt64.size) ∧
      (values + perIn.lcm perOut ≤ UInt64.size →
        (packsOf? (g / perIn) perIn perOut values).isSome) ∧
      ∀ packs, packsOf? (g / perIn) perIn perOut values = some packs →
        ((∃ pack ∈ packs, PackTakes perIn perOut pack (g % perIn)) ↔
          g / perIn * perIn ≤ g / perOut * perOut) ∧
        (∀ pack ∈ packs, PackTakes perIn perOut pack (g % perIn) →
          pack = (g / perOut * perOut - g / perIn * perIn, g / perOut)) ∧
        (perOut ∣ perIn ∨ values ≤ perIn →
          ∃ pack ∈ packs, PackTakes perIn perOut pack (g % perIn)) := by
  have hin : 0 < perIn := Nat.lt_of_lt_of_le hout hle
  have hsome : (packsOf? (g / perIn) perIn perOut values).isSome ↔
      g / perIn.lcm perOut * perIn.lcm perOut + (perIn.lcm perOut - perOut) < UInt64.size := by
    simp only [Option.isSome_iff_exists, packsOf?_eq_some_iff hin hout, exists_and_left,
      exists_eq', and_true, block_of_div]
    exact and_iff_right (lcm_lt_size hout hle hsize)
  refine ⟨hsome, ?_, ?_⟩
  · intro hfit
    have hblock := Nat.div_mul_le_self g (perIn.lcm perOut)
    exact hsome.mpr (by omega)
  intro packs hpacks
  obtain ⟨-, rfl⟩ := (packsOf?_eq_some_iff hin hout).mp hpacks
  have htaken := exists_packTakes hout hle hsize hg
  refine ⟨⟨?_, htaken⟩, ?_, ?_⟩
  · rintro ⟨pack, hpack, htakes⟩
    exact (eq_of_packTakes hout hle hsize hpack htakes).1
  · intro pack hpack htakes
    exact (eq_of_packTakes hout hle hsize hpack htakes).2
  · rintro (hdvd | hone)
    · exact htaken (begins_of_dvd hout hdvd)
    · refine htaken ?_
      rw [Nat.div_eq_of_lt (Nat.lt_of_lt_of_le hg hone), Nat.zero_mul]
      exact Nat.zero_le _

end Taken

/-- From 12 to 16 bits, in packets of six subwords: the fourth subword is taken by the pack of the
second output word, which begins with it, and the fifth by none. -/
theorem subword_taken_iff_12_to_16 :
    (∃ packs, packsOf? (3 / 4) 4 3 6 = some packs ∧ ∃ pack ∈ packs, PackTakes 4 3 pack (3 % 4)) ∧
      ∃ packs, packsOf? (4 / 4) 4 3 6 = some packs ∧
        ¬ ∃ pack ∈ packs, PackTakes 4 3 pack (4 % 4) := by
  constructor
  · obtain ⟨-, hsome, htaken⟩ := subword_taken_iff (show 0 < 3 by decide) (show 3 ≤ 4 by decide)
      (by decide) (show 3 < 6 by decide)
    obtain ⟨packs, hpacks⟩ := Option.isSome_iff_exists.mp (hsome (by decide))
    exact ⟨packs, hpacks, (htaken packs hpacks).1.mpr (by decide)⟩
  · obtain ⟨-, hsome, htaken⟩ := subword_taken_iff (show 0 < 3 by decide) (show 3 ≤ 4 by decide)
      (by decide) (show 4 < 6 by decide)
    obtain ⟨packs, hpacks⟩ := Option.isSome_iff_exists.mp (hsome (by decide))
    refine ⟨packs, hpacks, fun h => ?_⟩
    exact absurd ((htaken packs hpacks).1.mp h) (by decide)

/-- Not every subword reaches its output word. Products of 8 bits lose the fifth of their six
subwords in the step from 12 to 16 bits; and in words of more subwords than a 32-bit register
counts, the first subword of an output word can be lost. -/
theorem subword_behind_boundary_lost :
    (∃ packs, packsOf? (4 / Subword.perWord 12) (Subword.perWord 12) (Subword.perWord 16)
        (Subword.perWord 8) = some packs ∧
      ¬ ∃ pack ∈ packs,
        PackTakes (Subword.perWord 12) (Subword.perWord 16) pack (4 % Subword.perWord 12)) ∧
      ∃ packs, packsOf? (UInt32.size / (2 * UInt32.size)) (2 * UInt32.size) UInt32.size
          (2 * UInt32.size) = some packs ∧
        ¬ ∃ pack ∈ packs,
          PackTakes (2 * UInt32.size) UInt32.size pack (UInt32.size % (2 * UInt32.size)) ∧
            pack.2 = UInt32.size / UInt32.size := by
  exact ⟨⟨[], by decide, by decide⟩, [(0, 0), (0, 1)], by decide, by decide⟩

end NearMemory
