import NearMemory.Proofs.PackPlaces
import Mathlib.Data.List.Sort

/-!
# Packs tile the output words

The packs of a packet are issued input word by input word. Within a block of input and output words
that line up they are found by a filter, and blocks are cut off where the packet ends. Read in turn,
they give the output words of the packet from the first to the last, each once, and each pack starts
at the subword where its output word begins (`PacksTile`).

Places and offsets are counted in registers, so there is something to be said about sizes. The
places of a whole block are computed for each of its input words, also those behind the end of the
packet, and there are no packs where one of them is beyond 64 bits. An offset of more than 32 bits
is cut. These are the only two ways to fail (`packsTile_iff`).

## Main definitions

* `packetPacks` — the packs of a whole packet
* `PlacesFit`, `OffsetsFit` — what registers have to hold
* `PacksTile` — the packs list the output words in order, and each is where it should be

## Main results

* `outs_packetPacks` — the output words in order
* `placesFit_iff` — there are packs of all input words exactly if places fit
* `packsTile_iff` — packs tile the output words exactly if places and offsets fit
-/

namespace NearMemory

/-- The packs of a whole packet: those of its input words, one word after the other. -/
def packetPacks (perIn perOut values : Nat) : List (Nat × Nat) :=
  (List.range (ceilDiv values perIn)).flatMap fun word => packsOf word perIn perOut values

/-- If there is a packet, 64 bits count the subwords of a block; and wherever an output word begins
in the blocks of a packet, they count its place. -/
structure PlacesFit (perIn perOut values : Nat) : Prop where
  period_lt : 0 < values → perIn.lcm perOut < UInt64.size
  place_lt : ∀ out, out * perOut < ceilDiv values (perIn.lcm perOut) * perIn.lcm perOut →
    out * perOut < UInt64.size

/-- Wherever an output word of a packet begins, 32 bits count its distance from the start of the
input word. -/
def OffsetsFit (perIn perOut values : Nat) : Prop :=
  ∀ out, out * perOut < values → out * perOut % perIn < UInt32.size

/-- There are packs of all input words of a packet. In turn they list its output words from the
first to the last, and the pack of an output word starts at the subword of its input word where the
output word begins. -/
structure PacksTile (perIn perOut values : Nat) : Prop where
  packsOf?_eq : ∀ word < ceilDiv values perIn,
    packsOf? word perIn perOut values = some (packsOf word perIn perOut values)
  outs_eq : (packetPacks perIn perOut values).map Prod.snd = List.range (ceilDiv values perOut)
  begins : ∀ word < ceilDiv values perIn, ∀ pack ∈ packsOf word perIn perOut values,
    pack.1 < perIn ∧ word * perIn + pack.1 = pack.2 * perOut

section

variable {perIn perOut values word : Nat}

/-! ### Places -/

theorem placesFit_of_le (hin : 0 < perIn) (hout : 0 < perOut)
    (h : values + perIn.lcm perOut ≤ UInt64.size) : PlacesFit perIn perOut values := by
  have hpos := Nat.lcm_pos hin hout
  refine ⟨fun hvalues => by omega, fun out hplace => ?_⟩
  -- the last block begins in the packet
  have hlast : ceilDiv values (perIn.lcm perOut) * perIn.lcm perOut ≤
      values + perIn.lcm perOut - 1 := Nat.div_mul_le_self _ _
  omega

theorem offsetsFit_of_le (hin : 0 < perIn) (h : perIn ≤ UInt32.size) :
    OffsetsFit perIn perOut values :=
  fun _ _ => Nat.lt_of_lt_of_le (Nat.mod_lt _ hin) h

/-- The input word of a place. -/
theorem place_bounds (hin : 0 < perIn) (place : Nat) :
    place / perIn * perIn ≤ place ∧ place < (place / perIn + 1) * perIn := by
  rw [Nat.succ_mul]
  exact ⟨Nat.div_mul_le_self place perIn, Nat.lt_div_mul_add hin⟩

/-- The distance of a place from the start of its input word. -/
theorem sub_eq_mod {place : Nat} (hlow : word * perIn ≤ place)
    (hhigh : place < (word + 1) * perIn) : place - word * perIn = place % perIn := by
  rw [Nat.mod_eq_sub_div_mul, Nat.div_eq_of_lt_le hlow hhigh]

/-- The last place of a block at which an output word begins bounds all of them. -/
theorem lastPlace_lt_iff (hin : 0 < perIn) (hout : 0 < perOut) (block limit : Nat) :
    block * perIn.lcm perOut + (perIn.lcm perOut - perOut) < limit ↔
      ∀ out, out * perOut < (block + 1) * perIn.lcm perOut → out * perOut < limit := by
  obtain ⟨outWords, houtWords⟩ : ∃ outWords, perIn.lcm perOut = outWords * perOut :=
    (Nat.dvd_lcm_right perIn perOut).imp fun _ h => h.trans (Nat.mul_comm ..)
  have hpos : 0 < outWords := Nat.pos_of_mul_pos_right (houtWords ▸ Nat.lcm_pos hin hout)
  have hlast : block * perIn.lcm perOut + (perIn.lcm perOut - perOut) =
      (block * outWords + (outWords - 1)) * perOut := by
    rw [houtWords, Nat.add_mul, Nat.mul_assoc, Nat.sub_mul, Nat.one_mul]
  have hend : (block + 1) * perIn.lcm perOut = (block * outWords + outWords) * perOut := by
    rw [houtWords, Nat.add_mul, Nat.add_mul, Nat.mul_assoc, Nat.one_mul]
  rw [hlast, hend]
  constructor
  · intro hlt out hbegins
    have hle : out ≤ block * outWords + (outWords - 1) := by
      have := Nat.lt_of_mul_lt_mul_right hbegins
      omega
    exact Nat.lt_of_le_of_lt (Nat.mul_le_mul_right perOut hle) hlt
  · intro hall
    exact hall _ (Nat.mul_lt_mul_of_pos_right (by omega) hout)

/-- **There are packs of all input words exactly if places fit.** The input words of a packet are in
the blocks of the packet, and the last one is in the last block. -/
theorem placesFit_iff (hin : 0 < perIn) (hout : 0 < perOut) :
    PlacesFit perIn perOut values ↔ ∀ word < ceilDiv values perIn,
      packsOf? word perIn perOut values = some (packsOf word perIn perOut values) := by
  have hpos := Nat.lcm_pos hin hout
  simp only [packsOf?_eq_some_iff hin hout, and_true, lastPlace_lt_iff hin hout]
  constructor
  · rintro ⟨hperiod, hplace⟩ word hword
    rw [lt_ceilDiv_iff hin] at hword
    refine ⟨hperiod (Nat.zero_lt_of_lt hword), fun out hbegins => hplace out ?_⟩
    have hblock : word * perIn / perIn.lcm perOut < ceilDiv values (perIn.lcm perOut) := by
      rw [lt_ceilDiv_iff hpos]
      exact Nat.lt_of_le_of_lt (Nat.div_mul_le_self _ _) hword
    exact Nat.lt_of_lt_of_le hbegins (Nat.mul_le_mul_right _ hblock)
  · intro hall
    rcases Nat.eq_zero_or_pos values with rfl | hvalues
    · refine ⟨fun h => absurd h (Nat.lt_irrefl 0), fun out h => ?_⟩
      rw [ceilDiv, Nat.div_eq_of_lt (by omega), Nat.zero_mul] at h
      exact absurd h (Nat.not_lt_zero _)
    · have hlast : (values - 1) / perIn < ceilDiv values perIn := by
        rw [lt_ceilDiv_iff hin]
        have := Nat.div_mul_le_self (values - 1) perIn
        omega
      obtain ⟨hperiod, hplace⟩ := hall _ hlast
      refine ⟨fun _ => hperiod, fun out h => hplace out (Nat.lt_of_lt_of_le h ?_)⟩
      rw [block_of_div]
      refine Nat.mul_le_mul_right _ ((ceilDiv_le_iff hpos).mpr ?_)
      have := Nat.lt_div_mul_add (a := values - 1) hpos
      rw [Nat.succ_mul]
      omega

/-! ### The packs in order -/

/-- The packs of the packet are issued in the order of their output words: those of an input word
begin before those of the next. -/
theorem pairwise_packetPacks (hin : 0 < perIn) (hout : 0 < perOut) (values : Nat) :
    (packetPacks perIn perOut values).Pairwise (·.2 < ·.2) := by
  rw [packetPacks, List.pairwise_flatMap]
  constructor
  · intro word _
    exact pairwise_packsOf word perIn perOut values
  · refine List.pairwise_lt_range.imp ?_
    intro word word' hlt pack hpack pack' hpack'
    rw [mem_packsOf_iff hin hout] at hpack hpack'
    refine Nat.lt_of_mul_lt_mul_right (a := perOut) ?_
    calc pack.2 * perOut < (word + 1) * perIn := hpack.2.1
      _ ≤ word' * perIn := Nat.mul_le_mul_right perIn hlt
      _ ≤ pack'.2 * perOut := hpack'.1

theorem mem_outs_packetPacks_iff (hin : 0 < perIn) (hout : 0 < perOut) {out : Nat} :
    out ∈ (packetPacks perIn perOut values).map Prod.snd ↔ out < ceilDiv values perOut := by
  simp only [packetPacks, List.mem_map, List.mem_flatMap, List.mem_range]
  rw [lt_ceilDiv_iff hout]
  constructor
  · rintro ⟨pack, ⟨word, -, hpack⟩, rfl⟩
    exact ((mem_packsOf_iff hin hout).mp hpack).2.2.1
  · intro hvalues
    obtain ⟨hlow, hhigh⟩ := place_bounds hin (out * perOut)
    have hword : out * perOut / perIn < ceilDiv values perIn := by
      rw [lt_ceilDiv_iff hin]
      omega
    refine ⟨((out * perOut - out * perOut / perIn * perIn) % UInt32.size, out),
      ⟨out * perOut / perIn, hword, ?_⟩, rfl⟩
    exact (mem_packsOf_iff hin hout).mpr ⟨hlow, hhigh, hvalues, rfl⟩

/-- **The output words in order.** Both lists increase, and they have the same members. -/
theorem outs_packetPacks (hin : 0 < perIn) (hout : 0 < perOut) (values : Nat) :
    (packetPacks perIn perOut values).map Prod.snd = List.range (ceilDiv values perOut) := by
  refine List.Pairwise.eq_of_mem_iff (r := (· < ·)) ?_ List.pairwise_lt_range ?_
  · rw [List.pairwise_map]
    exact pairwise_packetPacks hin hout values
  · intro out
    rw [mem_outs_packetPacks_iff hin hout, List.mem_range]

/-! ### Tiling -/

/-- Places and offsets that fit are all that is needed. -/
theorem PlacesFit.packsTile (h : PlacesFit perIn perOut values)
    (hoffsets : OffsetsFit perIn perOut values) (hin : 0 < perIn) (hout : 0 < perOut) :
    PacksTile perIn perOut values := by
  refine ⟨(placesFit_iff hin hout).mp h, outs_packetPacks hin hout values, ?_⟩
  intro word _ pack hpack
  obtain ⟨hlow, hhigh, hvalues, hoffset⟩ := (mem_packsOf_iff hin hout).mp hpack
  have hmod := sub_eq_mod hlow hhigh
  rw [hoffset, hmod, Nat.mod_eq_of_lt (hoffsets pack.2 hvalues), ← hmod]
  rw [Nat.succ_mul] at hhigh
  omega

/-- A pack whose offset is cut does not start where its output word begins. -/
theorem PacksTile.offsetsFit (h : PacksTile perIn perOut values) (hin : 0 < perIn)
    (hout : 0 < perOut) : OffsetsFit perIn perOut values := by
  intro out hplace
  obtain ⟨hlow, hhigh⟩ := place_bounds hin (out * perOut)
  have hword : out * perOut / perIn < ceilDiv values perIn := by
    rw [lt_ceilDiv_iff hin]
    omega
  have hpack : ((out * perOut - out * perOut / perIn * perIn) % UInt32.size, out) ∈
      packsOf (out * perOut / perIn) perIn perOut values :=
    (mem_packsOf_iff hin hout).mpr ⟨hlow, hhigh, hplace, rfl⟩
  have hbegins := (h.begins _ hword _ hpack).2
  have hoffset := Nat.mod_lt (out * perOut - out * perOut / perIn * perIn)
    (show 0 < UInt32.size by decide)
  rw [← sub_eq_mod hlow hhigh]
  dsimp only at hbegins
  omega

/-- **When packs tile the output words.** There are packs of all input words exactly if places fit,
and they tile the output words exactly if offsets fit as well. It is enough that 32 bits count the
subwords of an input word, and 64 bits those of the packet and one more block. -/
theorem packsTile_iff (hin : 0 < perIn) (hout : 0 < perOut) (values : Nat) :
    ((∀ word < ceilDiv values perIn, (packsOf? word perIn perOut values).isSome) ↔
        PlacesFit perIn perOut values) ∧
      (PacksTile perIn perOut values ↔
        PlacesFit perIn perOut values ∧ OffsetsFit perIn perOut values) ∧
      (perIn ≤ UInt32.size → values + perIn.lcm perOut ≤ UInt64.size →
        PacksTile perIn perOut values) := by
  refine ⟨?_, ⟨?_, ?_⟩, ?_⟩
  · rw [placesFit_iff hin hout]
    refine forall₂_congr fun word _ => ?_
    simp only [Option.isSome_iff_exists, packsOf?_eq_some_iff hin hout, exists_and_left, exists_eq',
      and_true]
  · intro h
    exact ⟨(placesFit_iff hin hout).mpr h.packsOf?_eq, h.offsetsFit hin hout⟩
  · rintro ⟨hplaces, hoffsets⟩
    exact hplaces.packsTile hoffsets hin hout
  · intro hsize hend
    exact (placesFit_of_le hin hout hend).packsTile (offsetsFit_of_le hin hsize) hin hout

end

/-- From 12 to 16 bits, in packets of 16 subwords: the last of six output words begins in the second
block, which the packet does not fill. -/
theorem packsTile_iff_12_to_16 :
    packetPacks 4 3 16 = [(0, 0), (3, 1), (2, 2), (1, 3), (0, 4), (3, 5)] ∧ PacksTile 4 3 16 := by
  refine ⟨by decide, ?_⟩
  exact (packsTile_iff (by decide) (by decide) 16).2.2 (by decide) (by decide)

/-- Packs do not tile the output words where an offset is more than 32 bits. There are none where a
block is more than 64 bits, or where the packet ends within 64 bits and its last block behind. -/
theorem packs_overflow :
    ¬ PacksTile (2 * UInt32.size) UInt32.size (2 * UInt32.size) ∧
      packsOf? 0 UInt32.size (UInt32.size + 1) 1 = none ∧
      packsOf? (UInt64.size / 4 - 1) 4 3 (UInt64.size - 1) = none := by
  refine ⟨?_, by decide, by decide⟩
  intro h
  exact absurd (h.begins 0 (by decide) (0, 1) (by decide)).2 (by decide)

end NearMemory
