import NearMemory.Proofs.FoldRun
import NearMemory.Proofs.LayerLayout
import Mathlib.Algebra.BigOperators.Group.List.Basic

/-!
# What folding computes

Folding is meant to add up packets. Here its operations are executed: a move copies a word between a
very wide register and a register, and an addition adds the two operand registers into the result
register. Word values are those of any additive monoid, so the result is not only the right sum but
the sum in the right order. Packs are not executed, which leaves the layers that keep their width.

A layer reads one half of the very wide registers and writes the other one. So whatever it writes,
the packets it has yet to read are what they were before the layer; and since its results have no
common word, whatever it writes later leaves the results it has written. Operations change no word
but those that they store (`WordState.words_of_run?`), and both facts follow from the layout of the
layer.

## Main definitions

* `WordState`, `WordState.run?` — word values, and what operations do to them
* `pairSums` — neighbours added

## Main results

* `WordState.run?_storeWords` — a packet computed word by word
* `Reducer.run?_dealLayer` — a layer adds neighbours
* `Reducer.run?_foldLayers` — a run adds neighbours once a layer
* `Reducer.fold_sums` — folding preserves sums
-/

universe u

namespace NearMemory

/-- The values of the words of the very wide registers, and those of the registers. -/
structure WordState (α : Type u) where
  /-- The words of the very wide registers. -/
  words : WordPlace → α
  /-- The registers. -/
  registers : Storage → α

/-- Whether a storage class is a register of one word. -/
def Storage.holdsWord : Storage → Bool
  | .r0 | .r1 | .r2 | .r3 => true
  | _ => false

namespace WordState

variable {α : Type u}

/-- Change a word of a very wide register. -/
def setWord (s : WordState α) (place : WordPlace) (x : α) : WordState α :=
  { s with words := Function.update s.words place x }

/-- Change a register. -/
def setRegister (s : WordState α) (register : Storage) (x : α) : WordState α :=
  { s with registers := Function.update s.registers register x }

/-- Word `w` of a packet. -/
def wordOf (s : WordState α) (w : Nat) (p : Packet) : α := s.words (p.place w)

@[simp] theorem words_setWord_self (s : WordState α) (place : WordPlace) (x : α) :
    (s.setWord place x).words place = x := by
  simp [setWord]

theorem words_setWord_of_ne (s : WordState α) {place other : WordPlace} (x : α)
    (h : other ≠ place) : (s.setWord place x).words other = s.words other := by
  simp [setWord, h]

variable [Add α]

/-- What an operation does to the words: a move between a very wide register and a register copies a
word, the addition of the operand registers goes to the result register. Other operations are not
executed. -/
def step? (s : WordState α) : Operation → Option (WordState α)
  | .move ⟨.vmv, imm, .vwr v, src⟩ =>
    if src.holdsWord then some (s.setWord ⟨v, imm⟩ (s.registers src)) else none
  | .move ⟨.vmv, imm, dst, .vwr v⟩ =>
    if dst.holdsWord then some (s.setRegister dst (s.words ⟨v, imm⟩)) else none
  | .arithmetic ⟨.add, _, _, _, _, .r0, .r1r2⟩ =>
    some (s.setRegister .r0 (s.registers .r1 + s.registers .r2))
  | _ => none

/-- What operations do to the words, one after the other. -/
def run? (s : WordState α) (ops : List Operation) : Option (WordState α) := ops.foldlM step? s

/-! ### Operations -/

variable {s s' : WordState α} {ops : List Operation}

theorem run?_append (s : WordState α) (ops more : List Operation) :
    s.run? (ops ++ more) = (s.run? ops).bind (·.run? more) :=
  List.foldlM_append

theorem run?_cons (s : WordState α) (op : Operation) (ops : List Operation) :
    s.run? (op :: ops) = (s.step? op).bind (·.run? ops) :=
  List.foldlM_cons

/-- An operation changes no word but those it stores. -/
theorem words_of_step? {op : Operation} {place : WordPlace} (h : s.step? op = some s')
    (hplace : place ∉ op.stores) : s'.words place = s.words place := by
  rw [step?.eq_def] at h
  split at h
  next imm v src =>
    obtain ⟨-, h⟩ := Option.ite_none_right_eq_some.mp h
    obtain rfl := Option.some.inj h
    have hne : place ≠ ⟨v, imm⟩ := by simpa [Operation.stores, Storage.places] using hplace
    exact Function.update_of_ne hne _ _
  next =>
    obtain ⟨-, h⟩ := Option.ite_none_right_eq_some.mp h
    obtain rfl := Option.some.inj h
    rfl
  next =>
    obtain rfl := Option.some.inj h
    rfl
  next => contradiction

/-- **The frame of a run.** Operations change no word but those they store. -/
theorem words_of_run? {place : WordPlace} (h : s.run? ops = some s')
    (hplace : place ∉ ops.flatMap Operation.stores) : s'.words place = s.words place := by
  induction ops generalizing s with
  | nil =>
    obtain rfl := Option.some.inj h
    rfl
  | cons op ops ih =>
    rw [List.flatMap_cons, List.mem_append, not_or] at hplace
    rw [run?_cons] at h
    obtain ⟨t, hstep, hrun⟩ := Option.bind_eq_some_iff.mp h
    rw [ih hrun hplace.2, words_of_step? hstep hplace.1]

/-! ### Packets -/

/-- **A packet computed word by word.** Before each store, operations leave the value of the word in
the result register, provided that nothing but the packet has changed. Then the words that are
stored have their values, and nothing but the packet has changed. -/
theorem run?_storeWords (front : Nat → List Operation) (value : Nat → α) {dst : Packet}
    {packet count : Nat} (hnodup : (dst.places packet).Nodup)
    (hfront : ∀ w < packet, ∀ t : WordState α,
      (∀ place ∉ dst.places packet, t.words place = s.words place) →
        ∃ t', t.run? (front w) = some t' ∧ t'.words = t.words ∧ t'.registers .r0 = value w)
    (hcount : count ≤ packet) :
    ∃ s', s.run? ((List.range count).flatMap fun w =>
        front w ++ [.storeWord dst.vwr (dst.word + w) .r0]) = some s' ∧
      (∀ place ∉ dst.places packet, s'.words place = s.words place) ∧
      ∀ w < count, s'.wordOf w dst = value w := by
  induction count with
  | zero => exact ⟨s, rfl, fun _ _ => rfl, by simp⟩
  | succ count ih =>
    obtain ⟨t, ht, hframe, hdone⟩ := ih (Nat.le_of_succ_le hcount)
    obtain ⟨t', ht', hwords, hvalue⟩ := hfront count hcount t hframe
    refine ⟨t'.setWord (dst.place count) (t'.registers .r0), ?_, ?_, ?_⟩
    · rw [List.range_succ, List.flatMap_append, run?_append, ht, List.flatMap_singleton,
        Option.bind_some, run?_append, ht']
      rfl
    · intro place hplace
      have hne : place ≠ dst.place count := by
        rintro rfl
        exact hplace (dst.place_mem_places hcount)
      rw [words_setWord_of_ne _ _ hne, hwords, hframe place hplace]
    · intro w hw
      rw [wordOf]
      by_cases hlast : w = count
      · subst hlast
        rw [words_setWord_self, hvalue]
      · have hne : dst.place w ≠ dst.place count := by
          intro heq
          exact hlast (List.inj_on_of_nodup_map hnodup (List.mem_range.mpr (by omega))
            (List.mem_range.mpr hcount) heq)
        rw [words_setWord_of_ne _ _ hne, hwords]
        exact hdone w (by omega)

end WordState

/-! ### Neighbours added -/

section PairSums

variable {α : Type u}

/-- Neighbours added. What is left over stays as it is. -/
def pairSums [Add α] : List α → List α
  | a :: b :: rest => (a + b) :: pairSums rest
  | xs => xs

theorem drop_pairSums [Add α] (count : Nat) (xs : List α) :
    (pairSums xs).drop count = pairSums (xs.drop (2 * count)) := by
  induction count generalizing xs with
  | zero => rfl
  | succ count ih =>
    match xs with
    | [] => simp [pairSums]
    | [a] => simp [pairSums, Nat.mul_succ]
    | a :: b :: rest => exact ih rest

theorem take_pairSums [Add α] (count : Nat) (xs : List α) :
    (pairSums xs).take count = pairSums (xs.take (2 * count)) := by
  induction count generalizing xs with
  | zero => rfl
  | succ count ih =>
    match xs with
    | [] => simp [pairSums]
    | [a] => simp [pairSums, Nat.mul_succ]
    | a :: b :: rest => exact congrArg ((a + b) :: ·) (ih rest)

variable [AddMonoid α]

theorem sum_pairSums (xs : List α) : (pairSums xs).sum = xs.sum := by
  match xs with
  | [] => rfl
  | [_] => rfl
  | a :: b :: rest => rw [pairSums, List.sum_cons, sum_pairSums rest, List.sum_cons, List.sum_cons,
      add_assoc]

theorem sum_iterate_pairSums (layers : Nat) (xs : List α) :
    (pairSums^[layers] xs).sum = xs.sum := by
  induction layers generalizing xs with
  | zero => rfl
  | succ layers ih => rw [Function.iterate_succ_apply, ih, sum_pairSums]

/-- What neighbours add up to, layer by layer, are the sums of blocks. -/
theorem getElem?_iterate_pairSums {layers j : Nat} {xs : List α} {x : α}
    (h : (pairSums^[layers] xs)[j]? = some x) :
    x = ((xs.drop (j * 2 ^ layers)).take (2 ^ layers)).sum := by
  induction layers generalizing xs with
  | zero =>
    obtain ⟨hj, rfl⟩ := List.getElem?_eq_some_iff.mp (show xs[j]? = some x from h)
    rw [Nat.pow_zero, Nat.mul_one, List.drop_eq_getElem_cons hj, List.take_succ_cons,
      List.take_zero, List.sum_singleton]
  | succ layers ih =>
    rw [Function.iterate_succ_apply] at h
    rw [ih h, drop_pairSums, take_pairSums, sum_pairSums, Nat.pow_succ', Nat.mul_left_comm]

end PairSums

/-! ### Layers -/

namespace Reducer

variable {α : Type u} [AddMonoid α] {r : Reducer} {l : TreeLayer} {s : WordState α}

theorem packetOut_eq_packetIn (hl : l.Sound) (hstep : l.step = none) :
    r.packetOut l = r.packetIn l := by
  rw [packetOut, packetIn, hl.widthOut_eq hstep]

/-- Two packets are added word by word, if the result is apart from both. -/
theorem run?_addPackets {a b dst : Packet} (hstep : l.step = none)
    (hnodup : (dst.places (r.packetIn l)).Nodup)
    (ha : ∀ w < r.packetIn l, a.place w ∉ dst.places (r.packetIn l))
    (hb : ∀ w < r.packetIn l, b.place w ∉ dst.places (r.packetIn l)) :
    ∃ s', s.run? (r.addPackets l a b dst) = some s' ∧
      ∀ w < r.packetIn l, s'.wordOf w dst = s.wordOf w a + s.wordOf w b := by
  have hfront : ∀ w < r.packetIn l, ∀ t : WordState α,
      (∀ place ∉ dst.places (r.packetIn l), t.words place = s.words place) →
        ∃ t', t.run? [.loadWord .r1 a.vwr (a.word + w), .loadWord .r2 b.vwr (b.word + w),
            .addPair l.widthIn] = some t' ∧
          t'.words = t.words ∧ t'.registers .r0 = s.wordOf w a + s.wordOf w b := by
    intro w hw t hframe
    refine ⟨_, rfl, rfl, ?_⟩
    show t.words (a.place w) + t.words (b.place w) = _
    rw [hframe _ (ha w hw), hframe _ (hb w hw)]
    rfl
  obtain ⟨s', hs', -, hdone⟩ := WordState.run?_storeWords _ _ hnodup hfront (Nat.le_refl _)
  refine ⟨s', ?_, hdone⟩
  simpa only [addPackets, storeResult, hstep] using hs'

/-- A packet is carried word by word, if the result is apart from it. -/
theorem run?_carryPacket {c dst : Packet} (hstep : l.step = none)
    (hnodup : (dst.places (r.packetIn l)).Nodup)
    (hc : ∀ w < r.packetIn l, c.place w ∉ dst.places (r.packetIn l)) :
    ∃ s', s.run? (r.carryPacket l c dst) = some s' ∧
      ∀ w < r.packetIn l, s'.wordOf w dst = s.wordOf w c := by
  have hfront : ∀ w < r.packetIn l, ∀ t : WordState α,
      (∀ place ∉ dst.places (r.packetIn l), t.words place = s.words place) →
        ∃ t', t.run? [.loadWord .r0 c.vwr (c.word + w)] = some t' ∧
          t'.words = t.words ∧ t'.registers .r0 = s.wordOf w c := by
    intro w hw t hframe
    refine ⟨_, rfl, rfl, ?_⟩
    show t.words (c.place w) = _
    rw [hframe _ (hc w hw)]
    rfl
  obtain ⟨s', hs', -, hdone⟩ := WordState.run?_storeWords _ _ hnodup hfront (Nat.le_refl _)
  refine ⟨s', ?_, hdone⟩
  simpa only [carryPacket, storeResult, hstep, List.singleton_append] using hs'

/-- **A layer adds neighbours**, if the packets are apart from the results, and these from each
other. By induction on the pairs. -/
theorem run?_dealLayer {base pair : Nat} {packets : List Packet} (s : WordState α) (hl : l.Sound)
    (hstep : l.step = none)
    (hpackets : ∀ p ∈ packets, ∀ w < r.packetIn l, p.place w ∉
      (r.dealLayer l base pair packets).packets.flatMap (·.places (r.packetIn l)))
    (hnodup : ((r.dealLayer l base pair packets).packets.flatMap
      (·.places (r.packetIn l))).Nodup) :
    ∃ s', s.run? (r.dealLayer l base pair packets).operations = some s' ∧
      ∀ w < r.packetIn l, (r.dealLayer l base pair packets).packets.map (s'.wordOf w) =
        pairSums (packets.map (s.wordOf w)) := by
  have hsize := packetOut_eq_packetIn (r := r) hl hstep
  induction pair, packets using dealLayer.induct r l base generalizing s with
  | case1 pair a b rest ih =>
    have hdeal : (r.dealLayer l base pair (a :: b :: rest)).packets =
      dealtPacket base (r.packetOut l) pair :: (r.dealLayer l base (pair + 1) rest).packets := rfl
    generalize hdst : dealtPacket base (r.packetOut l) pair = dst at hdeal
    rw [hdeal, List.flatMap_cons] at hpackets hnodup
    obtain ⟨hfirst, hrest, hdisjoint⟩ := List.nodup_append'.mp hnodup
    have hapart : ∀ p ∈ a :: b :: rest, ∀ w < r.packetIn l, p.place w ∉ dst.places (r.packetIn l) :=
      fun p hp w hw hmem => hpackets p hp w hw (List.mem_append_left _ hmem)
    obtain ⟨t, ht, hsum⟩ := run?_addPackets (s := s) hstep hfirst (hapart a (by simp))
      (hapart b (by simp))
    obtain ⟨s', hs', hsums⟩ := ih t
      (fun p hp w hw hmem => hpackets p (by simp [hp]) w hw (List.mem_append_right _ hmem)) hrest
    refine ⟨s', ?_, fun w hw => ?_⟩
    · rw [operations_dealLayer_pair, hdst, WordState.run?_append, ht, Option.bind_some, hs']
    -- the pair leaves the packets of the other pairs, which leave its result
    have hlater : s'.wordOf w dst = t.wordOf w dst := by
      refine WordState.words_of_run? hs' fun hmem => ?_
      have hstores := stores_dealLayer (r := r) hl base (pair + 1) rest
      rw [hsize] at hstores
      exact hdisjoint (dst.place_mem_places hw) (hstores.mem_iff.mp hmem)
    have hearlier : rest.map (t.wordOf w) = rest.map (s.wordOf w) := by
      refine List.map_congr_left fun p hp => WordState.words_of_run? ht fun hmem => ?_
      rw [stores_addPackets, ((storedWords_perm hl).map _).mem_iff, hsize] at hmem
      exact hapart p (by simp [hp]) w hw hmem
    rw [hdeal, List.map_cons, hlater, hsum w hw, hsums w hw, hearlier]
    rfl
  | case2 pair c =>
    rw [dealLayer, List.flatMap_singleton] at hnodup
    obtain ⟨s', hs', hdone⟩ := run?_carryPacket (s := s) (c := c) hstep hnodup fun w hw => by
      simpa [dealLayer] using hpackets c (by simp) w hw
    refine ⟨s', hs', fun w hw => ?_⟩
    exact congrArg ([·]) (hdone w hw)
  | case3 => exact ⟨s, rfl, fun _ _ => rfl⟩

section Layer

variable {packets : List Packet} {half : Nat} {folded : FoldedLayer}

theorem run?_of_foldLayer? (s : WordState α) (hl : l.Sound) (hstep : l.step = none)
    (hhalf : half < 2) (hwords : 2 * r.wordsPerHalf ≤ UInt32.size)
    (hpackets : ∀ p ∈ packets, p.InHalf r.wordsPerHalf half (r.packetIn l))
    (h : r.foldLayer? l packets half = some folded) :
    ∃ s', s.run? folded.operations = some s' ∧
      ∀ w < r.packetIn l, folded.packets.map (s'.wordOf w) =
        pairSums (packets.map (s.wordOf w)) := by
  have hsize := packetOut_eq_packetIn (r := r) hl hstep
  have hnodup := nodup_of_foldLayer? hhalf hwords h
  have hresults := inHalf_of_foldLayer? hhalf h
  rw [hsize] at hnodup hresults
  obtain ⟨rfl, -⟩ := foldLayer?_eq_some hhalf h
  refine run?_dealLayer s hl hstep ?_ hnodup
  intro p hp w hw hmem
  obtain ⟨dst, hdst, hmem⟩ := List.mem_flatMap.mp hmem
  obtain ⟨v, hv, heq⟩ := Packet.mem_places.mp hmem
  exact (hpackets p hp).place_ne (hresults dst hdst) hhalf hwords hw hv heq.symm

end Layer

/-! ### Runs -/

section Run

variable {budget width : Nat} {limit : Option Nat} {layers : List TreeLayer} {f : Folding}

/-- A layer folded is one more than its run goes on to fold. -/
theorem layers_foldLayers_advance (r : Reducer) (budget : Nat) (limit : Option Nat)
    (rest : List TreeLayer) (f : Folding) (folded : FoldedLayer) :
    (r.foldLayers budget limit rest (f.advance folded)).1.cursor.layer - f.cursor.layer =
      (r.foldLayers budget limit rest (f.advance folded)).1.cursor.layer -
        (f.advance folded).cursor.layer + 1 := by
  have hle := le_layer_foldLayers r budget limit rest (f.advance folded)
  have hnext : (f.advance folded).cursor.layer = f.cursor.layer + 1 := rfl
  omega

theorem length_packets_foldLayers (r : Reducer) (budget : Nat) (limit : Option Nat)
    (layers : List TreeLayer) (f : Folding) :
    (r.foldLayers budget limit layers f).1.packets.length = sumsAfter f.packets.length
      ((r.foldLayers budget limit layers f).1.cursor.layer - f.cursor.layer) := by
  fun_induction foldLayers r budget limit layers f with
  | case6 l rest f _ _ folded hfolded _ ih =>
    rw [ih, layers_foldLayers_advance, show (f.advance folded).packets = folded.packets from rfl,
      length_packets_of_foldFrom? hfolded]
    rfl
  | _ => simp

/-- **A run adds neighbours once a layer**, if its layers keep the width. By induction on the layers
that are left. -/
theorem run?_foldLayers (s : WordState α) (hchain : WidthChain width layers)
    (hwords : 2 * r.wordsPerHalf ≤ UInt32.size) (hhalf : f.cursor.half < 2)
    (hpackets : ∀ p ∈ f.packets,
      p.InHalf r.wordsPerHalf f.cursor.half (Subword.wordsPerPacket r.initial width))
    (hkeep : ∀ l ∈ layers.take
      ((r.foldLayers budget limit layers f).1.cursor.layer - f.cursor.layer), l.step = none) :
    ∃ ops s', (r.foldLayers budget limit layers f).1.out = f.out ++ ops ∧ s.run? ops = some s' ∧
      ∀ w < Subword.wordsPerPacket r.initial width,
        (r.foldLayers budget limit layers f).1.packets.map (s'.wordOf w) =
          pairSums^[(r.foldLayers budget limit layers f).1.cursor.layer - f.cursor.layer]
            (f.packets.map (s.wordOf w)) := by
  induction layers generalizing f s width with
  | nil => exact ⟨[], s, by simp [foldLayers], rfl, by simp [foldLayers]⟩
  | cons l rest ih =>
    rcases r.foldLayers_cons_cases budget limit l rest f with hstop | ⟨folded, hfolded, -, hrun⟩
    · rw [hstop, Nat.sub_self]
      exact ⟨[], s, by simp, rfl, fun _ _ => rfl⟩
    · obtain ⟨rfl, hl, hrest⟩ := hchain
      rw [hrun, layers_foldLayers_advance] at hkeep ⊢
      rw [List.take_succ_cons, List.forall_mem_cons] at hkeep
      obtain ⟨t, ht, hsums⟩ := run?_of_foldLayer? s hl hkeep.1 hhalf hwords hpackets hfolded
      have hhalf' : (f.advance folded).cursor.half < 2 :=
        Nat.xor_lt_two_pow (n := 1) hhalf Nat.one_lt_two
      have hpackets' := inHalf_of_foldLayer? hhalf hfolded
      rw [← other_half hhalf] at hpackets'
      obtain ⟨ops, s', hout, hs', hsums'⟩ := ih t hrest hhalf' hpackets' hkeep.2
      refine ⟨folded.operations ++ ops, s', ?_, ?_, ?_⟩
      · rw [hout, ← List.append_assoc]
        rfl
      · rw [WordState.run?_append, ht, Option.bind_some, hs']
      · intro w hw
        rw [hl.widthOut_eq hkeep.1] at hsums'
        rw [hsums' w hw, Function.iterate_succ_apply, ← hsums w hw]
        rfl

/-- **Folding preserves sums.** The packets lie in a half of the very wide registers, anywhere in an
adder tree, and `k` layers are folded under any budget and limit. If none of them widens the sums,
then every word of result `j` is the sum of that word over block `j` of `2 ^ k` packets, in order,
and the sum over all packets is what it was. -/
theorem fold_sums {n q initial packet k : Nat} {tree : AdderTree} {hw : Hardware}
    (s : WordState α) (hbuild : AdderTree.build n width q = .ok tree)
    (hregister : hw.registerWords ≤ UInt32.size) (hhalf : f.cursor.half < 2)
    (hpacket : ∀ l, tree.layers[f.cursor.layer]? = some l →
      packet = Subword.wordsPerPacket initial l.widthIn)
    (hpackets : ∀ p ∈ f.packets, p.InHalf hw.wordsPerHalf f.cursor.half packet)
    (hk : ((Reducer.ofTree tree initial hw).fold budget limit f).1.cursor.layer =
      f.cursor.layer + k)
    (hkeep : ∀ l ∈ (tree.layers.drop f.cursor.layer).take k, l.step = none) :
    let f' := ((Reducer.ofTree tree initial hw).fold budget limit f).1
    ∃ ops s', f'.out = f.out ++ ops ∧ s.run? ops = some s' ∧
      f'.packets.length = ceilDiv f.packets.length (2 ^ k) ∧
      ∀ w < packet,
        (∀ j p, f'.packets[j]? = some p → s'.wordOf w p =
          (((f.packets.drop (j * 2 ^ k)).take (2 ^ k)).map (s.wordOf w)).sum) ∧
        (f'.packets.map (s'.wordOf w)).sum = (f.packets.map (s.wordOf w)).sum := by
  intro f'
  have hlayers : f'.cursor.layer - f.cursor.layer = k := Nat.sub_eq_of_eq_add' hk
  have hlength : f'.packets.length = ceilDiv f.packets.length (2 ^ k) := by
    rw [← sumsAfter_eq_ceilDiv, ← hlayers]
    exact length_packets_foldLayers _ budget limit _ f
  have hrun : ∃ ops s', f'.out = f.out ++ ops ∧ s.run? ops = some s' ∧ ∀ w < packet,
      f'.packets.map (s'.wordOf w) = pairSums^[k] (f.packets.map (s.wordOf w)) := by
    rw [← hlayers] at hkeep ⊢
    cases hl : tree.layers[f.cursor.layer]? with
    | none =>
      -- behind the last layer there is nothing to fold
      have hdrop : tree.layers.drop f.cursor.layer = [] :=
        List.drop_eq_nil_of_le (List.getElem?_eq_none_iff.mp hl)
      have hstop : f' = f := by
        show (foldLayers _ budget limit (tree.layers.drop f.cursor.layer) f).1 = f
        rw [hdrop]
        rfl
      rw [hstop, Nat.sub_self]
      exact ⟨[], s, by simp, rfl, fun _ _ => rfl⟩
    | some l =>
      have hchain := (AdderTree.widthChain_of_build hbuild).drop hl
      have hwords : 2 * hw.wordsPerHalf ≤ UInt32.size :=
        Nat.le_trans (Nat.mul_div_le hw.registerWords 2) hregister
      obtain rfl := hpacket l hl
      exact run?_foldLayers (r := .ofTree tree initial hw) s hchain hwords hhalf hpackets hkeep
  obtain ⟨ops, s', hout, hs', hsums⟩ := hrun
  refine ⟨ops, s', hout, hs', hlength, fun w hw => ⟨?_, ?_⟩⟩
  · intro j p hp
    have hj : (pairSums^[k] (f.packets.map (s.wordOf w)))[j]? = some (s'.wordOf w p) := by
      rw [← hsums w hw, List.getElem?_map, hp]
      rfl
    rw [getElem?_iterate_pairSums hj, ← List.map_drop, ← List.map_take]
  · rw [hsums w hw, sum_iterate_pairSums]

/-- Five packets of two words are folded by two layers of 12-bit sums: the first result is the sum
of four packets, the second one is the packet left over. -/
theorem fold_sums_two_layers :
    let start : Folding :=
      ⟨{ layer := 1, operands := 5, half := 1 }, [⟨0, 16⟩, ⟨1, 16⟩, ⟨0, 18⟩, ⟨1, 18⟩, ⟨0, 20⟩], []⟩
    let numbered : WordState Nat := ⟨fun place => 100 * place.vwr + place.index.toNat, fun _ => 0⟩
    ∃ tree s', AdderTree.build 64 8 8 = .ok tree ∧
      let f' := ((Reducer.ofTree tree 8 {}).fold 1000 (some 3) start).1
      f'.cursor.layer = 3 ∧ f'.packets = [⟨0, 16⟩, ⟨1, 16⟩] ∧ numbered.run? f'.out = some s' ∧
        s'.wordOf 1 ⟨0, 16⟩ = 17 + 117 + 19 + 119 ∧ s'.wordOf 1 ⟨1, 16⟩ = 21 := by
  intro start numbered
  have hbuild := AdderTree.build_eq_ok (n := 64) (q := 8) (by decide)
    (show 8 ∈ Subword.ladder by decide) (by decide)
  generalize htree : AdderTree.mk (AdderTree.layersFrom 8 1 64 8 0) = tree at hbuild
  have hvalues : ((Reducer.ofTree tree 8 {}).fold 1000 (some 3) start).1.cursor.layer = 1 + 2 ∧
      ((Reducer.ofTree tree 8 {}).fold 1000 (some 3) start).1.packets = [⟨0, 16⟩, ⟨1, 16⟩] := by
    rw [← htree]
    decide +kernel
  have hkeep : ∀ l ∈ (tree.layers.drop 1).take 2, l.step = none := by
    rw [← htree]
    decide +kernel
  have hpacket : ∀ l, tree.layers[1]? = some l → 2 = Subword.wordsPerPacket 8 l.widthIn := by
    rw [← htree]
    decide +kernel
  have hpackets : ∀ p ∈ start.packets, p.InHalf ({} : Hardware).wordsPerHalf 1 2 := by
    decide
  obtain ⟨hlayer, hresults⟩ := hvalues
  obtain ⟨ops, s', hout, hs', -, hsums⟩ := fold_sums numbered hbuild (by decide) Nat.one_lt_two
    hpacket hpackets hlayer hkeep
  refine ⟨tree, s', hbuild, hlayer, hresults, ?_, ?_, ?_⟩
  · rw [hout]
    exact hs'
  · rw [(hsums 1 Nat.one_lt_two).1 0 ⟨0, 16⟩ (by rw [hresults]; rfl)]
    rfl
  · rw [(hsums 1 Nat.one_lt_two).1 1 ⟨1, 16⟩ (by rw [hresults]; rfl)]
    rfl

end Run

end Reducer

end NearMemory
