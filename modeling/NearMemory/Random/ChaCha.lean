import NearMemory.Random

/-!
# The ChaCha source

Random words from the ChaCha stream cipher with eight rounds: block after block of sixteen words,
under a key that is spread out from a 64-bit seed.

## Main definitions

* `ChaCha.State` — the sixteen words of a block
* `ChaCha.blockAt` — the block of a key at a position
* `ChaCha` — the source, with `ChaCha.ofSeed`
-/

namespace NearMemory

namespace ChaCha

/-- The words of a block. -/
abbrev State := Vector UInt32 16

/-- The words of a key. -/
abbrev Key := Vector UInt32 8

/-- A word rotated to the left by `k` bits, for `k` from 1 to 31. -/
def rotateLeft (x k : UInt32) : UInt32 := x <<< k ||| x >>> (32 - k)

/-- Mix word `a` with word `b` into word `d`, which is rotated by `k` bits. -/
def mix (s : State) (a b d : Fin 16) (k : UInt32) : State :=
  let s := s.set a (s[a] + s[b]) a.isLt
  s.set d (rotateLeft (s[d] ^^^ s[a]) k) d.isLt

/-- A quarter round. -/
def quarterRound (s : State) (a b c d : Fin 16) : State :=
  mix (mix (mix (mix s a b d 16) c d b 12) a b d 8) c d b 7

/-- A round on the columns, and one on the diagonals. -/
def doubleRound (s : State) : State :=
  let s := quarterRound s 0 4 8 12
  let s := quarterRound s 1 5 9 13
  let s := quarterRound s 2 6 10 14
  let s := quarterRound s 3 7 11 15
  let s := quarterRound s 0 5 10 15
  let s := quarterRound s 1 6 11 12
  let s := quarterRound s 2 7 8 13
  quarterRound s 3 4 9 14

/-- The state before the first round: four constants, the key, the position of the block, and an
empty nonce. -/
def initial (key : Key) (position : UInt64) : State :=
  #v[0x61707865, 0x3320646e, 0x79622d32, 0x6b206574,
    key[0], key[1], key[2], key[3], key[4], key[5], key[6], key[7],
    position.toUInt32, (position >>> 32).toUInt32, 0, 0]

/-- The block at a position: eight rounds, added to the state before them. -/
def blockAt (key : Key) (position : UInt64) : State :=
  let s := initial key position
  s.zipWith (· + ·) (Nat.repeat doubleRound 4 s)

/-- The step of the congruential generator that spreads a seed. -/
def spread (state : UInt64) : UInt64 := state * 6364136223846793005 + 11634580027462260723

/-- The key word of a state of that generator: its upper bits, folded and rotated by the topmost
five. -/
def keyWord (state : UInt64) : UInt32 :=
  let x := (((state >>> 18) ^^^ state) >>> 27).toUInt32
  let k := (state >>> 59).toUInt32
  x >>> k ||| x <<< ((32 - k) % 32)

/-- The key of a seed. -/
def keyOfSeed (seed : UInt64) : Key :=
  Vector.ofFn fun i : Fin 8 => keyWord (Nat.repeat spread (i.val + 1) seed)

end ChaCha

/-- A ChaCha source of random words. -/
structure ChaCha where
  /-- The key. -/
  key : ChaCha.Key
  /-- The position of the current block. -/
  position : UInt64
  /-- The current block. -/
  block : ChaCha.State
  /-- The word of the block that comes next. -/
  index : Fin 16

namespace ChaCha

/-- The source at the start of a block. -/
def atBlock (key : Key) (position : UInt64) : ChaCha := ⟨key, position, blockAt key position, 0⟩

/-- The source of a seed. -/
def ofSeed (seed : UInt64) : ChaCha := atBlock (keyOfSeed seed) 0

/-- The next word. -/
def next (g : ChaCha) : UInt32 × ChaCha :=
  (g.block[g.index],
    if g.index = 15 then atBlock g.key (g.position + 1) else { g with index := g.index + 1 })

instance : RandomWords ChaCha where
  next := next

end ChaCha

end NearMemory
