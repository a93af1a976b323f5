/-!
# Random numbers

Synthetic operands are drawn from a source of random 32-bit words. Everything here is written for an
arbitrary source, so that it holds whatever words the source gives.

## Main definitions

* `RandomWords` — a source of 32-bit words
* `RandomWords.next64` — a 64-bit word, from two draws
* `RandomWords.below32`, `RandomWords.below64` — a number below a bound
-/

namespace NearMemory

/-- A source of random 32-bit words. -/
class RandomWords (γ : Type) where
  /-- A word, and the source after it. -/
  next : γ → UInt32 × γ

namespace RandomWords

variable {γ : Type} [RandomWords γ]

/-- A 64-bit word. Its low half is drawn first. -/
def next64 (g : γ) : UInt64 × γ :=
  let (low, g) := next g
  let (high, g) := next g
  (high.toUInt64 <<< 32 ||| low.toUInt64, g)

/-- A number below `range`, from samples of the given bits. The sample is scaled to the range; when
its fraction is so large that the next sample's may carry into the result, that sample is drawn as
well. -/
def scaled (bits : Nat) (draw : γ → Nat × γ) (range : Nat) (g : γ) : Nat × γ :=
  let (sample, g) := draw g
  let whole := sample * range / (1 <<< bits)
  let fraction := sample * range % (1 <<< bits)
  if (1 <<< bits) - range < fraction then
    let (sample, g) := draw g
    (if 1 <<< bits ≤ fraction + sample * range / (1 <<< bits) then whole + 1 else whole, g)
  else (whole, g)

/-- A number below `range`, from 32-bit samples. -/
def below32 (range : Nat) (g : γ) : Nat × γ :=
  scaled 32 (fun g => ((next g).1.toNat, (next g).2)) range g

/-- A number below `range`, from 64-bit samples. -/
def below64 (range : Nat) (g : γ) : Nat × γ :=
  scaled 64 (fun g => ((next64 g).1.toNat, (next64 g).2)) range g

end RandomWords

end NearMemory
