import SoftLogic.Random.Pool

/-!
# A permuted congruential generator

The state is a number modulo `2 ^ 128`, advanced by a multiplication and an odd increment.  A draw folds the
state to 64 bits and rotates them by its top six bits.
-/

namespace SoftLogic.Random

/-- The state and the increment, both below `2 ^ 128`. -/
structure Generator where
  state : Nat
  increment : Nat
  deriving DecidableEq, Repr

namespace Generator

/-- The number of values of `k` bits. -/
def range (k : Nat) : Nat := Nat.pow 2 k

/-- The multiplier of the state. -/
def multiplier : Nat := 0x2360ed051fc65da44385df649fccf645

/-- Advances the state. -/
def advance (g : Generator) : Generator :=
  { g with state := (g.state * multiplier + g.increment) % range 128 }

/-- Rotates 64 bits to the right. -/
def rotate (v : UInt64) (k : UInt64) : UInt64 := (v >>> k) ||| (v <<< ((64 - k) % 64))

/-- The 64 bits that a state gives. -/
def bits (g : Generator) : UInt64 :=
  rotate ((g.state / range 64).toUInt64 ^^^ g.state.toUInt64) (g.state / range 122).toUInt64

/-- Puts 32-bit words together, the first one least significant. -/
def joinWords (words : List UInt32) : Nat := words.foldr (fun w n => n * range 32 + w.toNat) 0

/-- The generator of a seed. -/
def ofSeed (seed : Nat) : Generator :=
  let words := (Pool.ofWords (wordsOf seed)).emit 8
  let pair (i : Nat) : Nat := joinWords ((words.drop (2 * i)).take 2)
  let increment := ((pair 2 * range 64 + pair 3) * 2 + 1) % range 128
  advance ⟨(increment + (pair 0 * range 64 + pair 1)) % range 128, increment⟩

/-- The next `count` draws of 53 bits. -/
def draws (g : Generator) : Nat → List Nat
  | 0 => []
  | count + 1 =>
    let g := g.advance
    (g.bits >>> 11).toNat :: g.draws count

end Generator

end SoftLogic.Random
