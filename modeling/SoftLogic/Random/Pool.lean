/-!
# Entropy pools

Turning a number into the words that seed a generator.  The number is cut into 32-bit words; the first four
fill a pool, every word of the pool is mixed into every other, and further words are mixed into all of it.
The output hashes the pool again, going round it as often as needed.

Each hash step multiplies by a running constant, so a step depends on how many came before it.
-/

namespace SoftLogic.Random

/-- The 32-bit words of a number, least significant first; zero has one word. -/
def wordsOf (n : Nat) : List UInt32 :=
  n.toUInt32 :: if 0x100000000 ≤ n then wordsOf (n / 0x100000000) else []
termination_by n
decreasing_by omega

/-- Folds the high half of a word into its low half. -/
def foldHalves (v : UInt32) : UInt32 := v ^^^ (v >>> 16)

/-- Four words. -/
structure Pool where
  a : UInt32
  b : UInt32
  c : UInt32
  d : UInt32
  deriving DecidableEq, Repr

/-- One hash step: the hash of a word and the next running constant. -/
def hash (running word : UInt32) : UInt32 × UInt32 :=
  let next := running * 0x931e8875
  (foldHalves ((word ^^^ running) * next), next)

/-- Combines a word of the pool with a hashed word. -/
def mix (x y : UInt32) : UInt32 := foldHalves (x * 0xca01f9dd - y * 0x4973f715)

namespace Pool

/-- The word at a place, counted round the pool. -/
def get (p : Pool) (i : Nat) : UInt32 :=
  match i % 4 with
  | 0 => p.a
  | 1 => p.b
  | 2 => p.c
  | _ => p.d

/-- Puts a word in a place, counted round the pool. -/
def set (p : Pool) (i : Nat) (v : UInt32) : Pool :=
  match i % 4 with
  | 0 => { p with a := v }
  | 1 => { p with b := v }
  | 2 => { p with c := v }
  | _ => { p with d := v }

/-- Mixes a word into one place, hashing it first. -/
def absorb (word : UInt32) (state : Pool × UInt32) (i : Nat) : Pool × UInt32 :=
  let (h, running) := hash state.2 word
  (state.1.set i (mix (state.1.get i) h), running)

/-- Mixes the word at place `s` into every other place. -/
def spread (state : Pool × UInt32) (s : Nat) : Pool × UInt32 :=
  ((List.range 4).filter (· ≠ s)).foldl (fun state i => absorb (state.1.get s) state i) state

/-- Fills a pool with the first words, zeros if there are fewer than four. -/
def fill (words : List UInt32) : Pool × UInt32 :=
  (List.range 4).foldl
    (fun state i =>
      let (h, running) := hash state.2 (words.getD i 0)
      (state.1.set i h, running))
    (⟨0, 0, 0, 0⟩, 0x43b0d7e5)

/-- The pool of a list of words. -/
def ofWords (words : List UInt32) : Pool :=
  let filled := (List.range 4).foldl spread (fill words)
  ((words.drop 4).foldl (fun state word => (List.range 4).foldl (absorb word) state) filled).1

/-- Hashes the word at a place on the way out. -/
def emitWord (p : Pool) (state : List UInt32 × UInt32) (i : Nat) : List UInt32 × UInt32 :=
  let next := state.2 * 0x58f38ded
  (state.1 ++ [foldHalves ((p.get i ^^^ state.2) * next)], next)

/-- The first words of output. -/
def emit (p : Pool) (count : Nat) : List UInt32 :=
  ((List.range count).foldl p.emitWord ([], 0x8b51f9dd)).1

end Pool

end SoftLogic.Random
