/-
Pseudo-random words: the 64-bit Mersenne Twister, started from one word. The
state is a block of words that is renewed as a whole once it is used up.
-/
namespace GatePlan

/-- A block of words and the number of them that have been drawn. -/
structure Random where
  words : Array UInt64
  drawn : Nat
  deriving Inhabited

namespace Random

/-- The number of words in a block. -/
def blockSize : Nat := 312

/-- The distance between the words that are mixed. -/
def mixDistance : Nat := 156

/-- The first block, each word made from the one before it. -/
def ofSeed (seed : UInt64) : Random :=
  let words := (List.range (blockSize - 1)).foldl
    (fun (words : Array UInt64) i =>
      let last := words.getD i 0
      words.push ((6364136223846793005 : UInt64) * (last ^^^ (last >>> 62)) + UInt64.ofNat (i + 1)))
    #[seed]
  ⟨words, blockSize⟩

/-- A word from the high bits of one and the low bits of the next. -/
def twist (high low : UInt64) : UInt64 :=
  let y := (high &&& 0xFFFFFFFF80000000) ||| (low &&& 0x7FFFFFFF)
  (y >>> 1) ^^^ (if y &&& 1 = 0 then 0 else 0xB5026F5AA96619E9)

/-- The next block, made in place. -/
def renew (words : Array UInt64) : Array UInt64 :=
  (List.range blockSize).foldl
    (fun (words : Array UInt64) i =>
      let next := words.getD ((i + 1) % blockSize) 0
      let other := words.getD ((i + mixDistance) % blockSize) 0
      words.setIfInBounds i (other ^^^ twist (words.getD i 0) next))
    words

/-- Spreads the bits of a word before it is handed out. -/
def temper (x : UInt64) : UInt64 :=
  let x := x ^^^ ((x >>> 29) &&& 0x5555555555555555)
  let x := x ^^^ ((x <<< 17) &&& 0x71D67FFFEDA60000)
  let x := x ^^^ ((x <<< 37) &&& 0xFFF7EEE000000000)
  x ^^^ (x >>> 43)

/-- Draws the next word. -/
def next (r : Random) : UInt64 × Random :=
  let r := if r.drawn < blockSize then r else ⟨renew r.words, 0⟩
  (temper (r.words.getD r.drawn 0), { r with drawn := r.drawn + 1 })

/-- Draws bits, the low bit of one word each, after those in `seen`, newest
first. -/
def bitsAfter : Nat → List Bool → Random → List Bool × Random
  | 0, seen, r => (seen.reverse, r)
  | n + 1, seen, r =>
    let (word, r) := r.next
    bitsAfter n ((word &&& 1 ≠ 0) :: seen) r

def bits (count : Nat) (r : Random) : List Bool × Random := bitsAfter count [] r

end Random

end GatePlan
