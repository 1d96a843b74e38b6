import GameSearch.Chance.Dice

/-!
# The Mersenne twister

A source of random numbers with 624 words of state, and the rolls made from its 32-bit outputs: the
output times the number of sides, without the low half, which is unbiased because outputs whose low
half is too small are drawn again.
-/

namespace GameSearch

/-- The state of a generator: its words, and how many of them have been put out. -/
structure Twister where
  words : Array UInt32
  used : Nat

namespace Twister

/-- How many words there are. -/
def size : Nat := 624

/-- The number of values of a word, `2 ^ 32`. -/
def wordCount : Nat := 4294967296

/-- The words that follow from a first one. -/
def seedWords (first : UInt32) : Array UInt32 :=
  (size - 1).fold (fun i _ (ws : Array UInt32) =>
    let last : UInt32 := ws.getD i 0
    ws.push ((last ^^^ (last >>> 30)) * 1812433253 + (i + 1).toUInt32)) #[first]

/-- The generator with the given seed, which counts modulo `2 ^ 32`. -/
def ofSeed (seed : Int) : Twister := ⟨seedWords (seed.emod wordCount).toNat.toUInt32, size⟩

/-- The next state of all words. -/
def twist (words : Array UInt32) : Array UInt32 :=
  size.fold (fun i _ (ws : Array UInt32) =>
    let joined := (ws.getD i 0 &&& 0x80000000) ||| (ws.getD ((i + 1) % size) 0 &&& 0x7fffffff)
    let mask : UInt32 := if joined &&& 1 = 1 then 0x9908b0df else 0
    ws.setIfInBounds i (ws.getD ((i + 397) % size) 0 ^^^ (joined >>> 1) ^^^ mask)) words

/-- A word as it is put out. -/
def temper (w : UInt32) : UInt32 :=
  let w := w ^^^ (w >>> 11)
  let w := w ^^^ ((w <<< 7) &&& 0x9d2c5680)
  let w := w ^^^ ((w <<< 15) &&& 0xefc60000)
  w ^^^ (w >>> 18)

def next (t : Twister) : UInt32 × Twister :=
  let ⟨words, used⟩ := t
  if used < size then (temper (words.getD used 0), ⟨words, used + 1⟩)
  else
    let words := twist words
    (temper (words.getD 0 0), ⟨words, 1⟩)

/-- An output whose product with `n` has a low half of at least `bound`.  Fewer than half of the
outputs fail that, and the last of `tries` outputs is taken as it is. -/
def unbiased (n bound : Nat) : Nat → Twister → UInt32 × Twister
  | 0, t => t.next
  | tries + 1, t =>
    let (x, t) := t.next
    if x.toNat * n % wordCount < bound then unbiased n bound tries t else (x, t)

/-- A number below `n`.  The bias is in the outputs whose low half is below `2 ^ 32 mod n`. -/
def roll (n : Nat) (h : 0 < n) (t : Twister) : Fin n × Twister :=
  let (x, t) := unbiased n (if n < wordCount then wordCount % n else 0) 1000 t
  (⟨x.toNat * n / wordCount, by
    have hx : x.toNat < wordCount := x.toNat_lt
    exact Nat.div_lt_of_lt_mul (Nat.mul_lt_mul_of_pos_right hx h)⟩, t)

instance : Dice Twister := ⟨roll⟩

end Twister

end GameSearch
