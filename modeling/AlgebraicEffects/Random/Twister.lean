/-!
The Mersenne twister MT19937, seeded by an integer.

The state is 624 words of 32 bits. A block of outputs is made by one regeneration of the whole state
and each word is tempered before it is given out; two words make one double in `[0, 1)`.
-/

set_option autoImplicit false

namespace AlgebraicEffects

/-- Number of words of the state. -/
def Twister.size : Nat := 624

/-- Distance between the words that regeneration combines. -/
def Twister.shift : Nat := 397

structure Twister where
  words : Array UInt32
  /-- How many words of the block have been given out. -/
  used : Nat

namespace Twister

private def word (words : Array UInt32) (i : Nat) : UInt32 := words.getD i 0

/-- Mixes the word before position `i` into a multiplier of the seeding recurrences. -/
private def mixed (words : Array UInt32) (i : Nat) : UInt32 :=
  let w := word words (i - 1)
  w ^^^ (w >>> 30)

/-- The state grown from one word by the linear seeding recurrence. -/
def ofWord (seed : UInt32) : Array UInt32 :=
  (List.range (size - 1)).foldl
    (fun words k => words.push (1812433253 * mixed words (k + 1) + UInt32.ofNat (k + 1))) #[seed]

/-- Position after `i`; past the end the last word is copied to the front. -/
private def advance (words : Array UInt32) (i : Nat) : Array UInt32 × Nat :=
  if i + 1 < size then (words, i + 1) else (words.setIfInBounds 0 (word words (size - 1)), 1)

/-- Folds a key of words into the state, at least once round. -/
def ofKey (key : List UInt32) : Array UInt32 :=
  let keys := key.toArray
  let rounds := max size keys.size
  let start : Array UInt32 × Nat := (ofWord 19650218, 1)
  let absorbed := (List.range rounds).foldl
    (fun (words, i) k =>
      let j := k % keys.size
      advance (words.setIfInBounds i
        ((word words i ^^^ (mixed words i * 1664525)) + keys.getD j 0 + UInt32.ofNat j)) i)
    start
  let spread := (List.range (size - 1)).foldl
    (fun (words, i) _ =>
      advance (words.setIfInBounds i
        ((word words i ^^^ (mixed words i * 1566083941)) - UInt32.ofNat i)) i)
    absorbed
  spread.1.setIfInBounds 0 0x80000000

/-- The 32-bit words of a natural number, least significant first; zero is one word. -/
def wordsOf (n : Nat) : List UInt32 :=
  if n < 0x100000000 then [UInt32.ofNat n]
  else UInt32.ofNat (n % 0x100000000) :: wordsOf (n / 0x100000000)
termination_by n
decreasing_by omega

/-- The generator seeded by an integer; the sign of the seed does not matter. -/
def ofSeed (seed : Int) : Twister := ⟨ofKey (wordsOf seed.natAbs), size⟩

/-- A new block of words. -/
def regenerate (words : Array UInt32) : Array UInt32 :=
  (List.range size).foldl
    (fun words i =>
      let y := (word words i &&& 0x80000000) ||| (word words ((i + 1) % size) &&& 0x7fffffff)
      let twist : UInt32 := if y &&& 1 = 0 then 0 else 0x9908b0df
      words.setIfInBounds i (word words ((i + shift) % size) ^^^ (y >>> 1) ^^^ twist))
    words

def temper (w : UInt32) : UInt32 :=
  let w := w ^^^ (w >>> 11)
  let w := w ^^^ ((w <<< 7) &&& 0x9d2c5680)
  let w := w ^^^ ((w <<< 15) &&& 0xefc60000)
  w ^^^ (w >>> 18)

/-- The next word. -/
def next (t : Twister) : UInt32 × Twister :=
  let t := if t.used < size then t else ⟨regenerate t.words, 0⟩
  (temper (word t.words t.used), { t with used := t.used + 1 })

/-- The next double of `[0, 1)`: 27 high and 26 low bits, in units of `2 ^ -53`. -/
def nextUnit (t : Twister) : Float × Twister :=
  let (a, t) := t.next
  let (b, t) := t.next
  let bits := (a >>> 5).toNat * 0x4000000 + (b >>> 6).toNat
  (Float.scaleB (Float.ofNat bits) (-53), t)

end Twister

end AlgebraicEffects
