/-!
The digest SHA-512 of a sequence of bytes.

The bytes are filled up to whole blocks, the last of which ends with their number in bits. Each
block is spread over eighty words, and every one of them turns the state once. The words that the
rounds add and the words that the state begins with are fractions of roots of the first primes.
-/

set_option autoImplicit false

namespace AlgebraicEffects

/-- Eight words of 64 bits. -/
structure Digest where
  a : UInt64
  b : UInt64
  c : UInt64
  d : UInt64
  e : UInt64
  f : UInt64
  g : UInt64
  h : UInt64

namespace Digest

/-- Number of words of a block. -/
def blockSize : Nat := 16

/-- Number of rounds of a block. -/
def roundCount : Nat := 80

private def isPrime (n : Nat) : Bool :=
  2 ≤ n && (List.range n).all fun k => k < 2 || n % k != 0

/-- The first eighty primes. -/
private def primes : List Nat := (List.range 410).filter isPrime

/-- The greatest number whose cube is at most `n`, found bit by bit from the given bit on. -/
private def cubeRoot (n : Nat) : Nat → Nat → Nat
  | 0, root => root
  | bit + 1, root =>
    let next := root + Nat.pow 2 bit
    cubeRoot n bit (if next * next * next ≤ n then next else root)

/-- The first 64 bits of the fraction of the cube root of a number. -/
private def cubeRootFraction (p : Nat) : UInt64 :=
  UInt64.ofNat (cubeRoot (p * Nat.pow 2 192) 70 0)

/-- The first 64 bits of the fraction of the square root of a number. -/
private def squareRootFraction (p : Nat) : UInt64 := UInt64.ofNat (p * Nat.pow 2 128).sqrt

/-- The words that the rounds add. -/
private def roundWords : List UInt64 := primes.map cubeRootFraction

/-- The state before the first block. -/
private def start : Digest :=
  match primes.map squareRootFraction with
  | a :: b :: c :: d :: e :: f :: g :: h :: _ => ⟨a, b, c, d, e, f, g, h⟩
  | _ => ⟨0, 0, 0, 0, 0, 0, 0, 0⟩

private def turned (x : UInt64) (n : UInt64) : UInt64 := (x >>> n) ||| (x <<< (64 - n))

/-- The number that bytes stand for, the most significant first. -/
def numberOf (bytes : List UInt8) : Nat := bytes.foldl (fun n b => n * 256 + b.toNat) 0

/-- The words of bytes whose number is a multiple of eight. -/
private def wordsOf : List UInt8 → List UInt64
  | a :: b :: c :: d :: e :: f :: g :: h :: bytes =>
    UInt64.ofNat (numberOf [a, b, c, d, e, f, g, h]) :: wordsOf bytes
  | _ => []

/-- The bytes filled up to whole blocks: a mark, zeros, and the number of bits in two words. -/
private def padded (bytes : List UInt8) : List UInt64 :=
  let size := 8 * blockSize
  let zeros := (size - (bytes.length + 17) % size) % size
  let filled := bytes ++ 0x80 :: List.replicate (zeros + 8) 0
  wordsOf filled ++ [UInt64.ofNat (8 * bytes.length)]

/-- The words of a block, followed by those that are spread from them. -/
private def spread (block : List UInt64) : List UInt64 :=
  let word (words : Array UInt64) (back : Nat) : UInt64 := words.getD (words.size - back) 0
  ((List.range (roundCount - blockSize)).foldl
    (fun words _ =>
      let x := word words 15
      let y := word words 2
      words.push (word words 16 + (turned x 1 ^^^ turned x 8 ^^^ (x >>> 7)) + word words 7
        + (turned y 19 ^^^ turned y 61 ^^^ (y >>> 6))))
    block.toArray).toList

/-- One round: the state is shifted by a word, and the words mixed in are `w` and `k`. -/
private def round (s : Digest) (w k : UInt64) : Digest :=
  let chosen := (s.e &&& s.f) ^^^ ((~~~ s.e) &&& s.g)
  let t := s.h + (turned s.e 14 ^^^ turned s.e 18 ^^^ turned s.e 41) + chosen + k + w
  let majority := (s.a &&& s.b) ^^^ (s.a &&& s.c) ^^^ (s.b &&& s.c)
  let u := (turned s.a 28 ^^^ turned s.a 34 ^^^ turned s.a 39) + majority
  ⟨t + u, s.a, s.b, s.c, s.d + t, s.e, s.f, s.g⟩

private def add (s t : Digest) : Digest :=
  ⟨s.a + t.a, s.b + t.b, s.c + t.c, s.d + t.d, s.e + t.e, s.f + t.f, s.g + t.g, s.h + t.h⟩

private def absorb (s : Digest) (block : List UInt64) : Digest :=
  s.add (((spread block).zip roundWords).foldl (fun s (w, k) => s.round w k) s)

private def absorbAll : Nat → Digest → List UInt64 → Digest
  | 0, s, _ => s
  | blocks + 1, s, words =>
    absorbAll blocks (s.absorb (words.take blockSize)) (words.drop blockSize)

def ofBytes (bytes : List UInt8) : Digest :=
  let words := padded bytes
  absorbAll (words.length / blockSize) start words

/-- The number that a digest stands for, the first word most significant. -/
def toNat (s : Digest) : Nat :=
  [s.a, s.b, s.c, s.d, s.e, s.f, s.g, s.h].foldl (fun n w => n * Nat.pow 2 64 + w.toNat) 0

end Digest

end AlgebraicEffects
