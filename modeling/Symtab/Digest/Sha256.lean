import Symtab.Digest

/-!
# SHA-256

The hash function SHA-256, on octets.  A message is padded to a whole
number of blocks of 64 octets; each block is expanded to a schedule of 64 words, which turn
the eight words of the state in as many rounds; the state is added to what it was before the
block.  Words are big-endian.

Nothing is proved of this function.  What is proved of digests is about the octets that are
hashed, or says that equal octets have equal digests, and holds of any other function of octets
in its place.
-/

set_option autoImplicit false

namespace Symtab.Digest.Sha256

/-- A word of the algorithm; addition is modulo 2^32. -/
abbrev Word := UInt32

structure State where
  (a b c d e f g h : Word)
deriving DecidableEq, Repr

/-- The first 32 bits of the fractional parts of the square roots of the first eight primes. -/
def initial : State where
  a := 0x6a09e667
  b := 0xbb67ae85
  c := 0x3c6ef372
  d := 0xa54ff53a
  e := 0x510e527f
  f := 0x9b05688c
  g := 0x1f83d9ab
  h := 0x5be0cd19

/-- The first 32 bits of the fractional parts of the cube roots of the first 64 primes. -/
def roundConstants : List Word := [
  0x428a2f98, 0x71374491, 0xb5c0fbcf, 0xe9b5dba5, 0x3956c25b, 0x59f111f1, 0x923f82a4, 0xab1c5ed5,
  0xd807aa98, 0x12835b01, 0x243185be, 0x550c7dc3, 0x72be5d74, 0x80deb1fe, 0x9bdc06a7, 0xc19bf174,
  0xe49b69c1, 0xefbe4786, 0x0fc19dc6, 0x240ca1cc, 0x2de92c6f, 0x4a7484aa, 0x5cb0a9dc, 0x76f988da,
  0x983e5152, 0xa831c66d, 0xb00327c8, 0xbf597fc7, 0xc6e00bf3, 0xd5a79147, 0x06ca6351, 0x14292967,
  0x27b70a85, 0x2e1b2138, 0x4d2c6dfc, 0x53380d13, 0x650a7354, 0x766a0abb, 0x81c2c92e, 0x92722c85,
  0xa2bfe8a1, 0xa81a664b, 0xc24b8b70, 0xc76c51a3, 0xd192e819, 0xd6990624, 0xf40e3585, 0x106aa070,
  0x19a4c116, 0x1e376c08, 0x2748774c, 0x34b0bcb5, 0x391c0cb3, 0x4ed8aa4a, 0x5b9cca4f, 0x682e6ff3,
  0x748f82ee, 0x78a5636f, 0x84c87814, 0x8cc70208, 0x90befffa, 0xa4506ceb, 0xbef9a3f7, 0xc67178f2]

/-! ## Words -/

/-- Rotation to the right, for `0 < n < 32`. -/
def rotateRight (x : Word) (n : Word) : Word :=
  (x >>> n) ||| (x <<< (32 - n))

/-- The four octets of a word, most significant first. -/
def Word.octets (x : Word) : Vector UInt8 4 :=
  #v[(x >>> 24).toUInt8, (x >>> 16).toUInt8, (x >>> 8).toUInt8, x.toUInt8]

/-- The words of a list of octets; octets that do not fill a word are left out. -/
def words : List UInt8 → List Word
  | p :: q :: r :: s :: rest =>
    ((p.toUInt32 <<< 24) ||| (q.toUInt32 <<< 16) ||| (r.toUInt32 <<< 8) ||| s.toUInt32) ::
      words rest
  | _ => []

/-! ## Padding -/

/-- The number of zero octets that fill the last block: one octet for the end mark and eight
    for the length stand beside them. -/
def zeroCount (size : Nat) : Nat :=
  (119 - size % 64) % 64

/-- The eight octets of the length in bits, most significant first. -/
def lengthOctets (size : Nat) : List UInt8 :=
  (List.range 8).map fun i => UInt8.ofNat ((8 * size) >>> (8 * (7 - i)))

/-- The message with an end mark, zeros and its length behind it. -/
def pad (message : List UInt8) : List UInt8 :=
  message ++ 0x80 :: List.replicate (zeroCount message.length) 0 ++ lengthOctets message.length

def blocks (padded : List UInt8) : List (List Word) :=
  if _h : padded.length < 64 then []
  else words (padded.take 64) :: blocks (padded.drop 64)
termination_by padded.length
decreasing_by simp only [List.length_drop]; omega

/-! ## Rounds -/

/-- One further word of a schedule, from the words before it. -/
def extend (schedule : Array Word) : Array Word :=
  let back (n : Nat) : Word := schedule.getD (schedule.size - n) 0
  let x := back 15
  let y := back 2
  let s := rotateRight x 7 ^^^ rotateRight x 18 ^^^ (x >>> 3)
  let t := rotateRight y 17 ^^^ rotateRight y 19 ^^^ (y >>> 10)
  schedule.push (back 16 + s + back 7 + t)

/-- The 64 words that a block of 16 is expanded to. -/
def schedule (block : List Word) : List Word :=
  (Nat.repeat extend 48 block.toArray).toList

def round (s : State) (step : Word × Word) : State :=
  let big := rotateRight s.e 6 ^^^ rotateRight s.e 11 ^^^ rotateRight s.e 25
  let choice := (s.e &&& s.f) ^^^ (~~~s.e &&& s.g)
  let first := s.h + big + choice + step.2 + step.1
  let small := rotateRight s.a 2 ^^^ rotateRight s.a 13 ^^^ rotateRight s.a 22
  let majority := (s.a &&& s.b) ^^^ (s.a &&& s.c) ^^^ (s.b &&& s.c)
  { a := first + (small + majority), b := s.a, c := s.b, d := s.c
    e := s.d + first, f := s.e, g := s.f, h := s.g }

def State.add (s t : State) : State where
  a := s.a + t.a
  b := s.b + t.b
  c := s.c + t.c
  d := s.d + t.d
  e := s.e + t.e
  f := s.f + t.f
  g := s.g + t.g
  h := s.h + t.h

def compress (s : State) (block : List Word) : State :=
  s.add (((schedule block).zip roundConstants).foldl round s)

def State.digest (s : State) : Digest where
  octets := Word.octets s.a ++ Word.octets s.b ++ Word.octets s.c ++ Word.octets s.d ++
    Word.octets s.e ++ Word.octets s.f ++ Word.octets s.g ++ Word.octets s.h

/-- The digest of a message.  No proof opens it, so every theorem that mentions it holds for any
    function of octets. -/
def hash (message : List UInt8) : Digest :=
  ((blocks (pad message)).foldl compress initial).digest

end Symtab.Digest.Sha256
