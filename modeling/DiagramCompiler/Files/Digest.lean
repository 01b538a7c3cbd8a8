import DiagramCompiler.Files.Bytes

/-! Digests of files.
The digest of some bytes is their MD5: the bytes are padded to blocks of 64, every block changes a
state of four words in four rounds of sixteen steps, and the last state is written in hexadecimal.
Numbers are read and written with their least significant byte first. -/
namespace DiagramCompiler
namespace Digest

structure State where
  a : UInt32
  b : UInt32
  c : UInt32
  d : UInt32
  deriving DecidableEq, Repr, Inhabited

def start : State := ⟨0x67452301, 0xefcdab89, 0x98badcfe, 0x10325476⟩

instance : Add State := ⟨fun s t => ⟨s.a + t.a, s.b + t.b, s.c + t.c, s.d + t.d⟩⟩

/-- The integer parts of `2 ^ 32` times the sines of 1 to 64, without their signs. -/
def sines : List UInt32 :=
  [0xd76aa478, 0xe8c7b756, 0x242070db, 0xc1bdceee, 0xf57c0faf, 0x4787c62a, 0xa8304613, 0xfd469501,
    0x698098d8, 0x8b44f7af, 0xffff5bb1, 0x895cd7be, 0x6b901122, 0xfd987193, 0xa679438e, 0x49b40821,
    0xf61e2562, 0xc040b340, 0x265e5a51, 0xe9b6c7aa, 0xd62f105d, 0x02441453, 0xd8a1e681, 0xe7d3fbc8,
    0x21e1cde6, 0xc33707d6, 0xf4d50d87, 0x455a14ed, 0xa9e3e905, 0xfcefa3f8, 0x676f02d9, 0x8d2a4c8a,
    0xfffa3942, 0x8771f681, 0x6d9d6122, 0xfde5380c, 0xa4beea44, 0x4bdecfa9, 0xf6bb4b60, 0xbebfbc70,
    0x289b7ec6, 0xeaa127fa, 0xd4ef3085, 0x04881d05, 0xd9d4d039, 0xe6db99e5, 0x1fa27cf8, 0xc4ac5665,
    0xf4292244, 0x432aff97, 0xab9423a7, 0xfc93a039, 0x655b59c3, 0x8f0ccc92, 0xffeff47d, 0x85845dd1,
    0x6fa87e4f, 0xfe2ce6e0, 0xa3014314, 0x4e0811a1, 0xf7537e82, 0xbd3af235, 0x2ad7d2bb, 0xeb86d391]

def mixture (round : Nat) (x y z : UInt32) : UInt32 :=
  match round with
  | 0 => (x &&& y) ||| (~~~x &&& z)
  | 1 => (z &&& x) ||| (~~~z &&& y)
  | 2 => x ^^^ y ^^^ z
  | _ => y ^^^ (x ||| ~~~z)

def wordIndex (round step : Nat) : Nat :=
  match round with
  | 0 => step % 16
  | 1 => (5 * step + 1) % 16
  | 2 => (3 * step + 5) % 16
  | _ => 7 * step % 16

def rotation (round step : Nat) : UInt32 :=
  match round, step % 4 with
  | 0, 0 => 7 | 0, 1 => 12 | 0, 2 => 17 | 0, _ => 22
  | 1, 0 => 5 | 1, 1 => 9 | 1, 2 => 14 | 1, _ => 20
  | 2, 0 => 4 | 2, 1 => 11 | 2, 2 => 16 | 2, _ => 23
  | _, 0 => 6 | _, 1 => 10 | _, 2 => 15 | _, _ => 21

def rotated (x amount : UInt32) : UInt32 := (x <<< amount) ||| (x >>> (32 - amount))

/-- One of the 64 steps for a block, with its number and its sine. -/
def step (words : Array UInt32) (s : State) (number : UInt32 × Nat) : State :=
  let round := number.2 / 16
  let sum := s.a + mixture round s.b s.c s.d + number.1 +
    words.getD (wordIndex round number.2) 0
  ⟨s.d, s.b + rotated sum (rotation round number.2), s.b, s.c⟩

def words : Bytes → List UInt32
  | a :: b :: c :: d :: rest =>
    (a.toUInt32 ||| (b.toUInt32 <<< 8) ||| (c.toUInt32 <<< 16) ||| (d.toUInt32 <<< 24)) ::
      words rest
  | _ => []

def absorb (s : State) (block : Bytes) : State :=
  s + sines.zipIdx.foldl (step (words block).toArray) s

def lowBytes : Nat → Nat → Bytes
  | 0, _ => []
  | count + 1, n => UInt8.ofNat n :: lowBytes count (n / 256)

/-- What follows bytes of some number to fill the last block: a set bit, zeros, and how many bits
the bytes have. -/
def padding (length : Nat) : Bytes :=
  0x80 :: List.replicate ((119 - length % 64) % 64) 0 ++ lowBytes 8 (8 * length)

def absorbAll (s : State) (bytes : Bytes) : State :=
  match bytes with
  | [] => s
  | b :: rest => absorbAll (absorb s (b :: rest.take 63)) (rest.drop 63)
termination_by bytes.length
decreasing_by
  simp only [List.length_drop, List.length_cons]
  omega

def hexDigit (n : Nat) : Char := Nat.digitChar (n % 16)

def hex (bytes : Bytes) : List Char :=
  bytes.flatMap fun b => [hexDigit (b.toNat / 16), hexDigit b.toNat]

def wordBytes (w : UInt32) : Bytes := lowBytes 4 w.toNat

def State.text (s : State) : String :=
  String.ofList (hex (wordBytes s.a ++ wordBytes s.b ++ wordBytes s.c ++ wordBytes s.d))

end Digest

def Bytes.digest (bytes : Bytes) : String :=
  (Digest.absorbAll Digest.start (bytes ++ Digest.padding bytes.length)).text

end DiagramCompiler
