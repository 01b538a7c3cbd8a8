/-! A stream of random words.
The stream is ChaCha with 8 rounds: block after block, the state mixed and added to itself. A seed
of 64 bits is stretched to the key by a congruential generator whose output is permuted. -/
namespace DiagramCompiler
namespace Random

abbrev Block := Vector UInt32 16

def rotateLeft (x : UInt32) (amount : UInt32) : UInt32 :=
  (x <<< amount) ||| (x >>> (32 - amount))

def mix (s : Block) (a b d : Fin 16) (first second : UInt32) (c : Fin 16) : Block :=
  let s := s.set a (s[a] + s[b])
  let s := s.set d (rotateLeft (s[d] ^^^ s[a]) first)
  let s := s.set c (s[c] + s[d])
  s.set b (rotateLeft (s[b] ^^^ s[c]) second)

def quarterRound (s : Block) (a b c d : Fin 16) : Block :=
  mix (mix s a b d 16 12 c) a b d 8 7 c

def doubleRound (s : Block) : Block :=
  let s := quarterRound s 0 4 8 12
  let s := quarterRound s 1 5 9 13
  let s := quarterRound s 2 6 10 14
  let s := quarterRound s 3 7 11 15
  let s := quarterRound s 0 5 10 15
  let s := quarterRound s 1 6 11 12
  let s := quarterRound s 2 7 8 13
  quarterRound s 3 4 9 14

abbrev Key := Vector UInt32 8

/-- The state of a block: four constant words, the key, the number of the block, and zeros. -/
def start (key : Key) (block : UInt64) : Block :=
  #v[0x61707865, 0x3320646e, 0x79622d32, 0x6b206574,
    key[0], key[1], key[2], key[3], key[4], key[5], key[6], key[7],
    block.toUInt32, (block >>> 32).toUInt32, 0, 0]

def output (key : Key) (block : UInt64) : Block :=
  let s := start key block
  Vector.zipWith (· + ·) s (doubleRound (doubleRound (doubleRound (doubleRound s))))

def stretch (seed : UInt64) : UInt64 := seed * 6364136223846793005 + 11634580027462260723

/-- The word shown at a step: folded to 32 bits and rotated right by its topmost bits. -/
def fold (seed : UInt64) : UInt32 :=
  let folded := (((seed >>> 18) ^^^ seed) >>> 27).toUInt32
  let amount := (seed >>> 59).toUInt32
  (folded >>> amount) ||| (folded <<< ((32 - amount) % 32))

def key (seed : UInt64) : Key :=
  let s1 := stretch seed
  let s2 := stretch s1
  let s3 := stretch s2
  let s4 := stretch s3
  let s5 := stretch s4
  let s6 := stretch s5
  let s7 := stretch s6
  let s8 := stretch s7
  #v[fold s1, fold s2, fold s3, fold s4, fold s5, fold s6, fold s7, fold s8]

/-- A place in a stream: the words of the current block that are left, and the next block. A stream
has a block for every number of 64 bits, and nothing but zeros after that. -/
structure Generator where
  key : Key
  ready : List UInt32
  block : Nat

namespace Generator

def ofSeed (seed : Nat) : Generator := ⟨Random.key (UInt64.ofNat seed), [], 0⟩

def next (g : Generator) : UInt32 × Generator :=
  match g.ready with
  | word :: rest => (word, { g with ready := rest })
  | [] =>
    if g.block < UInt64.size then
      let words := output g.key (UInt64.ofNat g.block)
      (words[0], ⟨g.key, words.toList.tail, g.block + 1⟩)
    else (0, g)

def left (g : Generator) : Nat := 16 * (UInt64.size - g.block) + g.ready.length

def take : Nat → Generator → List UInt32 × Generator
  | 0, g => ([], g)
  | n + 1, g =>
    let (word, g) := g.next
    let (words, g) := take n g
    (word :: words, g)

/-- A step takes one word, unless the stream has come to its end. -/
theorem next_cases (g : Generator) :
    g.next = (0, g) ∧ g.left = 0 ∨ g.next.2.left + 1 = g.left := by
  rw [next]
  split
  · next word rest hready =>
    refine .inr ?_
    simp only [left, hready, List.length_cons]
    omega
  · next hready =>
    have hlength : (output g.key (UInt64.ofNat g.block)).toList.length = 16 := Vector.length_toList
    by_cases hblock : g.block < UInt64.size
    · rw [if_pos hblock]
      refine .inr ?_
      simp only [left, hready, List.length_tail, List.length_nil, hlength]
      omega
    · rw [if_neg hblock]
      refine .inl ⟨rfl, ?_⟩
      simp only [left, hready, List.length_nil]
      omega

theorem left_take (n : Nat) (g : Generator) : (g.take n).2.left = g.left - n := by
  induction n generalizing g with
  | zero => rfl
  | succ n ih =>
    have hrest : (take (n + 1) g).2.left = g.next.2.left - n := ih g.next.2
    rcases g.next_cases with ⟨hnext, hleft⟩ | hless
    · rw [hrest, hnext, hleft]
      omega
    · omega

theorem eq_zero_of_mem_take {n : Nat} {g : Generator} {word : UInt32} (hleft : g.left = 0)
    (h : word ∈ (g.take n).1) : word = 0 := by
  induction n with
  | zero => exact absurd h List.not_mem_nil
  | succ n ih =>
    rcases g.next_cases with ⟨hnext, -⟩ | hless
    · rw [take, hnext] at h
      rcases List.mem_cons.1 h with rfl | h
      · rfl
      · exact ih h
    · omega

end Generator
end Random
end DiagramCompiler
