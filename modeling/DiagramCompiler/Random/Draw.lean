import DiagramCompiler.Random.ChaCha

/-! Uniform draws.
A number below a bound is drawn by rejecting the words that would favour some numbers, and a list is
shuffled from its end by swaps with drawn places. Zero favours none, so that every draw comes to an
end at the end of the stream at the latest. -/
namespace DiagramCompiler
namespace Random
namespace Generator

/-- The number of zero bits above the highest bit of a word. -/
def leadingZeros (word : Nat) : Nat := 32 - if word = 0 then 0 else word.log2 + 1

/-- The largest low half of a product that is accepted in draws below `bound`. -/
def zone (bound : Nat) : Nat := (bound <<< leadingZeros bound + UInt32.size - 1) % UInt32.size

def below (bound : Nat) (g : Generator) : Nat × Generator :=
  let product := g.next.1.toNat * bound
  if product % UInt32.size ≤ zone bound then (product / UInt32.size, g.next.2)
  else below bound g.next.2
termination_by g.left
decreasing_by
  next hrejected =>
    rcases g.next_cases with ⟨hnext, -⟩ | hless
    · have hzero : product = 0 := by simp [product, hnext]
      exact absurd (by simp [hzero]) hrejected
    · omega

/-- Swaps every place from `i` down to 1 with a drawn place at or before it. -/
def shuffleFrom {α : Type} (xs : Array α) : Nat → Generator → Array α × Generator
  | 0, g => (xs, g)
  | i + 1, g =>
    let draw := g.below (i + 2)
    shuffleFrom (xs.swapIfInBounds (i + 1) draw.1) i draw.2

def shuffle {α : Type} (xs : List α) (g : Generator) : List α × Generator :=
  let shuffled := shuffleFrom xs.toArray (xs.length - 1) g
  (shuffled.1.toList, shuffled.2)

theorem perm_swapIfInBounds {α : Type} (xs : Array α) (i j : Nat) :
    (xs.swapIfInBounds i j).toList.Perm xs.toList := by
  rw [Array.swapIfInBounds]
  split
  · split
    · exact (Array.swap_perm _ _).toList
    · exact .refl _
  · exact .refl _

theorem perm_shuffleFrom {α : Type} (xs : Array α) (i : Nat) (g : Generator) :
    (shuffleFrom xs i g).1.toList.Perm xs.toList := by
  induction i generalizing xs g with
  | zero => exact .refl _
  | succ i ih =>
    rw [shuffleFrom]
    exact (ih _ _).trans (perm_swapIfInBounds xs _ _)

theorem perm_shuffle {α : Type} (xs : List α) (g : Generator) :
    (shuffle xs g).1.Perm xs := perm_shuffleFrom xs.toArray _ g

/-- The number whose base-`2 ^ 32` digits are some words, the least significant first. -/
def number : List UInt32 → Nat
  | [] => 0
  | w :: ws => w.toNat + UInt32.size * number ws

/-- A number with a given count of random bits: whole words, the last one cut from above. -/
def bits (count : Nat) (g : Generator) : Nat × Generator :=
  let whole := g.take (count / 32)
  if count % 32 = 0 then (number whole.1, whole.2)
  else
    let last := whole.2.next
    (number (whole.1 ++ [last.1 >>> UInt32.ofNat (32 - count % 32)]), last.2)

theorem number_eq_zero {words : List UInt32} (h : ∀ word ∈ words, word = 0) : number words = 0 := by
  induction words with
  | nil => rfl
  | cons word words ih =>
    rw [number, h word (.head _), ih fun other hother => h other (.tail _ hother)]
    rfl

/-- Drawing some bits takes words, unless the stream has come to its end. -/
theorem bits_cases {count : Nat} (hcount : 0 < count) (g : Generator) :
    (g.bits count).1 = 0 ∨ (g.bits count).2.left < g.left := by
  have hwhole : g.left = 0 → ∀ word ∈ (g.take (count / 32)).1, word = 0 := fun hleft _ =>
    eq_zero_of_mem_take hleft
  have htaken := g.left_take (count / 32)
  rw [bits]
  by_cases heven : count % 32 = 0
  · simp only [heven, if_true]
    by_cases hleft : g.left = 0
    · exact .inl (number_eq_zero (hwhole hleft))
    · exact .inr (by omega)
  · simp only [heven, if_false]
    rcases (g.take (count / 32)).2.next_cases with ⟨hnext, hend⟩ | hless
    · rw [hnext]
      by_cases hleft : g.left = 0
      · refine .inl (number_eq_zero fun word hword => ?_)
        rcases List.mem_append.1 hword with hword | hword
        · exact hwhole hleft word hword
        · simpa using hword
      · exact .inr (by simp only [hend]; omega)
    · exact .inr (by omega)

def belowWide (bound : Nat) (hbound : 0 < bound) (g : Generator) : Nat × Generator :=
  let drawn := g.bits (bound.log2 + 1)
  if drawn.1 < bound then drawn else belowWide bound hbound drawn.2
termination_by g.left
decreasing_by
  rcases bits_cases bound.log2.succ_pos g with hzero | hless
  · next hrejected => exact absurd (hzero ▸ hbound) hrejected
  · exact hless

end Generator
end Random
end DiagramCompiler
