/-! Ranges of characters.
A property of characters is given by the ranges of code points that have it, as of version 18.0 of
the character standard. -/
namespace DiagramCompiler
namespace Text

abbrev Ranges := List (Nat × Nat)

def inRanges (ranges : Ranges) (c : Char) : Bool :=
  ranges.any fun r => r.1 ≤ c.toNat && c.toNat ≤ r.2

end Text
end DiagramCompiler
