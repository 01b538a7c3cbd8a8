/-! Letters of either case.
Only the letters from A to Z have two cases here; all other characters stand for themselves. -/
namespace DiagramCompiler
namespace Text

def lower (c : Char) : Char := if 'A' ≤ c ∧ c ≤ 'Z' then Char.ofNat (c.toNat + 32) else c

/-- Whether two texts differ at most in the case of letters. -/
def sameLetters (a b : List Char) : Bool := a.map lower = b.map lower

end Text
end DiagramCompiler
