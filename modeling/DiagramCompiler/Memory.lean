/-! Limits of memory.
At most `2 ^ 63 - 1` bytes can be reserved at once, which bounds how many things of a size can be
held next to each other. -/
namespace DiagramCompiler
namespace Memory

def limit : Nat := 9223372036854775807

def maxClauses : Nat := limit / 24

def maxVars : Nat := limit / 4

def maxNodes : Nat := limit / 8

def maxLists : Nat := limit / 24

/-- The most relaxations of a population, at 56 bytes each. -/
def maxRelaxations : Nat := limit / 56

end Memory
end DiagramCompiler
