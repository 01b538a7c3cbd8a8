import DiagramCompiler.VariableOrder

/-! Spans of clauses.
The span of a clause is the distance between its outermost variables in an order. Clauses sorted by
their span per literal put the tightest first, and equal ones keep their order. -/
namespace DiagramCompiler
namespace VariableOrder

def extent : List Nat → Nat
  | [] => 0
  | p :: ps => ps.foldl max p - ps.foldl min p

def clauseSpan (positions : Array Nat) (c : Clause) : Nat :=
  extent (c.vars.map fun v => positions.getD v 0)

def sumOf (ns : List Nat) : Nat := ns.foldr (· + ·) 0

def totalSpan (positions : Array Nat) (clauses : List Clause) : Nat :=
  sumOf (clauses.map (clauseSpan positions))

/-- The spans of the clauses of a formula, all of whose variables must have positions. -/
def spans? (o : VariableOrder) (f : Formula) : Option (List Nat) :=
  if o.covers f then some (f.clauses.map (clauseSpan o.positions)) else none

/-- A span and the number of literals that share it. -/
structure Density where
  span : Nat
  literals : Nat
  deriving DecidableEq, Repr

/-- Compares spans per literal; a clause without literals has none. -/
def Density.atMost (a b : Density) : Bool :=
  if a.literals = 0 then true
  else if b.literals = 0 then a.span = 0
  else a.span * b.literals ≤ b.span * a.literals

def density (positions : Array Nat) (c : Clause) : Density :=
  ⟨clauseSpan positions c, c.length⟩

/-- The positions of clauses, the one with the smallest span per literal first. -/
def tightestFirst (o : VariableOrder) (clauses : List Clause) : List Nat :=
  let positions := o.positions
  let keyed := clauses.zipIdx.map fun c => (density positions c.1, c.2)
  (keyed.mergeSort fun a b => a.1.atMost b.1).map Prod.snd

def sortClauses (o : VariableOrder) (f : Formula) : Formula :=
  f.permute (o.tightestFirst f.clauses)

end VariableOrder
end DiagramCompiler
