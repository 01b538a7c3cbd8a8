import DiagramCompiler.VariableOrder.Span
import DiagramCompiler.Random.Draw

/-! Relaxation of an order (FORCE).
Every variable is pulled to the mean of the centres of its clauses, and the variables are sorted by
where they are pulled, those pulled to one place by where they were. This is repeated as long as the
total span becomes smaller, and at most for a given number of rounds. -/
namespace DiagramCompiler
namespace VariableOrder

/-- Where a number stands in the total order of doubles, which puts the negative zero first. -/
def floatRank (x : Float) : Nat :=
  let bits := x.toBits.toNat
  if bits < UInt64.size / 2 then bits + UInt64.size / 2 else UInt64.size - 1 - bits

def centre (positions : Array Nat) (c : Clause) : Float :=
  Float.ofNat (sumOf (c.vars.map fun v => positions.getD v 0)) / Float.ofNat c.length

/-- For every variable, the sum of the centres of its clauses and their number. -/
def pulls (positions : Array Nat) (clauses : List Clause) : Array (Float × Nat) :=
  clauses.foldl
    (fun table c =>
      let pulled := centre positions c
      c.vars.foldl (fun table v => table.modify v fun p => (p.1 + pulled, p.2 + 1)) table)
    (Array.replicate positions.size (0.0, 0))

/-- Where a variable is pulled to; one in no clause stays where it is. -/
def target (position : Nat) (pull : Float × Nat) : Float :=
  if pull.2 = 0 then Float.ofNat position else pull.1 / Float.ofNat pull.2

/-- A variable with the keys by which it is sorted. -/
structure Pulled where
  rank : Nat
  position : Nat
  var : Nat

def Pulled.atMost (a b : Pulled) : Bool :=
  a.rank < b.rank || (a.rank = b.rank && a.position ≤ b.position)

def pulled (clauses : List Clause) (o : VariableOrder) : List Pulled :=
  let table := pulls o.positions clauses
  o.toList.zipIdx.map fun v => ⟨floatRank (target v.2 (table.getD v.1 (0.0, 0))), v.2, v.1⟩

theorem map_var_pulled (clauses : List Clause) (o : VariableOrder) :
    (pulled clauses o).map Pulled.var = o.toList := by
  simp only [pulled, List.map_map]
  exact List.zipIdx_map_fst 0 o.toList

def step (clauses : List Clause) (o : VariableOrder) : VariableOrder :=
  o.reorder (((pulled clauses o).mergeSort Pulled.atMost).map Pulled.var) (by
    have h := (List.mergeSort_perm (pulled clauses o) Pulled.atMost).map Pulled.var
    rwa [map_var_pulled] at h)

@[simp] theorem length_step (clauses : List Clause) (o : VariableOrder) :
    (step clauses o).length = o.length := length_reorder _ _ _

/-- The outcome of a relaxation. -/
structure Relaxation where
  order : VariableOrder
  span : Nat
  /-- The total spans, starting with that of the first order. -/
  history : List Nat

/-- Relaxes an order of known span; `rounds` limits the number of rounds. -/
def relaxFrom (clauses : List Clause) (rounds : Option Nat) (o : VariableOrder) (span : Nat) :
    Relaxation :=
  if rounds = some 0 then ⟨o, span, [span]⟩
  else
    let next := step clauses o
    let nextSpan := totalSpan next.positions clauses
    if nextSpan < span then
      let rest := relaxFrom clauses (rounds.map (· - 1)) next nextSpan
      { rest with history := span :: rest.history }
    else ⟨o, span, [span]⟩
termination_by span

def relax (clauses : List Clause) (rounds : Option Nat) (o : VariableOrder) : Relaxation :=
  relaxFrom clauses rounds o (totalSpan o.positions clauses)

def relax? (f : Formula) (rounds : Option Nat) (o : VariableOrder) : Option Relaxation :=
  if o.covers f then some (relax f.clauses rounds o) else none

def shuffled (n : Nat) (g : Random.Generator) : VariableOrder × Random.Generator :=
  ((identity n).reorder (Random.Generator.shuffle (identity n).toList g).1
      (Random.Generator.perm_shuffle _ g),
    (Random.Generator.shuffle (identity n).toList g).2)

/-- A random order of the variables from 1 to `n`, if there is memory for it. -/
def shuffled? (n : Nat) (g : Random.Generator) : Option (VariableOrder × Random.Generator) :=
  if n ≤ Memory.maxVars then some (shuffled n g) else none

@[simp] theorem length_shuffled (n : Nat) (g : Random.Generator) :
    (shuffled n g).1.length = n := by
  rw [shuffled, length_reorder, length_identity]

end VariableOrder
end DiagramCompiler
