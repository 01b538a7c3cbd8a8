import DiagramCompiler.Diagram.Count
import DiagramCompiler.Literal
import DiagramCompiler.Random.Draw
import DiagramCompiler.Text.Table

/-! Random models.
Models are drawn uniformly and with replacement by drawing their ranks, and are kept in ascending
order. They are shown as a table with a column for every variable. -/
namespace DiagramCompiler

structure Samples where
  models : List (List Bool)
  labels : List String
  deriving DecidableEq, Repr

namespace Samples

/-- Compares models by their values from variable 1 on, false before true. -/
def atMost : List Bool → List Bool → Bool
  | [], _ => true
  | _ :: _, [] => false
  | a :: as, b :: bs => if a = b then atMost as bs else b

def defaultLabel (var : Nat) : String := "x" ++ Numeral.text var

def ofModels (varCount : Nat) (models : List (List Bool)) : Samples :=
  ⟨models.mergeSort atMost, (List.range' 1 varCount).map defaultLabel⟩

def relabel (s : Samples) (label : Nat → String) : Samples :=
  { s with labels := (List.range' 1 s.labels.length).map label }

def literals (model : List Bool) : List Literal :=
  model.zipIdx.map fun value => Literal.ofVar (value.2 + 1) value.1

def bit (value : Bool) : Char := if value then '1' else '0'

def text (s : Samples) : String :=
  String.ofList (Text.table (s.labels.map String.toList)
    (s.models.map fun model => model.map fun value => [bit value]))

end Samples

namespace Diagram

def drawRanks (total : Nat) (htotal : 0 < total) :
    Nat → Random.Generator → List Nat × Random.Generator
  | 0, g => ([], g)
  | k + 1, g =>
    let draw := g.belowWide total htotal
    let rest := drawRanks total htotal k draw.2
    (draw.1 :: rest.1, rest.2)

def sample (d : Diagram) (k : Nat) (g : Random.Generator) : Samples :=
  let total := d.countEdge d.root .fresh
  if h : total.1 = 0 then .ofModels d.varCount []
  else
    let drawn := d.unrankAll (drawRanks total.1 (Nat.pos_of_ne_zero h) k g).1 total.2
    .ofModels d.varCount (drawn.1.filterMap id)

end Diagram
end DiagramCompiler
