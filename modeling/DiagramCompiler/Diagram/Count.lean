import Std.Data.HashMap
import DiagramCompiler.Diagram.Eval

/-! Models of a diagram.
A model is a list of values for all variables, that of variable 1 first, under which the diagram
holds. Every count is over all variables of the order: the count of a node is the mean of those of
its edges, and a complemented edge has the models that its node has not. A counter keeps the counts
of nodes, so that none is computed twice. Models are ranked as their values in diagram order are,
false before true. -/
namespace DiagramCompiler
namespace Diagram

def assignmentCount (d : Diagram) : Nat := Nat.pow 2 d.varCount

/-- The counts of the nodes that were counted so far. -/
structure Counter where
  known : Std.HashMap Nat Nat

namespace Counter

def fresh : Counter := ⟨∅⟩

def record (c : Counter) (id count : Nat) : Counter := ⟨c.known.insert id count⟩

end Counter

/-- The number of models of an edge, given that of the node or terminal at its end. -/
def marked (d : Diagram) (complemented : Bool) (count : Nat) : Nat :=
  if complemented then d.assignmentCount - count else count

/-- The number of models of a node or terminal; a missing node has none. -/
def countNode (d : Diagram) (id : Nat) (c : Counter) : Nat × Counter :=
  if id = Edge.falseId then (0, c)
  else if id = Edge.trueId then (d.assignmentCount, c)
  else match c.known[id]? with
    | some count => (count, c)
    | none =>
      match _h : d.node? id with
      | none => (0, c)
      | some n =>
        let low := d.countNode n.low.id c
        let high := d.countNode n.high.id low.2
        let count := (d.marked n.low.complemented low.1 + d.marked n.high.complemented high.1) / 2
        (count, high.2.record id count)
termination_by d.depth ⟨false, id⟩
decreasing_by
  · exact d.depth_follow_lt (e := ⟨false, id⟩) _h false
  · exact d.depth_follow_lt (e := ⟨false, id⟩) _h true

def countEdge (d : Diagram) (e : Edge) (c : Counter) : Nat × Counter :=
  let found := d.countNode e.id c
  (d.marked e.complemented found.1, found.2)

/-- The number of models of an edge, found by a fresh counter. -/
def countAt (d : Diagram) (e : Edge) : Nat := (d.countEdge e .fresh).1

def count (d : Diagram) : Nat := d.countAt d.root

/-- The edges that follow an edge for the values false and true of the variable at a level. -/
def branches (d : Diagram) (e : Edge) (level : Nat) : Edge × Edge :=
  match d.node? e.id with
  | some n =>
    if levelOf d.order n = level then (n.low.flipIf e.complemented, n.high.flipIf e.complemented)
    else (e, e)
  | none => (e, e)

/-- The values of the variables from a level on that make up the model of some rank below an edge,
in diagram order. -/
def choices (d : Diagram) :
    List Nat → Nat → Edge → Nat → Counter → List (Nat × Bool) × Counter
  | [], _, _, _, c => ([], c)
  | var :: vars, level, e, rank, c =>
    let branches := d.branches e level
    let found := d.countEdge branches.1 c
    let lowModels := found.1 / Nat.pow 2 (level + 1)
    if rank < lowModels then
      let rest := choices d vars (level + 1) branches.1 rank found.2
      ((var, false) :: rest.1, rest.2)
    else
      let rest := choices d vars (level + 1) branches.2 (rank - lowModels) found.2
      ((var, true) :: rest.1, rest.2)

/-- The values of the variables from 1 to `n`; a variable without a choice is false. -/
def valuesOf (n : Nat) (choices : List (Nat × Bool)) : List Bool :=
  (choices.foldl (fun values c => values.setIfInBounds (c.1 - 1) c.2)
    (Array.replicate n false)).toList

def unrank (d : Diagram) (rank : Nat) (c : Counter) : Option (List Bool) × Counter :=
  let all := d.countEdge d.root c
  if rank < all.1 then
    let chosen := d.choices d.order.toList 0 d.root rank all.2
    (some (valuesOf d.varCount chosen.1), chosen.2)
  else (none, all.2)

def unrankAll (d : Diagram) : List Nat → Counter → List (Option (List Bool)) × Counter
  | [], c => ([], c)
  | rank :: ranks, c =>
    let first := d.unrank rank c
    let rest := unrankAll d ranks first.2
    (first.1 :: rest.1, rest.2)

def model? (d : Diagram) (rank : Nat) : Option (List Bool) := (d.unrank rank .fresh).1

def models (d : Diagram) (ranks : List Nat) : List (Option (List Bool)) :=
  (d.unrankAll ranks .fresh).1

end Diagram
end DiagramCompiler
