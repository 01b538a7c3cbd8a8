import Std.Data.HashMap
import DiagramCompiler.Engine

/-! A table of shared nodes.
Diagrams are numbers: 0 and 1 are the terminals, and every further number is a node with a level and
two lower diagrams. Nodes are numbered from 2 in the order in which they are made, and no two are
alike, so that equal functions have equal numbers. Operations go through the low part before the
high part. -/
namespace DiagramCompiler
namespace Reference

/-- A node: its level, counted from the top, and the diagrams for the values of its variable. -/
structure Branch where
  level : Nat
  low : Nat
  high : Nat
  deriving DecidableEq, Repr, Hashable

structure Table where
  /-- The nodes, that with the number 2 first. -/
  nodes : Array Branch
  /-- The number of every node. -/
  numbers : Std.HashMap Branch Nat
  /-- The variable at every level. -/
  order : List Nat

namespace Table

def empty : Table := ⟨#[], ∅, []⟩

def isTerminal (id : Nat) : Bool := id < 2

def node? (t : Table) (id : Nat) : Option Branch := if isTerminal id then none else t.nodes[id - 2]?

/-- The level of a diagram; terminals are below all variables. -/
def level (t : Table) (id : Nat) : Nat :=
  match t.node? id with
  | some n => n.level
  | none => t.order.length

/-- The diagram with a node on top, unless its two parts are the same. -/
def make (t : Table) (level low high : Nat) : Nat × Table :=
  if low = high then (low, t)
  else
    match t.numbers[(⟨level, low, high⟩ : Branch)]? with
    | some id => (id, t)
    | none =>
      let id := t.nodes.size + 2
      (id, { t with
        nodes := t.nodes.push ⟨level, low, high⟩
        numbers := t.numbers.insert ⟨level, low, high⟩ id })

def cofactors (t : Table) (id level : Nat) : Nat × Nat :=
  match t.node? id with
  | some n => if n.level = level then (n.low, n.high) else (id, id)
  | none => (id, id)

/-- A table with the results known within one operation. -/
structure Work (κ : Type) [BEq κ] [Hashable κ] where
  table : Table
  known : Std.HashMap κ Nat

def terminal (value : Bool) : Nat := if value then 1 else 0

/-- Combines two diagrams; the fuel is more than the number of levels below them. -/
def combine (op : BinaryOp) : Nat → Work (Nat × Nat) → Nat → Nat → Nat × Work (Nat × Nat)
  | fuel, w, a, b =>
    if isTerminal a && isTerminal b then (terminal (op.eval (a = 1) (b = 1)), w)
    else
      match w.known[(a, b)]? with
      | some id => (id, w)
      | none =>
        match fuel with
        | 0 => (0, w)
        | fuel + 1 =>
          let level := min (w.table.level a) (w.table.level b)
          let (aLow, aHigh) := w.table.cofactors a level
          let (bLow, bHigh) := w.table.cofactors b level
          let (low, w) := combine op fuel w aLow bLow
          let (high, w) := combine op fuel w aHigh bHigh
          let (id, table) := w.table.make level low high
          (id, ⟨table, w.known.insert (a, b) id⟩)

def apply (t : Table) (op : BinaryOp) (a b : Nat) : Nat × Table :=
  let (id, w) := combine op (t.order.length + 1) ⟨t, ∅⟩ a b
  (id, w.table)

/-- Negates a diagram; the fuel is more than the number of levels below it. -/
def complement : Nat → Work Nat → Nat → Nat × Work Nat
  | fuel, w, id =>
    if isTerminal id then (1 - id, w)
    else
      match w.known[id]? with
      | some negated => (negated, w)
      | none =>
        match fuel, w.table.node? id with
        | fuel + 1, some n =>
          let (low, w) := complement fuel w n.low
          let (high, w) := complement fuel w n.high
          let (negated, table) := w.table.make n.level low high
          (negated, ⟨table, w.known.insert id negated⟩)
        | _, _ => (id, w)

def negate (t : Table) (id : Nat) : Nat × Table :=
  let (negated, w) := complement (t.order.length + 1) ⟨t, ∅⟩ id
  (negated, w.table)

/-- Adds the nodes below a diagram that were not met before, a node after its parts; the last one
met comes first. -/
def gather (t : Table) : Nat → List (Nat × Branch) → Nat → List (Nat × Branch)
  | 0, met, _ => met
  | fuel + 1, met, id =>
    match t.node? id with
    | none => met
    | some n =>
      if met.any (·.1 = id) then met
      else (id, n) :: t.gather fuel (t.gather fuel met n.low) n.high

/-- The nodes of a diagram with their numbers, a node after its parts. -/
def postOrder (t : Table) (id : Nat) : List (Nat × Branch) :=
  (t.gather (t.order.length + 1) [] id).reverse

def varAt (t : Table) (level : Nat) : Nat := t.order.getD level 0

def nodeLine (t : Table) (n : Nat × Branch) : String :=
  Text.joined " " ([n.1, t.varAt n.2.level, n.2.low, n.2.high].map Numeral.text)

/-- The lines of a written diagram: counts, the level of every variable, and the nodes; a terminal
has only one line. -/
def lines (t : Table) (id : Nat) : List String :=
  if isTerminal id then [Text.joined " " ["0", "0", Numeral.text id]]
  else
    let nodes := t.postOrder id
    let count := t.order.length
    Text.joined " " [Numeral.text nodes.length, Numeral.text count] ::
      Text.joined " " ((List.range count).map fun var => Numeral.text (t.order.idxOf var)) ::
      nodes.map t.nodeLine

def text (t : Table) (id : Nat) : String :=
  String.ofList ((t.lines id).flatMap fun line => line.toList ++ ['\n'])

end Table
end Reference
end DiagramCompiler
