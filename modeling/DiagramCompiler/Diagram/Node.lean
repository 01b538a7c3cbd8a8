import DiagramCompiler.Text.Blank
import DiagramCompiler.Text.Line
import DiagramCompiler.Text.Numeral

/-! Edges and nodes of written diagrams.
An edge leads to a node or a terminal and may be complemented; it is written as `0` or `1`, a colon
and the number it leads to. The numbers 0 and 1 are the terminals false and true. A node is written
as its number, its variable, counted from 0, and its low and high edge. -/
namespace DiagramCompiler

structure Edge where
  complemented : Bool
  id : Nat
  deriving DecidableEq, Repr

namespace Edge

def falseId : Nat := 0

def trueId : Nat := 1

def firstNodeId : Nat := 2

def isTerminal (e : Edge) : Bool := e.id = falseId || e.id = trueId

theorem isTerminal_iff {e : Edge} : e.isTerminal = true ↔ e.id < firstNodeId := by
  simp only [isTerminal, Bool.or_eq_true, decide_eq_true_eq]
  show e.id = 0 ∨ e.id = 1 ↔ e.id < 2
  omega

def flipIf (e : Edge) (flip : Bool) : Edge := ⟨e.complemented != flip, e.id⟩

def text (e : Edge) : String := (if e.complemented then "1:" else "0:") ++ Numeral.text e.id

end Edge

/-- Why a line or a field is no part of a diagram. -/
inductive NodeFault where
  | edge (text : String)
  | fields (line : String)
  | id (field : String)
  | var (field : String)
  deriving DecidableEq, Repr

def NodeFault.message : NodeFault → String
  | .edge text => "'" ++ text ++ "' is not an edge"
  | .fields line => "node line '" ++ line ++ "' must have 4 fields"
  | .id field => "'" ++ field ++ "' is not a node id"
  | .var field => "'" ++ field ++ "' is not a variable"

def Edge.parse (cs : List Char) : Except NodeFault Edge :=
  match Text.splitFirst ':' cs with
  | none => .error (.edge (String.ofList cs))
  | some (mark, id) =>
    if mark = ['0'] ∨ mark = ['1'] then
      match Numeral.word64 id with
      | .ok id => .ok ⟨mark = ['1'], id⟩
      | .error _ => .error (.edge (String.ofList cs))
    else .error (.edge (String.ofList cs))

structure Node where
  id : Nat
  /-- The variable tested, counted from 0. -/
  var : Nat
  low : Edge
  high : Edge
  deriving DecidableEq, Repr

namespace Node

def text (n : Node) : String :=
  Text.joined " " [Numeral.text n.id, Numeral.text n.var, n.low.text, n.high.text]

def parse (line : List Char) : Except NodeFault Node :=
  match Text.words line with
  | [id, var, low, high] =>
    match Numeral.word64 id with
    | .error _ => .error (.id (String.ofList id))
    | .ok i =>
      match Numeral.word32 var with
      | .error _ => .error (.var (String.ofList var))
      | .ok v => do
        let low ← Edge.parse low
        let high ← Edge.parse high
        .ok ⟨i, v, low, high⟩
  | _ => .error (.fields (String.ofList line))

end Node
end DiagramCompiler
