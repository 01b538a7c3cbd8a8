import DiagramCompiler.Action
import DiagramCompiler.Native.Table

/-! Engines of decision diagrams.
An engine keeps diagrams in a state of its own and hands out references to them. Every reference
that an operation answers with is given back by a release; operands are not. Variables are numbered
as the engine does it. -/
namespace DiagramCompiler

/-- A reference to a diagram of an engine. -/
structure NodeRef where
  number : Nat
  deriving DecidableEq, Repr

inductive BinaryOp where
  | and
  | or
  | xor
  deriving DecidableEq, Repr

namespace BinaryOp

def text : BinaryOp → String
  | .and => "AND"
  | .or => "OR"
  | .xor => "XOR"

def eval : BinaryOp → Bool → Bool → Bool
  | .and, a, b => a && b
  | .or, a, b => a || b
  | .xor, a, b => a != b

end BinaryOp

/-- How an engine negates. -/
inductive Negation where
  /-- Negation marks an edge and costs nothing. -/
  | complementEdge
  /-- Negation builds a new diagram. -/
  | rebuild
  deriving DecidableEq, Repr

/-- What an engine needs and offers. -/
structure Capabilities where
  /-- Whether variables are numbered from 0 and not from 1. -/
  zeroBased : Bool
  /-- Whether the number of variables is declared before they are used. -/
  declaresVars : Bool
  negation : Negation
  /-- The names of dynamic reorderings and their numbers. -/
  reorderings : List (String × Int)
  deriving DecidableEq, Repr

/-- A diagram as an engine writes it, with its variables from the top level down. -/
structure NativeDump where
  format : Native.Format
  text : String
  order : List Nat
  deriving DecidableEq, Repr

structure Engine (σ : Type) where
  name : String
  stub : String
  capabilities : Capabilities
  zero : Action σ NodeRef
  one : Action σ NodeRef
  var : Nat → Action σ NodeRef
  negatedVar : Nat → Action σ NodeRef
  negate : NodeRef → Action σ NodeRef
  /-- Combines two diagrams; a limit on the time is a hint. -/
  apply : BinaryOp → NodeRef → NodeRef → Option Duration → Action σ NodeRef
  release : NodeRef → σ → σ
  declare : Nat → Action σ Unit
  /-- Places variables, that of the top level first. -/
  setOrder : List Nat → Action σ Unit
  enableReordering : Int → Action σ Unit
  disableReordering : Action σ Unit
  dump : NodeRef → Action σ NativeDump
  /-- The time, counted from any moment on. -/
  now : σ → Duration

def negateConsuming {σ : Type} (diagram : Action σ NodeRef)
    (negate : NodeRef → Action σ NodeRef) (release : NodeRef → σ → σ) : Action σ NodeRef := do
  let positive ← diagram
  (negate positive).ensuring (release positive)

end DiagramCompiler
