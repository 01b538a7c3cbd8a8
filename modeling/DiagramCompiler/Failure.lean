import DiagramCompiler.Dimacs.Fault
import DiagramCompiler.Duration
import DiagramCompiler.Files.Path

/-! Failures.
Everything that ends a step of a compilation. A failure is shown as one text, and a report adds the
causes below it. Only a timeout is recoverable: it costs a clause and not the compilation. -/
namespace DiagramCompiler

/-- A number that is too large to go on with. -/
inductive Overflow where
  /-- A declared number of clauses for which no memory can be reserved. -/
  | clauses (declared : Nat)
  /-- A number of variables for which no memory can be reserved. -/
  | variables (count : Nat)
  /-- A number of relaxations for which no memory can be reserved. -/
  | relaxations (count : Nat)
  /-- A number of nodes for which a graph has no numbers. -/
  | nodes (count : Nat)
  /-- A number of edges for which a graph has no numbers. -/
  | edges (count : Nat)
  /-- A number of variables that a library never counts, however many are made. -/
  | uncounted (count : Nat)
  /-- A variable of an engine that is the last one of its numbering. -/
  | lastVariable (var : Nat)
  /-- The variable 0, which an engine that counts from 0 has no number for. -/
  | noVariable
  deriving DecidableEq, Repr

def Overflow.message : Overflow → String
  | .clauses _ => "capacity overflow"
  | .variables _ => "capacity overflow"
  | .relaxations _ => "capacity overflow"
  | .nodes _ =>
    "assertion failed: <Ix as IndexType>::max().index() == !0 || NodeIndex::end() != node_idx"
  | .edges _ =>
    "assertion failed: <Ix as IndexType>::max().index() == !0 || EdgeIndex::end() != edge_idx"
  | .uncounted _ => "variables are made without end"
  | .lastVariable _ => "attempt to add with overflow"
  | .noVariable => "attempt to subtract with overflow"

inductive Failure where
  | engineUnavailable (library reason hint : String)
  | unsupportedEngine (stub : String)
  | unsupportedOrdering (stub : String)
  | unsupportedReordering (engine algorithm : String)
  | timeout (elapsed bound : Duration)
  | orientationCycle (node : Nat)
  | engine (name message : String)
  /-- A problem file that cannot be read, and the causes below that. -/
  | parse (cause : String) (further : List String)
  | malformedDump (reason : String)
  | invalidOrder (reason : String)
  | file (path : Path) (cause : FileFault)
  | overflow (cause : Overflow)
  deriving DecidableEq, Repr

namespace Failure

def message : Failure → String
  | .engineUnavailable library reason hint =>
    library ++ " is not available (" ++ reason ++ "); " ++ hint
  | .unsupportedEngine stub =>
    "no decision-diagram engine is registered under '" ++ stub ++ "'"
  | .unsupportedOrdering stub => "unsupported variable ordering algorithm '" ++ stub ++ "'"
  | .unsupportedReordering library algorithm =>
    library ++ " does not support dynamic reordering '" ++ algorithm ++ "'"
  | .timeout elapsed bound =>
    "diagram operation took " ++ elapsed.text ++ ", exceeding the watchdog bound of " ++ bound.text
  | .orientationCycle node =>
    "orienting the variable graph produced a cycle through node " ++ Numeral.text node
  | .engine name message => name ++ ": " ++ message
  | .parse cause _ => "could not parse DIMACS input: " ++ cause
  | .malformedDump reason => "malformed diagram dump: " ++ reason
  | .invalidOrder reason => "invalid variable order: " ++ reason
  | .file path cause => "I/O error on '" ++ path.text ++ "': " ++ cause.message
  | .overflow cause => cause.message

def causes : Failure → List String
  | .parse cause further => cause :: further
  | .file _ cause => [cause.message]
  | _ => []

def isRecoverable : Failure → Bool
  | .timeout _ _ => true
  | _ => false

def ofDimacs (fault : Dimacs.Fault) : Failure :=
  match fault with
  | .tooManyClauses declared => .overflow (.clauses declared)
  | _ =>
    match fault.causes with
    | [] => .parse "" []
    | cause :: further => .parse cause further

end Failure

theorem bind_eq_ok_iff {ε α β : Type} {a : Except ε α} {f : α → Except ε β} {b : β} :
    a >>= f = .ok b ↔ ∃ x, a = .ok x ∧ f x = .ok b := by
  cases a with
  | error e => simp [bind, Except.bind]
  | ok x => simp [bind, Except.bind]

end DiagramCompiler
