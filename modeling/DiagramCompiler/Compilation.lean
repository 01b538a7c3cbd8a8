import DiagramCompiler.Formula
import DiagramCompiler.Manager

/-! Compilation of formulas.
The clauses are conjoined one after the other onto the diagram of truth. A clause is the disjunction
of its literals, built up from falsehood. When an operation on a clause times out, the clause is
skipped and the diagram from before it is kept; any other failure ends the compilation. -/
namespace DiagramCompiler

/-- A compiled formula. -/
structure Compilation where
  diagram : NodeRef
  metadata : Metadata
  /-- The number of clauses that were given up; the diagram does not constrain them. -/
  skipped : Nat

namespace Compilation

def runtimeKey : String := "runtime-compilation"

def skippedKey : String := "skipped-clauses"

def clausesKey : String := "clause-count"

variable {σ : Type}

def disjoin (m : Manager σ) : NodeRef → List Literal → Action σ NodeRef
  | disjunction, [] => pure disjunction
  | disjunction, l :: ls => do
    match ← (m.literal l).attempt with
    | .error failure => (Action.fail failure).ensuring (m.release disjunction)
    | .ok literal =>
      let next ← m.apply .or disjunction literal
      disjoin m next ls

def clauseDiagram (m : Manager σ) (c : Clause) : Action σ NodeRef := do
  let disjunction ← m.zero
  disjoin m disjunction c.literals

/-- The conjunction of a diagram, which is kept, with a clause. -/
def conjoinClause (m : Manager σ) (accumulator : NodeRef) (c : Clause) : Action σ NodeRef := do
  let clause ← clauseDiagram m c
  (m.applyRetaining .and accumulator clause).ensuring (m.release clause)

/-- Conjoins clauses onto a diagram, which is released, and counts the clauses given up. -/
def conjoin (m : Manager σ) : NodeRef → Nat → List Clause → Action σ (NodeRef × Nat)
  | accumulator, skipped, [] => pure (accumulator, skipped)
  | accumulator, skipped, c :: cs => do
    match ← (conjoinClause m accumulator c).attempt with
    | .ok next =>
      Action.change (m.release accumulator)
      conjoin m next skipped cs
    | .error failure =>
      if failure.isRecoverable then conjoin m accumulator (skipped + 1) cs
      else (Action.fail failure).ensuring (m.release accumulator)

def prepare (m : Manager σ) (f : Formula) (order : Option VariableOrder) : Action σ Unit := do
  m.declareVars f.varCount
  match order with
  | none => return
  | some order =>
    if order.length ≠ f.varCount then
      .fail (.invalidOrder ("order covers " ++ Numeral.text order.length ++
        " variables, formula has " ++ Numeral.text f.varCount))
    else if order.isEmpty then return
    else m.setOrder order

/-- Compiles a formula, in a given order or in that of the engine. -/
def compile (m : Manager σ) (f : Formula) (order : Option VariableOrder) :
    Action σ Compilation := do
  prepare m f order
  let started ← .reading m.engine.now
  let accumulator ← m.one
  let (diagram, skipped) ← conjoin m accumulator 0 f.clauses
  let ended ← .reading m.engine.now
  return {
    diagram, skipped
    metadata := (Dictionary.empty : Metadata).insertAll
      [(runtimeKey, (ended - started).secondsText), (skippedKey, Numeral.text skipped),
        (clausesKey, Numeral.text f.clauses.length)] }

end Compilation
end DiagramCompiler
