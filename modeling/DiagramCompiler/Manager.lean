import DiagramCompiler.Dump
import DiagramCompiler.Engine
import DiagramCompiler.Literal
import DiagramCompiler.Native.Numbering
import DiagramCompiler.Options

/-! Managers of diagrams.
A manager runs an engine for formulas: it numbers variables as the engine wants them, finds dynamic
reorderings by name, bounds the time of binary operations, and releases what an operation does not
pass on. -/
namespace DiagramCompiler

structure Manager (σ : Type) where
  engine : Engine σ
  /-- Bound on the time of a binary operation. -/
  bound : Option Duration

namespace Manager

variable {σ : Type}

def name (m : Manager σ) : String := m.engine.name

def stub (m : Manager σ) : String := m.engine.stub

def capabilities (m : Manager σ) : Capabilities := m.engine.capabilities

def engineVar (m : Manager σ) (var : Nat) : Nat :=
  if m.capabilities.zeroBased then var - 1 else var

/-- The variable of an engine's number. Numbers are words of 32 bits, so that nothing comes after
the last one. -/
def formulaVar (m : Manager σ) (var : Nat) : Except Failure Nat :=
  if m.capabilities.zeroBased then
    if var + 1 < UInt32.size then .ok (var + 1) else .error (.overflow (.lastVariable var))
  else .ok var

def declareVars (m : Manager σ) (count : Nat) : Action σ Unit :=
  if m.capabilities.declaresVars ∧ 0 < count then m.engine.declare count else pure ()

def setOrder (m : Manager σ) (order : VariableOrder) : Action σ Unit :=
  m.engine.setOrder (order.toList.map m.engineVar)

def setReordering (m : Manager σ) (stub : String) : Action σ Unit :=
  if isNoReordering stub then m.engine.disableReordering
  else
    match m.capabilities.reorderings.find? fun r => Text.sameLetters r.1.toList stub.toList with
    | some (_, id) => m.engine.enableReordering id
    | none => .fail (.unsupportedReordering m.name stub)

def zero (m : Manager σ) : Action σ NodeRef := m.engine.zero

def one (m : Manager σ) : Action σ NodeRef := m.engine.one

def release (m : Manager σ) (node : NodeRef) : σ → σ := m.engine.release node

def negate (m : Manager σ) (node : NodeRef) : Action σ NodeRef := m.engine.negate node

/-- The diagram of a literal. Variables are numbered from 1, so that an engine that counts from 0
has nothing for the literal zero. -/
def literal (m : Manager σ) (l : Literal) : Action σ NodeRef :=
  let var := m.engineVar l.var
  if m.capabilities.zeroBased ∧ l.var = 0 then .fail (.overflow .noVariable)
  else if !l.isNegated then m.engine.var var
  else
    match m.capabilities.negation with
    | .complementEdge => negateConsuming (m.engine.var var) m.negate m.release
    | .rebuild => m.engine.negatedVar var

def applyRetaining (m : Manager σ) (op : BinaryOp) (lhs rhs : NodeRef) : Action σ NodeRef := do
  let started ← .reading m.engine.now
  let result ← m.engine.apply op lhs rhs m.bound
  let ended ← .reading m.engine.now
  match m.bound with
  | none => return result
  | some bound =>
    if bound < ended - started then
      (Action.fail (.timeout (ended - started) bound)).ensuring (m.release result)
    else return result

def apply (m : Manager σ) (op : BinaryOp) (lhs rhs : NodeRef) : Action σ NodeRef :=
  ((m.applyRetaining op lhs rhs).ensuring (m.release rhs)).ensuring (m.release lhs)

/-- A node of the engine with its variable as a formula numbers it, counted from 0. -/
def formulaNode (m : Manager σ) (n : Node) : Except Failure Node :=
  (m.formulaVar n.var).map fun var => { n with var := var - 1 }

def formulaOrder (m : Manager σ) (vars : List Nat) : Except Failure VariableOrder := do
  match VariableOrder.ofList? (← vars.mapM m.formulaVar) with
  | .error fault => .error (.invalidOrder fault.message)
  | .ok order => return order

def dumpOf (m : Manager σ) (native : NativeDump) : Except Failure Dump :=
  match native.format.translate native.text with
  | .error fault => .error (.malformedDump (native.format.message fault))
  | .ok numbered => do
    let nodes ← numbered.nodes.mapM m.formulaNode
    let order ← m.formulaOrder native.order
    match Diagram.ofNodes order numbered.root nodes with
    | .error fault => .error (.malformedDump fault.message)
    | .ok diagram => return .ofDiagram m.name m.stub diagram

def dump (m : Manager σ) (node : NodeRef) : Action σ Dump := do
  let native ← m.engine.dump node
  .ofExcept (m.dumpOf native)

def handleText (m : Manager σ) (node : NodeRef) : String :=
  "Diagram \x7b engine: \"" ++ m.stub ++ "\", node: NodeRef(" ++ Numeral.text node.number ++
    ") \x7d"

end Manager
end DiagramCompiler
