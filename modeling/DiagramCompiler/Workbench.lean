import DiagramCompiler.Manager

/-! Workbenches.
A workbench holds diagrams of one manager in named slots, each with the reference that keeps it. A
command takes diagrams from slots and puts its result into one; a diagram that leaves a slot without
going elsewhere is released. A command that names an empty slot does nothing. -/
namespace DiagramCompiler

abbrev Slots := Dictionary String NodeRef

inductive Command where
  | info
  | declare (count : Nat)
  /-- Places the variables of a list, which must be an order. -/
  | order (vars : List Nat)
  | reorder (stub : String)
  | drop (slot : String)
  | zero (into : String)
  | one (into : String)
  | literal (l : Literal) (into : String)
  | negate (slot into : String)
  /-- Combines diagrams and gives them up. -/
  | consume (op : BinaryOp) (lhs rhs into : String)
  /-- Combines diagrams and keeps them. -/
  | retain (op : BinaryOp) (lhs rhs into : String)
  | dump (slot : String)
  deriving DecidableEq, Repr

inductive Reply where
  | done
  | info
  | node (node : NodeRef)
  | dump (dump : Dump)
  | emptySlot
  | failed (failure : Failure)
  deriving DecidableEq

namespace Workbench

variable {σ : Type}

def store (m : Manager σ) (into : String) (node : NodeRef) (slots : Slots) (s : σ) : Slots × σ :=
  match slots.get? into with
  | none => (slots.insert into node, s)
  | some old => (slots.insert into node, m.release old s)

def storing (m : Manager σ) (into : String) (a : Action σ NodeRef) (slots : Slots) (s : σ) :
    Reply × Slots × σ :=
  match a.run s with
  | (.ok node, s) => (.node node, store m into node slots s)
  | (.error failure, s) => (.failed failure, slots, s)

def acting (a : Action σ Unit) (slots : Slots) (s : σ) : Reply × Slots × σ :=
  match a.run s with
  | (.ok _, s) => (.done, slots, s)
  | (.error failure, s) => (.failed failure, slots, s)

def run (m : Manager σ) (c : Command) (slots : Slots) (s : σ) : Reply × Slots × σ :=
  match c with
  | .info => (.info, slots, s)
  | .declare count => acting (m.declareVars count) slots s
  | .order vars =>
    match VariableOrder.ofList? vars with
    | .ok order => acting (m.setOrder order) slots s
    | .error fault => (.failed (.invalidOrder fault.message), slots, s)
  | .reorder stub => acting (m.setReordering stub) slots s
  | .drop slot =>
    match slots.get? slot with
    | some node => (.done, slots.erase slot, m.release node s)
    | none => (.emptySlot, slots, s)
  | .zero into => storing m into m.zero slots s
  | .one into => storing m into m.one slots s
  | .literal l into => storing m into (m.literal l) slots s
  | .negate slot into =>
    match slots.get? slot with
    | some node => storing m into (m.negate node) slots s
    | none => (.emptySlot, slots, s)
  | .consume op lhs rhs into =>
    match slots.get? lhs, (slots.erase lhs).get? rhs with
    | some a, some b => storing m into (m.apply op a b) ((slots.erase lhs).erase rhs) s
    | _, _ => (.emptySlot, slots, s)
  | .retain op lhs rhs into =>
    match slots.get? lhs, slots.get? rhs with
    | some a, some b => storing m into (m.applyRetaining op a b) slots s
    | _, _ => (.emptySlot, slots, s)
  | .dump slot =>
    match slots.get? slot with
    | some node =>
      match (m.dump node).run s with
      | (.ok dump, s) => (.dump dump, slots, s)
      | (.error failure, s) => (.failed failure, slots, s)
    | none => (.emptySlot, slots, s)

def clear (m : Manager σ) (slots : Slots) (s : σ) : σ :=
  slots.entries.foldl (fun s e => m.release e.2 s) s

end Workbench
end DiagramCompiler
