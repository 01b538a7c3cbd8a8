import DiagramCompiler.Engine.Reference.Table
import DiagramCompiler.Memory

/-! The reference engine.
An engine that keeps its diagrams in a table and needs no library. It counts the references that it
has handed out and not got back. For rehearsals, a binary operation can be made to time out, and
all of them can be slowed down. -/
namespace DiagramCompiler
namespace Reference

structure State where
  table : Table
  /-- The references handed out and not released. -/
  live : Nat
  /-- How long every binary operation waits first. -/
  delay : Duration
  /-- The number of binary operations so far. -/
  applications : Nat
  /-- The binary operation that times out, counted from 1. -/
  failing : Option Nat
  reordering : Bool
  clock : Duration

namespace State

def fresh (failing : Option Nat) (delay : Duration) : State :=
  ⟨.empty, 0, delay, 0, failing, false, .zero⟩

def release (s : State) : State := { s with live := s.live - 1 }

end State

def name : String := "reference ROBDD"

def stub : String := "reference"

def shortName : String := "reference"

def handOut (build : Table → Nat × Table) : Action State NodeRef := fun s =>
  let (id, table) := build s.table
  (.ok ⟨id⟩, { s with table := table, live := s.live + 1 })

def withVar (var : Nat) (a : Nat → Action State NodeRef) : Action State NodeRef := fun s =>
  if var < s.table.order.length then a (s.table.order.idxOf var) s
  else
    (.error (.engine shortName ("variable " ++ Numeral.text var ++ " was never declared")), s)

def var (v : Nat) : Action State NodeRef :=
  withVar v fun level => handOut fun t => t.make level 0 1

def negate (node : NodeRef) : Action State NodeRef := handOut fun t => t.negate node.number

def apply (op : BinaryOp) (a b : NodeRef) (limit : Option Duration) : Action State NodeRef :=
    fun s =>
  let s := { s with applications := s.applications + 1 }
  if s.failing = some s.applications then
    let limit := limit.getD .zero
    (.error (.timeout limit limit), s)
  else
    let s := { s with clock := s.clock + s.delay + ⟨1⟩ }
    handOut (fun t => t.apply op a.number b.number) s

/-- Adds variables below those declared before, as far as there is memory for them. Their numbers
are words of 32 bits, of which the last one cannot be passed. -/
def declare (count : Nat) : Action State Unit :=
  if Memory.maxVars < count then .fail (.overflow (.variables count))
  else if UInt32.size ≤ count then .fail (.overflow (.lastVariable (UInt32.size - 1)))
  else
    .change fun s =>
      let declared := s.table.order.length
      { s with table := { s.table with
          order := s.table.order ++ List.range' declared (count - declared) } }

def setOrder (order : List Nat) : Action State Unit := fun s =>
  if s.table.nodes.size ≠ 0 then
    (.error (.engine shortName "the order must be set before any node is built"), s)
  else if order.length ≠ s.table.order.length then
    (.error (.invalidOrder ("order has " ++ Numeral.text order.length ++ " variables but " ++
      Numeral.text s.table.order.length ++ " are declared")), s)
  else (.ok (), { s with table := { s.table with order := order } })

def dump (node : NodeRef) : Action State NativeDump :=
  .reading fun s => ⟨.buddy, s.table.text node.number, s.table.order⟩

def engine : Engine State where
  name := name
  stub := stub
  capabilities :=
    { zeroBased := true
      declaresVars := true
      negation := .rebuild
      reorderings := [("lib-default", 1)] }
  zero := handOut fun t => (0, t)
  one := handOut fun t => (1, t)
  var := var
  negatedVar v := negateConsuming (var v) negate fun _ => State.release
  negate := negate
  apply := apply
  release _ := State.release
  declare := declare
  setOrder := setOrder
  enableReordering _ := .change fun s => { s with reordering := true }
  disableReordering := .change fun s => { s with reordering := false }
  dump := dump
  now s := s.clock

end Reference
end DiagramCompiler
