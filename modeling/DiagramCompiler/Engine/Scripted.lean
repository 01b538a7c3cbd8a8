import DiagramCompiler.Engine
import DiagramCompiler.Dictionary

/-! Scripted engines.
A scripted engine builds no diagrams. It hands out the numbers 1, 2, 3, ..., writes down every call,
and fails where its script says so. A call that fails and would have handed out a number writes no
line of its own. -/
namespace DiagramCompiler
namespace Scripted

/-- How a scripted call fails. -/
inductive Outcome where
  | timeout
  | message (text : String)
  deriving DecidableEq, Repr

structure Script where
  capabilities : Capabilities
  /-- Whether negated variables are made by a call of their own. -/
  ownNegatedVar : Bool
  /-- What dumps answer with. -/
  native : Option NativeDump
  /-- The calls that fail. -/
  failing : Dictionary String Outcome
  /-- How long every binary operation takes at least. -/
  delay : Duration

structure State where
  /-- The calls written down, the last first. -/
  calls : List String
  /-- The last number handed out. -/
  last : Nat
  clock : Duration

namespace State

def fresh : State := ⟨[], 0, .zero⟩

def write (s : State) (line : String) : State := { s with calls := line :: s.calls }

end State

def name : String := "mock engine"

def stub : String := "mock"

/-- Fails if the script wants a call to, and otherwise acts. -/
def guarded {α : Type} (script : Script) (call : String) (act : Action State α) :
    Action State α := fun s =>
  match script.failing.get? call with
  | none => act s
  | some .timeout => (.error (.timeout .zero .zero), s)
  | some (.message text) => (.error (.engine name text), s.write (call ++ " fails"))

def handOut (line : String) : Action State NodeRef := fun s =>
  let number := s.last + 1
  (.ok ⟨number⟩,
    { s with calls := (line ++ " = " ++ Numeral.text number) :: s.calls, last := number })

def making (script : Script) (call line : String) : Action State NodeRef :=
  guarded script call (handOut line)

def doing (script : Script) (call line : String) : Action State Unit := do
  Action.change fun s => s.write line
  guarded script call (pure ())

def node (n : NodeRef) : String := Numeral.text n.number

def negate (script : Script) (n : NodeRef) : Action State NodeRef :=
  making script "not" ("not " ++ node n)

def var (script : Script) (v : Nat) : Action State NodeRef :=
  making script "ithvar" ("ithvar " ++ Numeral.text v)

def release (n : NodeRef) (s : State) : State := s.write ("release " ++ node n)

def limitText : Option Duration → String
  | some limit => Numeral.text limit.milliseconds
  | none => "none"

def apply (script : Script) (op : BinaryOp) (a b : NodeRef) (limit : Option Duration) :
    Action State NodeRef := do
  Action.change fun s => { s with clock := s.clock + script.delay + ⟨1⟩ }
  making script "apply"
    (Text.joined " " [op.text, node a, node b, "limit", limitText limit])

def dump (script : Script) (n : NodeRef) : Action State NativeDump := do
  doing script "dump" ("dump " ++ node n)
  match script.native with
  | some native => return native
  | none => .fail (.engine name "no dump")

def engine (script : Script) : Engine State where
  name := name
  stub := stub
  capabilities := script.capabilities
  zero := making script "zero" "zero"
  one := making script "one" "one"
  var := var script
  negatedVar v :=
    if script.ownNegatedVar then making script "nithvar" ("nithvar " ++ Numeral.text v)
    else negateConsuming (var script v) (negate script) release
  negate := negate script
  apply := apply script
  release := release
  declare count := doing script "set_variable_count" ("set_variable_count " ++ Numeral.text count)
  setOrder order := doing script "set_order"
    ("set_order [" ++ Text.joined ", " (order.map Numeral.text) ++ "]")
  enableReordering id := doing script "enable_dynamic_reordering"
    ("enable_dynamic_reordering " ++ Numeral.intText id)
  disableReordering := doing script "disable_dynamic_reordering" "disable_dynamic_reordering"
  dump := dump script
  now s := s.clock

end Scripted
end DiagramCompiler
