import DiagramCompiler.Interaction
import DiagramCompiler.VariableOrder.Triage

/-! Finding an order for a formula.
The heuristic of the options orders the variables, starting from a given order where it can make use
of one, and then the clauses. What is not decided by the options is taken from outside: how many
rounds fit into a budget of time, how long it takes, and a seed where the options name none. -/
namespace DiagramCompiler

/-- What a search for an order takes from outside. -/
structure Conditions where
  /-- The rounds that a budget allows a relaxation, which is numbered within its search by a round
  of triage and a place in the population; none stands for no limit. -/
  rounds : Duration → Nat → Nat → Option Nat
  /-- The seed where the options name none. -/
  entropy : Nat
  /-- How long finding an order takes. -/
  searchTime : Duration

def Conditions.unhurried (entropy : Nat) : Conditions where
  rounds budget _ _ := if budget = .zero then some 0 else none
  entropy := entropy
  searchTime := .zero

namespace Options

/-- Under which name orders of the heuristic are kept; clique graphs have the plain one. -/
def stage (o : Options) : String :=
  match o.heuristic, o.graph with
  | .degree, .star => o.heuristic.stub ++ "-" ++ o.graph.stub
  | _, _ => o.heuristic.stub

def sortsClauses (o : Options) : Bool :=
  match o.heuristic with
  | .off => false
  | .force => true
  | .forceTriage => true
  | .degree => o.degreeSortsClauses

/-- An order to start from, which must have the variables of the formula. -/
def start? (f : Formula) : Option VariableOrder → Except Failure (Option VariableOrder)
  | none => .ok none
  | some order =>
    if order.length = f.varCount then .ok (some order)
    else .error (.invalidOrder ("seed order has " ++ Numeral.text order.length ++
      " variables but the formula has " ++ Numeral.text f.varCount))

/-- Fails unless there is memory for an order of the variables of a formula. -/
def checkVars (f : Formula) : Except Failure Unit :=
  if f.varCount ≤ Memory.maxVars then .ok () else .error (.overflow (.variables f.varCount))

/-- Fails unless there is memory for the population of a triage. -/
def checkSeeds (o : Options) : Except Failure Unit :=
  if o.triageSeeds ≤ Memory.maxRelaxations then .ok ()
  else .error (.overflow (.relaxations o.triageSeeds))

def randomOrder (f : Formula) (seed : Nat) : VariableOrder :=
  (VariableOrder.shuffled f.varCount (.ofSeed seed)).1

def forceOrder (o : Options) (conditions : Conditions) (f : Formula)
    (start : Option VariableOrder) : VariableOrder :=
  let start := start.getD (randomOrder f (o.seed.getD conditions.entropy))
  (VariableOrder.relax f.clauses (conditions.rounds o.forceBudget 0 0) start).order

/-- Triage of relaxations from consecutive seeds; a given order takes the first place. -/
def triageOrder (o : Options) (conditions : Conditions) (f : Formula)
    (start : Option VariableOrder) : VariableOrder :=
  let base := o.seed.getD conditions.entropy
  let seeded (index : Nat) : VariableOrder :=
    match index, start with
    | 0, some order => order
    | _, _ => randomOrder f ((base + index) % UInt64.size)
  let relax (budget : Duration) (round index : Nat) (order : VariableOrder) :=
    VariableOrder.relax f.clauses (conditions.rounds budget round index) order
  let population := (List.range (max o.triageSeeds 1)).map fun index =>
    relax o.triageSeedBudget 0 index (seeded index)
  let survivors := VariableOrder.triage (relax o.triageRefineBudget) 0 population
  match VariableOrder.best? survivors with
  | some best => best.order
  | none => .identity f.varCount

def findOrder (o : Options) (conditions : Conditions) (f : Formula)
    (start : Option VariableOrder) : Except Failure VariableOrder :=
  match o.heuristic with
  | .off => do
    checkVars f
    return .identity f.varCount
  | .force => do
    let start ← start? f start
    checkVars f
    return o.forceOrder conditions f start
  | .forceTriage => do
    let start ← start? f start
    o.checkSeeds
    checkVars f
    return o.triageOrder conditions f start
  | .degree => Interaction.order o.graph f

def sortClauses (o : Options) (f : Formula) (order : VariableOrder) : Except Failure Formula :=
  match o.heuristic with
  | .off => .ok f
  | .force => .ok (order.sortClauses f)
  | .forceTriage => .ok (order.sortClauses f)
  | .degree => if o.degreeSortsClauses then Interaction.sortClauses f else .ok f

end Options
end DiagramCompiler
