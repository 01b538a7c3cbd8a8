import DiagramCompiler.VariableOrder.Relaxation

/-! Triage of relaxed orders.
Of a population of relaxed orders those with more than the mean span are given up and the others are
relaxed further, until none is given up. The mean is compared exactly, by products. -/
namespace DiagramCompiler
namespace VariableOrder

/-- The members of a population whose span is at most the mean. -/
def survivors (population : List Relaxation) : List Relaxation :=
  let total := sumOf (population.map Relaxation.span)
  population.filter fun r => r.span * population.length ≤ total

/-- Repeats the triage; `refine round index` relaxes a member further. -/
def triage (refine : Nat → Nat → VariableOrder → Relaxation) (round : Nat)
    (population : List Relaxation) : List Relaxation :=
  let kept := survivors population
  if kept.length < population.length then
    triage refine (round + 1)
      (kept.zipIdx.map fun member => refine (round + 1) member.2 member.1.order)
  else kept
termination_by population.length
decreasing_by simpa using ‹_›

def best? : List Relaxation → Option Relaxation
  | [] => none
  | r :: rs => some (rs.foldl (fun best r => if r.span < best.span then r else best) r)

end VariableOrder
end DiagramCompiler
