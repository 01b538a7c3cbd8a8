import DiagramCompiler.Multigraph

/-! Topological order.
The nodes are visited depth first, and a node is put in front of those whose visit ended before its
own. A graph with a cycle shows itself by an edge that leads back in this list; one such node is
reported. -/
namespace DiagramCompiler
namespace Multigraph

/-- What a depth-first visit still has to do. -/
inductive Visit where
  | enter (node : Nat)
  | leave (node : Nat)
  deriving DecidableEq, Repr

/-- Works off the visits, given the nodes not met yet and those whose visit has ended, the last
first. A self loop ends the search with its node. -/
def depthFirst (g : Multigraph) : List Visit → List Nat → List Nat → Except Nat (List Nat)
  | [], _, ended => .ok ended
  | .leave node :: visits, fresh, ended => g.depthFirst visits fresh (node :: ended)
  | .enter node :: visits, fresh, ended =>
    if node ∈ fresh then
      let next := g.successors node
      if node ∈ next then .error node
      else g.depthFirst (next.map .enter ++ .leave node :: visits) (fresh.erase node) ended
    else g.depthFirst visits fresh ended
termination_by visits fresh => (fresh.length, visits.length)
decreasing_by
  · exact .right _ (Nat.lt_succ_self _)
  · next h _ =>
    refine .left _ _ ?_
    have hpos := List.length_pos_of_mem h
    rw [List.length_erase_of_mem h]
    omega
  · exact .right _ (Nat.lt_succ_self _)

/-- The source of the oldest edge that leads from outside the nodes seen to the first possible node
of a list. -/
def backEdge? (g : Multigraph) : List Nat → List Nat → Option Nat
  | _, [] => none
  | seen, node :: nodes =>
    match (g.predecessors node).find? fun p => p ∉ node :: seen with
    | some source => some source
    | none => g.backEdge? (node :: seen) nodes

def toposort (g : Multigraph) : Except Nat (List Nat) :=
  match g.depthFirst (g.nodes.map .enter) g.nodes [] with
  | .error node => .error node
  | .ok sorted =>
    match g.backEdge? [] sorted with
    | some node => .error node
    | none => .ok sorted

end Multigraph
end DiagramCompiler
