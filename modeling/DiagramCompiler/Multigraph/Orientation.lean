import DiagramCompiler.Multigraph

/-! Orientation of a graph by degree.
Every edge is directed from the end of lower degree to the end of higher degree, equal degrees being
decided by the numbers of the ends. Edges are met breadth first from the node of highest rank; nodes
that are not reached so are started from later, the one of highest rank first. -/
namespace DiagramCompiler
namespace Multigraph

def ranksBelow (degrees : Array Nat) (a b : Nat) : Bool :=
  let da := degrees.getD a 0
  let db := degrees.getD b 0
  da < db || (da = db && a < b)

def degrees (g : Multigraph) : Array Nat := (g.nodes.map g.degree).toArray

def byRank (g : Multigraph) : List Nat :=
  let degrees := g.degrees
  g.nodes.mergeSort fun a b => !ranksBelow degrees a b

def discoveries (g : Multigraph) (node : Nat) (fresh : List Nat) : List Nat :=
  firsts ((g.neighbours node).filter (· ∈ fresh))

def without (fresh found : List Nat) : List Nat := fresh.filter (· ∉ found)

theorem mem_fresh_of_mem_discoveries {g : Multigraph} {node a : Nat} {fresh : List Nat}
    (h : a ∈ g.discoveries node fresh) : a ∈ fresh := by
  simpa using (List.mem_filter.1 (mem_of_mem_firsts h)).2

@[simp] theorem without_nil (fresh : List Nat) : without fresh [] = fresh := by
  simp [without]

theorem length_without_lt {a : Nat} {fresh found : List Nat} (hf : a ∈ fresh) (ha : a ∈ found) :
    (without fresh found).length < fresh.length := by
  refine Nat.lt_of_le_of_ne (List.length_filter_le _ _) fun h => ?_
  have := List.length_filter_eq_length_iff.1 h a hf
  simp [ha] at this

/-- The nodes in the order of a breadth-first visit. A queue of nodes that wait is given, and the
nodes not met yet in the order in which new starts are chosen. -/
def breadthFirst (g : Multigraph) : List Nat → List Nat → List Nat
  | [], [] => []
  | [], start :: fresh => g.breadthFirst [start] fresh
  | node :: queue, fresh =>
    let found := g.discoveries node fresh
    node :: g.breadthFirst (queue ++ found) (without fresh found)
termination_by queue fresh => (fresh.length, queue.length)
decreasing_by
  · exact .left _ _ (Nat.lt_succ_self _)
  · cases hf : g.discoveries node fresh with
    | nil =>
      rw [without_nil, List.append_nil]
      exact .right _ (Nat.lt_succ_self _)
    | cons a as =>
      have ha : a ∈ g.discoveries node fresh := by rw [hf]; exact .head _
      exact .left _ _ (length_without_lt (mem_fresh_of_mem_discoveries ha) (.head _))

/-- The directed edges met from the nodes of a list; edges to nodes visited before are known. -/
def directedEdges (g : Multigraph) (degrees : Array Nat) : List Nat → List Nat → List (Nat × Nat)
  | _, [] => []
  | earlier, node :: rest =>
    ((g.neighbours node).filter (· ∉ earlier)).map
        (fun other => if ranksBelow degrees node other then (node, other) else (other, node)) ++
      g.directedEdges degrees (node :: earlier) rest

theorem directedEdges_inRange (g : Multigraph) (degrees : Array Nat) (earlier visited : List Nat) :
    ∀ e ∈ g.directedEdges degrees earlier visited, e.1 < g.nodeCount ∧ e.2 < g.nodeCount := by
  induction visited generalizing earlier with
  | nil => simp [directedEdges]
  | cons node rest ih =>
    intro e he
    rw [directedEdges, List.mem_append] at he
    rcases he with he | he
    · obtain ⟨other, ho, rfl⟩ := List.mem_map.1 he
      have ho := (List.mem_filter.1 ho).1
      split
      · exact ⟨g.lt_of_mem_neighbours ho, g.neighbours_lt ho⟩
      · exact ⟨g.neighbours_lt ho, g.lt_of_mem_neighbours ho⟩
    · exact ih _ e he

def orient (g : Multigraph) : Multigraph :=
  ⟨g.nodeCount, g.directedEdges g.degrees [] (g.breadthFirst [] g.byRank),
    g.directedEdges_inRange _ _ _⟩

end Multigraph
end DiagramCompiler
