import Std.Data.HashSet

/-! Graphs with numbered nodes.
A graph has nodes numbered from 0 and edges in the order of their insertion; parallel edges and self
loops are allowed. The same graph is read as undirected or as directed from the first to the second
end of every edge. Around a node, the newest edge comes first. -/
namespace DiagramCompiler

structure Multigraph where
  nodeCount : Nat
  edges : List (Nat × Nat)
  inRange : ∀ e ∈ edges, e.1 < nodeCount ∧ e.2 < nodeCount
  deriving DecidableEq, Repr

namespace Multigraph

/-- The most nodes of a graph and also the most edges: they are numbered by words, of which the last
stands for none. -/
def maxCount : Nat := 4294967295

/-- Whether there are numbers for the nodes and for the edges of a graph. -/
structure IsNumbered (g : Multigraph) : Prop where
  nodes : g.nodeCount ≤ maxCount
  edges : g.edges.length ≤ maxCount

/-- The graph with the given edges, if there are numbers for its nodes and edges and both ends of
each edge are nodes. -/
def ofEdges? (nodeCount : Nat) (edges : List (Nat × Nat)) : Option Multigraph :=
  if h : (nodeCount ≤ maxCount ∧ edges.length ≤ maxCount) ∧
      ∀ e ∈ edges, e.1 < nodeCount ∧ e.2 < nodeCount then
    some ⟨nodeCount, edges, h.2⟩
  else none

def nodes (g : Multigraph) : List Nat := List.range g.nodeCount

/-- The ends across the edges at a node: first over the edges that start there, then over those
that end there; a self loop counts as starting there. -/
def neighbours (g : Multigraph) (node : Nat) : List Nat :=
  let newest := g.edges.reverse
  newest.filterMap (fun e => if e.1 = node then some e.2 else none) ++
    newest.filterMap fun e => if e.2 = node ∧ e.1 ≠ node then some e.1 else none

/-- The number of edges at a node, a self loop counted once. -/
def degree (g : Multigraph) (node : Nat) : Nat := (g.neighbours node).length

theorem neighbours_lt (g : Multigraph) {node other : Nat} (h : other ∈ g.neighbours node) :
    other < g.nodeCount := by
  simp only [neighbours, List.mem_append, List.mem_filterMap, List.mem_reverse] at h
  rcases h with ⟨e, he, h⟩ | ⟨e, he, h⟩
  · split at h
    · simp only [Option.some.injEq] at h; exact h ▸ (g.inRange e he).2
    · simp at h
  · split at h
    · simp only [Option.some.injEq] at h; exact h ▸ (g.inRange e he).1
    · simp at h

theorem lt_of_mem_neighbours (g : Multigraph) {node other : Nat} (h : other ∈ g.neighbours node) :
    node < g.nodeCount := by
  simp only [neighbours, List.mem_append, List.mem_filterMap, List.mem_reverse] at h
  rcases h with ⟨e, he, h⟩ | ⟨e, he, h⟩
  · split at h
    · next heq => exact heq ▸ (g.inRange e he).1
    · simp at h
  · split at h
    · next heq => exact heq.1 ▸ (g.inRange e he).2
    · simp at h

/-- The targets of the edges from a node, the oldest edge first. -/
def successors (g : Multigraph) (node : Nat) : List Nat :=
  g.edges.filterMap fun e => if e.1 = node then some e.2 else none

/-- The sources of the edges to a node, the oldest edge first. -/
def predecessors (g : Multigraph) (node : Nat) : List Nat :=
  g.edges.filterMap fun e => if e.2 = node then some e.1 else none

def firstsFrom {α : Type} [BEq α] [Hashable α] (met : Std.HashSet α) : List α → List α
  | [] => []
  | a :: as =>
    if met.contains a then firstsFrom met as else a :: firstsFrom (met.insert a) as

def firsts {α : Type} [BEq α] [Hashable α] (as : List α) : List α := firstsFrom ∅ as

theorem mem_of_mem_firstsFrom {α : Type} [BEq α] [Hashable α] {met : Std.HashSet α} {as : List α}
    {a : α} (h : a ∈ firstsFrom met as) : a ∈ as := by
  induction as generalizing met with
  | nil => exact h
  | cons b bs ih =>
    rw [firstsFrom] at h
    split at h
    · exact .tail _ (ih h)
    · rcases List.mem_cons.1 h with rfl | h
      · exact .head _
      · exact .tail _ (ih h)

theorem mem_of_mem_firsts {α : Type} [BEq α] [Hashable α] {as : List α} {a : α}
    (h : a ∈ firsts as) : a ∈ as := mem_of_mem_firstsFrom h

end Multigraph
end DiagramCompiler
