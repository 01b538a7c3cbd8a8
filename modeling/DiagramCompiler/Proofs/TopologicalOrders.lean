import DiagramCompiler.Proofs.FoundOrders
import DiagramCompiler.Proofs.OrientedEdges

/-! Topological orders of directed graphs.
A list that a topological sort answers with has been checked: no edge leads back in it, and none
joins a node with itself. Once its edges are directed by degree, a graph has such a list exactly
when no edge joins a node with itself, and otherwise the node reported is one that is joined with
itself. The graphs of variables and of clauses have no such edge, so that of two variables that are
joined the one of lower degree comes first. -/
namespace DiagramCompiler
namespace Multigraph

variable {g : Multigraph} {a b node : Nat} {e : Nat × Nat} {visits : List Visit}
  {fresh ended seen nodes : List Nat}

/-- Whether a list has every node once and every edge leads forward in it. -/
structure IsTopological (g : Multigraph) (nodes : List Nat) : Prop where
  perm : nodes.Perm g.nodes
  forward : ∀ e ∈ g.edges, nodes.idxOf e.1 < nodes.idxOf e.2

theorem not_loop_of_depthFirst (h : g.depthFirst visits fresh ended = .ok nodes)
    (hfresh : node ∈ fresh) (hvisit : .enter node ∈ visits) : (node, node) ∉ g.edges := by
  fun_induction depthFirst g visits fresh ended with
  | case1 => exact absurd hvisit List.not_mem_nil
  | case2 other visits fresh ended ih => exact ih h hfresh (by simpa using hvisit)
  | case3 => cases h
  | case4 other visits fresh ended hmem next hloop ih =>
    by_cases heq : node = other
    · subst heq
      exact fun hedge => hloop (mem_successors_iff.2 hedge)
    · have hrest : .enter node ∈ visits := by simpa [heq] using hvisit
      exact ih h ((List.mem_erase_of_ne heq).2 hfresh)
        (List.mem_append_right _ (.tail _ hrest))
  | case5 other visits fresh ended hmem ih =>
    have hne : node ≠ other := fun heq => hmem (heq ▸ hfresh)
    exact ih h hfresh (by simpa [hne] using hvisit)

theorem loop_of_depthFirst (h : g.depthFirst visits fresh ended = .error node) :
    (node, node) ∈ g.edges := by
  fun_induction depthFirst g visits fresh ended with
  | case1 => cases h
  | case2 other visits fresh ended ih => exact ih h
  | case3 other visits fresh ended hmem next hloop =>
    cases h
    exact mem_successors_iff.1 hloop
  | case4 other visits fresh ended hmem next hloop ih => exact ih h
  | case5 other visits fresh ended hmem ih => exact ih h

/-- Where no edge leads back, the start of an edge is not after its end. -/
theorem idxOf_le_of_backEdge?_eq_none (h : g.backEdge? seen nodes = none) (he : e ∈ g.edges)
    (hend : e.2 ∈ nodes) : e.1 ∈ seen ∨ nodes.idxOf e.1 ≤ nodes.idxOf e.2 := by
  induction nodes generalizing seen with
  | nil => exact absurd hend List.not_mem_nil
  | cons node nodes ih =>
    rw [backEdge?] at h
    split at h
    · cases h
    · next hfind =>
      by_cases hfirst : e.1 = node
      · exact .inr (by simp [hfirst])
      · by_cases hlast : e.2 = node
        · have hknown := List.find?_eq_none.1 hfind e.1 (mem_predecessors_iff.2 (hlast ▸ he))
          have hseen : e.1 = node ∨ e.1 ∈ seen := by simpa [or_iff_not_imp_left] using hknown
          exact .inl (hseen.resolve_left hfirst)
        · have hrest := ih h ((List.mem_cons.1 hend).resolve_left hlast)
          rw [List.mem_cons, or_iff_right hfirst] at hrest
          refine hrest.imp id fun hle => ?_
          rw [List.idxOf_cons_ne _ (Ne.symm hfirst), List.idxOf_cons_ne _ (Ne.symm hlast)]
          exact Nat.succ_le_succ hle

theorem isLoopFree_of_depthFirst
    (h : g.depthFirst (g.nodes.map .enter) g.nodes [] = .ok nodes) : g.IsLoopFree := by
  rintro ⟨a, b⟩ he (rfl : a = b)
  have hnode : a ∈ g.nodes := List.mem_range.2 (g.inRange _ he).1
  exact not_loop_of_depthFirst h hnode (List.mem_map_of_mem hnode) he

theorem toposort_cases (h : g.toposort = .ok nodes) :
    g.depthFirst (g.nodes.map .enter) g.nodes [] = .ok nodes ∧ g.backEdge? [] nodes = none := by
  rw [toposort] at h
  split at h
  · cases h
  · next hended =>
    split at h
    · cases h
    · next hback =>
      cases h
      exact ⟨hended, hback⟩

theorem isTopological_of_toposort (h : g.toposort = .ok nodes) : g.IsTopological nodes where
  perm := perm_of_toposort h
  forward e he := by
    have hmem : ∀ node < g.nodeCount, node ∈ nodes := fun node hnode =>
      (perm_of_toposort h).mem_iff.2 (List.mem_range.2 hnode)
    obtain ⟨hstart, hend⟩ := g.inRange e he
    have hle := (idxOf_le_of_backEdge?_eq_none (toposort_cases h).2 he (hmem _ hend)).resolve_left
      List.not_mem_nil
    refine Nat.lt_of_le_of_ne hle fun heq => ?_
    have hloop : e.1 = e.2 := (List.idxOf_inj (hmem _ hstart)).1 heq
    exact isLoopFree_of_depthFirst (toposort_cases h).1 e he hloop

theorem mem_orient_loop : (node, node) ∈ g.orient.edges ↔ (node, node) ∈ g.edges := by
  rw [g.perm_edges_orient.mem_iff, List.mem_map]
  constructor
  · rintro ⟨⟨a, b⟩, he, heq⟩
    rw [rising] at heq
    split at heq
    · exact heq ▸ he
    · cases heq
      exact he
  · exact fun he => ⟨_, he, by simp [rising]⟩

theorem isLoopFree_iff : g.IsLoopFree ↔ ∀ node, (node, node) ∉ g.edges := by
  constructor
  · exact fun h node he => h _ he rfl
  · rintro h ⟨a, b⟩ he (rfl : a = b)
    exact h a he

theorem isLoopFree_orient_iff : g.orient.IsLoopFree ↔ g.IsLoopFree := by
  simp only [isLoopFree_iff, mem_orient_loop]

theorem isBelow_rising (hne : e.1 ≠ e.2) :
    g.IsBelow (rising g.degrees e).1 (rising g.degrees e).2 := by
  rw [← ranksBelow_degrees_iff, rising]
  split
  · assumption
  · next hbelow => exact ranksBelow_total hne hbelow

theorem rising_eq_or (degrees : Array Nat) (e : Nat × Nat) :
    rising degrees e = e ∨ rising degrees e = e.swap := by
  rw [rising]
  split
  · exact .inl rfl
  · exact .inr rfl

def Joins (g : Multigraph) (a b : Nat) : Prop := (a, b) ∈ g.edges ∨ (b, a) ∈ g.edges

theorem mem_orient_of_joins (h : g.Joins a b) (hbelow : g.IsBelow a b) :
    (a, b) ∈ g.orient.edges := by
  have hab := ranksBelow_degrees_iff.2 hbelow
  have hba : ¬ ranksBelow g.degrees b a := fun h => ranksBelow_irrefl (ranksBelow_trans hab h)
  rw [g.perm_edges_orient.mem_iff, List.mem_map]
  rcases h with h | h
  · exact ⟨_, h, if_pos hab⟩
  · exact ⟨_, h, if_neg hba⟩

end Multigraph

namespace Interaction

open Multigraph (rising)

variable {g : Multigraph} {nodes : List Nat} {failure : Failure}

theorem sorted_eq_ok_iff : sorted g = .ok nodes ↔ g.orient.toposort = .ok nodes := by
  rw [sorted]
  split <;> simp_all

theorem loop_of_sorted (h : sorted g = .error failure) :
    ∃ node, failure = .orientationCycle node ∧ (node, node) ∈ g.edges := by
  have hcycle : ∃ node, failure = .orientationCycle node ∧ g.orient.toposort = .error node := by
    rw [sorted] at h
    split at h
    · cases h
    · next node hnode => exact ⟨node, (Except.error.inj h).symm, hnode⟩
  obtain ⟨node, rfl, hnode⟩ := hcycle
  refine ⟨node, rfl, Multigraph.mem_orient_loop.1 ?_⟩
  cases hended : g.orient.depthFirst (g.orient.nodes.map .enter) g.orient.nodes [] with
  | error other =>
    rw [Multigraph.toposort, hended] at hnode
    cases hnode
    exact Multigraph.loop_of_depthFirst hended
  | ok ended =>
    -- a graph without such a node is sorted
    have hloops := Multigraph.isLoopFree_orient_iff.1 (Multigraph.isLoopFree_of_depthFirst hended)
    obtain ⟨nodes, hnodes⟩ := hloops.rises_orient.exists_toposort
    exact absurd (hnodes.symm.trans hnode) (by simp)

theorem exists_sorted_iff : (∃ nodes, sorted g = .ok nodes) ↔ g.IsLoopFree := by
  constructor
  · rintro ⟨nodes, hnodes⟩
    have hsorted := Multigraph.toposort_cases (sorted_eq_ok_iff.1 hnodes)
    exact Multigraph.isLoopFree_orient_iff.1 (Multigraph.isLoopFree_of_depthFirst hsorted.1)
  · intro h
    obtain ⟨nodes, hnodes, -⟩ := exists_sorted h
    exact ⟨nodes, hnodes⟩

variable {shape : GraphShape} {f : Formula} {found : VariableOrder} {a b node : Nat}

theorem exists_of_order (h : order shape f = .ok found) :
    ∃ nodes, (graph shape f).orient.IsTopological nodes ∧ found.toList = nodes.map (· + 1) := by
  obtain ⟨g, nodes, hg, hnodes, hfound⟩ := order_eq_ok_iff.1 h
  obtain ⟨rfl, -⟩ := graph?_eq_ok_iff.1 hg
  exact ⟨nodes, Multigraph.isTopological_of_toposort (sorted_eq_ok_iff.1 hnodes),
    VariableOrder.toList_ofList? hfound⟩

theorem perm_of_order (h : order shape f = .ok found) :
    found.toList.Perm (List.range' 1 f.varCount) := by
  obtain ⟨nodes, htopological, hfound⟩ := exists_of_order h
  have hlength : found.length = f.varCount := by
    rw [VariableOrder.length, hfound, List.length_map, htopological.perm.length_eq]
    exact List.length_range
  exact hlength ▸ found.perm_range'

theorem idxOf_map_succ (nodes : List Nat) (node : Nat) :
    (nodes.map (· + 1)).idxOf (node + 1) = nodes.idxOf node := by
  induction nodes with
  | nil => rfl
  | cons other nodes ih => simp [List.idxOf_cons, ih]

/-- Of two variables that are joined, the one of lower degree comes first. -/
theorem position_lt_of_order (h : order shape f = .ok found) (hjoins : (graph shape f).Joins a b)
    (hbelow : (graph shape f).IsBelow a b) : found.position (a + 1) < found.position (b + 1) := by
  obtain ⟨nodes, htopological, hfound⟩ := exists_of_order h
  have hforward := htopological.forward _ (Multigraph.mem_orient_of_joins hjoins hbelow)
  rw [VariableOrder.position, VariableOrder.position, hfound, idxOf_map_succ, idxOf_map_succ]
  exact hforward

theorem exists_order_iff : (∃ found, order shape f = .ok found) ↔ (graph shape f).IsNumbered := by
  constructor
  · rintro ⟨found, hfound⟩
    obtain ⟨g, -, hg, -, -⟩ := order_eq_ok_iff.1 hfound
    exact (graph?_eq_ok_iff.1 hg).2
  · intro h
    obtain ⟨found, hfound, -⟩ := exists_order h
    exact ⟨found, hfound⟩

theorem order_ne_cycle : order shape f ≠ .error (.orientationCycle node) := by
  cases hg : graph? shape f with
  | error failure =>
    obtain ⟨cause, rfl⟩ := exists_overflow_of_graph? hg
    simp [order, hg, bind, Except.bind]
  | ok g =>
    obtain ⟨found, hfound⟩ := exists_order_iff.2 (graph?_eq_ok_iff.1 hg).2
    simp [hfound]

theorem exists_of_sortClauses {f' : Formula} (h : sortClauses f = .ok f') :
    ∃ positions, (clauseGraph f).orient.IsTopological positions ∧ f' = f.permute positions := by
  obtain ⟨g, positions, hg, hpositions, rfl⟩ := sortClauses_eq_ok_iff.1 h
  obtain ⟨rfl, -⟩ := clauseGraph?_eq_ok_iff.1 hg
  exact ⟨positions, Multigraph.isTopological_of_toposort (sorted_eq_ok_iff.1 hpositions), rfl⟩

theorem exists_sortClauses_iff : (∃ f', sortClauses f = .ok f') ↔
    f.varCount < Memory.maxLists ∧ (clauseGraph f).IsNumbered := by
  constructor
  · rintro ⟨f', hf'⟩
    obtain ⟨g, -, hg, -, -⟩ := sortClauses_eq_ok_iff.1 hf'
    exact (clauseGraph?_eq_ok_iff.1 hg).2
  · intro h
    obtain ⟨positions, hpositions, -⟩ := exists_sorted (isLoopFree_clauseGraph f)
    have hg := clauseGraph?_eq_ok_iff.2 ⟨rfl, h⟩
    exact ⟨_, sortClauses_eq_ok_iff.2 ⟨_, positions, hg, hpositions, rfl⟩⟩

/-- Sorting clauses fails only where their graph has no room. -/
theorem exists_overflow_of_sortClauses {failure : Failure} (h : sortClauses f = .error failure) :
    ∃ cause, failure = .overflow cause := by
  cases hg : clauseGraph? f with
  | error failure' =>
    have hfailure : sortClauses f = .error failure' := by rw [sortClauses, hg]; rfl
    obtain rfl := Except.error.inj (hfailure.symm.trans h)
    exact exists_overflow_of_clauseGraph? hg
  | ok g =>
    obtain ⟨f', hf'⟩ := exists_sortClauses_iff.2 (clauseGraph?_eq_ok_iff.1 hg).2
    exact absurd (hf'.symm.trans h) (by simp)

/-- Every edge of a graph is directed once, from its lower to its higher end, and the graph is
sorted exactly when no edge joins a node with itself; the nodes are then listed once, with every
directed edge leading forward, and otherwise a node that is joined with itself is reported. No such
edge is in the graph of the variables of a formula, of either shape, or in that of its clauses, so
that sorting these reports no cycle: it succeeds exactly where there is room for the graph. In an
order of the variables, of two that are joined the one of lower degree comes first, or that of the
lower number where the degrees are the same. -/
theorem sorted_exactly_without_loops :
    (∀ g : Multigraph,
      g.orient.nodeCount = g.nodeCount ∧
      g.orient.edges.Perm (g.edges.map (rising g.degrees)) ∧
      (∀ e, rising g.degrees e = e ∨ rising g.degrees e = e.swap) ∧
      (∀ e, e.1 ≠ e.2 → g.IsBelow (rising g.degrees e).1 (rising g.degrees e).2) ∧
      ((∃ nodes, sorted g = .ok nodes) ↔ g.IsLoopFree) ∧
      (∀ nodes, sorted g = .ok nodes → g.orient.IsTopological nodes) ∧
      ∀ failure, sorted g = .error failure →
        ∃ node, failure = .orientationCycle node ∧ (node, node) ∈ g.edges) ∧
    ∀ f : Formula,
      (∀ shape,
        (graph shape f).IsLoopFree ∧
        (∀ node, order shape f ≠ .error (.orientationCycle node)) ∧
        ((∃ found, order shape f = .ok found) ↔ (graph shape f).IsNumbered) ∧
        ∀ found, order shape f = .ok found →
          found.toList.Perm (List.range' 1 f.varCount) ∧
          ∀ a b, (graph shape f).Joins a b → (graph shape f).IsBelow a b →
            found.position (a + 1) < found.position (b + 1)) ∧
      (clauseGraph f).IsLoopFree ∧
      (∀ node, sortClauses f ≠ .error (.orientationCycle node)) ∧
      ((∃ f', sortClauses f = .ok f') ↔
        f.varCount < Memory.maxLists ∧ (clauseGraph f).IsNumbered) ∧
      ∀ f', sortClauses f = .ok f' → ∃ positions,
        (clauseGraph f).orient.IsTopological positions ∧ f' = f.permute positions := by
  refine ⟨fun g => ⟨rfl, g.perm_edges_orient, Multigraph.rising_eq_or _,
    fun e => Multigraph.isBelow_rising, exists_sorted_iff, fun nodes hnodes => ?_,
    fun failure => loop_of_sorted⟩, fun f => ⟨fun shape => ?_, isLoopFree_clauseGraph f, ?_⟩⟩
  · exact Multigraph.isTopological_of_toposort (sorted_eq_ok_iff.1 hnodes)
  · exact ⟨isLoopFree_graph shape f, fun node => order_ne_cycle, exists_order_iff,
      fun found hfound => ⟨perm_of_order hfound, fun a b => position_lt_of_order hfound⟩⟩
  · refine ⟨fun node hnode => ?_, exists_sortClauses_iff, fun f' => exists_of_sortClauses⟩
    obtain ⟨cause, hcause⟩ := exists_overflow_of_sortClauses hnode
    exact absurd hcause (by simp)

end Interaction
end DiagramCompiler
