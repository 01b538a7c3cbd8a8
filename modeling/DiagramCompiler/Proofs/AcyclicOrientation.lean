import DiagramCompiler.Proofs.SortedClauses

/-! Sorting a graph whose edges rise.
Edges that all lead upwards in some strict order close no cycle, and the depth-first visit then
finds a topological order. While it goes on, the nodes whose visit has begun lie in a chain: what
waits above the end of a node's visit is above that node. So a node that is met again has ended, and
a visit ends after those of all its successors. Directing the edges of a graph from lower to higher
degree makes them rise, if no edge joins a node with itself. -/
namespace DiagramCompiler
namespace Multigraph

/-- Every edge leads from a node to one above it. -/
structure Rises (below : Nat → Nat → Prop) (g : Multigraph) : Prop where
  irrefl : ∀ a, ¬ below a a
  trans : ∀ {a b c}, below a b → below b c → below a c
  edge : ∀ e ∈ g.edges, below e.1 e.2

def IsLoopFree (g : Multigraph) : Prop := ∀ e ∈ g.edges, e.1 ≠ e.2

theorem mem_successors_iff {g : Multigraph} {a b : Nat} :
    b ∈ g.successors a ↔ (a, b) ∈ g.edges := by
  simp only [successors, List.mem_filterMap]
  constructor
  · rintro ⟨⟨x, y⟩, he, heq⟩
    split at heq
    · next h => cases heq; cases h; exact he
    · cases heq
  · exact fun h => ⟨(a, b), h, by simp⟩

theorem mem_predecessors_iff {g : Multigraph} {a b : Nat} :
    a ∈ g.predecessors b ↔ (a, b) ∈ g.edges := by
  simp only [predecessors, List.mem_filterMap]
  constructor
  · rintro ⟨⟨x, y⟩, he, heq⟩
    split at heq
    · next h => cases heq; cases h; exact he
    · cases heq
  · exact fun h => ⟨(a, b), h, by simp⟩

namespace Visit

def node : Visit → Nat
  | .enter node => node
  | .leave node => node

end Visit

def Descends (g : Multigraph) : List Nat → Prop
  | [] => True
  | node :: rest => (∀ next ∈ g.successors node, next ∈ rest) ∧ Descends g rest

def Awaits (g : Multigraph) : List Nat → List Visit → Prop
  | _, [] => True
  | known, .enter node :: visits => Awaits g (node :: known) visits
  | known, .leave node :: visits =>
    (∀ next ∈ g.successors node, next ∈ known) ∧ Awaits g (node :: known) visits

theorem Awaits.mono {g : Multigraph} {known known' : List Nat} {visits : List Visit}
    (h : Awaits g known visits) (hsub : known ⊆ known') : Awaits g known' visits := by
  induction visits generalizing known known' with
  | nil => trivial
  | cons visit visits ih =>
    cases visit with
    | enter node =>
      have hrest : Awaits g (node :: known) visits := h
      exact ih hrest (List.cons_subset_cons node hsub)
    | leave node => exact ⟨fun next hnext => hsub (h.1 next hnext),
        ih h.2 (List.cons_subset_cons node hsub)⟩

theorem awaits_enters {g : Multigraph} (nodes known : List Nat) (visits : List Visit) :
    Awaits g known (nodes.map .enter ++ visits) ↔ Awaits g (nodes.reverse ++ known) visits := by
  induction nodes generalizing known with
  | nil => rfl
  | cons node nodes ih =>
    rw [List.map_cons, List.cons_append, Awaits, ih, List.reverse_cons, List.append_assoc,
      List.singleton_append]

/-- What a search has reached: the nodes that are left to visit, those whose visit has begun, and
those whose visit has ended, the last first. -/
structure Search (below : Nat → Nat → Prop) (g : Multigraph) (visits : List Visit)
    (fresh ended : List Nat) : Prop where
  known : ∀ node < g.nodeCount, node ∈ fresh ∨ node ∈ ended ∨ .leave node ∈ visits
  inRange : ∀ visit ∈ visits, visit.node < g.nodeCount
  /-- What waits above the end of a visit is above its node. -/
  chain : visits.Pairwise fun first later => ∀ node, later = .leave node → below node first.node
  awaits : Awaits g ended visits
  descends : Descends g ended

namespace Search

variable {below : Nat → Nat → Prop} {g : Multigraph} {visits : List Visit}
  {fresh ended : List Nat} {node : Nat}

theorem start (g : Multigraph) : Search below g (g.nodes.map .enter) g.nodes [] where
  known node hnode := .inl (List.mem_range.2 hnode)
  inRange visit hvisit := by
    obtain ⟨node, hnode, rfl⟩ := List.mem_map.1 hvisit
    exact List.mem_range.1 hnode
  chain := List.pairwise_map.2 (List.pairwise_of_forall fun a b node hleave => by cases hleave)
  awaits := by
    have h := awaits_enters (g := g) g.nodes [] []
    rw [List.append_nil] at h
    exact h.2 trivial
  descends := trivial

theorem leave (h : Search below g (.leave node :: visits) fresh ended) :
    Search below g visits fresh (node :: ended) where
  known other hother := by
    rcases h.known other hother with hfresh | hended | hleave
    · exact .inl hfresh
    · exact .inr (.inl (.tail _ hended))
    · rcases List.mem_cons.1 hleave with heq | hleave
      · cases heq
        exact .inr (.inl List.mem_cons_self)
      · exact .inr (.inr hleave)
  inRange visit hvisit := h.inRange visit (.tail _ hvisit)
  chain := (List.pairwise_cons.1 h.chain).2
  awaits := h.awaits.2
  descends := ⟨h.awaits.1, h.descends⟩

theorem enter (h : Search below g (.enter node :: visits) fresh ended) (hrises : Rises below g) :
    Search below g ((g.successors node).map .enter ++ .leave node :: visits) (fresh.erase node)
      ended where
  known other hother := by
    rcases h.known other hother with hfresh | hended | hleave
    · by_cases heq : other = node
      · exact .inr (.inr (by simp [heq]))
      · exact .inl ((List.mem_erase_of_ne heq).2 hfresh)
    · exact .inr (.inl hended)
    · have hrest : .leave other ∈ visits := by simpa using hleave
      exact .inr (.inr (List.mem_append_right _ (.tail _ hrest)))
  inRange visit hvisit := by
    rcases List.mem_append.1 hvisit with hvisit | hvisit
    · obtain ⟨next, hnext, rfl⟩ := List.mem_map.1 hvisit
      exact (g.inRange _ (mem_successors_iff.1 hnext)).2
    · rcases List.mem_cons.1 hvisit with rfl | hvisit
      · exact h.inRange (.enter node) List.mem_cons_self
      · exact h.inRange visit (.tail _ hvisit)
  chain := by
    obtain ⟨hnode, hrest⟩ := List.pairwise_cons.1 h.chain
    refine List.pairwise_append.2 ⟨?_, List.pairwise_cons.2 ⟨hnode, hrest⟩, ?_⟩
    · exact List.pairwise_map.2 (List.pairwise_of_forall fun a b other hleave => by cases hleave)
    · intro first hfirst later hlater other hleave
      obtain ⟨next, hnext, rfl⟩ := List.mem_map.1 hfirst
      have hedge : below node next := hrises.edge _ (mem_successors_iff.1 hnext)
      rcases List.mem_cons.1 hlater with rfl | hlater
      · cases hleave
        exact hedge
      · exact hrises.trans (hnode later hlater other hleave) hedge
  awaits := by
    refine (awaits_enters _ _ _).2 ⟨fun next hnext => by simp [hnext], ?_⟩
    have hrest : Awaits g (node :: ended) visits := h.awaits
    exact hrest.mono (List.cons_subset_cons node (List.subset_append_right _ _))
  descends := h.descends

/-- A node that is met again has ended: were its visit still going on, the node would be above
itself. -/
theorem stale (h : Search below g (.enter node :: visits) fresh ended) (hrises : Rises below g)
    (hfresh : node ∉ fresh) : Search below g visits fresh ended where
  known other hother := by
    rcases h.known other hother with hother | hother | hleave
    · exact .inl hother
    · exact .inr (.inl hother)
    · exact .inr (.inr (by simpa using hleave))
  inRange visit hvisit := h.inRange visit (.tail _ hvisit)
  chain := (List.pairwise_cons.1 h.chain).2
  awaits := by
    have hended : node ∈ ended := by
      rcases h.known node (h.inRange _ List.mem_cons_self) with hnode | hnode | hleave
      · exact absurd hnode hfresh
      · exact hnode
      · have hrest : .leave node ∈ visits := by simpa using hleave
        exact absurd ((List.pairwise_cons.1 h.chain).1 _ hrest node rfl) (hrises.irrefl node)
    have hrest : Awaits g (node :: ended) visits := h.awaits
    exact hrest.mono (List.cons_subset.2 ⟨hended, List.Subset.refl _⟩)
  descends := h.descends

theorem exists_depthFirst (h : Search below g visits fresh ended) (hrises : Rises below g) :
    ∃ sorted, g.depthFirst visits fresh ended = .ok sorted ∧ Descends g sorted := by
  fun_induction depthFirst g visits fresh ended with
  | case1 fresh ended => exact ⟨ended, rfl, h.descends⟩
  | case2 node visits fresh ended ih => exact ih h.leave
  | case3 node visits fresh ended hmem next hloop =>
    exact absurd (hrises.edge _ (mem_successors_iff.1 hloop)) (hrises.irrefl node)
  | case4 node visits fresh ended hmem next hloop ih => exact ih (h.enter hrises)
  | case5 node visits fresh ended hmem ih => exact ih (h.stale hrises hmem)

end Search

theorem Descends.mem_of_edge {g : Multigraph} {nodes : List Nat} {a b : Nat}
    (h : Descends g nodes) (ha : a ∈ nodes) (hedge : (a, b) ∈ g.edges) : b ∈ nodes := by
  induction nodes with
  | nil => exact absurd ha List.not_mem_nil
  | cons node nodes ih =>
    rcases List.mem_cons.1 ha with rfl | ha
    · exact .tail _ (h.1 b (mem_successors_iff.2 hedge))
    · exact .tail _ (ih h.2 ha)

theorem Descends.backEdge?_eq_none {g : Multigraph} {seen nodes : List Nat}
    (h : Descends g nodes) (hnodup : nodes.Nodup)
    (hall : ∀ node < g.nodeCount, node ∈ seen ∨ node ∈ nodes) :
    g.backEdge? seen nodes = none := by
  induction nodes generalizing seen with
  | nil => rfl
  | cons node nodes ih =>
    obtain ⟨hnew, hnodup⟩ := List.nodup_cons.1 hnodup
    have hfind : (g.predecessors node).find? (fun p => p ∉ node :: seen) = none := by
      refine List.find?_eq_none.2 fun p hp => ?_
      have hedge := mem_predecessors_iff.1 hp
      have hseen : p ∈ node :: seen := by
        rcases hall p (g.inRange _ hedge).1 with hseen | hmem
        · exact .tail _ hseen
        · rcases List.mem_cons.1 hmem with rfl | hlater
          · exact List.mem_cons_self
          · exact absurd (h.2.mem_of_edge hlater hedge) hnew
      exact fun hout => of_decide_eq_true hout hseen
    rw [backEdge?, hfind]
    refine ih h.2 hnodup fun other hother => ?_
    rcases hall other hother with hseen | hmem
    · exact .inl (.tail _ hseen)
    · rcases List.mem_cons.1 hmem with rfl | hlater
      · exact .inl List.mem_cons_self
      · exact .inr hlater

theorem Rises.exists_toposort {below : Nat → Nat → Prop} {g : Multigraph} (h : Rises below g) :
    ∃ sorted, g.toposort = .ok sorted := by
  obtain ⟨sorted, hsorted, hdescends⟩ := (Search.start g).exists_depthFirst h
  have hperm := perm_of_depthFirst hsorted List.nodup_range fun node hnode =>
    List.mem_map_of_mem hnode
  have hbegun : begun (g.nodes.map .enter) = [] := by
    have hall := begun_enters g.nodes []
    rwa [List.append_nil] at hall
  rw [hbegun, List.append_nil, List.nil_append] at hperm
  have hback : g.backEdge? [] sorted = none :=
    hdescends.backEdge?_eq_none (hperm.nodup_iff.2 List.nodup_range) fun node hnode =>
      .inr (hperm.mem_iff.2 (List.mem_range.2 hnode))
  exact ⟨sorted, by rw [toposort, hsorted]; simp only [hback]⟩

section Orientation

variable {degrees : Array Nat} {a b c : Nat}

theorem ranksBelow_iff : ranksBelow degrees a b = true ↔
    degrees.getD a 0 < degrees.getD b 0 ∨ degrees.getD a 0 = degrees.getD b 0 ∧ a < b := by
  simp [ranksBelow]

theorem ranksBelow_irrefl : ¬ ranksBelow degrees a a = true := by
  simp [ranksBelow_iff]

theorem ranksBelow_trans (hab : ranksBelow degrees a b = true)
    (hbc : ranksBelow degrees b c = true) : ranksBelow degrees a c = true := by
  rw [ranksBelow_iff] at hab hbc ⊢
  omega

theorem ranksBelow_total (hne : a ≠ b) (h : ¬ ranksBelow degrees a b = true) :
    ranksBelow degrees b a = true := by
  rw [ranksBelow_iff] at h ⊢
  omega

theorem IsLoopFree.ne_of_mem_neighbours {g : Multigraph} (h : g.IsLoopFree)
    (hb : b ∈ g.neighbours a) : a ≠ b := by
  simp only [neighbours, List.mem_append, List.mem_filterMap, List.mem_reverse] at hb
  rcases hb with ⟨e, he, heq⟩ | ⟨e, he, heq⟩
  · split at heq
    · next ha => cases heq; exact ha ▸ h e he
    · cases heq
  · split at heq
    · next ha => cases heq; exact ha.1 ▸ (h e he).symm
    · cases heq

theorem IsLoopFree.ranksBelow_of_mem {g : Multigraph} (h : g.IsLoopFree)
    {earlier visited : List Nat} {e : Nat × Nat}
    (he : e ∈ g.directedEdges degrees earlier visited) : ranksBelow degrees e.1 e.2 = true := by
  induction visited generalizing earlier with
  | nil => exact absurd he List.not_mem_nil
  | cons node rest ih =>
    rw [directedEdges, List.mem_append] at he
    rcases he with he | he
    · obtain ⟨other, hother, rfl⟩ := List.mem_map.1 he
      have hne := h.ne_of_mem_neighbours (List.mem_filter.1 hother).1
      split
      · assumption
      · next hbelow => exact ranksBelow_total hne hbelow
    · exact ih he

theorem IsLoopFree.rises_orient {g : Multigraph} (h : g.IsLoopFree) :
    Rises (fun a b => ranksBelow g.degrees a b = true) g.orient where
  irrefl _ := ranksBelow_irrefl
  trans := ranksBelow_trans
  edge _ he := h.ranksBelow_of_mem he

end Orientation
end Multigraph

namespace Interaction

theorem exists_sorted {g : Multigraph} (h : g.IsLoopFree) :
    ∃ nodes, sorted g = .ok nodes ∧ nodes.Perm g.nodes := by
  obtain ⟨nodes, hnodes⟩ := h.rises_orient.exists_toposort
  have hsorted : sorted g = .ok nodes := by rw [sorted, hnodes]
  exact ⟨nodes, hsorted, perm_of_sorted hsorted⟩

theorem isLoopFree_graph (shape : GraphShape) (f : Formula) : (graph shape f).IsLoopFree := by
  intro e he
  obtain ⟨c, hc, he⟩ := List.mem_flatMap.1 (Multigraph.mem_of_mem_firsts he)
  obtain ⟨p, hp, he⟩ := List.mem_filterMap.1 he
  have hfirst := f.one_le_var hc (mem_of_mem_links hp).1
  have hsecond := f.one_le_var hc (mem_of_mem_links hp).2
  rw [edge?] at he
  split at he
  · cases he
  · cases he
    simp only
    omega

/-- A clause has a variable once, as it repeats no literal and has no two that are opposite. So the
places at a variable rise. -/
theorem pairwise_occurrences (f : Formula) (var : Nat) :
    (occurrences f.clauses var).Pairwise (· < ·) := by
  have hplaces : f.clauses.zipIdx.Pairwise fun c d => c.2 < d.2 := by
    refine List.pairwise_map.1 ?_
    rw [List.zipIdx_map_snd]
    exact List.pairwise_lt_range'
  refine List.pairwise_flatMap.2 ⟨fun c hc => ?_, hplaces.imp fun {c d} hlt i hi j hj => ?_⟩
  · have hcount : c.1.vars.count var ≤ 1 :=
      List.nodup_iff_count_le_one.1 (f.nodup_vars (List.fst_mem_of_mem_zipIdx hc)) var
    obtain heq | heq : c.1.vars.count var = 0 ∨ c.1.vars.count var = 1 := by omega
    · rw [heq]
      exact .nil
    · rw [heq]
      exact List.pairwise_singleton _ _
  · rw [List.eq_of_mem_replicate hi, List.eq_of_mem_replicate hj]
    exact hlt

theorem ne_of_mem_pairs {as : List Nat} (h : as.Pairwise (· < ·)) {p : Nat × Nat}
    (hp : p ∈ pairs as) : p.1 ≠ p.2 := by
  induction as with
  | nil => exact absurd hp List.not_mem_nil
  | cons a as ih =>
    obtain ⟨hlt, hrest⟩ := List.pairwise_cons.1 h
    rcases List.mem_append.1 hp with hp | hp
    · obtain ⟨b, hb, rfl⟩ := List.mem_map.1 hp
      exact Nat.ne_of_lt (hlt b hb)
    · exact ih hrest hp

theorem isLoopFree_clauseGraph (f : Formula) : (clauseGraph f).IsLoopFree := by
  intro e he
  obtain ⟨var, -, he⟩ := List.mem_flatMap.1 (Multigraph.mem_of_mem_firsts he)
  exact ne_of_mem_pairs (pairwise_occurrences f var) he

end Interaction
end DiagramCompiler
