import Mathlib.Combinatorics.SimpleGraph.Connectivity.Connected
import Mathlib.Order.Bounds.Basic
import DiagramCompiler.Proofs.CrowdedGraphs

/-! Graphs of interacting variables.
The graph of the variables of a formula joins two of them exactly if they share a clause, and as a
star only if one of them is the least variable of that clause; no pair is joined twice. Within a
clause the star joins all variables through the least one, so that the same variables are connected
in both graphs. -/
namespace DiagramCompiler
namespace Multigraph

/-- The pairs that the edges of a graph join, without their directions. -/
def ends (g : Multigraph) : List (Sym2 Nat) := g.edges.map fun e => s(e.1, e.2)

/-- The graph that joins what edges join, in which paths are those between nodes. -/
def simple (g : Multigraph) : SimpleGraph Nat := SimpleGraph.fromEdgeSet {e | e ∈ g.ends}

theorem mem_firsts_iff {α : Type} [BEq α] [Hashable α] [LawfulBEq α] [LawfulHashable α]
    {as : List α} {a : α} : a ∈ firsts as ↔ a ∈ as := by
  rw [firsts, mem_firstsFrom_iff]
  simp

/-- Edges that all lead to greater numbers, none of them twice, join no pair twice. -/
theorem nodup_ends {g : Multigraph} (hnodup : g.edges.Nodup) (hlt : ∀ e ∈ g.edges, e.1 < e.2) :
    g.ends.Nodup := by
  refine List.Nodup.map_on (fun e he e' he' heq => ?_) hnodup
  have hless := hlt e he
  have hless' := hlt e' he'
  rcases Sym2.eq_iff.1 heq with ⟨h1, h2⟩ | ⟨h1, h2⟩
  · exact Prod.ext h1 h2
  · omega

end Multigraph

namespace Interaction

open Multigraph

variable {shape : GraphShape} {f : Formula} {vs : List Nat} {v w a b : Nat}

/-! ### Pairs of a clause -/

theorem foldl_min_le {least : Nat} (hv : v = least ∨ v ∈ vs) : vs.foldl min least ≤ v := by
  induction vs generalizing v least with
  | nil => exact (hv.resolve_right (by simp)) ▸ Nat.le_refl _
  | cons u vs ih =>
    rw [List.foldl_cons]
    have hle : vs.foldl min (min least u) ≤ min least u := ih (.inl rfl)
    rcases hv with rfl | hv
    · exact hle.trans (Nat.min_le_left v u)
    · rcases List.mem_cons.1 hv with rfl | hv
      · exact hle.trans (Nat.min_le_right least v)
      · exact ih (.inr hv)

/-- The star of a clause leads from its least variable to all of them. -/
theorem mem_links_star : (v, w) ∈ links .star vs ↔ IsLeast {u | u ∈ vs} v ∧ w ∈ vs := by
  cases vs with
  | nil => simp [links]
  | cons u us =>
    have hleast : IsLeast {x | x ∈ u :: us} (us.foldl min u) :=
      ⟨foldl_min_mem u us, fun x hx => foldl_min_le (List.mem_cons.1 hx)⟩
    rw [links, List.mem_map]
    constructor
    · rintro ⟨x, hx, heq⟩
      obtain ⟨rfl, rfl⟩ := Prod.mk.inj heq
      exact ⟨hleast, hx⟩
    · rintro ⟨hv, hw⟩
      exact ⟨w, hw, by rw [hleast.unique hv]⟩

/-- The clique of a clause has each two of its variables, in the order of their places. -/
theorem mem_links_clique (hne : v ≠ w) :
    (v, w) ∈ links .clique vs ∨ (w, v) ∈ links .clique vs ↔ v ∈ vs ∧ w ∈ vs := by
  induction vs with
  | nil => simp [links]
  | cons u vs ih =>
    have hpair {x y : Nat} : (x, y) ∈ links .clique (u :: vs) ↔
        (x = u ∧ y ∈ vs) ∨ (x, y) ∈ links .clique vs := by
      simp only [links, List.mem_append, List.mem_map, Prod.mk.injEq]
      constructor
      · rintro (⟨z, hz, rfl, rfl⟩ | h)
        · exact .inl ⟨rfl, hz⟩
        · exact .inr h
      · rintro (⟨rfl, hy⟩ | h)
        · exact .inl ⟨y, hy, rfl, rfl⟩
        · exact .inr h
    rw [hpair, hpair, List.mem_cons, List.mem_cons]
    have hswap : ((v = u ∧ w ∈ vs) ∨ (v, w) ∈ links .clique vs) ∨
        (w = u ∧ v ∈ vs) ∨ (w, v) ∈ links .clique vs ↔
        (v = u ∧ w ∈ vs) ∨ (w = u ∧ v ∈ vs) ∨
          ((v, w) ∈ links .clique vs ∨ (w, v) ∈ links .clique vs) := by tauto
    rw [hswap, ih]
    constructor
    · rintro (⟨rfl, hw⟩ | ⟨rfl, hv⟩ | ⟨hv, hw⟩)
      · exact ⟨.inl rfl, .inr hw⟩
      · exact ⟨.inr hv, .inl rfl⟩
      · exact ⟨.inr hv, .inr hw⟩
    · rintro ⟨rfl | hv, rfl | hw⟩
      · exact absurd rfl hne
      · exact .inl ⟨rfl, hw⟩
      · exact .inr (.inl ⟨rfl, hv⟩)
      · exact .inr (.inr ⟨hv, hw⟩)

/-! ### Edges -/

theorem edge?_eq_some_iff {p e : Nat × Nat} :
    edge? p = some e ↔ p.1 ≠ p.2 ∧ e = (min p.1 p.2 - 1, max p.1 p.2 - 1) := by
  rw [edge?]
  split
  · next heq => simp [heq]
  · next hne => simp [hne, eq_comm]

theorem mem_edges_iff {e : Nat × Nat} : e ∈ (graph shape f).edges ↔
    ∃ c ∈ f.clauses, ∃ p ∈ links shape c.vars, p.1 ≠ p.2 ∧
      e = (min p.1 p.2 - 1, max p.1 p.2 - 1) := by
  simp only [graph, mem_firsts_iff, List.mem_flatMap, List.mem_filterMap, edge?_eq_some_iff]

theorem edge_lt {e : Nat × Nat} (he : e ∈ (graph shape f).edges) : e.1 < e.2 := by
  obtain ⟨c, hc, p, hp, hne, rfl⟩ := mem_edges_iff.1 he
  obtain ⟨hv, hw⟩ := mem_of_mem_links hp
  have hpos := f.one_le_var hc hv
  have hpos' := f.one_le_var hc hw
  simp only
  omega

theorem nodup_ends_graph (shape : GraphShape) (f : Formula) : (graph shape f).ends.Nodup :=
  nodup_ends (nodup_firsts _) fun _ => edge_lt

/-- Two nodes are joined if a clause connects their variables, in one order or the other. -/
theorem mem_ends_iff : s(a, b) ∈ (graph shape f).ends ↔ a ≠ b ∧ ∃ c ∈ f.clauses,
    (a + 1, b + 1) ∈ links shape c.vars ∨ (b + 1, a + 1) ∈ links shape c.vars := by
  simp only [ends, List.mem_map, mem_edges_iff]
  constructor
  · rintro ⟨e, ⟨c, hc, ⟨v, w⟩, hp, hne, rfl⟩, heq⟩
    obtain ⟨hv, hw⟩ := mem_of_mem_links hp
    have hpos := f.one_le_var hc hv
    have hpos' := f.one_le_var hc hw
    simp only at hne heq hpos hpos'
    have hcases : (v = a + 1 ∧ w = b + 1) ∨ v = b + 1 ∧ w = a + 1 := by
      rcases Sym2.eq_iff.1 heq with ⟨h1, h2⟩ | ⟨h1, h2⟩ <;> omega
    refine ⟨by omega, c, hc, ?_⟩
    rcases hcases with ⟨rfl, rfl⟩ | ⟨rfl, rfl⟩
    · exact .inl hp
    · exact .inr hp
  · rintro ⟨hne, c, hc, hp | hp⟩
    · refine ⟨_, ⟨c, hc, _, hp, by simpa using hne, rfl⟩, Sym2.eq_iff.2 ?_⟩
      simp only
      omega
    · refine ⟨_, ⟨c, hc, _, hp, by simpa using hne.symm, rfl⟩, Sym2.eq_iff.2 ?_⟩
      simp only
      omega

theorem mem_ends_clique_iff : s(a, b) ∈ (graph .clique f).ends ↔
    a ≠ b ∧ ∃ c ∈ f.clauses, a + 1 ∈ c.vars ∧ b + 1 ∈ c.vars := by
  rw [mem_ends_iff]
  refine and_congr_right fun hne => exists_congr fun c => and_congr_right fun _ => ?_
  exact mem_links_clique (by omega)

theorem mem_ends_star_iff : s(a, b) ∈ (graph .star f).ends ↔ a ≠ b ∧ ∃ c ∈ f.clauses,
    (IsLeast {v | v ∈ c.vars} (a + 1) ∧ b + 1 ∈ c.vars) ∨
      (IsLeast {v | v ∈ c.vars} (b + 1) ∧ a + 1 ∈ c.vars) := by
  rw [mem_ends_iff]
  simp only [mem_links_star]

/-! ### Components -/

theorem ends_star_subset (f : Formula) : (graph .star f).ends ⊆ (graph .clique f).ends := by
  intro e
  induction e with
  | h a b =>
    rw [mem_ends_star_iff, mem_ends_clique_iff]
    rintro ⟨hne, c, hc, ⟨hleast, hmem⟩ | ⟨hleast, hmem⟩⟩
    · exact ⟨hne, c, hc, hleast.1, hmem⟩
    · exact ⟨hne, c, hc, hmem, hleast.1⟩

/-- In the star of a clause each variable is connected with the least one. -/
theorem reachable_least {c : Clause} (hc : c ∈ f.clauses)
    (hleast : IsLeast {v | v ∈ c.vars} (a + 1)) (hb : b + 1 ∈ c.vars) :
    (graph .star f).simple.Reachable a b := by
  by_cases heq : a = b
  · exact heq ▸ .rfl
  · exact SimpleGraph.Adj.reachable ⟨mem_ends_star_iff.2 ⟨heq, c, hc, .inl ⟨hleast, hb⟩⟩, heq⟩

theorem reachable_star_iff (f : Formula) (a b : Nat) :
    (graph .star f).simple.Reachable a b ↔ (graph .clique f).simple.Reachable a b := by
  constructor
  · exact SimpleGraph.Reachable.mono
      (SimpleGraph.fromEdgeSet_mono fun e he => ends_star_subset f he)
  · rintro ⟨path⟩
    induction path with
    | nil => exact .rfl
    | @cons a b _ hadj _ ih =>
      obtain ⟨-, c, hc, ha, hb⟩ := mem_ends_clique_iff.1 hadj.1
      -- the least variable of the clause that joins the two
      obtain ⟨least, hleast⟩ : ∃ least, IsLeast {v | v ∈ c.vars} least :=
        ⟨_, Nat.isLeast_find (p := fun v => v ∈ c.vars) ⟨_, ha⟩⟩
      have hpos := f.one_le_var hc hleast.1
      obtain ⟨hub, rfl⟩ : ∃ hub, least = hub + 1 := ⟨_, (Nat.sub_add_cancel hpos).symm⟩
      exact ((reachable_least hc hleast ha).symm.trans (reachable_least hc hleast hb)).trans ih

/-! ### The two shapes -/

theorem length_edges_star_le (f : Formula) :
    (graph .star f).edges.length ≤ (graph .clique f).edges.length := by
  have hle := ((nodup_ends_graph .star f).subperm (ends_star_subset f)).length_le
  simpa only [Multigraph.ends, List.length_map] using hle

/-- Of a formula with fewer variables than there are words, and fewer pairs of variables in clauses,
both graphs can be built. Each has a node for each variable and joins no pair of nodes twice, and no
node with itself: as a clique those whose variables share a clause, as a star those of which one has
the least variable of a clause and the other a further one. The star joins nothing that the clique
does not, and has the same variables connected by paths. -/
theorem interaction_graphs_exact (hvars : f.varCount < UInt32.size)
    (hpairs : (graph .clique f).edges.length < UInt32.size) :
    ∃ clique star, graph? .clique f = .ok clique ∧ graph? .star f = .ok star ∧
      clique.nodeCount = f.varCount ∧ star.nodeCount = f.varCount ∧
      clique.ends.Nodup ∧ star.ends.Nodup ∧
      (∀ a b, s(a, b) ∈ clique.ends ↔
        a ≠ b ∧ ∃ c ∈ f.clauses, a + 1 ∈ c.vars ∧ b + 1 ∈ c.vars) ∧
      (∀ a b, s(a, b) ∈ star.ends ↔ a ≠ b ∧ ∃ c ∈ f.clauses,
        (IsLeast {v | v ∈ c.vars} (a + 1) ∧ b + 1 ∈ c.vars) ∨
          (IsLeast {v | v ∈ c.vars} (b + 1) ∧ a + 1 ∈ c.vars)) ∧
      star.ends ⊆ clique.ends ∧
      ∀ a b, star.simple.Reachable a b ↔ clique.simple.Reachable a b := by
  have hclique : graph? .clique f = .ok (graph .clique f) := graph?_eq_ok_iff.2
    ⟨rfl, Nat.le_of_lt_succ hvars, Nat.le_of_lt_succ hpairs⟩
  have hstar : graph? .star f = .ok (graph .star f) := graph?_eq_ok_iff.2
    ⟨rfl, Nat.le_of_lt_succ hvars, (length_edges_star_le f).trans (Nat.le_of_lt_succ hpairs)⟩
  exact ⟨graph .clique f, graph .star f, hclique, hstar, rfl, rfl,
    nodup_ends_graph .clique f, nodup_ends_graph .star f, fun a b => mem_ends_clique_iff,
    fun a b => mem_ends_star_iff, ends_star_subset f, reachable_star_iff f⟩

/-- Two clauses of which the first has its least variable in the middle. -/
def twoClauses : Formula :=
  .ofClauses 6 [.ofLiterals [.ofVar 4 true, .ofVar 1 false, .ofVar 3 true],
    .ofLiterals [.ofVar 5 true, .ofVar 2 true]]

/-- The variables 3 and 4 are joined in the clique only, and connected in the star. -/
theorem interaction_graphs_of_two_clauses :
    twoClauses.varCount < UInt32.size ∧ (graph .clique twoClauses).edges.length < UInt32.size ∧
      ∃ clique star, graph? .clique twoClauses = .ok clique ∧ graph? .star twoClauses = .ok star ∧
        clique.nodeCount = 6 ∧ s(2, 3) ∈ clique.ends ∧ s(2, 3) ∉ star.ends ∧
        star.simple.Reachable 2 3 := by
  have hvars : twoClauses.varCount < UInt32.size := by decide
  have hpairs : (graph .clique twoClauses).edges.length < UInt32.size :=
    Nat.lt_of_le_of_lt (Multigraph.length_firsts_le _) (by decide)
  obtain ⟨clique, star, hclique, hstar, hcount, -, -, -, hmem, hmemStar, -, hreach⟩ :=
    interaction_graphs_exact hvars hpairs
  have hclauses : twoClauses.clauses = [.ofLiterals [.ofVar 4 true, .ofVar 1 false, .ofVar 3 true],
      .ofLiterals [.ofVar 5 true, .ofVar 2 true]] := by decide
  have hjoined : s(2, 3) ∈ clique.ends :=
    (hmem 2 3).2 ⟨by decide, _, hclauses ▸ List.mem_cons_self, by decide, by decide⟩
  have hlink : clique.simple.Adj 2 3 := ⟨hjoined, by decide⟩
  refine ⟨hvars, hpairs, clique, star, hclique, hstar, hcount, hjoined, fun h => ?_,
    (hreach 2 3).2 hlink.reachable⟩
  -- a clause with the variable 3 or 4 has the variable 1 as well
  have hone : ∀ c ∈ twoClauses.clauses, 3 ∈ c.vars ∨ 4 ∈ c.vars → 1 ∈ c.vars := by decide
  obtain ⟨-, c, hc, ⟨hleast, -⟩ | ⟨hleast, -⟩⟩ := (hmemStar 2 3).1 h
  · exact absurd (hleast.2 (hone c hc (.inl hleast.1))) (by decide)
  · exact absurd (hleast.2 (hone c hc (.inr hleast.1))) (by decide)

/-- A graph has no room for more nodes than memory has, and no numbers for all pairs of so many
variables. -/
theorem graph_of_too_many_variables :
    (∃ count, graph? .clique (crowd 92683 (by decide)) = .error (.overflow (.edges count))) ∧
      ¬ ∀ (shape : GraphShape) (f : Formula),
        ∃ g, graph? shape f = .ok g ∧ g.nodeCount = f.varCount := by
  have hvars : (crowd 92683 (by decide)).varCount < UInt32.size := by decide
  refine ⟨⟨_, graph?_of_crowded hvars (lt_edges_crowd _ (by decide))⟩, fun h => ?_⟩
  obtain ⟨g, hg, -⟩ := h .clique (.ofClauses 1152921504606846976 [])
  have hfull : graph? .clique (.ofClauses 1152921504606846976 []) =
      .error (.overflow (.variables 1152921504606846976)) := if_neg (by decide)
  exact absurd (hg.symm.trans hfull) (by simp)

end Interaction
end DiagramCompiler
