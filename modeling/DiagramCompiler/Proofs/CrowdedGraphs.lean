import Mathlib.Tactic.Ring
import DiagramCompiler.Proofs.OrientedEdges

/-! Graphs with too many edges.
A list of `n` elements has `n * (n - 1) / 2` pairs. So many edges join the variables of a clause with
`n` variables, and so many the clauses where `n` of them share a variable; from `n = 92683` on there
are no numbers for them. -/
namespace DiagramCompiler

theorem Multigraph.firstsFrom_eq_self {α : Type} [BEq α] [Hashable α] [LawfulBEq α]
    [LawfulHashable α] {met : Std.HashSet α} {as : List α} (hnodup : as.Nodup)
    (hnew : ∀ a ∈ as, a ∉ met) : firstsFrom met as = as := by
  induction as generalizing met with
  | nil => rfl
  | cons a as ih =>
    obtain ⟨ha, hnodup⟩ := List.nodup_cons.1 hnodup
    have hfirst : met.contains a = false := by simpa using hnew a (.head _)
    rw [firstsFrom, hfirst, if_neg (by decide), ih hnodup fun b hb => ?_]
    have hne : a ≠ b := fun heq => ha (heq ▸ hb)
    simp [hne, hnew b (.tail _ hb)]

theorem Multigraph.firsts_eq_self {α : Type} [BEq α] [Hashable α] [LawfulBEq α] [LawfulHashable α]
    {as : List α} (hnodup : as.Nodup) : firsts as = as :=
  firstsFrom_eq_self hnodup fun _ _ => Std.HashSet.not_mem_empty

namespace Interaction

/-! ### Pairs -/

theorem two_mul_length_pairs (as : List Nat) :
    2 * (pairs as).length = as.length * (as.length - 1) := by
  induction as with
  | nil => rfl
  | cons a as ih =>
    rw [pairs, List.length_append, List.length_map, Nat.mul_add, ih, List.length_cons,
      Nat.add_sub_cancel]
    cases as.length with
    | zero => rfl
    | succ n => rw [Nat.add_sub_cancel]; ring

theorem lt_of_pairs {n count : Nat} (hn : 92683 ≤ n) (hcount : 2 * count = n * (n - 1)) :
    Multigraph.maxCount < count := by
  have hle : 92683 * 92682 ≤ n * (n - 1) := Nat.mul_le_mul hn (by omega)
  rw [Multigraph.maxCount]
  omega

theorem lt_of_mem_pairs {as : List Nat} (h : as.Pairwise (· < ·)) {p : Nat × Nat}
    (hp : p ∈ pairs as) : p.1 < p.2 := by
  induction as with
  | nil => exact absurd hp List.not_mem_nil
  | cons a as ih =>
    obtain ⟨hlt, hrest⟩ := List.pairwise_cons.1 h
    rcases List.mem_append.1 hp with hp | hp
    · obtain ⟨b, hb, rfl⟩ := List.mem_map.1 hp
      exact hlt b hb
    · exact ih hrest hp

theorem nodup_pairs {as : List Nat} (h : as.Nodup) : (pairs as).Nodup := by
  induction as with
  | nil => exact List.nodup_nil
  | cons a as ih =>
    obtain ⟨ha, hnodup⟩ := List.nodup_cons.1 h
    refine List.nodup_append'.2 ⟨hnodup.map fun b c heq => congrArg Prod.snd heq, ih hnodup, ?_⟩
    -- the first element is in none of the other pairs
    intro p hfirst hrest
    obtain ⟨b, -, rfl⟩ := List.mem_map.1 hfirst
    exact ha (mem_of_mem_pairs hrest).1

theorem links_clique (vs : List Nat) : links .clique vs = pairs vs := by
  induction vs with
  | nil => rfl
  | cons v vs ih => rw [links, ih, pairs]

/-! ### A clause with many variables -/

def firstLiterals (n : Nat) : List Literal := (List.range' 1 n).map fun v => .ofVar v true

theorem vars_firstLiterals {n : Nat} (hn : n < 2147483648) :
    (firstLiterals n).map Literal.var = List.range' 1 n := by
  rw [firstLiterals, List.map_map]
  refine (List.map_congr_left fun v hv => ?_).trans (List.map_id _)
  have hle : v ≤ 2147483647 := by
    have := (List.mem_range'_1.1 hv).2
    omega
  show ((min v 2147483647 : Nat) : Int).natAbs = v
  rw [Nat.min_eq_left hle, Int.natAbs_natCast]

theorem nodup_firstLiterals {n : Nat} (hn : n < 2147483648) : (firstLiterals n).Nodup :=
  .of_map Literal.var (vars_firstLiterals hn ▸ List.nodup_range')

def firstClause (n : Nat) (hn : n < 2147483648) : Clause :=
  ⟨firstLiterals n, nodup_firstLiterals hn⟩

theorem vars_firstClause {n : Nat} (hn : n < 2147483648) :
    (firstClause n hn).vars = List.range' 1 n := vars_firstLiterals hn

theorem isTautology_firstClause {n : Nat} (hn : n < 2147483648) :
    (firstClause n hn).isTautology = false := by
  refine List.any_eq_false.2 fun l hl hopposite => ?_
  obtain ⟨v, hv, rfl⟩ := List.mem_map.1 hl
  obtain ⟨w, -, hw⟩ := List.mem_map.1 (of_decide_eq_true hopposite)
  have hvalue := congrArg Literal.value hw
  have hpos := (List.mem_range'_1.1 hv).1
  simp only [Literal.negate, Literal.ofVar, if_true] at hvalue
  omega

theorem le_of_mem_firstClause {n v : Nat} (hn : n < 2147483648)
    (h : v ∈ (firstClause n hn).vars) : v ≤ n := by
  rw [vars_firstClause] at h
  have := (List.mem_range'_1.1 h).2
  omega

/-- The formula of one clause with the first variables. -/
def crowd (n : Nat) (hn : n < 2147483648) : Formula where
  clauses := [firstClause n hn]
  varCount := n
  informative _ hc := List.mem_singleton.1 hc ▸ isTautology_firstClause hn
  vars_le _ hc _ hv := le_of_mem_firstClause hn (List.mem_singleton.1 hc ▸ hv)
  descriptions := .empty
  metadata := .empty
  source := none

theorem two_mul_length_edges_crowd {n : Nat} (hn : n < 2147483648) :
    2 * (graph .clique (crowd n hn)).edges.length = n * (n - 1) := by
  have hrise : (List.range' 1 n).Pairwise (· < ·) := List.pairwise_lt_range'
  have hpos : ∀ p ∈ pairs (List.range' 1 n), 1 ≤ p.1 ∧ p.1 < p.2 := fun p hp =>
    ⟨(List.mem_range'_1.1 (mem_of_mem_pairs hp).1).1, lt_of_mem_pairs hrise hp⟩
  have hedges : (pairs (List.range' 1 n)).filterMap edge? =
      (pairs (List.range' 1 n)).map fun p => (p.1 - 1, p.2 - 1) := by
    rw [← List.filterMap_eq_map]
    refine List.filterMap_congr fun p hp => ?_
    have hlt := (hpos p hp).2
    rw [edge?, if_neg (Nat.ne_of_lt hlt), Nat.min_eq_left hlt.le, Nat.max_eq_right hlt.le]
    rfl
  have hnodup : ((pairs (List.range' 1 n)).map fun p => (p.1 - 1, p.2 - 1)).Nodup := by
    refine (nodup_pairs List.nodup_range').map_on fun p hp q hq heq => ?_
    obtain ⟨hp1, hp2⟩ := hpos p hp
    obtain ⟨hq1, hq2⟩ := hpos q hq
    obtain ⟨h1, h2⟩ := Prod.mk.inj heq
    exact Prod.ext (by omega) (by omega)
  have hgraph : (graph .clique (crowd n hn)).edges =
      (pairs (List.range' 1 n)).map fun p => (p.1 - 1, p.2 - 1) := by
    have hlinks : (crowd n hn).clauses.flatMap
        (fun c => (links .clique c.vars).filterMap edge?) =
          (pairs (List.range' 1 n)).filterMap edge? := by
      simp only [crowd, List.flatMap_singleton, vars_firstClause, links_clique]
    rw [graph]
    simp only
    rw [hlinks, hedges, Multigraph.firsts_eq_self hnodup]
  rw [hgraph, List.length_map, two_mul_length_pairs, List.length_range']

theorem lt_edges_crowd {n : Nat} (hn : n < 2147483648) (hmany : 92683 ≤ n) :
    Multigraph.maxCount < (graph .clique (crowd n hn)).edges.length :=
  lt_of_pairs hmany (two_mul_length_edges_crowd hn)

section

variable {shape : GraphShape} {f : Formula} (hvars : f.varCount < UInt32.size)
  (h : Multigraph.maxCount < (graph shape f).edges.length)

include hvars h

theorem graph?_of_crowded :
    graph? shape f = .error (.overflow (.edges (graph shape f).edges.length)) := by
  have hnodes : ¬ Multigraph.maxCount < (graph shape f).nodeCount :=
    Nat.not_lt.2 (Nat.le_of_lt_succ hvars)
  have hmemory : f.varCount ≤ Memory.maxNodes := Nat.le_trans (Nat.le_of_lt hvars) (by decide)
  rw [graph?, if_pos hmemory, numbered, if_neg hnodes, if_pos h]

end

/-! ### Many clauses with one variable -/

def company (n : Nat) : Formula := .ofClauses 1 (List.replicate n (.ofLiterals [.ofVar 1 true]))

theorem clauses_company (n : Nat) :
    (company n).clauses = List.replicate n (.ofLiterals [.ofVar 1 true]) := by
  rw [company, Formula.clauses_ofClauses, List.filter_replicate]
  rfl

theorem varCount_company (n : Nat) : (company n).varCount = 1 := by
  have hkept : (List.replicate n (Clause.ofLiterals [.ofVar 1 true])).filter
      (fun c => !c.isTautology) = List.replicate n (.ofLiterals [.ofVar 1 true]) := clauses_company n
  change Formula.largestVar _ 1 = 1
  rw [hkept]
  induction n with
  | zero => rfl
  | succ n ih => exact ih (clauses_company n)

theorem occurrences_company (n var : Nat) :
    occurrences (company n).clauses var = if var = 1 then List.range n else [] := by
  have hvars : (Clause.ofLiterals [.ofVar 1 true]).vars = [1] := rfl
  have hplaces : occurrences (company n).clauses var =
      (List.replicate n (Clause.ofLiterals [.ofVar 1 true])).zipIdx.flatMap fun c =>
        List.replicate ([1].count var) c.2 := by
    rw [clauses_company]
    refine List.flatMap_congr fun c hc => ?_
    rw [List.eq_of_mem_replicate (List.fst_mem_of_mem_zipIdx hc), hvars]
  rw [hplaces]
  by_cases hvar : var = 1
  · subst hvar
    have hmap := List.zipIdx_map_snd 0 (List.replicate n (Clause.ofLiterals [.ofVar 1 true]))
    rw [List.length_replicate, ← List.range_eq_range'] at hmap
    rw [if_pos rfl, ← hmap]
    exact List.flatMap_pure_eq_map _ _
  · have hnone : [1].count var = 0 := List.count_eq_zero.2 (by simpa using hvar)
    simp [hnone, hvar]

theorem two_mul_length_edges_company (n : Nat) :
    2 * (clauseGraph (company n)).edges.length = n * (n - 1) := by
  have hpairs : (List.range ((company n).varCount + 1)).flatMap
      (fun v => pairs (occurrences (company n).clauses v)) = pairs (List.range n) := by
    rw [varCount_company]
    simp [List.range_succ, occurrences_company, pairs]
  rw [clauseGraph]
  simp only
  rw [hpairs, Multigraph.firsts_eq_self (nodup_pairs List.nodup_range), two_mul_length_pairs,
    List.length_range]

theorem sortClauses_of_crowded {f : Formula} (hvars : f.varCount < Memory.maxLists)
    (hclauses : f.clauses.length ≤ Multigraph.maxCount)
    (h : Multigraph.maxCount < (clauseGraph f).edges.length) :
    sortClauses f = .error (.overflow (.edges (clauseGraph f).edges.length)) := by
  have hnodes : ¬ Multigraph.maxCount < (clauseGraph f).nodeCount := Nat.not_lt.2 hclauses
  rw [sortClauses, clauseGraph?, if_pos hvars, numbered, if_neg hnodes, if_pos h]
  rfl

theorem sortClauses_company {n : Nat} (hmany : 92683 ≤ n) (hn : n ≤ Multigraph.maxCount) :
    ∃ count, sortClauses (company n) = .error (.overflow (.edges count)) := by
  have hvars : (company n).varCount < Memory.maxLists := varCount_company n ▸ by decide
  have hclauses : (company n).clauses.length ≤ Multigraph.maxCount := by
    rwa [clauses_company, List.length_replicate]
  exact ⟨_, sortClauses_of_crowded hvars hclauses
    (lt_of_pairs hmany (two_mul_length_edges_company n))⟩

end Interaction
end DiagramCompiler
