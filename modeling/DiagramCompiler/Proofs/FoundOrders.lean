import DiagramCompiler.Proofs.CrowdedGraphs

/-! Orders that are found.
Every heuristic answers with an order of all variables of the formula, whatever the random choices
are, wherever the budgets cut the relaxations and whatever order the search starts from. Relaxing
and choosing among relaxations keep the number of variables, and a graph of the variables can always
be sorted. All that can fail is to reserve memory for the population of a triage, and to number the
edges of a graph. -/
namespace DiagramCompiler

namespace VariableOrder

variable {clauses : List Clause} {refine : Nat → Nat → VariableOrder → Relaxation} {n : Nat}

theorem length_relaxFrom (rounds : Option Nat) (o : VariableOrder) (span : Nat) :
    (relaxFrom clauses rounds o span).order.length = o.length := by
  fun_induction relaxFrom clauses rounds o span with
  | case1 => rfl
  | case2 rounds o span hrounds next nextSpan hless rest ih => exact ih.trans (length_step _ _)
  | case3 => rfl

theorem length_relax (rounds : Option Nat) (o : VariableOrder) :
    (relax clauses rounds o).order.length = o.length := length_relaxFrom rounds o _

/-- A triage that starts from orders of one length ends with such orders. -/
theorem length_of_mem_triage
    (hrefine : ∀ round index o, (refine round index o).order.length = o.length) {round : Nat}
    {population : List Relaxation} (hall : ∀ r ∈ population, r.order.length = n) :
    ∀ r ∈ triage refine round population, r.order.length = n := by
  fun_induction triage refine round population with
  | case1 round population kept hless ih =>
    refine ih fun r hr => ?_
    obtain ⟨member, hmember, rfl⟩ := List.mem_map.1 hr
    have hkept : member.1 ∈ kept := List.fst_mem_of_mem_zipIdx hmember
    exact (hrefine _ _ _).trans (hall member.1 (List.mem_of_mem_filter hkept))
  | case2 round population kept hless => exact fun r hr => hall r (List.mem_of_mem_filter hr)

theorem foldl_best_mem (best : Relaxation) (rest : List Relaxation) :
    rest.foldl (fun best r => if r.span < best.span then r else best) best ∈ best :: rest := by
  induction rest generalizing best with
  | nil => exact List.mem_cons_self
  | cons next rest ih =>
    rw [List.foldl_cons]
    split
    · exact .tail _ (ih next)
    · rcases List.mem_cons.1 (ih best) with heq | hmem
      · rw [heq]; exact List.mem_cons_self
      · exact .tail _ (.tail _ hmem)

theorem best?_mem {population : List Relaxation} {r : Relaxation} (h : best? population = some r) :
    r ∈ population := by
  cases population with
  | nil => cases h
  | cons first rest => exact Option.some.inj h ▸ foldl_best_mem first rest

theorem exists_ofList? {vars : List Nat} (h : vars.Perm (List.range' 1 n)) :
    ∃ o, ofList? vars = .ok o ∧ o.length = n :=
  ⟨(identity n).reorder vars h, ofList?_toList ((identity n).reorder vars h),
    (length_reorder (identity n) vars h).trans (length_identity n)⟩

end VariableOrder

namespace Interaction

variable {shape : GraphShape} {f : Formula}

theorem exists_order (h : (graph shape f).IsNumbered) :
    ∃ found, order shape f = .ok found ∧ found.length = f.varCount := by
  obtain ⟨nodes, hnodes, hperm⟩ := exists_sorted (isLoopFree_graph shape f)
  have hvars : (nodes.map (· + 1)).Perm (List.range' 1 f.varCount) := by
    have hshift : (graph shape f).nodes.map (· + 1) = List.range' 1 f.varCount := by
      rw [Multigraph.nodes, List.range_eq_range']
      exact List.range'_succ_left.symm
    exact hshift ▸ hperm.map (· + 1)
  obtain ⟨found, hfound, hlength⟩ := VariableOrder.exists_ofList? hvars
  exact ⟨found, order_eq_ok_iff.2 ⟨_, nodes, graph?_eq_ok_iff.2 ⟨rfl, h⟩, hnodes, hfound⟩, hlength⟩

end Interaction

namespace Options

variable {o : Options} {conditions : Conditions} {f : Formula} {start : Option VariableOrder}

theorem length_randomOrder (f : Formula) (seed : Nat) :
    (randomOrder f seed).length = f.varCount := VariableOrder.length_shuffled _ _

theorem length_forceOrder (hstart : ∀ order ∈ start, order.length = f.varCount) :
    (o.forceOrder conditions f start).length = f.varCount := by
  rw [forceOrder, VariableOrder.length_relax]
  cases start with
  | none => exact length_randomOrder f _
  | some order => exact hstart order rfl

theorem length_triageOrder (hstart : ∀ order ∈ start, order.length = f.varCount) :
    (o.triageOrder conditions f start).length = f.varCount := by
  rw [triageOrder]
  split
  · next best hbest =>
    refine VariableOrder.length_of_mem_triage (fun _ _ _ => VariableOrder.length_relax _ _)
      (fun r hr => ?_) best (VariableOrder.best?_mem hbest)
    obtain ⟨index, -, rfl⟩ := List.mem_map.1 hr
    refine (VariableOrder.length_relax _ _).trans ?_
    simp only
    split
    · exact hstart _ rfl
    · exact length_randomOrder f _
  · exact VariableOrder.length_identity _

theorem start?_of_length (hstart : ∀ order ∈ start, order.length = f.varCount) :
    start? f start = .ok start := by
  cases start with
  | none => rfl
  | some order => exact if_pos (hstart order rfl)

/-- Whether there is memory for the population of a triage and there are numbers for the edges of a
graph of the variables. -/
structure Fits (o : Options) (f : Formula) : Prop where
  seeds : o.heuristic = .forceTriage → o.triageSeeds ≤ Memory.maxRelaxations
  edges : o.heuristic = .degree →
    (Interaction.graph o.graph f).edges.length ≤ Multigraph.maxCount

theorem Fits.exists_findOrder (h : o.Fits f) (conditions : Conditions)
    (hvars : f.varCount < UInt32.size) (hstart : ∀ order ∈ start, order.length = f.varCount) :
    ∃ order, o.findOrder conditions f start = .ok order ∧ order.length = f.varCount := by
  have hcheck : checkVars f = .ok () := if_pos (Nat.le_trans (Nat.le_of_lt hvars) (by decide))
  rw [findOrder]
  cases hheuristic : o.heuristic with
  | off =>
    refine ⟨.identity f.varCount, ?_, VariableOrder.length_identity _⟩
    simp only [hcheck]
    rfl
  | force =>
    refine ⟨o.forceOrder conditions f start, ?_, length_forceOrder hstart⟩
    simp only [start?_of_length hstart, hcheck]
    rfl
  | forceTriage =>
    have hseeds : o.checkSeeds = .ok () := if_pos (h.seeds hheuristic)
    refine ⟨o.triageOrder conditions f start, ?_, length_triageOrder hstart⟩
    simp only [start?_of_length hstart, hseeds, hcheck]
    rfl
  | degree => exact Interaction.exists_order ⟨Nat.le_of_lt_succ hvars, h.edges hheuristic⟩

end Options
end DiagramCompiler
