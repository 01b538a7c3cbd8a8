import DiagramCompiler.Multigraph.Orientation
import DiagramCompiler.Multigraph.Toposort
import DiagramCompiler.Options
import DiagramCompiler.VariableOrder

/-! Ordering by degree of interaction.
Variables that share a clause are connected, the edges are directed from the variable of lower
degree to that of higher degree, and the topological order is the order of the variables. Clauses
that share a variable can be sorted in the same way. -/
namespace DiagramCompiler
namespace Interaction

def links : GraphShape → List Nat → List (Nat × Nat)
  | _, [] => []
  | .clique, v :: vs => vs.map (fun w => (v, w)) ++ links .clique vs
  | .star, v :: vs => (v :: vs).map fun w => (vs.foldl min v, w)

theorem foldl_min_mem (v : Nat) (vs : List Nat) : vs.foldl min v ∈ v :: vs := by
  induction vs generalizing v with
  | nil => exact .head _
  | cons w vs ih =>
    rw [List.foldl_cons]
    rcases List.mem_cons.1 (ih (min v w)) with h | h
    · rcases Nat.le_total v w with hvw | hvw
      · rw [h, Nat.min_eq_left hvw]; exact .head _
      · rw [h, Nat.min_eq_right hvw]; exact .tail _ (.head _)
    · exact .tail _ (.tail _ h)

theorem mem_of_mem_links {shape : GraphShape} {vs : List Nat} {p : Nat × Nat}
    (h : p ∈ links shape vs) : p.1 ∈ vs ∧ p.2 ∈ vs := by
  fun_induction links shape vs with
  | case1 => simp at h
  | case2 v vs ih =>
    rcases List.mem_append.1 h with h | h
    · obtain ⟨w, hw, rfl⟩ := List.mem_map.1 h
      exact ⟨.head _, .tail _ hw⟩
    · exact ⟨.tail _ (ih h).1, .tail _ (ih h).2⟩
  | case3 v vs =>
    obtain ⟨w, hw, rfl⟩ := List.mem_map.1 h
    exact ⟨foldl_min_mem v vs, hw⟩

/-- The edge between the nodes of two variables; variable `v` is node `v - 1`. -/
def edge? (p : Nat × Nat) : Option (Nat × Nat) :=
  if p.1 = p.2 then none else some (min p.1 p.2 - 1, max p.1 p.2 - 1)

/-- The graph of the variables that share clauses, without parallel edges. -/
def graph (shape : GraphShape) (f : Formula) : Multigraph where
  nodeCount := f.varCount
  edges := Multigraph.firsts (f.clauses.flatMap fun c => (links shape c.vars).filterMap edge?)
  inRange e he := by
    obtain ⟨c, hc, he⟩ := List.mem_flatMap.1 (Multigraph.mem_of_mem_firsts he)
    obtain ⟨p, hp, he⟩ := List.mem_filterMap.1 he
    obtain ⟨h1, h2⟩ := mem_of_mem_links hp
    have l1 := f.one_le_var hc h1
    have l2 := f.one_le_var hc h2
    have u1 := f.vars_le c hc _ h1
    have u2 := f.vars_le c hc _ h2
    rw [edge?] at he
    split at he
    · simp at he
    · simp only [Option.some.injEq] at he
      subst he
      exact ⟨by simp only; omega, by simp only; omega⟩

/-- A graph, if there are numbers for all of its nodes and edges. -/
def numbered (g : Multigraph) : Except Failure Multigraph :=
  if Multigraph.maxCount < g.nodeCount then .error (.overflow (.nodes g.nodeCount))
  else if Multigraph.maxCount < g.edges.length then .error (.overflow (.edges g.edges.length))
  else .ok g

theorem numbered_eq_ok_iff {g g' : Multigraph} : numbered g = .ok g' ↔ g' = g ∧ g.IsNumbered := by
  rw [numbered]
  split
  · next hnodes => exact ⟨nofun, fun h => absurd hnodes (Nat.not_lt.2 h.2.nodes)⟩
  · next hnodes =>
    split
    · next hedges => exact ⟨nofun, fun h => absurd hedges (Nat.not_lt.2 h.2.edges)⟩
    · next hedges =>
      refine ⟨fun h => ?_, fun h => congrArg _ h.1.symm⟩
      exact ⟨(Except.ok.inj h).symm, Nat.not_lt.1 hnodes, Nat.not_lt.1 hedges⟩

theorem exists_overflow_of_numbered {g : Multigraph} {failure : Failure}
    (h : numbered g = .error failure) : ∃ cause, failure = .overflow cause := by
  rw [numbered] at h
  split at h
  · exact ⟨_, (Except.error.inj h).symm⟩
  · split at h
    · exact ⟨_, (Except.error.inj h).symm⟩
    · cases h

/-- The graph of the variables, if there are memory and numbers for it. -/
def graph? (shape : GraphShape) (f : Formula) : Except Failure Multigraph :=
  if f.varCount ≤ Memory.maxNodes then numbered (graph shape f)
  else .error (.overflow (.variables f.varCount))

theorem graph?_eq_ok_iff {shape : GraphShape} {f : Formula} {g : Multigraph} :
    graph? shape f = .ok g ↔ g = graph shape f ∧ (graph shape f).IsNumbered := by
  rw [graph?]
  split
  · exact numbered_eq_ok_iff
  · next hvars =>
    have hmany : Multigraph.maxCount ≤ Memory.maxNodes := by decide
    exact ⟨nofun, fun h => absurd (Nat.le_trans h.2.nodes hmany) hvars⟩

theorem exists_overflow_of_graph? {shape : GraphShape} {f : Formula} {failure : Failure}
    (h : graph? shape f = .error failure) : ∃ cause, failure = .overflow cause := by
  rw [graph?] at h
  split at h
  · exact exists_overflow_of_numbered h
  · exact ⟨_, (Except.error.inj h).symm⟩

/-- The pairs of elements of a list, in the order of their places. -/
def pairs : List Nat → List (Nat × Nat)
  | [] => []
  | a :: as => as.map (fun b => (a, b)) ++ pairs as

theorem mem_of_mem_pairs {as : List Nat} {p : Nat × Nat} (h : p ∈ pairs as) :
    p.1 ∈ as ∧ p.2 ∈ as := by
  induction as with
  | nil => simp [pairs] at h
  | cons a as ih =>
    rcases List.mem_append.1 h with h | h
    · obtain ⟨b, hb, rfl⟩ := List.mem_map.1 h
      exact ⟨.head _, .tail _ hb⟩
    · exact ⟨.tail _ (ih h).1, .tail _ (ih h).2⟩

/-- The places of the clauses with a variable, each as often as the clause has the variable. -/
def occurrences (clauses : List Clause) (var : Nat) : List Nat :=
  clauses.zipIdx.flatMap fun c => List.replicate (c.1.vars.count var) c.2

theorem lt_of_mem_occurrences {clauses : List Clause} {var i : Nat}
    (h : i ∈ occurrences clauses var) : i < clauses.length := by
  obtain ⟨c, hc, h⟩ := List.mem_flatMap.1 h
  obtain rfl := List.eq_of_mem_replicate h
  have := List.mem_zipIdx hc
  omega

/-- The graph of the clauses that share variables, without parallel edges. -/
def clauseGraph (f : Formula) : Multigraph where
  nodeCount := f.clauses.length
  edges := Multigraph.firsts
    ((List.range (f.varCount + 1)).flatMap fun v => pairs (occurrences f.clauses v))
  inRange e he := by
    obtain ⟨v, _, he⟩ := List.mem_flatMap.1 (Multigraph.mem_of_mem_firsts he)
    exact ⟨lt_of_mem_occurrences (mem_of_mem_pairs he).1,
      lt_of_mem_occurrences (mem_of_mem_pairs he).2⟩

/-- The graph of the clauses, if there are memory for lists of their places and numbers for it. -/
def clauseGraph? (f : Formula) : Except Failure Multigraph :=
  if f.varCount < Memory.maxLists then numbered (clauseGraph f)
  else .error (.overflow (.variables f.varCount))

theorem clauseGraph?_eq_ok_iff {f : Formula} {g : Multigraph} : clauseGraph? f = .ok g ↔
    g = clauseGraph f ∧ f.varCount < Memory.maxLists ∧ (clauseGraph f).IsNumbered := by
  rw [clauseGraph?]
  split
  · next hvars => simp [numbered_eq_ok_iff, hvars]
  · next hvars => exact ⟨nofun, fun h => absurd h.2.1 hvars⟩

theorem exists_overflow_of_clauseGraph? {f : Formula} {failure : Failure}
    (h : clauseGraph? f = .error failure) : ∃ cause, failure = .overflow cause := by
  rw [clauseGraph?] at h
  split at h
  · exact exists_overflow_of_numbered h
  · exact ⟨_, (Except.error.inj h).symm⟩

def sorted (g : Multigraph) : Except Failure (List Nat) :=
  match g.orient.toposort with
  | .ok nodes => .ok nodes
  | .error node => .error (.orientationCycle node)

def order (shape : GraphShape) (f : Formula) : Except Failure VariableOrder := do
  let g ← graph? shape f
  let nodes ← sorted g
  match VariableOrder.ofList? (nodes.map (· + 1)) with
  | .ok o => return o
  | .error fault => throw (.invalidOrder fault.message)

theorem order_eq_ok_iff {shape : GraphShape} {f : Formula} {found : VariableOrder} :
    order shape f = .ok found ↔ ∃ g nodes, graph? shape f = .ok g ∧ sorted g = .ok nodes ∧
      VariableOrder.ofList? (nodes.map (· + 1)) = .ok found := by
  simp only [order, bind_eq_ok_iff, exists_and_left]
  refine exists_congr fun g => and_congr_right fun _ => exists_congr fun nodes =>
    and_congr_right fun _ => ?_
  cases hfound : VariableOrder.ofList? (nodes.map (· + 1)) with
  | error fault => simp [throw, throwThe, MonadExceptOf.throw]
  | ok o => simp [pure, Except.pure]

def sortClauses (f : Formula) : Except Failure Formula := do
  let g ← clauseGraph? f
  let positions ← sorted g
  return f.permute positions

theorem sortClauses_eq_ok_iff {f f' : Formula} : sortClauses f = .ok f' ↔
    ∃ g positions, clauseGraph? f = .ok g ∧ sorted g = .ok positions ∧
      f.permute positions = f' := by
  simp only [sortClauses, bind_eq_ok_iff, exists_and_left, pure, Except.pure, Except.ok.injEq]

end Interaction
end DiagramCompiler
