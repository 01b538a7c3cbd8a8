import DiagramCompiler.Proofs.MadeDumps
import Mathlib.Data.List.Range

/-! Clauses that are sorted.
Every way of sorting clauses takes each of them exactly once, so that a formula keeps its values. A
topological order has each node once: while the nodes are visited, one is either still fresh, or its
visit has begun and is yet to end, or its visit has ended. -/
namespace DiagramCompiler

namespace Multigraph

def begun (visits : List Visit) : List Nat :=
  visits.filterMap fun
    | .enter _ => none
    | .leave node => some node

theorem begun_enters (nodes : List Nat) (visits : List Visit) :
    begun (nodes.map .enter ++ visits) = begun visits := by
  have hnone : (nodes.map Visit.enter).filterMap (fun
      | .enter _ => none
      | .leave node => some node) = ([] : List Nat) := by
    simp [List.filterMap_map]
  rw [begun, List.filterMap_append, hnone, List.nil_append, begun]

/-- A visit that is to enter all fresh nodes puts each of them into the list once. -/
theorem perm_of_depthFirst {g : Multigraph} {visits : List Visit} {fresh ended sorted : List Nat}
    (h : g.depthFirst visits fresh ended = .ok sorted) (hnodup : fresh.Nodup)
    (hfresh : ∀ node ∈ fresh, .enter node ∈ visits) :
    sorted.Perm (ended ++ begun visits ++ fresh) := by
  fun_induction depthFirst g visits fresh ended with
  | case1 fresh ended =>
    obtain rfl := Except.ok.inj h
    obtain rfl : fresh = [] := List.eq_nil_iff_forall_not_mem.2 fun node hnode =>
      absurd (hfresh node hnode) (by simp)
    simp [begun]
  | case2 node visits fresh ended ih =>
    refine (ih h hnodup fun other hother => by simpa using hfresh other hother).trans ?_
    have hbegun : begun (.leave node :: visits) = node :: begun visits := rfl
    rw [hbegun]
    exact List.Perm.append_right fresh List.perm_middle.symm
  | case3 node visits fresh ended hmem next hloop => exact absurd h (by simp)
  | case4 node visits fresh ended hmem next hloop ih =>
    have hbegun : begun (next.map .enter ++ .leave node :: visits) = node :: begun visits :=
      begun_enters next _
    have hrest := ih h (hnodup.erase node) fun other hother => by
      obtain ⟨hne, hother⟩ := (hnodup.mem_erase_iff).1 hother
      have hvisit : .enter other ∈ visits := by simpa [hne] using hfresh other hother
      exact List.mem_append_right _ (List.mem_cons_of_mem _ hvisit)
    rw [hbegun] at hrest
    refine hrest.trans ?_
    have hbefore : begun (.enter node :: visits) = begun visits := rfl
    rw [hbefore, List.append_assoc, List.append_assoc, List.cons_append]
    exact List.Perm.append_left ended
      (List.perm_middle.symm.trans ((List.perm_cons_erase hmem).symm.append_left _))
  | case5 node visits fresh ended hmem ih =>
    refine ih h hnodup fun other hother => ?_
    have hne : other ≠ node := fun heq => hmem (heq ▸ hother)
    simpa [hne] using hfresh other hother

theorem perm_of_toposort {g : Multigraph} {sorted : List Nat} (h : g.toposort = .ok sorted) :
    sorted.Perm g.nodes := by
  rw [toposort] at h
  split at h
  · exact absurd h (by simp)
  · next ended hended =>
    split at h
    · exact absurd h (by simp)
    · obtain rfl := Except.ok.inj h
      have hperm := perm_of_depthFirst hended List.nodup_range fun node hnode =>
        List.mem_map_of_mem hnode
      have hbegun : begun (g.nodes.map .enter) = [] := by
        have hall := begun_enters g.nodes []
        rwa [List.append_nil] at hall
      rwa [hbegun] at hperm

end Multigraph

theorem Interaction.perm_of_sorted {g : Multigraph} {nodes : List Nat}
    (h : Interaction.sorted g = .ok nodes) : nodes.Perm g.nodes := by
  rw [Interaction.sorted] at h
  split at h
  · next nodes' hsorted =>
    obtain rfl := Except.ok.inj h
    -- directing the edges leaves the nodes as they are
    have hperm : nodes'.Perm g.orient.nodes := Multigraph.perm_of_toposort hsorted
    exact hperm
  · exact absurd h (by simp)

theorem VariableOrder.perm_tightestFirst (o : VariableOrder) (clauses : List Clause) :
    (o.tightestFirst clauses).Perm (List.range clauses.length) := by
  refine ((List.mergeSort_perm _ _).map Prod.snd).trans (.of_eq ?_)
  rw [List.map_map]
  exact (List.zipIdx_map_snd 0 clauses).trans List.range_eq_range'.symm

theorem filterMap_getElem?_range {α : Type} (as : List α) :
    ((List.range as.length).filterMap fun i => as[i]?) = as := by
  induction as with
  | nil => rfl
  | cons a as ih =>
    rw [List.length_cons, List.range_succ_eq_map]
    simpa using ih

theorem Formula.perm_permute (f : Formula) {positions : List Nat}
    (h : positions.Perm (List.range f.clauses.length)) :
    (f.permute positions).clauses.Perm f.clauses := by
  have hall := h.filterMap fun i => f.clauses[i]?
  rwa [filterMap_getElem?_range] at hall

namespace Run

variable {o : Options} {f f' : Formula} {order : VariableOrder}

theorem perm_of_sorted (h : Run.sorted o f order = .ok f') : f'.clauses.Perm f.clauses := by
  rw [Run.sorted] at h
  split at h
  · rw [Options.sortClauses] at h
    split at h
    · exact .of_eq (Except.ok.inj h ▸ rfl)
    · exact Except.ok.inj h ▸ f.perm_permute (order.perm_tightestFirst f.clauses)
    · exact Except.ok.inj h ▸ f.perm_permute (order.perm_tightestFirst f.clauses)
    · split at h
      · obtain ⟨g, positions, hg, hpositions, rfl⟩ := Interaction.sortClauses_eq_ok_iff.1 h
        obtain ⟨rfl, -⟩ := Interaction.clauseGraph?_eq_ok_iff.1 hg
        exact f.perm_permute (Interaction.perm_of_sorted hpositions)
      · exact .of_eq (Except.ok.inj h ▸ rfl)
  · exact .of_eq (Except.ok.inj h ▸ rfl)

theorem eval_of_sorted (h : Run.sorted o f order = .ok f') : f'.eval = f.eval := by
  funext assignment
  exact (perm_of_sorted h).all_eq

end Run
end DiagramCompiler
