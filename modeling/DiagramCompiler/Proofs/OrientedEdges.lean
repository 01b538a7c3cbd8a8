import Mathlib.Data.List.Perm.Basic
import DiagramCompiler.Proofs.AcyclicOrientation

/-! Directing every edge once.
The breadth-first visit comes to each node once, whatever it starts from. The edges that are
directed at a node are those that lead to no node visited before it, so that an edge is directed
when the first of its ends is visited, and never again. When all nodes have been visited, none is
left. -/
namespace DiagramCompiler
namespace Multigraph

variable {g : Multigraph} {a b node : Nat} {e : Nat × Nat} {earlier visited fresh queue : List Nat}

/-! ### First occurrences -/

section Firsts

variable {α : Type} [BEq α] [Hashable α] [LawfulBEq α] [LawfulHashable α]
  {met : Std.HashSet α} {as : List α} {a : α}

theorem mem_firstsFrom_iff : a ∈ firstsFrom met as ↔ a ∈ as ∧ a ∉ met := by
  induction as generalizing met with
  | nil => simp [firstsFrom]
  | cons b as ih =>
    rw [firstsFrom]
    split
    · next hmet =>
      rw [Std.HashSet.contains_iff_mem] at hmet
      have hne : a ∉ met → a ≠ b := fun hout heq => hout (heq ▸ hmet)
      rw [ih, List.mem_cons]
      tauto
    · next hmet =>
      rw [Std.HashSet.contains_iff_mem] at hmet
      have heq : a = b → a ∉ met := fun heq => heq ▸ hmet
      rw [List.mem_cons, ih, List.mem_cons, Std.HashSet.mem_insert, beq_iff_eq, eq_comm (a := b)]
      tauto

theorem nodup_firstsFrom (met : Std.HashSet α) (as : List α) : (firstsFrom met as).Nodup := by
  induction as generalizing met with
  | nil => exact List.nodup_nil
  | cons a as ih =>
    rw [firstsFrom]
    split
    · exact ih met
    · refine List.nodup_cons.2 ⟨fun h => ?_, ih _⟩
      exact (mem_firstsFrom_iff.1 h).2 Std.HashSet.mem_insert_self

theorem nodup_firsts (as : List α) : (firsts as).Nodup := nodup_firstsFrom ∅ as

theorem length_firsts_le (as : List α) : (firsts as).length ≤ as.length :=
  ((nodup_firsts as).subperm fun _ => mem_of_mem_firsts).length_le

end Firsts

/-! ### The visit -/

theorem perm_discoveries (g : Multigraph) (node : Nat) (hfresh : fresh.Nodup) :
    (g.discoveries node fresh ++ without fresh (g.discoveries node fresh)).Perm fresh := by
  have hfound : (fresh.filter (· ∈ g.discoveries node fresh)).Perm (g.discoveries node fresh) := by
    refine (List.perm_ext_iff_of_nodup (hfresh.filter _) (nodup_firsts _)).2 fun a => ?_
    rw [List.mem_filter, decide_eq_true_eq]
    exact and_iff_right_of_imp mem_fresh_of_mem_discoveries
  have hsplit := List.filter_append_perm (fun a => decide (a ∈ g.discoveries node fresh)) fresh
  refine (hfound.symm.append_right _).trans (.trans (.of_eq ?_) hsplit)
  simp only [without, decide_not]

/-- A breadth-first visit takes what waits and what is fresh, each once. -/
theorem perm_breadthFirst (g : Multigraph) (queue fresh : List Nat) (hfresh : fresh.Nodup) :
    (g.breadthFirst queue fresh).Perm (queue ++ fresh) := by
  fun_induction breadthFirst g queue fresh with
  | case1 => exact .refl _
  | case2 start fresh ih => exact ih (List.nodup_cons.1 hfresh).2
  | case3 node queue fresh found ih =>
    have hrest := ih (hfresh.filter _)
    rw [List.append_assoc] at hrest
    exact (hrest.trans ((g.perm_discoveries node hfresh).append_left queue)).cons node

theorem perm_visited (g : Multigraph) : (g.breadthFirst [] g.byRank).Perm g.nodes := by
  have hrank : g.byRank.Perm g.nodes := List.mergeSort_perm _ _
  exact (g.perm_breadthFirst [] g.byRank (hrank.nodup_iff.2 List.nodup_range)).trans hrank

/-! ### Directed edges -/

def across (node : Nat) (e : Nat × Nat) : Option Nat :=
  if e.1 = node then some e.2 else if e.2 = node then some e.1 else none

/-- The ends across the edges at a node, in the order of the edges. -/
theorem perm_neighbours (g : Multigraph) (node : Nat) :
    (g.neighbours node).Perm (g.edges.filterMap (across node)) := by
  refine .trans ?_ ((List.reverse_perm g.edges).filterMap _)
  rw [neighbours]
  induction g.edges.reverse with
  | nil => exact .refl _
  | cons e newest ih =>
    by_cases hstart : e.1 = node
    · simpa [across, hstart] using ih
    · by_cases hend : e.2 = node
      · simpa [across, hstart, hend] using List.perm_middle.trans (ih.cons e.1)
      · simpa [across, hstart, hend] using ih

def Avoids (seen : List Nat) (e : Nat × Nat) : Prop := e.1 ∉ seen ∧ e.2 ∉ seen

instance (seen : List Nat) (e : Nat × Nat) : Decidable (Avoids seen e) :=
  inferInstanceAs (Decidable (_ ∧ _))

def rising (degrees : Array Nat) (e : Nat × Nat) : Nat × Nat :=
  if ranksBelow degrees e.1 e.2 then e else e.swap

theorem rising_swap {degrees : Array Nat} (h : a ≠ b) :
    rising degrees (a, b) = rising degrees (b, a) := by
  by_cases hbelow : ranksBelow degrees a b
  · have hnot : ¬ ranksBelow degrees b a := fun h => ranksBelow_irrefl (ranksBelow_trans hbelow h)
    rw [rising, if_pos hbelow, rising, if_neg hnot, Prod.swap_prod_mk]
  · rw [rising, if_neg hbelow, rising, if_pos (ranksBelow_total h hbelow), Prod.swap_prod_mk]

/-- The edges directed at a node are those at it that no node before it has. -/
theorem perm_directed_at (g : Multigraph) (degrees : Array Nat) (hnode : node ∉ earlier) :
    (((g.neighbours node).filter (· ∉ earlier)).map fun other => rising degrees (node, other)).Perm
      (((g.edges.filter (Avoids earlier)).filter fun e => e.1 = node ∨ e.2 = node).map
        (rising degrees)) := by
  refine (((g.perm_neighbours node).filter _).map _).trans (.of_eq ?_)
  induction g.edges with
  | nil => rfl
  | cons e edges ih =>
    obtain ⟨a, b⟩ := e
    by_cases hstart : a = node
    · subst hstart
      by_cases hseen : b ∈ earlier
      · simpa [across, Avoids, hseen] using ih
      · simpa [across, Avoids, hseen, hnode] using ih
    · by_cases hend : b = node
      · subst hend
        by_cases hseen : a ∈ earlier
        · simpa [across, Avoids, hstart, hseen] using ih
        · simpa [across, Avoids, hstart, hseen, hnode, rising_swap hstart] using ih
      · by_cases hseen : Avoids earlier (a, b)
        · simpa [across, hstart, hend, hseen] using ih
        · simpa [across, hstart, hend, hseen] using ih

theorem avoids_cons_iff : Avoids (node :: earlier) e ↔
    Avoids earlier e ∧ ¬ (e.1 = node ∨ e.2 = node) := by
  simp only [Avoids, List.mem_cons]
  tauto

/-- The edges that are directed at the nodes of a list, with those that are left after it, are the
edges that were left before. -/
theorem perm_directedEdges (g : Multigraph) (degrees : Array Nat) (hnodup : visited.Nodup)
    (hnew : ∀ node ∈ visited, node ∉ earlier) :
    (g.directedEdges degrees earlier visited ++
        (g.edges.filter (Avoids (visited.reverse ++ earlier))).map (rising degrees)).Perm
      ((g.edges.filter (Avoids earlier)).map (rising degrees)) := by
  induction visited generalizing earlier with
  | nil => exact .refl _
  | cons node visited ih =>
    obtain ⟨hnode, hnodup⟩ := List.nodup_cons.1 hnodup
    have hnew' : ∀ other ∈ visited, other ∉ node :: earlier := fun other hother hmem => by
      rcases List.mem_cons.1 hmem with rfl | hmem
      · exact hnode hother
      · exact hnew other (.tail _ hother) hmem
    have hrest := ih hnodup hnew'
    -- the edges left after this node are those left before it that it does not have
    have hat := g.perm_directed_at degrees (hnew node (.head _))
    have hleft : g.edges.filter (Avoids (node :: earlier)) =
        (g.edges.filter (Avoids earlier)).filter fun e => !decide (e.1 = node ∨ e.2 = node) := by
      rw [List.filter_filter]
      refine List.filter_congr fun e _ => ?_
      simp only [avoids_cons_iff, Bool.decide_and, decide_not, Bool.and_comm]
    rw [List.reverse_cons, List.append_assoc, List.singleton_append, directedEdges,
      List.append_assoc]
    refine (hat.append hrest).trans ?_
    rw [hleft, ← List.map_append]
    exact (List.filter_append_perm _ _).map _

theorem perm_edges_orient (g : Multigraph) :
    g.orient.edges.Perm (g.edges.map (rising g.degrees)) := by
  have hvisited := g.perm_visited
  have hnew : ∀ node ∈ g.breadthFirst [] g.byRank, node ∉ ([] : List Nat) := fun _ _ =>
    List.not_mem_nil
  have hall := g.perm_directedEdges g.degrees (hvisited.nodup_iff.2 List.nodup_range) hnew
  have hnone : g.edges.filter (Avoids ((g.breadthFirst [] g.byRank).reverse ++ [])) = [] := by
    refine List.filter_eq_nil_iff.2 fun e he havoids => ?_
    have hmem := hvisited.mem_iff.2 (List.mem_range.2 (g.inRange e he).1)
    exact (of_decide_eq_true havoids).1 (by simpa using hmem)
  have hfirst : g.edges.filter (Avoids []) = g.edges :=
    List.filter_eq_self.2 fun e _ => by simp [Avoids]
  rw [hnone, hfirst, List.map_nil, List.append_nil] at hall
  exact hall

/-! ### Degrees -/

/-- Whether a node has lower degree than another, or the same degree and a lower number. -/
def IsBelow (g : Multigraph) (a b : Nat) : Prop :=
  g.degree a < g.degree b ∨ g.degree a = g.degree b ∧ a < b

theorem degrees_getD (g : Multigraph) (node : Nat) : g.degrees.getD node 0 = g.degree node := by
  by_cases hnode : node < g.nodeCount
  · simp [degrees, nodes, hnode]
  · have hnone : g.neighbours node = [] := List.eq_nil_iff_forall_not_mem.2 fun other hother =>
      hnode (g.lt_of_mem_neighbours hother)
    simp [degrees, nodes, hnode, degree, hnone]

theorem ranksBelow_degrees_iff : ranksBelow g.degrees a b = true ↔ g.IsBelow a b := by
  rw [ranksBelow_iff, degrees_getD, degrees_getD, IsBelow]

end Multigraph
end DiagramCompiler
