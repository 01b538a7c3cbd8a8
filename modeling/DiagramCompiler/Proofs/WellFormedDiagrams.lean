import Mathlib.Data.List.Nodup
import Mathlib.Data.List.Perm.Subperm
import Mathlib.Logic.Relation
import DiagramCompiler.Diagram.Eval

/-! Parts of diagrams that fit together.
A permutation of the variables is accepted as an order, and a root and nodes are accepted as a
diagram exactly if they form one once the nodes are sorted. In a diagram no path leads back to where
it started, because each edge goes down. -/
namespace DiagramCompiler

theorem VariableOrder.perm_range' (o : VariableOrder) : o.toList.Perm (List.range' 1 o.length) := by
  have hsub : o.toList ⊆ List.range' 1 o.length := fun v hv => by
    have := o.inRange v hv
    rw [List.mem_range'_1, length]
    omega
  exact (o.nodup.subperm hsub).perm_of_length_le (by simp [length])

theorem VariableOrder.mem_toList_iff (o : VariableOrder) {var : Nat} :
    var ∈ o.toList ↔ 1 ≤ var ∧ var ≤ o.length := by
  rw [o.perm_range'.mem_iff, List.mem_range'_1]
  omega

theorem VariableOrder.fault?_of_nodup {length : Nat} (met : List Nat) {vs : List Nat}
    (hn : vs.Nodup) (hm : ∀ v ∈ vs, v ∉ met) (hr : ∀ v ∈ vs, 1 ≤ v ∧ v ≤ length) :
    fault? length met vs = none := by
  induction vs generalizing met with
  | nil => rfl
  | cons v vs ih =>
    have hv := hr v List.mem_cons_self
    obtain ⟨hnew, hrest⟩ := List.nodup_cons.1 hn
    have hin : ¬ (v = 0 ∨ length < v) := by omega
    rw [fault?, if_neg hin, if_neg (hm v List.mem_cons_self)]
    refine ih (v :: met) hrest (fun w hw hmem => ?_) fun w hw => hr w (List.mem_cons_of_mem v hw)
    rcases List.mem_cons.1 hmem with rfl | hmem
    · exact hnew hw
    · exact hm w (List.mem_cons_of_mem v hw) hmem

theorem VariableOrder.ofList?_toList (o : VariableOrder) : ofList? o.toList = .ok o := by
  have h := fault?_of_nodup [] o.nodup (by simp) o.inRange
  rw [ofList?]
  split
  · next fault hfault =>
    rw [h] at hfault
    exact absurd hfault (by simp)
  · rfl

namespace Diagram

variable {order : VariableOrder} {root : Edge} {nodes : List Node}

theorem nodeFault?_of_ascending {length : Nat} (met : List Nat) {nodes : List Node}
    (hasc : nodes.Pairwise fun a b => a.id < b.id) (hmet : ∀ n ∈ nodes, n.id ∉ met)
    (hid : ∀ n ∈ nodes, Edge.firstNodeId ≤ n.id) (hvar : ∀ n ∈ nodes, n.var < length) :
    nodeFault? length met nodes = none := by
  induction nodes generalizing met with
  | nil => rfl
  | cons n ns ih =>
    obtain ⟨hfirst, hrest⟩ := List.pairwise_cons.1 hasc
    have hin := hid n List.mem_cons_self
    have hlt := hvar n List.mem_cons_self
    rw [nodeFault?, if_neg (by omega), if_neg (hmet n List.mem_cons_self), if_neg (by omega)]
    refine ih (n.id :: met) hrest (fun m hm hmem => ?_)
      (fun m hm => hid m (List.mem_cons_of_mem n hm)) fun m hm => hvar m (List.mem_cons_of_mem n hm)
    rcases List.mem_cons.1 hmem with heq | hmem
    · have := hfirst m hm
      omega
    · exact hmet m (List.mem_cons_of_mem n hm) hmem

theorem WellFormed.levelFault?_eq_none (h : WellFormed order root nodes) {n : Node}
    (hn : n ∈ nodes) : levelFault? order nodes n = none := by
  have hbelow : ∀ child, child = n.low ∨ child = n.high →
      ¬ nodes.any (fun m => m.id = child.id ∧ levelOf order m ≤ levelOf order n) = true := by
    intro child hchild hany
    obtain ⟨m, hm, hrises⟩ := List.any_eq_true.1 hany
    obtain ⟨heq, hle⟩ := of_decide_eq_true hrises
    have := h.below n hn m hm (by rcases hchild with rfl | rfl <;> simp [heq])
    omega
  rw [levelFault?]
  simp only [hbelow n.low (.inl rfl), hbelow n.high (.inr rfl)]
  rfl

theorem WellFormed.fault?_eq_none (h : WellFormed order root nodes) :
    fault? order root nodes = none := by
  have hnodes := nodeFault?_of_ascending [] h.ascending (by simp) h.notTerminal h.var_lt
  have hfind : nodes.find? (fun n => ¬ Resolves nodes n.low ∨ ¬ Resolves nodes n.high) = none := by
    rw [List.find?_eq_none]
    intro n hn
    simp [h.low_resolves n hn, h.high_resolves n hn]
  rw [fault?, hnodes]
  simp only [h.root_resolves, not_true_eq_false, if_false, hfind]
  exact List.findSome?_eq_none_iff.2 fun n hn => h.levelFault?_eq_none hn

theorem WellFormed.ofNodes_eq (h : WellFormed order root nodes) :
    ofNodes order root nodes = .ok ⟨order, root, nodes, h⟩ := by
  have hsort : sortNodes nodes = nodes :=
    List.mergeSort_of_pairwise (h.ascending.imp fun hlt => by simpa using Nat.le_of_lt hlt)
  rw [ofNodes]
  split
  · next fault hfault =>
    rw [hsort, h.fault?_eq_none] at hfault
    exact absurd hfault (by simp)
  · congr

theorem parts_of_ofNodes {d : Diagram} (h : ofNodes order root nodes = .ok d) :
    d.order = order ∧ d.root = root ∧ d.nodes = sortNodes nodes := by
  rw [ofNodes] at h
  split at h
  · exact absurd h (by simp)
  · rw [← Except.ok.inj h]
    exact ⟨rfl, rfl, rfl⟩

/-- A root and nodes in any order are accepted exactly if they fit together. -/
theorem exists_ofNodes_iff :
    (∃ d, ofNodes order root nodes = .ok d) ↔ WellFormed order root (sortNodes nodes) := by
  constructor
  · rintro ⟨d, hd⟩
    obtain ⟨rfl, rfl, hnodes⟩ := parts_of_ofNodes hd
    exact hnodes ▸ d.wellFormed
  · intro h
    have hfault := h.fault?_eq_none
    rw [ofNodes]
    split
    · next fault hsome =>
      rw [hsome] at hfault
      exact absurd hfault (by simp)
    · exact ⟨_, rfl⟩

/-! ### Paths -/

def Leads (nodes : List Node) (parent child : Nat) : Prop :=
  ∃ n ∈ nodes, n.id = parent ∧ (child = n.low.id ∨ child = n.high.id)

theorem depth_lt_of_leads {d : Diagram} {parent child : Nat} (h : Leads d.nodes parent child) :
    d.depth ⟨false, child⟩ < d.depth ⟨false, parent⟩ := by
  obtain ⟨n, hn, rfl, rfl | rfl⟩ := h
  · exact depth_follow_lt (e := ⟨false, n.id⟩) (node?_id hn) false
  · exact depth_follow_lt (e := ⟨false, n.id⟩) (node?_id hn) true

theorem not_leads_back (d : Diagram) (id : Nat) : ¬ Relation.TransGen (Leads d.nodes) id id := by
  have hdown {first last : Nat} (h : Relation.TransGen (Leads d.nodes) first last) :
      d.depth ⟨false, last⟩ < d.depth ⟨false, first⟩ := by
    induction h with
    | single hedge => exact depth_lt_of_leads hedge
    | tail _ hedge ih => exact Nat.lt_trans (depth_lt_of_leads hedge) ih
  exact fun h => absurd (hdown h) (Nat.lt_irrefl _)

end Diagram
end DiagramCompiler
