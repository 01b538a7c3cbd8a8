import DiagramCompiler.Diagram.Node
import DiagramCompiler.VariableOrder

/-! Decision diagrams.
A diagram is a root edge and a list of nodes with ascending numbers under a variable order. Every
edge leads to a terminal or to a node of the list, and the node at the end of an edge tests a later
variable than the node at its start, so that there are no cycles. -/
namespace DiagramCompiler
namespace Diagram

def Resolves (nodes : List Node) (e : Edge) : Prop :=
  e.isTerminal = true ∨ ∃ n ∈ nodes, n.id = e.id

instance (nodes : List Node) (e : Edge) : Decidable (Resolves nodes e) :=
  inferInstanceAs (Decidable (_ ∨ _))

def levelOf (order : VariableOrder) (n : Node) : Nat := order.position (n.var + 1)

def LiesBelow (order : VariableOrder) (n m : Node) : Prop :=
  m.id = n.low.id ∨ m.id = n.high.id → levelOf order n < levelOf order m

instance (order : VariableOrder) (n m : Node) : Decidable (LiesBelow order n m) :=
  inferInstanceAs (Decidable (_ → _))

structure WellFormed (order : VariableOrder) (root : Edge) (nodes : List Node) : Prop where
  ascending : nodes.Pairwise fun a b => a.id < b.id
  notTerminal : ∀ n ∈ nodes, Edge.firstNodeId ≤ n.id
  var_lt : ∀ n ∈ nodes, n.var < order.length
  root_resolves : Resolves nodes root
  low_resolves : ∀ n ∈ nodes, Resolves nodes n.low
  high_resolves : ∀ n ∈ nodes, Resolves nodes n.high
  below : ∀ n ∈ nodes, ∀ m ∈ nodes, LiesBelow order n m

end Diagram

/-- A diagram whose parts fit together. -/
structure Diagram where
  order : VariableOrder
  root : Edge
  nodes : List Node
  wellFormed : Diagram.WellFormed order root nodes

namespace Diagram

instance : DecidableEq Diagram := fun a b =>
  if h : a.order = b.order ∧ a.root = b.root ∧ a.nodes = b.nodes then
    isTrue (by cases a; cases b; simp_all)
  else isFalse fun hab => h (by subst hab; exact ⟨rfl, rfl, rfl⟩)

/-- Why a root and some nodes are no diagram. -/
inductive Fault where
  | terminalId (id : Nat)
  | twice (id : Nat)
  | var (id var length : Nat)
  | root (root : Edge)
  | dangling (node : Node)
  | notBelow (child parent : Nat)
  deriving DecidableEq, Repr

def Fault.message : Fault → String
  | .terminalId id => "node line uses terminal id " ++ Numeral.text id
  | .twice id => "node " ++ Numeral.text id ++ " defined twice"
  | .var id tested length =>
    "node " ++ Numeral.text id ++ " tests variable " ++ Numeral.text tested ++
      " but the order has " ++ Numeral.text length ++ " variables"
  | .root edge => "root " ++ edge.text ++ " is not a node"
  | .dangling node => "node " ++ node.text ++ " refers to a missing node"
  | .notBelow child parent =>
    "node " ++ Numeral.text child ++ " is not below its parent " ++ Numeral.text parent

/-- The first node that has a wrong number or variable; `met` are the numbers before. -/
def nodeFault? (length : Nat) (met : List Nat) : List Node → Option Fault
  | [] => none
  | n :: ns =>
    if n.id < Edge.firstNodeId then some (.terminalId n.id)
    else if n.id ∈ met then some (.twice n.id)
    else if length ≤ n.var then some (.var n.id n.var length)
    else nodeFault? length (n.id :: met) ns

def levelFault? (order : VariableOrder) (nodes : List Node) (n : Node) : Option Fault :=
  let rises (child : Edge) : Bool :=
    nodes.any fun m => m.id = child.id ∧ levelOf order m ≤ levelOf order n
  if rises n.low then some (.notBelow n.low.id n.id)
  else if rises n.high then some (.notBelow n.high.id n.id)
  else none

def fault? (order : VariableOrder) (root : Edge) (nodes : List Node) : Option Fault :=
  match nodeFault? order.length [] nodes with
  | some fault => some fault
  | none =>
    if ¬ Resolves nodes root then some (.root root)
    else
      match nodes.find? fun n => ¬ Resolves nodes n.low ∨ ¬ Resolves nodes n.high with
      | some n => some (.dangling n)
      | none => nodes.findSome? (levelFault? order nodes)

theorem nodeFault?_eq_none {length : Nat} {met : List Nat} {nodes : List Node}
    (h : nodeFault? length met nodes = none) :
    (nodes.map Node.id).Nodup ∧ (∀ n ∈ nodes, n.id ∉ met) ∧
      (∀ n ∈ nodes, Edge.firstNodeId ≤ n.id) ∧ ∀ n ∈ nodes, n.var < length := by
  induction nodes generalizing met with
  | nil => simp
  | cons n ns ih =>
    rw [nodeFault?] at h
    split at h
    · simp at h
    · next hid =>
      split at h
      · simp at h
      · next hmet =>
        split at h
        · simp at h
        · next hvar =>
          obtain ⟨hnodup, hm, hids, hvars⟩ := ih h
          refine ⟨?_, ?_, ?_, ?_⟩
          · rw [List.map_cons, List.nodup_cons]
            refine ⟨fun hn => ?_, hnodup⟩
            obtain ⟨m, hm', heq⟩ := List.mem_map.1 hn
            exact hm m hm' (heq ▸ .head _)
          · intro m hm'
            rcases List.mem_cons.1 hm' with rfl | hm'
            · exact hmet
            · exact fun h' => hm m hm' (.tail _ h')
          · intro m hm'
            rcases List.mem_cons.1 hm' with rfl | hm'
            · omega
            · exact hids m hm'
          · intro m hm'
            rcases List.mem_cons.1 hm' with rfl | hm'
            · omega
            · exact hvars m hm'

theorem liesBelow_of_levelFault? {order : VariableOrder} {nodes : List Node} {n : Node}
    (h : levelFault? order nodes n = none) {m : Node} (hm : m ∈ nodes) : LiesBelow order n m := by
  rw [levelFault?] at h
  split at h
  · simp at h
  · next hlow =>
    split at h
    · simp at h
    · next hhigh =>
      simp only [List.any_eq_true, decide_eq_true_eq, not_exists, not_and] at hlow hhigh
      rintro (heq | heq)
      · exact Nat.lt_of_not_le (hlow m hm heq)
      · exact Nat.lt_of_not_le (hhigh m hm heq)

theorem wellFormed_of_fault? {order : VariableOrder} {root : Edge} {nodes : List Node}
    (sorted : nodes.Pairwise fun a b => a.id ≤ b.id) (h : fault? order root nodes = none) :
    WellFormed order root nodes := by
  rw [fault?] at h
  split at h
  · simp at h
  · next hnodes =>
    obtain ⟨hnodup, _, hids, hvars⟩ := nodeFault?_eq_none hnodes
    split at h
    · simp at h
    · next hroot =>
      split at h
      · simp at h
      · next hfind =>
        simp only [List.find?_eq_none, decide_eq_true_eq, not_or, Decidable.not_not] at hfind hroot
        have hne : nodes.Pairwise fun a b => a.id ≠ b.id := List.pairwise_map.1 hnodup
        exact {
          ascending := (sorted.and hne).imp fun ⟨hle, hne⟩ => Nat.lt_of_le_of_ne hle hne
          notTerminal := hids
          var_lt := hvars
          root_resolves := hroot
          low_resolves := fun n hn => (hfind n hn).1
          high_resolves := fun n hn => (hfind n hn).2
          below := fun n hn m hm =>
            liesBelow_of_levelFault? (List.findSome?_eq_none_iff.1 h n hn) hm }

def sortNodes (nodes : List Node) : List Node := nodes.mergeSort fun a b => a.id ≤ b.id

theorem sorted_sortNodes (nodes : List Node) :
    (sortNodes nodes).Pairwise fun a b => a.id ≤ b.id := by
  have h := @List.pairwise_mergeSort Node (fun a b => decide (a.id ≤ b.id))
    (fun a b c hab hbc => by simp only [decide_eq_true_eq] at *; omega)
    (fun a b => by simp only [Bool.or_eq_true, decide_eq_true_eq]; omega) nodes
  exact h.imp fun hab => by simpa using hab

def ofNodes (order : VariableOrder) (root : Edge) (nodes : List Node) : Except Fault Diagram :=
  match h : fault? order root (sortNodes nodes) with
  | some fault => .error fault
  | none => .ok ⟨order, root, sortNodes nodes, wellFormed_of_fault? (sorted_sortNodes nodes) h⟩

def node? (d : Diagram) (id : Nat) : Option Node := d.nodes.find? fun n => n.id = id

def nodeCount (d : Diagram) : Nat := d.nodes.length

def varCount (d : Diagram) : Nat := d.order.length

end Diagram
end DiagramCompiler
