import Mathlib.Data.Set.Card
import Mathlib.Logic.Relation
import DiagramCompiler.Native.Numbering
import DiagramCompiler.Proofs.Dictionaries

/-! Tables of native nodes as graphs.
The edges of a table lead from number to number, and following them from an edge under values of the
variables finds at most one value. A numbered table is a table again, in which 0 and 1 are the
terminals. -/
namespace DiagramCompiler
namespace Native
namespace Table

variable (t : Table)

def Child (parent child : Nat) : Prop :=
  ∃ node, t.nodes.get? parent = some node ∧
    (node.low.target = .node child ∨ node.high.target = .node child)

def Reachable (id : Nat) : Prop :=
  ∃ first, t.root.target = .node first ∧ Relation.ReflTransGen t.Child first id

/-- Whether each number that the root leads to has a node. -/
def IsClosed : Prop := ∀ id, t.Reachable id → ∃ node, t.nodes.get? id = some node

/-- Whether no path from the root comes to the same number twice. -/
def IsAcyclic : Prop := ∀ id, t.Reachable id → ¬ Relation.TransGen t.Child id id

/-- Whether a fault names a number that the root leads to and that has no node or lies on a
cycle. -/
def Blames : Fault → Prop
  | .missing id => t.Reachable id ∧ t.nodes.get? id = none
  | .cycle id => t.Reachable id ∧ Relation.TransGen t.Child id id
  | _ => False

/-- Whether following an edge finds a value; a node has its high edge followed if its variable is
true, and each complemented edge on the way turns the value around. -/
inductive Finds (values : Nat → Bool) : NativeEdge → Bool → Prop
  | terminal (complemented value : Bool) :
      Finds values ⟨complemented, .terminal value⟩ (complemented != value)
  | node (complemented : Bool) {id : Nat} {node : NativeNode} {found : Bool}
      (hnode : t.nodes.get? id = some node)
      (hfound : Finds values (if values node.var then node.high else node.low) found) :
      Finds values ⟨complemented, .node id⟩ (complemented != found)

variable {t}

theorem Finds.unique {values : Nat → Bool} {e : NativeEdge} {found found' : Bool}
    (h : t.Finds values e found) (h' : t.Finds values e found') : found = found' := by
  induction h generalizing found' with
  | terminal => cases h'; rfl
  | node complemented hnode _ ih =>
    cases h' with
    | node _ hnode' hfound' =>
      obtain rfl := Option.some.inj (hnode.symm.trans hnode')
      rw [ih hfound']

theorem Reachable.child {parent child : Nat} (h : t.Reachable parent)
    (hchild : t.Child parent child) : t.Reachable child := by
  obtain ⟨first, hroot, hpath⟩ := h
  exact ⟨first, hroot, hpath.tail hchild⟩

theorem not_blames {fault : Fault} (hclosed : t.IsClosed) (hacyclic : t.IsAcyclic) :
    ¬ t.Blames fault := by
  cases fault with
  | missing id =>
    rintro ⟨hid, hnone⟩
    obtain ⟨node, hnode⟩ := hclosed id hid
    exact absurd (hnode.symm.trans hnone) (by simp)
  | cycle id =>
    rintro ⟨hid, hcycle⟩
    exact hacyclic id hid hcycle
  | _ => exact id

end Table

/-! ### Numbered tables -/

/-- The native edge to a number, of which 0 and 1 are the terminals. -/
def NativeEdge.ofEdge (e : Edge) : NativeEdge :=
  ⟨e.complemented, (Buddy.edge e.id).target⟩

def NativeNode.ofNode (n : Node) : NativeNode := ⟨n.var, .ofEdge n.low, .ofEdge n.high⟩

def Numbered.table (n : Numbered) : Table :=
  ⟨.ofEdge n.root, .ofList (n.nodes.map fun m => (m.id, .ofNode m))⟩

theorem NativeEdge.target_ofEdge {e : Edge} (h : Edge.firstNodeId ≤ e.id) :
    (ofEdge e).target = .node e.id := by
  have hfirst : 2 ≤ e.id := h
  have h0 : e.id ≠ 0 := by omega
  have h1 : e.id ≠ 1 := by omega
  simp [ofEdge, Buddy.edge, h0, h1]

theorem Numbered.get?_table {n : Numbered} (hn : (n.nodes.map Node.id).Nodup) {m : Node}
    (hm : m ∈ n.nodes) : n.table.nodes.get? m.id = some (.ofNode m) := by
  have hkeys : ((n.nodes.map fun m => (m.id, NativeNode.ofNode m)).map Prod.fst).Nodup := by
    rwa [List.map_map]
  exact Dictionary.get?_insertAll_of_mem .empty hkeys (List.mem_map_of_mem hm)

end Native
end DiagramCompiler
