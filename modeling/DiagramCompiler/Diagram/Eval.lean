import DiagramCompiler.Diagram

/-! Values of a diagram.
Under a value for every variable an edge leads from node to node until it ends at a terminal; each
complemented edge on the way turns the value over. The walk goes down one level or more at every
node, so that it ends. The equations of `eval` say what it is at a terminal and at a node. -/
namespace DiagramCompiler
namespace Diagram

def depth (d : Diagram) (e : Edge) : Nat :=
  match d.node? e.id with
  | some n => d.varCount + 1 - levelOf d.order n
  | none => 0

theorem mem_of_node? {d : Diagram} {id : Nat} {n : Node} (h : d.node? id = some n) :
    n ∈ d.nodes ∧ n.id = id :=
  ⟨List.mem_of_find?_eq_some h, by simpa using List.find?_some h⟩

theorem node?_id {d : Diagram} {n : Node} (h : n ∈ d.nodes) : d.node? n.id = some n := by
  rw [node?]
  have hd := d.wellFormed.ascending
  generalize d.nodes = nodes at h hd
  induction nodes with
  | nil => simp at h
  | cons m ms ih =>
    obtain ⟨hm, hms⟩ := List.pairwise_cons.1 hd
    rcases List.mem_cons.1 h with rfl | h
    · simp
    · have hne : m.id ≠ n.id := Nat.ne_of_lt (hm n h)
      rw [List.find?_cons_of_neg (by simpa using hne)]
      exact ih h hms

theorem levelOf_le (d : Diagram) (n : Node) : levelOf d.order n ≤ d.varCount :=
  List.idxOf_le_length

def follow (n : Node) (value : Bool) : Edge := if value then n.high else n.low

theorem depth_follow_lt {d : Diagram} {e : Edge} {n : Node} (h : d.node? e.id = some n)
    (value : Bool) : d.depth (follow n value) < d.depth e := by
  obtain ⟨hn, _⟩ := mem_of_node? h
  have hle := d.levelOf_le n
  simp only [depth, h]
  split
  · next m hm =>
    obtain ⟨hm, hid⟩ := mem_of_node? hm
    have hbelow : levelOf d.order n < levelOf d.order m :=
      d.wellFormed.below n hn m hm (by cases value <;> simp_all [follow])
    omega
  · omega

def eval (d : Diagram) (assignment : Nat → Bool) (e : Edge) : Bool :=
  match _h : d.node? e.id with
  | some n => d.eval assignment (follow n (assignment (n.var + 1))) != e.complemented
  | none => (e.id = Edge.trueId) != e.complemented
termination_by d.depth e
decreasing_by exact depth_follow_lt _h _

theorem eval_node {d : Diagram} {n : Node} (h : n ∈ d.nodes) (assignment : Nat → Bool)
    (complemented : Bool) :
    d.eval assignment ⟨complemented, n.id⟩ =
      (d.eval assignment (follow n (assignment (n.var + 1))) != complemented) := by
  rw [eval]
  split
  · next m hm => simp only [node?_id h, Option.some.injEq] at hm; rw [hm]
  · next hm => simp [node?_id h] at hm

theorem eval_terminal (d : Diagram) (assignment : Nat → Bool) {e : Edge}
    (h : e.isTerminal = true) :
    d.eval assignment e = ((e.id = Edge.trueId) != e.complemented) := by
  rw [eval]
  split
  · next n hn =>
    obtain ⟨hn, hid⟩ := mem_of_node? hn
    have := d.wellFormed.notTerminal n hn
    have := Edge.isTerminal_iff.1 h
    omega
  · rfl

/-- Whether a list of values, that of variable 1 first, is a model. -/
def holds (d : Diagram) (values : List Bool) : Bool :=
  d.eval (fun var => values.getD (var - 1) false) d.root

end Diagram
end DiagramCompiler
