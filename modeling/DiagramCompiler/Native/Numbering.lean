import DiagramCompiler.Native.Buddy
import DiagramCompiler.Native.Cudd

/-! Numbering the nodes of a table.
The nodes that can be reached from the root are numbered from 2 on, a node after its low and its
high part, so that edges lead to smaller numbers. A node that is missing or lies on a cycle is a
fault. -/
namespace DiagramCompiler
namespace Native

/-- A root and nodes whose edges lead to smaller numbers; variables are those of the library. -/
structure Numbered where
  root : Edge
  nodes : List Node
  deriving DecidableEq, Repr

/-- What a visit of the table still has to do. -/
inductive Visit where
  | enter (id : Nat)
  | leave (id : Nat) (node : NativeNode)
  deriving DecidableEq, Repr

/-- The nodes numbered so far. -/
structure Numbering where
  /-- The number given to a native one. -/
  numbers : Dictionary Nat Nat
  /-- The numbered nodes, the last first. -/
  nodes : List Node

namespace Numbering

def empty : Numbering := ⟨.empty, []⟩

def resolve (n : Numbering) (e : NativeEdge) : Except Fault Edge :=
  match e.target with
  | .terminal false => .ok ⟨e.complemented, Edge.falseId⟩
  | .terminal true => .ok ⟨e.complemented, Edge.trueId⟩
  | .node id =>
    match n.numbers.get? id with
    | some number => .ok ⟨e.complemented, number⟩
    | none => .error (.missing id)

def add (n : Numbering) (id : Nat) (node : NativeNode) : Except Fault Numbering := do
  let low ← n.resolve node.low
  let high ← n.resolve node.high
  let number := n.nodes.length + Edge.firstNodeId
  return ⟨n.numbers.insert id number, ⟨number, node.var, low, high⟩ :: n.nodes⟩

end Numbering

def entries (e : NativeEdge) : List Visit :=
  match e.target with
  | .terminal _ => []
  | .node id => [.enter id]

/-- Works off the visits; `fresh` are the nodes not entered yet. -/
def visit (table : Dictionary Nat NativeNode) :
    List Visit → Dictionary Nat NativeNode → Numbering → Except Fault Numbering
  | [], _, n => .ok n
  | .leave id node :: visits, fresh, n =>
    match n.add id node with
    | .error fault => .error fault
    | .ok n => visit table visits fresh n
  | .enter id :: visits, fresh, n =>
    if n.numbers.contains id then visit table visits fresh n
    else match _h : fresh.get? id with
      | some node =>
        visit table (entries node.low ++ entries node.high ++ .leave id node :: visits)
          (fresh.erase id) n
      | none => .error (if table.contains id then .cycle id else .missing id)
termination_by visits fresh => (fresh.entries.length, visits.length)
decreasing_by
  · exact .right _ (Nat.lt_succ_self _)
  · exact .right _ (Nat.lt_succ_self _)
  · exact .left _ _ (Dictionary.length_erase_lt _h)

section Visit

variable {table fresh : Dictionary Nat NativeNode} {n n' : Numbering} {id number : Nat}
  {node : NativeNode}

theorem visit_enter_known (hid : n.numbers.get? id = some number) (visits : List Visit) :
    visit table (.enter id :: visits) fresh n = visit table visits fresh n := by
  have hknown : n.numbers.contains id = true := by rw [Dictionary.contains, hid]; rfl
  rw [visit, if_pos hknown]

theorem visit_enter_fresh (hid : n.numbers.get? id = none) (hfresh : fresh.get? id = some node)
    (visits : List Visit) :
    visit table (.enter id :: visits) fresh n =
      visit table (entries node.low ++ (entries node.high ++ .leave id node :: visits))
        (fresh.erase id) n := by
  have hunknown : ¬ n.numbers.contains id = true := by simp [Dictionary.contains, hid]
  rw [visit, if_neg hunknown]
  split
  · next other hother =>
    obtain rfl := Option.some.inj (hother.symm.trans hfresh)
    rw [List.append_assoc]
  · next hnone => exact absurd (hnone.symm.trans hfresh) (by simp)

theorem visit_enter_stale (hid : n.numbers.get? id = none) (hfresh : fresh.get? id = none)
    (visits : List Visit) :
    visit table (.enter id :: visits) fresh n =
      .error (if table.contains id then .cycle id else .missing id) := by
  have hunknown : ¬ n.numbers.contains id = true := by simp [Dictionary.contains, hid]
  rw [visit, if_neg hunknown]
  split
  · next hsome => exact absurd (hsome.symm.trans hfresh) (by simp)
  · rfl

theorem visit_leave (h : n.add id node = .ok n') (visits : List Visit) :
    visit table (.leave id node :: visits) fresh n = visit table visits fresh n' := by
  rw [visit, h]

end Visit

def Table.number (t : Table) : Except Fault Numbered := do
  let n ← visit t.nodes (entries t.root) t.nodes .empty
  let root ← n.resolve t.root
  return ⟨root, n.nodes.reverse⟩

def Format.parse (format : Format) (text : String) : Except Fault Table :=
  match format with
  | .buddy => Buddy.parse text
  | .cudd => Cudd.parse text

def Format.translate (format : Format) (text : String) : Except Fault Numbered :=
  (format.parse text).bind Table.number

def Format.message (format : Format) (fault : Fault) : String :=
  format.text ++ " dump: " ++ fault.message

end Native
end DiagramCompiler
