import DiagramCompiler.Proofs.AnsweredDumps

/-! Tables with shifted variables.
An engine that counts its variables from 1 writes what one that counts from 0 would write, with
every variable one higher. Numbering a table passes the variables of nodes on and does not look at
them, so that it comes to the same nodes with their variables one higher, or to the same fault. A
manager counts the variables of nodes from 0 and those of an order from 1, whichever the engine
does, and so makes the same dump of both. -/
namespace DiagramCompiler

def Node.shift (k : Node) : Node := { k with var := k.var + 1 }

namespace Native

def NativeNode.shift (n : NativeNode) : NativeNode := { n with var := n.var + 1 }

def Visit.shift : Visit → Visit
  | .enter id => .enter id
  | .leave id node => .leave id node.shift

def Numbering.shift (n : Numbering) : Numbering := ⟨n.numbers, n.nodes.map Node.shift⟩

def Numbered.shift (num : Numbered) : Numbered := ⟨num.root, num.nodes.map Node.shift⟩

/-- Whether a table is another one with every variable one higher. -/
structure Table.Shifts (t t' : Table) : Prop where
  root : t'.root = t.root
  nodes (id : Nat) : t'.nodes.get? id = (t.nodes.get? id).map NativeNode.shift

theorem map_shift_entries (e : NativeEdge) : (entries e).map Visit.shift = entries e := by
  obtain ⟨complemented, target⟩ := e
  cases target <;> rfl

theorem Numbering.add_shift (n : Numbering) (id : Nat) (node : NativeNode) :
    n.shift.add id node.shift = (n.add id node).map Numbering.shift := by
  have hlow : n.shift.resolve node.shift.low = n.resolve node.low := rfl
  have hhigh : n.shift.resolve node.shift.high = n.resolve node.high := rfl
  rw [Numbering.add, Numbering.add, hlow, hhigh]
  cases n.resolve node.low with
  | error fault => rfl
  | ok low =>
    cases n.resolve node.high with
    | error fault => rfl
    | ok high =>
      simp only [bind, Except.bind, pure, Except.pure, Except.map, Numbering.shift,
        List.length_map, List.map_cons]
      rfl

namespace Table

variable {t t' : Table}

theorem Shifts.of_entries (hroot : t'.root = t.root)
    (h : t'.nodes.entries = t.nodes.entries.map fun e => (e.1, e.2.shift)) : t.Shifts t' := by
  refine ⟨hroot, fun id => ?_⟩
  rw [Dictionary.get?, Dictionary.get?, h, List.find?_map, Option.map_map, Option.map_map]
  rfl

/-- The walks through both tables go side by side, and end in the same fault if one does. -/
theorem Shifts.visit (h : t.Shifts t') (visits : List Visit)
    (fresh fresh' : Dictionary Nat NativeNode) (n : Numbering)
    (hfresh : ∀ id, fresh'.get? id = (fresh.get? id).map NativeNode.shift) :
    Native.visit t'.nodes (visits.map Visit.shift) fresh' n.shift =
      (Native.visit t.nodes visits fresh n).map Numbering.shift := by
  induction visits, fresh, n using visit.induct generalizing fresh' with
  | case1 fresh n => rw [List.map_nil, Native.visit, Native.visit]; rfl
  | case2 id node visits fresh n fault hadd =>
    rw [List.map_cons, Visit.shift, Native.visit, Native.visit, n.add_shift, hadd]
    rfl
  | case3 id node visits fresh n added hadd ih =>
    have hadd' : n.shift.add id node.shift = .ok added.shift := by rw [n.add_shift, hadd]; rfl
    rw [List.map_cons, Visit.shift, visit_leave hadd, visit_leave hadd']
    exact ih fresh' hfresh
  | case4 id visits fresh n hknown ih =>
    obtain ⟨number, hnumber⟩ := Option.isSome_iff_exists.1 hknown
    have hnumber' : n.shift.numbers.get? id = some number := hnumber
    rw [List.map_cons, Visit.shift, visit_enter_known hnumber, visit_enter_known hnumber']
    exact ih fresh' hfresh
  | case5 id visits fresh n hunknown node hnode ih =>
    have hnew : n.numbers.get? id = none := Option.not_isSome_iff_eq_none.1 hunknown
    have hnew' : n.shift.numbers.get? id = none := hnew
    have hnode' : fresh'.get? id = some node.shift := by rw [hfresh, hnode]; rfl
    have herased (other : Nat) : (fresh'.erase id).get? other =
        ((fresh.erase id).get? other).map NativeNode.shift := by
      rw [Dictionary.get?_erase, Dictionary.get?_erase, hfresh]
      split <;> rfl
    have hrest := ih _ herased
    rw [List.map_append, List.map_append, map_shift_entries, map_shift_entries] at hrest
    rw [List.map_cons, Visit.shift, visit_enter_fresh hnew hnode, visit_enter_fresh hnew' hnode',
      ← List.append_assoc, ← List.append_assoc]
    exact hrest
  | case6 id visits fresh n hunknown hnone =>
    have hnew : n.numbers.get? id = none := Option.not_isSome_iff_eq_none.1 hunknown
    have hnew' : n.shift.numbers.get? id = none := hnew
    have hnone' : fresh'.get? id = none := by rw [hfresh, hnone]; rfl
    have hcontains : t'.nodes.contains id = t.nodes.contains id := by
      rw [Dictionary.contains, Dictionary.contains, h.nodes, Option.isSome_map]
    rw [List.map_cons, Visit.shift, visit_enter_stale hnew hnone, visit_enter_stale hnew' hnone',
      hcontains]
    rfl

theorem Shifts.number (h : t.Shifts t') : t'.number = t.number.map Numbered.shift := by
  have hvisit := h.visit (entries t.root) t.nodes t'.nodes .empty h.nodes
  rw [map_shift_entries] at hvisit
  replace hvisit : Native.visit t'.nodes (entries t.root) t'.nodes .empty = _ := hvisit
  rw [Table.number, Table.number, h.root, hvisit]
  cases Native.visit t.nodes (entries t.root) t.nodes .empty with
  | error fault => rfl
  | ok n =>
    have hroot : n.shift.resolve t.root = n.resolve t.root := rfl
    simp only [bind, Except.bind, Except.map, hroot]
    cases n.resolve t.root with
    | error fault => rfl
    | ok root =>
      rw [Numbering.shift, ← List.map_reverse]
      rfl

end Table

/-- Whether two texts are of tables with shifted variables, or no tables for the same reason. -/
def Format.Shifts (format : Format) (text text' : String) : Prop :=
  (∃ t t', format.parse text = .ok t ∧ format.parse text' = .ok t' ∧ t.Shifts t') ∨
    ∃ fault, format.parse text = .error fault ∧ format.parse text' = .error fault

namespace Format

variable {format : Format} {text text' : String}

theorem Shifts.translate (h : format.Shifts text text') :
    format.translate text' = (format.translate text).map Numbered.shift := by
  rw [Format.translate, Format.translate]
  obtain ⟨t, t', ht, ht', hshifts⟩ | ⟨fault, ht, ht'⟩ := h
  · rw [ht, ht']
    exact hshifts.number
  · rw [ht, ht']
    rfl

/-- Texts have words for variables, so that there is one after each that is shifted. -/
theorem Shifts.var_lt (h : format.Shifts text text') {num : Numbered}
    (hnum : format.translate text = .ok num) {k : Node} (hk : k ∈ num.nodes) :
    k.var + 1 < UInt32.size := by
  obtain ⟨t, t', ht, ht', hshifts⟩ | ⟨fault, ht, -⟩ := h
  · rw [Format.translate, ht] at hnum
    rcases t.number_cases with ⟨fault, hnumber, -⟩ | ⟨n, root, hn, hnumber⟩
    · exact absurd (hnumber.symm.trans hnum) (by simp)
    · obtain rfl := Except.ok.inj (hnumber.symm.trans hnum)
      obtain ⟨id, node, -, hnode, rfl⟩ := hn.mem_nodes_iff.1 (List.mem_reverse.1 hk)
      have hnode' : t'.nodes.get? id = some node.shift := by rw [hshifts.nodes, hnode]; rfl
      obtain ⟨line, -, e, hdescribes⟩ := (tells_of_parse ht').nodes hnode'
      exact hdescribes.var_lt
  · rw [Format.translate, ht] at hnum
    exact absurd hnum (by simp [Except.bind])

end Format
end Native

/-- Whether two dumps of engines are the same with the variables of one of them one higher, all of
which are words. -/
structure NativeDump.Shifts (native native' : NativeDump) : Prop where
  format : native'.format = native.format
  text : native.format.Shifts native.text native'.text
  order : native'.order = native.order.map (· + 1)
  words : ∀ v ∈ native'.order, v < UInt32.size

namespace Manager

variable {σ τ : Type} {m : Manager σ} {m' : Manager τ} {native native' : NativeDump}

section OneBased

variable (hone : m'.capabilities.zeroBased = false)
include hone

theorem formulaVar_oneBased (v : Nat) : m'.formulaVar v = .ok v := by
  rw [formulaVar, hone]
  rfl

theorem formulaNode_shift (k : Node) : m'.formulaNode k.shift = .ok k := by
  rw [formulaNode, formulaVar_oneBased hone]
  rfl

theorem mapM_formulaNode_shift (ks : List Node) :
    (ks.map Node.shift).mapM m'.formulaNode = .ok ks := by
  have hnode : m'.formulaNode ∘ Node.shift = .ok := funext (formulaNode_shift hone)
  rw [List.mapM_map, hnode]
  exact List.mapM_pure.trans (by rw [List.map_id']; rfl)

theorem mapM_formulaVar_oneBased (vars : List Nat) : vars.mapM m'.formulaVar = .ok vars := by
  rw [funext (formulaVar_oneBased hone)]
  exact List.mapM_pure.trans (by rw [List.map_id']; rfl)

end OneBased

theorem find?_eq_none_of_lt {α : Type} {var : α → Nat} {xs : List α}
    (h : ∀ x ∈ xs, var x + 1 < UInt32.size) :
    (xs.find? fun x => ¬ var x + 1 < UInt32.size) = none :=
  List.find?_eq_none.2 fun x hx => by simpa using h x hx

/-- Two managers make the same of dumps with shifted variables, the one of an engine that counts
from 0 and the other of one that counts from 1. -/
theorem dumpOf_shift (hzero : m.capabilities.zeroBased = true)
    (hone : m'.capabilities.zeroBased = false) (hname : m'.name = m.name) (hstub : m'.stub = m.stub)
    (h : native.Shifts native') : m'.dumpOf native' = m.dumpOf native := by
  have hwords : ∀ v ∈ native.order, v + 1 < UInt32.size := fun v hv =>
    h.words _ (h.order ▸ List.mem_map_of_mem hv)
  rw [dumpOf_eq hzero, dumpOf, h.format, h.text.translate, find?_eq_none_of_lt hwords]
  cases htranslate : native.format.translate native.text with
  | error fault => rfl
  | ok num =>
    have hnodes : (num.nodes.find? fun k => ¬ k.var + 1 < UInt32.size) = none :=
      find?_eq_none_of_lt fun k hk => h.text.var_lt htranslate hk
    simp only [Except.map, Native.Numbered.shift, mapM_formulaNode_shift hone, formulaOrder,
      mapM_formulaVar_oneBased hone, hnodes, h.order, hname, hstub, Option.elim, bind, Except.bind]
    cases VariableOrder.ofList? (native.order.map (· + 1)) with
    | error fault => rfl
    | ok order => rfl

end Manager
end DiagramCompiler
