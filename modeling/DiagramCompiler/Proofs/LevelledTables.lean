import DiagramCompiler.Proofs.DumpRoundTrip
import DiagramCompiler.Proofs.EngineDumps

/-! Tables whose nodes go down.
If each node that the root of a native table leads to has a variable, and what it leads to has a
variable of a lower level, no path comes back to where it started. So the table can be numbered, and
under an order with these levels its nodes are a diagram. -/
namespace DiagramCompiler
namespace Native

/-- Whether all that the root of a table leads to is there, has one of the first variables, and has
a level that is lower the farther it is from the root; the top level is 0. -/
structure Table.Descends (t : Table) (count : Nat) (level : Nat → Nat) : Prop where
  closed : t.IsClosed
  var_lt {id : Nat} {node : NativeNode} : t.Reachable id → t.nodes.get? id = some node →
    node.var < count
  below {id id' : Nat} {node node' : NativeNode} : t.Reachable id → t.Child id id' →
    t.nodes.get? id = some node → t.nodes.get? id' = some node' → level node.var < level node'.var

namespace Table.Descends

variable {t : Table} {count : Nat} {level level' : Nat → Nat}

theorem congr (h : t.Descends count level) (heq : ∀ var < count, level' var = level var) :
    t.Descends count level' where
  closed := h.closed
  var_lt := h.var_lt
  below hid hchild hnode hnode' := by
    rw [heq _ (h.var_lt hid hnode), heq _ (h.var_lt (hid.child hchild) hnode')]
    exact h.below hid hchild hnode hnode'

theorem level_lt (h : t.Descends count level) {id id' : Nat} (hid : t.Reachable id)
    (hpath : Relation.TransGen t.Child id id') : t.Reachable id' ∧
      ∀ {node node' : NativeNode}, t.nodes.get? id = some node → t.nodes.get? id' = some node' →
        level node.var < level node'.var := by
  induction hpath with
  | single hchild => exact ⟨hid.child hchild, h.below hid hchild⟩
  | tail _ hchild ih =>
    obtain ⟨hbetween, hlt⟩ := ih
    obtain ⟨between, hget⟩ := h.closed _ hbetween
    exact ⟨hbetween.child hchild, fun hnode hnode' =>
      (hlt hnode hget).trans (h.below hbetween hchild hget hnode')⟩

theorem isAcyclic (h : t.Descends count level) : t.IsAcyclic := by
  intro id hid hcycle
  obtain ⟨node, hnode⟩ := h.closed id hid
  exact Nat.lt_irrefl _ ((h.level_lt hid hcycle).2 hnode hnode)

/-- A table goes down if each of its nodes does, whether the root leads to it or not. -/
theorem of_entries (first : Nat) (hroot : ∀ id, t.root.target = .node id → id = first)
    (hfirst : t.nodes.contains first = true)
    (hnodes : ∀ e ∈ t.nodes.entries, e.2.var < count ∧
      ∀ id, e.2.low.target = .node id ∨ e.2.high.target = .node id →
        ∃ node, t.nodes.get? id = some node ∧ level e.2.var < level node.var) :
    t.Descends count level := by
  have hclosed : t.IsClosed := by
    rintro id ⟨start, hstart, hpath⟩
    obtain rfl := hroot start hstart
    cases hpath.cases_tail with
    | inl heq => exact Option.isSome_iff_exists.1 (heq ▸ hfirst)
    | inr h =>
      obtain ⟨parent, -, node, hnode, hchild⟩ := h
      obtain ⟨-, hlower⟩ := hnodes (parent, node) (Dictionary.mem_entries_iff.2 hnode)
      exact ⟨_, (hlower id hchild).choose_spec.1⟩
  refine ⟨hclosed, fun {id node} _ hnode =>
    (hnodes (id, node) (Dictionary.mem_entries_iff.2 hnode)).1, ?_⟩
  rintro id id' node node' - ⟨parent, hparent, hchild⟩ hnode hnode'
  obtain rfl := Option.some.inj (hparent.symm.trans hnode)
  obtain ⟨-, hlower⟩ := hnodes (id, parent) (Dictionary.mem_entries_iff.2 hnode)
  obtain ⟨found, hfound, hlt⟩ := hlower id' hchild
  obtain rfl := Option.some.inj (hfound.symm.trans hnode')
  exact hlt

end Table.Descends

namespace Numbering.Completes

variable {t : Table} {n : Numbering} {root : Edge}

theorem renames (h : n.Completes t root) {id : Nat} {m : Node} (hm : m ∈ n.nodes)
    (hid : n.numbers.get? id = some m.id) :
    ∃ native, t.nodes.get? id = some native ∧ n.Renames native m := by
  obtain ⟨native, found, hfound, hnative, heq, hrenames⟩ := h.follows.stands hid
  obtain rfl : found = m :=
    List.inj_on_of_nodup_map h.nodup_ids (List.mem_reverse.2 hfound) (List.mem_reverse.2 hm) heq
  exact ⟨native, hnative, hrenames⟩

theorem exists_target (h : n.Completes t root) {e : NativeEdge} {f : Edge} {m : Node}
    (he : n.resolve e = .ok f) (hm : m ∈ n.nodes) (hid : m.id = f.id) :
    ∃ id native, e.target = .node id ∧ t.nodes.get? id = some native ∧ m.var = native.var := by
  obtain ⟨complemented, target⟩ := e
  cases target with
  | terminal value =>
    rw [resolve_terminal] at he
    obtain rfl := Except.ok.inj he
    have hfirst : 2 ≤ m.id := (h.follows.mem_range hm).1
    have hterminal : m.id < 2 := by
      rw [hid]
      cases value <;> simp [Edge.trueId, Edge.falseId]
    omega
  | node id =>
    obtain ⟨native, hnative, hrenames⟩ := h.renames hm (hid ▸ (resolve_node.1 he).1)
    exact ⟨id, native, rfl, hnative, hrenames.var⟩

theorem wellFormed (h : n.Completes t root) {order : VariableOrder}
    (ht : t.Descends order.length fun var => order.position (var + 1)) :
    Diagram.WellFormed order root n.nodes.reverse where
  ascending := by
    rw [← List.pairwise_map (f := Node.id) (R := (· < ·)), h.follows.ids]
    exact List.pairwise_lt_range'
  notTerminal m hm := (h.follows.mem_range (List.mem_reverse.1 hm)).1
  var_lt m hm := by
    obtain ⟨id, hid⟩ := h.follows.named (List.mem_reverse.1 hm)
    obtain ⟨native, hnative, hrenames⟩ := h.renames (List.mem_reverse.1 hm) hid
    exact hrenames.var ▸ ht.var_lt (h.follows.reachable hid) hnative
  root_resolves := (h.isTerminal_or_mem h.root).imp_right fun ⟨m, hm, hid⟩ =>
    ⟨m, List.mem_reverse.2 hm, hid⟩
  low_resolves m hm := (h.renumbers.edges m hm m.low (.inl rfl)).imp_right And.right
  high_resolves m hm := (h.renumbers.edges m hm m.high (.inr rfl)).imp_right And.right
  below m hm m' hm' hedge := by
    obtain ⟨id, hid⟩ := h.follows.named (List.mem_reverse.1 hm)
    obtain ⟨native, hnative, hrenames⟩ := h.renames (List.mem_reverse.1 hm) hid
    obtain ⟨id', native', hchild, hnative', hvar'⟩ : ∃ id' native', t.Child id id' ∧
        t.nodes.get? id' = some native' ∧ m'.var = native'.var := by
      rcases hedge with hlow | hhigh
      · obtain ⟨id', native', htarget, hget⟩ :=
          h.exists_target hrenames.low (List.mem_reverse.1 hm') hlow
        exact ⟨id', native', ⟨native, hnative, .inl htarget⟩, hget⟩
      · obtain ⟨id', native', htarget, hget⟩ :=
          h.exists_target hrenames.high (List.mem_reverse.1 hm') hhigh
        exact ⟨id', native', ⟨native, hnative, .inr htarget⟩, hget⟩
    rw [Diagram.levelOf, Diagram.levelOf, hrenames.var, hvar']
    exact ht.below (h.follows.reachable hid) hchild hnative hnative'

end Numbering.Completes
end Native

namespace Manager

variable {σ : Type} {m : Manager σ} {order : VariableOrder}

theorem formulaVar_of_lt (hzero : m.capabilities.zeroBased = true)
    (hlength : order.length < UInt32.size) {var : Nat} (hvar : var < order.length) :
    m.formulaVar var = .ok (var + 1) := by
  rw [formulaVar, if_pos hzero, if_pos (by omega)]

theorem formulaOrder_map (hzero : m.capabilities.zeroBased = true)
    (hlength : order.length < UInt32.size) :
    m.formulaOrder (order.toList.map (· - 1)) = .ok order := by
  have hvars : (order.toList.map (· - 1)).mapM m.formulaVar = .ok order.toList := by
    refine mapM_map_eq_ok fun var hvar => ?_
    obtain ⟨hpos, hle⟩ := order.mem_toList_iff.1 hvar
    rw [formulaVar_of_lt hzero hlength (by omega), Nat.sub_add_cancel hpos]
  rw [formulaOrder, hvars]
  simp only [bind, Except.bind, order.ofList?_toList]
  rfl

/-- A text whose table goes down under an order makes a dump with that order. -/
theorem exists_dumpOf {format : Native.Format} {text : String} {t : Native.Table}
    (hzero : m.capabilities.zeroBased = true) (hlength : order.length < UInt32.size)
    (hparse : format.parse text = .ok t)
    (ht : t.Descends order.length fun var => order.position (var + 1)) :
    ∃ d, m.dumpOf ⟨format, text, order.toList.map (· - 1)⟩ = .ok d := by
  rcases t.number_cases with ⟨fault, -, hblames⟩ | ⟨n, root, hn, hnumber⟩
  · exact absurd hblames (Native.Table.not_blames ht.closed ht.isAcyclic)
  have hdiagram := hn.wellFormed ht
  have hnodes : (n.nodes.reverse.map id).mapM m.formulaNode = .ok n.nodes.reverse := by
    refine mapM_map_eq_ok fun k hk => ?_
    rw [id, formulaNode, formulaVar_of_lt hzero hlength (hdiagram.var_lt k hk)]
    rfl
  rw [List.map_id] at hnodes
  rw [dumpOf, Native.Format.translate, hparse]
  simp only [Except.bind, hnumber, hnodes, formulaOrder_map hzero hlength, bind,
    hdiagram.ofNodes_eq]
  exact ⟨_, rfl⟩

end Manager

end DiagramCompiler
