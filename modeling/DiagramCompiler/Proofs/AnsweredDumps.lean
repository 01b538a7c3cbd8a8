import DiagramCompiler.Engine.Scripted
import DiagramCompiler.Proofs.RelabelledTables
import DiagramCompiler.Proofs.ReportedLevels

/-! Dumps of any answer.
A manager makes a dump of whatever an engine answers, or fails. The dump has the nodes that the text
leads to, each with the variable that it has there, and the order that was read back, both counted
from 1; it is made exactly if all that the root leads to is there and goes down under that order.
For an engine that counts from 0 there is one more way to fail: nothing is counted after the last
variable, so that a node or an order with that variable ends in an overflow. -/
namespace DiagramCompiler

/-- A traversal that refuses some members comes to its values, or to the first refusal. -/
theorem mapM_ite {ε α β : Type} (p : α → Prop) [DecidablePred p] (f : α → β) (fault : α → ε)
    (xs : List α) :
    xs.mapM (fun x => if p x then Except.ok (f x) else .error (fault x)) =
      (xs.find? fun x => ¬ p x).elim (.ok (xs.map f)) fun x => .error (fault x) := by
  induction xs with
  | nil => rfl
  | cons x xs ih =>
    rw [List.mapM_cons, ih]
    by_cases hx : p x
    · rw [if_pos hx, List.find?_cons_of_neg (by simpa using hx)]
      cases xs.find? fun x => ¬ p x with
      | none => rfl
      | some y => rfl
    · rw [if_neg hx, List.find?_cons_of_pos (by simpa using hx)]
      rfl

namespace Native

theorem Format.Describes.var_lt {format : Format} {line : List Char} {id : Nat} {e : NativeEdge}
    {node : NativeNode} (h : format.Describes line id e node) : node.var < UInt32.size := by
  cases h with
  | buddy _ _ hvar => exact Numeral.lt_of_unsigned (by decide) hvar
  | cudd _ _ _ _ _ _ hvar => exact Numeral.lt_of_unsigned (by decide) hvar

def Table.Tests (t : Table) (var : Nat) : Prop :=
  ∃ id node, t.Reachable id ∧ t.nodes.get? id = some node ∧ node.var = var

namespace Numbering.Completes

variable {t : Table} {n : Numbering} {root : Edge}

theorem injOn_numberOf (h : n.Completes t root) : Set.InjOn n.numberOf {id | t.Reachable id} := by
  intro id hid id' hid' heq
  obtain ⟨number, hnumber, -⟩ := h.reachable hid
  obtain ⟨number', hnumber', -⟩ := h.reachable hid'
  simp only [numberOf, hnumber, hnumber', Option.getD_some] at heq
  exact h.follows.eq_of_number hnumber (heq ▸ hnumber')

theorem mem_nodes_iff (h : n.Completes t root) {m : Node} :
    m ∈ n.nodes ↔ ∃ id native, t.Reachable id ∧ t.nodes.get? id = some native ∧
      native.renamed n.numberOf id = m := by
  constructor
  · intro hm
    obtain ⟨id, hid⟩ := h.follows.named hm
    obtain ⟨native, hnative, hrenames⟩ := h.renames hm hid
    refine ⟨id, native, h.follows.reachable hid, hnative, ?_⟩
    rw [NativeNode.renamed, ← eq_renamed hrenames.low, ← eq_renamed hrenames.high, ← hrenames.var,
      numberOf, hid]
    rfl
  · rintro ⟨id, native, hid, hnative, rfl⟩
    exact h.renamed_mem hid hnative

end Numbering.Completes
end Native

/-- Whether a dump says what a table and the variables of its levels say. Each node that the root of
the table leads to is there, under a number of its own, and nothing else; the variables of nodes
stay as they are, which is to count those of the formula from 0, and the order counts them from
1. -/
structure Dump.Reflects (d : Dump) (t : Native.Table) (vars : List Nat) : Prop where
  order : d.diagram.order.toList = vars.map (· + 1)
  closed : t.IsClosed
  nodes : ∃ number : Nat → Nat, Set.InjOn number {id | t.Reachable id} ∧
    d.diagram.root = t.root.renamed number ∧ ∀ k, k ∈ d.diagram.nodes ↔
      ∃ id node, t.Reachable id ∧ t.nodes.get? id = some node ∧ node.renamed number id = k
  finds (assignment : Nat → Bool) (found : Bool) :
    t.Finds (fun var => assignment (var + 1)) t.root found ↔
      d.diagram.eval assignment d.diagram.root = found

/-- The nodes of a table that a dump reflects go down under the order of the dump. -/
theorem Dump.Reflects.descends {d : Dump} {t : Native.Table} {vars : List Nat}
    (h : d.Reflects t vars) :
    t.Descends d.diagram.order.length fun var => d.diagram.order.position (var + 1) := by
  obtain ⟨number, -, -, hnodes⟩ := h.nodes
  have hmem {id : Nat} {node : Native.NativeNode} (hid : t.Reachable id)
      (hnode : t.nodes.get? id = some node) : node.renamed number id ∈ d.diagram.nodes :=
    (hnodes _).2 ⟨id, node, hid, hnode, rfl⟩
  refine ⟨h.closed, fun hid hnode => d.diagram.wellFormed.var_lt _ (hmem hid hnode), ?_⟩
  intro id id' node node' hid hchild hnode hnode'
  refine d.diagram.wellFormed.below _ (hmem hid hnode) _ (hmem (hid.child hchild) hnode') ?_
  obtain ⟨parent, hparent, hedge⟩ := hchild
  obtain rfl := Option.some.inj (hparent.symm.trans hnode)
  rcases hedge with hlow | hhigh
  · exact .inl (by simp only [Native.NativeNode.renamed, Native.NativeEdge.renamed, hlow])
  · exact .inr (by simp only [Native.NativeNode.renamed, Native.NativeEdge.renamed, hhigh])

namespace Manager

variable {σ : Type} {m : Manager σ} {native : NativeDump} {t : Native.Table}

/-- The last number of a variable, which is a word of 32 bits. -/
def lastVar : Nat := UInt32.size - 1

theorem formulaVar_inj {v w var : Nat} (hv : m.formulaVar v = .ok var)
    (hw : m.formulaVar w = .ok var) : v = w := by
  rw [formulaVar] at hv hw
  split at hv
  · next hzero =>
    rw [if_pos hzero] at hw
    split at hv
    · split at hw
      · exact Nat.succ.inj ((Except.ok.inj hv).trans (Except.ok.inj hw).symm)
      · exact absurd hw (by simp)
    · exact absurd hv (by simp)
  · next hone =>
    rw [if_neg hone] at hw
    exact (Except.ok.inj hv).trans (Except.ok.inj hw).symm

section ZeroBased

variable (hzero : m.capabilities.zeroBased = true)
include hzero

theorem formulaVar_eq (v : Nat) : m.formulaVar v =
    if v + 1 < UInt32.size then .ok (v + 1) else .error (.overflow (.lastVariable v)) := by
  rw [formulaVar, if_pos hzero]

/-- A node keeps its variable: what is added to it is taken away again. -/
theorem formulaNode_eq (k : Node) : m.formulaNode k =
    if k.var + 1 < UInt32.size then .ok (id k) else .error (.overflow (.lastVariable k.var)) := by
  rw [formulaNode, formulaVar_eq hzero]
  split <;> rfl

/-- What is made of an answer: nodes and order as they are, or an overflow at the first variable
that has none after it. -/
theorem dumpOf_eq (native : NativeDump) : m.dumpOf native =
    match native.format.translate native.text with
    | .error fault => .error (.malformedDump (native.format.message fault))
    | .ok num =>
      (num.nodes.find? fun k => ¬ k.var + 1 < UInt32.size).elim
        ((native.order.find? fun v => ¬ v + 1 < UInt32.size).elim
          (match VariableOrder.ofList? (native.order.map (· + 1)) with
          | .error fault => .error (.invalidOrder fault.message)
          | .ok order =>
            match Diagram.ofNodes order num.root num.nodes with
            | .error fault => .error (.malformedDump fault.message)
            | .ok diagram => .ok (.ofDiagram m.name m.stub diagram))
          fun v => .error (.overflow (.lastVariable v)))
        fun k => .error (.overflow (.lastVariable k.var)) := by
  rw [dumpOf]
  cases native.format.translate native.text with
  | error fault => rfl
  | ok num =>
    simp only [formulaOrder, funext (formulaVar_eq hzero), funext (formulaNode_eq hzero), mapM_ite,
      List.map_id]
    cases num.nodes.find? fun k => ¬ k.var + 1 < UInt32.size with
    | some k => rfl
    | none =>
      cases native.order.find? fun v => ¬ v + 1 < UInt32.size with
      | some v => rfl
      | none =>
        simp only [Option.elim, bind, Except.bind]
        cases VariableOrder.ofList? (native.order.map (· + 1)) with
        | error fault => rfl
        | ok order => rfl

theorem order_of_formulaOrder {vars : List Nat} {order : VariableOrder}
    (h : m.formulaOrder vars = .ok order) : order.toList = vars.map (· + 1) := by
  obtain ⟨found, hfound, h⟩ := bind_eq_ok_iff.1 h
  rw [funext (formulaVar_eq hzero), mapM_ite] at hfound
  cases hlast : vars.find? fun v => ¬ v + 1 < UInt32.size with
  | some v =>
    rw [hlast] at hfound
    exact absurd hfound (by simp)
  | none =>
    rw [hlast] at hfound
    obtain rfl := Except.ok.inj hfound
    split at h
    · exact absurd h (by simp)
    · next order' hlist => exact Except.ok.inj h ▸ VariableOrder.toList_ofList? hlist

theorem reflects_of_dumpOf {d : Dump} (ht : native.format.parse native.text = .ok t)
    (h : m.dumpOf native = .ok d) : d.Reflects t native.order := by
  obtain ⟨n, hn, nodes, hnodes, hmem⟩ := exists_of_dumpOf ht h
  obtain rfl : n.nodes.reverse = nodes := by
    rw [funext (formulaNode_eq hzero), mapM_ite, List.map_id] at hnodes
    cases hlast : n.nodes.reverse.find? fun k => ¬ k.var + 1 < UInt32.size with
    | some k => exact absurd (hlast ▸ hnodes) (by simp)
    | none => exact Except.ok.inj (hlast ▸ hnodes)
  refine ⟨order_of_formulaOrder hzero (formulaOrder_of_dumpOf h), hn.isClosed,
    ⟨n.numberOf, hn.injOn_numberOf, Native.Numbering.eq_renamed hn.root, fun k => ?_⟩,
    fun assignment found => ?_⟩
  · rw [hmem, List.mem_reverse, hn.mem_nodes_iff]
  · obtain ⟨value, hvalue⟩ := hn.renumbers.finds fun var => assignment (var + 1)
    have heval : d.diagram.eval assignment d.diagram.root = value :=
      Native.Numbered.eval_of_finds (fun k hk => ⟨k, hmem.2 hk, rfl, rfl, rfl, rfl⟩)
        ((hvalue value).2.2 rfl)
    rw [(hvalue found).1, heval, eq_comm]

end ZeroBased

end Manager

/-- Whether a text leads to a node with the last variable, or the order has that variable; all that
the root leads to being there, and on no cycle. -/
def NativeDump.Overruns (native : NativeDump) : Prop :=
  ∃ t, native.format.parse native.text = .ok t ∧ t.IsClosed ∧ t.IsAcyclic ∧
    (Manager.lastVar ∈ native.order ∨ t.Tests Manager.lastVar)

/-- Whether a failure says what is wrong with a text or with an order. -/
def Failure.IsRefusal (failure : Failure) : Prop :=
  (∃ reason, failure = .malformedDump reason) ∨ ∃ reason, failure = .invalidOrder reason

namespace Manager

variable {σ : Type} {m : Manager σ} {native : NativeDump} {t : Native.Table}

/-- Of words, a search for one that has none after it finds the last one, or nothing. -/
theorem find?_word {α : Type} (var : α → Nat) {xs : List α}
    (hwords : ∀ x ∈ xs, var x < UInt32.size) :
    ((∀ x ∈ xs, var x ≠ lastVar) ∧ (xs.find? fun x => ¬ var x + 1 < UInt32.size) = none) ∨
      ∃ x ∈ xs, var x = lastVar ∧ (xs.find? fun x => ¬ var x + 1 < UInt32.size) = some x := by
  have heq {x : α} (hx : x ∈ xs) : var x + 1 < UInt32.size ↔ var x ≠ lastVar := by
    have hword := hwords x hx
    rw [lastVar]
    omega
  cases hfind : xs.find? fun x => ¬ var x + 1 < UInt32.size with
  | some x =>
    have hx := List.mem_of_find?_eq_some hfind
    have hlast := List.find?_some hfind
    rw [decide_eq_true_eq, heq hx, not_not] at hlast
    exact .inr ⟨x, hx, hlast, rfl⟩
  | none =>
    refine .inl ⟨fun x hx => ?_, rfl⟩
    have hlt := List.find?_eq_none.1 hfind x hx
    rwa [decide_eq_true_eq, not_not, heq hx] at hlt

/-- The nodes of a table that can be numbered have the last variable, or go without an overflow. -/
theorem find?_node {n : Native.Numbering} {root : Edge}
    (ht : native.format.parse native.text = .ok t) (hn : n.Completes t root) :
    (¬ t.Tests lastVar ∧ (n.nodes.reverse.find? fun k => ¬ k.var + 1 < UInt32.size) = none) ∨
      ∃ k, t.Tests lastVar ∧ k.var = lastVar ∧
        (n.nodes.reverse.find? fun k => ¬ k.var + 1 < UInt32.size) = some k := by
  have hmem {k : Node} (hk : k ∈ n.nodes.reverse) : ∃ id node, t.Reachable id ∧
      t.nodes.get? id = some node ∧ node.renamed n.numberOf id = k :=
    hn.mem_nodes_iff.1 (List.mem_reverse.1 hk)
  have hwords : ∀ k ∈ n.nodes.reverse, k.var < UInt32.size := by
    intro k hk
    obtain ⟨id, node, -, hnode, rfl⟩ := hmem hk
    obtain ⟨line, -, e, hdescribes⟩ := (Native.Format.tells_of_parse ht).nodes hnode
    exact hdescribes.var_lt
  rcases find?_word Node.var hwords with ⟨hnone, hfind⟩ | ⟨k, hk, hvar, hfind⟩
  · refine .inl ⟨?_, hfind⟩
    rintro ⟨id, node, hid, hnode, hvar⟩
    exact hnone _ (List.mem_reverse.2 (hn.mem_nodes_iff.2 ⟨id, node, hid, hnode, rfl⟩)) hvar
  · obtain ⟨id, node, hid, hnode, rfl⟩ := hmem hk
    exact .inr ⟨_, ⟨id, node, hid, hnode, hvar⟩, hvar, hfind⟩

/-- Nodes and an order of words end in an overflow if one of them has the last variable; without it
they give a dump or are refused. -/
theorem dumpOf_numbered (hzero : m.capabilities.zeroBased = true)
    (hwords : ∀ v ∈ native.order, v < UInt32.size) {n : Native.Numbering} {root : Edge}
    (ht : native.format.parse native.text = .ok t) (hn : n.Completes t root)
    (htranslate : native.format.translate native.text = .ok ⟨root, n.nodes.reverse⟩) :
    ((lastVar ∈ native.order ∨ t.Tests lastVar) ∧
        m.dumpOf native = .error (.overflow (.lastVariable lastVar))) ∨
      (¬ (lastVar ∈ native.order ∨ t.Tests lastVar) ∧
        ∀ failure, m.dumpOf native = .error failure → failure.IsRefusal) := by
  have hdump := dumpOf_eq hzero native
  rw [htranslate] at hdump
  simp only at hdump
  rcases find?_node ht hn with ⟨hnodes, hfind⟩ | ⟨k, htests, hvar, hfind⟩
  · rw [hfind, Option.elim_none] at hdump
    rcases find?_word (fun v => v) hwords with ⟨hvars, hfind⟩ | ⟨v, hv, hvar, hfind⟩
    · rw [hfind, Option.elim_none] at hdump
      refine .inr ⟨fun hlast => hlast.elim (fun hmem => hvars _ hmem rfl) hnodes, ?_⟩
      intro failure hfail
      rw [hdump] at hfail
      split at hfail
      · exact .inr ⟨_, (Except.error.inj hfail).symm⟩
      · split at hfail
        · exact .inl ⟨_, (Except.error.inj hfail).symm⟩
        · exact absurd hfail (by simp)
    · rw [hfind, Option.elim_some, hvar] at hdump
      exact .inl ⟨.inl (hvar ▸ hv), hdump⟩
  · rw [hfind, Option.elim_some, hvar] at hdump
    exact .inl ⟨.inr htests, hdump⟩

/-- An answer that overruns ends in an overflow; any other gives a dump or is refused. -/
theorem dumpOf_cases (hzero : m.capabilities.zeroBased = true)
    (hwords : ∀ v ∈ native.order, v < UInt32.size) :
    (native.Overruns ∧ m.dumpOf native = .error (.overflow (.lastVariable lastVar))) ∨
      (¬ native.Overruns ∧ ∀ failure, m.dumpOf native = .error failure → failure.IsRefusal) := by
  have hrefused {fault : Native.Fault}
      (htranslate : native.format.translate native.text = .error fault) :
      ∀ failure, m.dumpOf native = .error failure → failure.IsRefusal := by
    intro failure hfail
    rw [dumpOf, htranslate] at hfail
    exact .inl ⟨_, (Except.error.inj hfail).symm⟩
  rcases ht : native.format.parse native.text with fault | t
  · have htranslate : native.format.translate native.text = .error fault := by
      rw [Native.Format.translate, ht]
      rfl
    refine .inr ⟨?_, hrefused htranslate⟩
    rintro ⟨t, ht', -⟩
    exact absurd (ht.symm.trans ht') (by simp)
  have htranslate : native.format.translate native.text = t.number := by
    rw [Native.Format.translate, ht]
    rfl
  have hover : native.Overruns ↔
      t.IsClosed ∧ t.IsAcyclic ∧ (lastVar ∈ native.order ∨ t.Tests lastVar) := by
    rw [NativeDump.Overruns, ht]
    simp
  rcases t.number_cases with ⟨fault, hnumber, hblames⟩ | ⟨n, root, hn, hnumber⟩
  · refine .inr ⟨fun hoverruns => ?_, hrefused (htranslate.trans hnumber)⟩
    obtain ⟨hclosed, hacyclic, -⟩ := hover.1 hoverruns
    exact Native.Table.not_blames hclosed hacyclic hblames
  · have hover' : native.Overruns ↔ lastVar ∈ native.order ∨ t.Tests lastVar :=
      hover.trans ⟨fun h => h.2.2, fun h => ⟨hn.isClosed, hn.isAcyclic, h⟩⟩
    rw [hover']
    exact dumpOf_numbered hzero hwords ht hn (htranslate.trans hnumber)

theorem dumpOf_overflow_iff (hzero : m.capabilities.zeroBased = true)
    (hwords : ∀ v ∈ native.order, v < UInt32.size) :
    m.dumpOf native = .error (.overflow (.lastVariable lastVar)) ↔ native.Overruns := by
  rcases dumpOf_cases hzero hwords with ⟨hoverruns, hlast⟩ | ⟨hnot, hrefused⟩
  · exact iff_of_true hlast hoverruns
  · refine iff_of_false (fun hlast => ?_) hnot
    rcases hrefused _ hlast with ⟨reason, hreason⟩ | ⟨reason, hreason⟩ <;>
      exact absurd hreason (by simp)

/-- A dump is made exactly if the order lists each variable once and all that the root leads to is
there and goes down under it. -/
theorem exists_dumpOf_iff (hzero : m.capabilities.zeroBased = true) :
    (∃ d, m.dumpOf native = .ok d) ↔ ∃ (t : Native.Table) (order : VariableOrder),
      native.format.parse native.text = .ok t ∧ order.toList = native.order.map (· + 1) ∧
        order.length < UInt32.size ∧
        t.Descends order.length fun var => order.position (var + 1) := by
  constructor
  · rintro ⟨d, hd⟩
    obtain ⟨t, ht⟩ : ∃ t, native.format.parse native.text = .ok t := by
      rcases ht : native.format.parse native.text with fault | t
      · rw [dumpOf, Native.Format.translate, ht] at hd
        exact absurd hd (by simp [Except.bind])
      · exact ⟨t, rfl⟩
    have hreflects := reflects_of_dumpOf hzero ht hd
    refine ⟨t, d.diagram.order, ht, hreflects.order, ?_, hreflects.descends⟩
    exact length_lt_of_formulaOrder (fun hone => absurd (hzero.symm.trans hone) (by simp))
      (formulaOrder_of_dumpOf hd)
  · rintro ⟨t, order, ht, horder, hlength, hdescends⟩
    have hvars : order.toList.map (· - 1) = native.order := by
      rw [horder, List.map_map]
      exact List.map_id _
    have hd := exists_dumpOf hzero hlength ht hdescends
    rwa [hvars] at hd

/-- Let an engine that counts from 0 answer with any text and any order of words. Then its manager
makes a dump, which reflects the text and the order, exactly if the order lists each variable once
and the text goes down under it; otherwise it says what is wrong with the text or with the order,
unless one of the two has the last variable and the text is whole: that ends in an overflow. No two
variables of an engine become the same variable of a formula. -/
theorem dump_of_any_answer {s s' : σ} {node : NodeRef}
    (hzero : m.capabilities.zeroBased = true)
    (hanswer : (m.engine.dump node).run s = (.ok native, s'))
    (hwords : ∀ v ∈ native.order, v < UInt32.size) :
    ∃ answer, (m.dump node).run s = (answer, s') ∧
      (∀ d, answer = .ok d →
        ∃ t, native.format.parse native.text = .ok t ∧ d.Reflects t native.order) ∧
      ((∃ d, answer = .ok d) ↔ ∃ (t : Native.Table) (order : VariableOrder),
        native.format.parse native.text = .ok t ∧ order.toList = native.order.map (· + 1) ∧
          order.length < UInt32.size ∧
          t.Descends order.length fun var => order.position (var + 1)) ∧
      (answer = .error (.overflow (.lastVariable lastVar)) ↔ native.Overruns) ∧
      (∀ failure, answer = .error failure → ¬ native.Overruns → failure.IsRefusal) ∧
      ∀ v w var, m.formulaVar v = .ok var → m.formulaVar w = .ok var → v = w := by
  refine ⟨m.dumpOf native, Action.run_bind_of_ok hanswer _, fun d hd => ?_,
    exists_dumpOf_iff hzero, dumpOf_overflow_iff hzero hwords, fun failure hfail hnot => ?_,
    fun v w var => formulaVar_inj⟩
  · obtain ⟨t, -, ht, -⟩ := (exists_dumpOf_iff hzero).1 ⟨d, hd⟩
    exact ⟨t, ht, reflects_of_dumpOf hzero ht hd⟩
  · rcases dumpOf_cases hzero hwords with ⟨hoverruns, -⟩ | ⟨-, hrefused⟩
    · exact absurd hoverruns hnot
    · exact hrefused failure hfail

end Manager

namespace Answered

/-- A manager of an engine that counts from 0 and answers every dump alike. -/
def manager (native : NativeDump) : Manager Scripted.State :=
  ⟨Scripted.engine ⟨⟨true, true, .rebuild, []⟩, false, some native, .empty, .zero⟩, none⟩

def after : Scripted.State := Scripted.State.fresh.write "dump 1"

theorem run_dump (native : NativeDump) :
    ((manager native).engine.dump ⟨1⟩).run .fresh = (.ok native, after) := rfl

/-- The conjunction of two of three variables, of which the last one is not on the last level. -/
def rotated : NativeDump := ⟨.buddy, Library.Rotated.text .buddy, [1, 2, 0]⟩

/-- A node with the last variable. -/
def overrun : NativeDump := ⟨.buddy, "1 1\n0\n2 4294967295 0 1\n", [0]⟩

def overrunTable : Native.Table :=
  ⟨⟨false, .node 2⟩, .ofList [(2, ⟨4294967295, ⟨false, .terminal false⟩, ⟨false, .terminal true⟩⟩)]⟩

theorem parse_overrun : overrun.format.parse overrun.text = .ok overrunTable := by decide +kernel

theorem overruns_overrun : overrun.Overruns := by
  have hnumber : overrunTable.number =
      .ok ⟨⟨false, 2⟩, [⟨2, 4294967295, ⟨false, 0⟩, ⟨false, 1⟩⟩]⟩ := by cbv
  obtain ⟨hclosed, hacyclic⟩ := overrunTable.exists_number_iff.1 ⟨_, hnumber⟩
  exact ⟨overrunTable, parse_overrun, hclosed, hacyclic, .inr ⟨2, _, ⟨2, rfl, .refl⟩, rfl, rfl⟩⟩

theorem dump_of_two_answers :
    ((manager rotated).engine.dump ⟨1⟩).run .fresh = (.ok rotated, after) ∧
      (∃ d t, ((manager rotated).dump ⟨1⟩).run .fresh = (.ok d, after) ∧
        rotated.format.parse rotated.text = .ok t ∧ d.Reflects t rotated.order) ∧
      ((manager overrun).dump ⟨1⟩).run .fresh =
        (.error (.overflow (.lastVariable Manager.lastVar)), after) := by
  obtain ⟨answer, hrun, hreflects, hiff, -⟩ :=
    Manager.dump_of_any_answer (m := manager rotated) rfl (run_dump rotated) (by decide)
  obtain ⟨d, rfl⟩ := hiff.2 ⟨_, Library.Rotated.order, Library.Rotated.parse_text .buddy, rfl,
    by decide, Library.Rotated.descends_table .buddy⟩
  obtain ⟨answer', hrun', -, -, hover, -⟩ :=
    Manager.dump_of_any_answer (m := manager overrun) rfl (run_dump overrun) (by decide)
  obtain rfl := hover.2 overruns_overrun
  obtain ⟨t, ht, hd⟩ := hreflects d rfl
  exact ⟨rfl, ⟨d, t, hrun, ht, hd⟩, hrun'⟩

/-- Not every answer is dumped or refused. -/
theorem not_dumped_or_refused :
    ¬ ∀ (σ : Type) (m : Manager σ) (s s' : σ) (node : NodeRef) (native : NativeDump),
      m.capabilities.zeroBased = true → (m.engine.dump node).run s = (.ok native, s') →
      (∀ v ∈ native.order, v < UInt32.size) →
      ∀ cause, ((m.dump node).run s).1 ≠ .error (.overflow cause) := by
  intro h
  refine h _ (manager overrun) .fresh after ⟨1⟩ overrun rfl (run_dump overrun) (by decide)
    (.lastVariable 4294967295) ?_
  have htranslate : overrun.format.translate overrun.text =
      .ok ⟨⟨false, 2⟩, [⟨2, 4294967295, ⟨false, 0⟩, ⟨false, 1⟩⟩]⟩ := by
    rw [Native.Format.translate, parse_overrun]
    cbv
  rw [Manager.dump, Action.run_bind_of_ok (run_dump overrun), Action.run_ofExcept, Manager.dumpOf,
    htranslate]
  rfl

end Answered
end DiagramCompiler
