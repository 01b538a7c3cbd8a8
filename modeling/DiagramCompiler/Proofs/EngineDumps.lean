import DiagramCompiler.Proofs.NormalForm
import DiagramCompiler.Proofs.NativeTranslation
import DiagramCompiler.Proofs.RecordedEngines

/-! Dumps of engines.
An engine that keeps a contract may also write its diagrams faithfully: following the nodes of the
text finds what the reference stands for. The dump that a manager makes of such a text has the values
of the reference, and the numbers in it are words. The reference engine writes its diagrams so. -/
namespace DiagramCompiler

/-- Whether a table that was read from a native dump tells the values of a function. Numbers of
nodes are words of 64 bits, two of which stand for the terminals. Variables are words of 32 bits;
where they are counted from 0, this is made sure of when they become variables of formulas. -/
structure NativeDump.Shows (native : NativeDump) (c : Capabilities) (t : Native.Table)
    (f : (Nat → Bool) → Bool) : Prop where
  finds (values : Nat → Bool) : t.Finds values t.root (f values)
  firstVar_le {id : Nat} {node : Native.NativeNode} (h : t.nodes.get? id = some node) :
    c.firstVar ≤ node.var
  size_le : t.nodes.entries.length + 2 ≤ UInt64.size
  order_lt : c.zeroBased = false → ∀ v ∈ native.order, v < UInt32.size

/-- Whether an engine writes what held references stand for, in texts that can be read or not. -/
def Engine.Contract.WritesDiagrams {σ : Type} {e : Engine σ} (C : e.Contract) : Prop :=
  ∀ (s s' : σ) (refs : Multiset NodeRef) (node : NodeRef) (native : NativeDump) (t : Native.Table),
    C.holds s refs → node ∈ refs → (e.dump node).run s = (.ok native, s') →
      native.format.parse native.text = .ok t → native.Shows e.capabilities t (C.meaning s node)

/-- Whether the numbers in a dump are words. -/
structure Dump.Fits (d : Dump) : Prop where
  id_lt : ∀ n ∈ d.diagram.nodes, n.id < UInt64.size
  length_lt : d.diagram.order.length < UInt32.size

/-! ### From native texts to diagrams -/

namespace Native

theorem NativeEdge.terminal_of_ofEdge {e : Edge} {complemented value : Bool}
    (h : ofEdge e = ⟨complemented, .terminal value⟩) :
    e.complemented = complemented ∧ e.id < Edge.firstNodeId ∧
      decide (e.id = Edge.trueId) = value := by
  obtain ⟨hmark, htarget⟩ := NativeEdge.mk.inj h
  refine ⟨hmark, ?_⟩
  rw [Buddy.edge] at htarget
  split at htarget
  · next hzero =>
    obtain rfl := Target.terminal.inj htarget
    exact ⟨hzero ▸ (by decide), hzero ▸ (by decide)⟩
  · split at htarget
    · next hone =>
      obtain rfl := Target.terminal.inj htarget
      exact ⟨hone ▸ (by decide), hone ▸ (by decide)⟩
    · exact absurd htarget (by simp)

theorem NativeEdge.eq_of_ofEdge {e : Edge} {complemented : Bool} {id : Nat}
    (h : ofEdge e = ⟨complemented, .node id⟩) : e = ⟨complemented, id⟩ := by
  obtain ⟨rfl, htarget⟩ := NativeEdge.mk.inj h
  rw [Buddy.edge] at htarget
  split at htarget
  · exact absurd htarget (by simp)
  · split at htarget
    · exact absurd htarget (by simp)
    · obtain rfl := Target.node.inj htarget
      rfl

/-- The values of a numbered table are those of a diagram with its nodes, if the variables of the
nodes have the same values. -/
theorem Numbered.eval_of_finds {num : Numbered} {diagram : Diagram} {values assignment : Nat → Bool}
    (hnodes : ∀ m ∈ num.nodes, ∃ n ∈ diagram.nodes, n.id = m.id ∧ n.low = m.low ∧
      n.high = m.high ∧ assignment (n.var + 1) = values m.var) {e : Edge} {found : Bool}
    (h : num.table.Finds values (.ofEdge e) found) : diagram.eval assignment e = found := by
  generalize hedge : NativeEdge.ofEdge e = native at h
  induction h generalizing e with
  | terminal complemented value =>
    obtain ⟨hmark, hlt, hvalue⟩ := NativeEdge.terminal_of_ofEdge hedge
    rw [Diagram.eval_terminal _ _ (Edge.isTerminal_iff.2 hlt), hmark, hvalue]
    exact Bool.xor_comm _ _
  | @node complemented id native found hnative _ ih =>
    obtain rfl := NativeEdge.eq_of_ofEdge hedge
    obtain ⟨m, hm, heq⟩ := List.mem_map.1 (mem_of_get?_ofList hnative)
    obtain ⟨rfl, rfl⟩ := Prod.mk.inj heq
    obtain ⟨n, hn, hid, hlow, hhigh, hvalue⟩ := hnodes m hm
    have hnext : diagram.eval assignment (Diagram.follow n (assignment (n.var + 1))) = found := by
      refine ih ?_
      rw [Diagram.follow, hvalue, hlow, hhigh]
      split
      · next htrue => simp [NativeNode.ofNode, htrue]
      · next hfalse => simp [NativeNode.ofNode, hfalse]
    rw [← hid, Diagram.eval_node hn, hnext]
    exact Bool.xor_comm _ _

namespace Numbering.Completes

variable {t : Table} {n : Numbering} {root : Edge}

theorem exists_var_eq (h : n.Completes t root) {m : Node} (hm : m ∈ n.nodes) :
    ∃ id native, t.nodes.get? id = some native ∧ m.var = native.var := by
  obtain ⟨id, hid⟩ := h.follows.named hm
  obtain ⟨native, m', hm', hnative, heq, hrenames⟩ := h.follows.stands hid
  obtain rfl : m' = m :=
    List.inj_on_of_nodup_map h.nodup_ids (List.mem_reverse.2 hm') (List.mem_reverse.2 hm) heq
  exact ⟨id, native, hnative, hrenames.var⟩

theorem length_le (h : n.Completes t root) : n.nodes.length ≤ t.nodes.entries.length := by
  have hsub : {id | t.Reachable id} ⊆ ((t.nodes.entries.map Prod.fst).toFinset : Set Nat) := by
    intro id hid
    obtain ⟨native, hnative⟩ := h.isClosed id hid
    have hentry : (id, native) ∈ t.nodes.entries := Dictionary.mem_entries_iff.2 hnative
    rw [List.coe_toFinset]
    exact List.mem_map_of_mem (f := Prod.fst) hentry
  have hle := Set.encard_le_encard hsub
  rw [h.encard_reachable, Set.encard_coe_eq_coe_finsetCard, Nat.cast_le] at hle
  exact hle.trans ((List.toFinset_card_le _).trans_eq (List.length_map _))

end Numbering.Completes
end Native

/-! ### Dumps of managers -/

theorem map_eq_ok_iff {ε α β : Type} {a : Except ε α} {f : α → β} {b : β} :
    a.map f = .ok b ↔ ∃ x, a = .ok x ∧ f x = b := by
  cases a <;> simp [Except.map]

namespace Manager

variable {σ : Type} {m : Manager σ} {native : NativeDump} {d : Dump}

theorem lt_of_formulaVar {v var : Nat} (hv : m.capabilities.zeroBased = false → v < UInt32.size)
    (h : m.formulaVar v = .ok var) : var < UInt32.size := by
  rw [formulaVar] at h
  split at h
  · split at h
    · next hlt => exact Except.ok.inj h ▸ hlt
    · exact absurd h (by simp)
  · next hone => exact Except.ok.inj h ▸ hv (by simpa using hone)

theorem values_of_formulaVar {v var : Nat} (hv : m.capabilities.firstVar ≤ v)
    (h : m.formulaVar v = .ok var) (assignment : Nat → Bool) :
    assignment (var - 1 + 1) = m.values assignment v := by
  rw [formulaVar] at h
  rw [values]
  split at h
  · next hzero =>
    split at h
    · obtain rfl := Except.ok.inj h
      rw [if_pos hzero, Nat.add_sub_cancel]
    · exact absurd h (by simp)
  · next hone =>
    obtain rfl := Except.ok.inj h
    have hpos : 1 ≤ v := by simpa [Capabilities.firstVar, hone] using hv
    rw [if_neg hone, Nat.sub_add_cancel hpos]

theorem length_lt_of_formulaOrder {vars : List Nat} {order : VariableOrder}
    (hvars : m.capabilities.zeroBased = false → ∀ v ∈ vars, v < UInt32.size)
    (h : m.formulaOrder vars = .ok order) : order.length < UInt32.size := by
  obtain ⟨formulaVars, hmap, h⟩ := bind_eq_ok_iff.1 h
  split at h
  · exact absurd h (by simp)
  · next found hlist =>
    obtain rfl : found = order := Except.ok.inj h
    rcases Nat.eq_zero_or_pos found.length with hzero | hpos
    · rw [hzero]
      decide
    · -- the largest variable is one of the list
      have hlast : found.length ∈ formulaVars := by
        rw [← VariableOrder.toList_ofList? hlist]
        exact found.mem_toList_iff.2 ⟨hpos, Nat.le_refl _⟩
      obtain ⟨v, hv, hread⟩ := exists_of_mem_mapM hmap hlast
      exact lt_of_formulaVar (fun hzero => hvars hzero v hv) hread

theorem formulaOrder_of_dumpOf (h : m.dumpOf native = .ok d) :
    m.formulaOrder native.order = .ok d.diagram.order := by
  rw [dumpOf] at h
  split at h
  · exact absurd h (by simp)
  · obtain ⟨nodes, -, h⟩ := bind_eq_ok_iff.1 h
    obtain ⟨order, horder, h⟩ := bind_eq_ok_iff.1 h
    split at h
    · exact absurd h (by simp)
    · next diagram hdiagram =>
      obtain rfl := Except.ok.inj h
      obtain ⟨rfl, -, -⟩ := Diagram.parts_of_ofNodes hdiagram
      exact horder

/-- The diagram of a text has the nodes of its table, numbered anew. -/
theorem exists_of_dumpOf {t : Native.Table} (ht : native.format.parse native.text = .ok t)
    (h : m.dumpOf native = .ok d) :
    ∃ n : Native.Numbering, n.Completes t d.diagram.root ∧ ∃ nodes,
      n.nodes.reverse.mapM m.formulaNode = .ok nodes ∧
        ∀ {k : Node}, k ∈ d.diagram.nodes ↔ k ∈ nodes := by
  have htranslate : native.format.translate native.text = t.number := by
    rw [Native.Format.translate, ht]
    rfl
  rw [dumpOf, htranslate] at h
  rcases t.number_cases with ⟨fault, hnumber, -⟩ | ⟨n, root, hn, hnumber⟩
  · rw [hnumber] at h
    exact absurd h (by simp)
  rw [hnumber] at h
  obtain ⟨nodes, hnodes, h⟩ := bind_eq_ok_iff.1 h
  obtain ⟨order, -, h⟩ := bind_eq_ok_iff.1 h
  split at h
  · exact absurd h (by simp)
  next diagram hdiagram =>
  obtain rfl := Except.ok.inj h
  obtain ⟨-, rfl, hsorted⟩ := Diagram.parts_of_ofNodes hdiagram
  refine ⟨n, hn, nodes, hnodes, fun {k} => ?_⟩
  change k ∈ diagram.nodes ↔ k ∈ nodes
  rw [hsorted, Diagram.sortNodes, List.mem_mergeSort]

/-- The numbers in a dump are words if those in the text are, and there are not too many nodes. -/
theorem fits_of_dumpOf {t : Native.Table} (ht : native.format.parse native.text = .ok t)
    (hsize : t.nodes.entries.length + 2 ≤ UInt64.size)
    (horder : m.capabilities.zeroBased = false → ∀ v ∈ native.order, v < UInt32.size)
    (h : m.dumpOf native = .ok d) : d.Fits := by
  obtain ⟨n, hn, nodes, hnodes, hmem⟩ := exists_of_dumpOf ht h
  refine ⟨fun k hk => ?_, length_lt_of_formulaOrder horder (formulaOrder_of_dumpOf h)⟩
  obtain ⟨m', hm', hread⟩ := exists_of_mem_mapM hnodes (hmem.1 hk)
  obtain ⟨var, -, rfl⟩ := map_eq_ok_iff.1 hread
  have hrange := hn.follows.mem_range (List.mem_reverse.1 hm')
  have hcount := hn.length_le
  have hfirst : Edge.firstNodeId = 2 := rfl
  simp only
  omega

/-- The dump of a text that shows a function has the values of the function. -/
theorem eval_of_dumpOf {t : Native.Table} {f : (Nat → Bool) → Bool}
    (hshows : native.Shows m.capabilities t f) (ht : native.format.parse native.text = .ok t)
    (h : m.dumpOf native = .ok d) :
    d.Fits ∧ ∀ assignment,
      d.diagram.eval assignment d.diagram.root = f (m.values assignment) := by
  refine ⟨fits_of_dumpOf ht hshows.size_le hshows.order_lt h, fun assignment => ?_⟩
  obtain ⟨n, hn, nodes, hnodes, hmem⟩ := exists_of_dumpOf ht h
  obtain ⟨value, hvalue⟩ := hn.renumbers.finds (m.values assignment)
  have hfound := (hvalue _).1.1 (hshows.finds (m.values assignment))
  refine Native.Numbered.eval_of_finds (fun m' hm' => ?_) ((hvalue _).2.2 hfound)
  obtain ⟨k, hk, hread⟩ := Reference.Table.exists_mem_of_forall₂ (forall₂_of_mapM hnodes) hm'
  obtain ⟨var, hvar, rfl⟩ := map_eq_ok_iff.1 hread
  obtain ⟨id, node, hnode, heq⟩ := hn.exists_var_eq (List.mem_reverse.1 hm')
  exact ⟨_, hmem.2 hk, rfl, rfl, rfl,
    values_of_formulaVar (heq ▸ hshows.firstVar_le hnode) hvar assignment⟩

theorem exists_parse_of_dumpOf (h : m.dumpOf native = .ok d) :
    ∃ t, native.format.parse native.text = .ok t := by
  cases ht : native.format.parse native.text with
  | ok t => exact ⟨t, rfl⟩
  | error fault =>
    have htranslate : native.format.translate native.text = .error fault := by
      rw [Native.Format.translate, ht]
      rfl
    rw [dumpOf, htranslate] at h
    exact absurd h (by simp)

theorem eval_of_dump {C : m.engine.Contract} (hC : C.WritesDiagrams) {s s' : σ}
    {refs : Multiset NodeRef} {node : NodeRef} (hs : C.holds s refs) (hnode : node ∈ refs)
    (h : (m.dump node).run s = (.ok d, s')) :
    d.Fits ∧ ∀ assignment, d.diagram.eval assignment d.diagram.root =
      (m.semantics C).meaning s node assignment := by
  obtain ⟨native, between, hdump, h⟩ := Action.exists_of_run_bind h
  have hdumpOf : m.dumpOf native = .ok d := congrArg Prod.fst h
  obtain ⟨t, ht⟩ := exists_parse_of_dumpOf hdumpOf
  exact eval_of_dumpOf (hC s between refs node native t hs hnode hdump ht) ht hdumpOf

end Manager

/-! ### Texts of the reference engine -/

namespace Reference
namespace Table

variable {t : Table} {id : Nat}

theorem Sound.finds_nativeTable (ht : t.Sound) (hid : t.Holds id) (values : Nat → Bool) {part : Nat}
    (hpart : Met (t.gathered id) part) :
    (t.nativeTable id).Finds values (Native.Buddy.edge part) (t.eval values part) := by
  have hmet := (ht.gathers_gathered hid).gathered
  induction part using Nat.strongRecOn with
  | ind part ih =>
    by_cases hlt : part < 2
    · obtain rfl | rfl : part = 0 ∨ part = 1 := by omega
      · rw [eval_zero]
        exact .terminal false false
      · rw [eval_one]
        exact .terminal false true
    · obtain ⟨n, hn⟩ := hpart.resolve_left hlt
      have hnode : t.node? part = some n := hmet.node?_eq hn
      have hp := ht.placed hnode
      obtain ⟨hlow, hhigh⟩ := hmet.parts hn
      have hmem : (part, n) ∈ t.postOrder id := by
        rw [← reverse_gathered]
        exact List.mem_reverse.2 hn
      have hget : (t.nativeTable id).nodes.get? part = some (t.native (part, n)).2 :=
        Dictionary.get?_insertAll_of_mem .empty (ht.nodup_native hid)
          (List.mem_map_of_mem (f := t.native) hmem)
      have hedge : Native.Buddy.edge part = ⟨false, .node part⟩ := by
        have h0 : part ≠ 0 := by omega
        have h1 : part ≠ 1 := by omega
        simp [Native.Buddy.edge, h0, h1]
      have hnext : (t.nativeTable id).Finds values
          (if values (t.varAt n.level) then Native.Buddy.edge n.high else Native.Buddy.edge n.low)
          (if values (t.varAt n.level) then t.eval values n.high else t.eval values n.low) := by
        split
        · exact ih n.high hp.high_lt hhigh
        · exact ih n.low hp.low_lt hlow
      have hfound := Native.Table.Finds.node false hget hnext
      rwa [Bool.false_bne, ← eval_branch hnode hp, ← hedge] at hfound

theorem Sound.length_postOrder_le (ht : t.Sound) (hid : t.Holds id) (h : t.Readable id) :
    (t.postOrder id).length + 2 ≤ UInt64.size := by
  by_cases hlt : id < 2
  · rw [← reverse_gathered, gathered_terminal hlt]
    decide
  · obtain ⟨-, -, hfitting⟩ := h (Nat.le_of_not_lt hlt)
    have hmet := (ht.gathers_gathered hid).gathered
    have hsub : (t.gathered id).map Prod.fst ⊆ List.range' 2 (UInt64.size - 2) := by
      intro i hi
      obtain ⟨m, hm, rfl⟩ := List.mem_map.1 hi
      have hword := (hfitting m (by rw [← reverse_gathered]; exact List.mem_reverse.2 hm)).1
      have hfirst := hmet.two_le hm
      rw [List.mem_range'_1]
      omega
    have hle := (hmet.nodup.subperm hsub).length_le
    rw [List.length_map, List.length_range', ← List.length_reverse, reverse_gathered] at hle
    have hwords : 2 ≤ UInt64.size := by decide
    omega

end Table

theorem contract_writesDiagrams : contract.WritesDiagrams := by
  intro s s' refs node native t hs hnode hdump ht
  obtain rfl := Except.ok.inj (congrArg Prod.fst hdump)
  have hheld : s.table.Holds node.number := hs.2 node hnode
  obtain ⟨hreadable, rfl⟩ := (hs.1.answers_parse hheld t).1 ht
  refine ⟨fun values => ?_, fun _ => Nat.zero_le _, ?_, fun hone => absurd hone (by decide)⟩
  · exact hs.1.finds_nativeTable hheld values (hs.1.gathers_gathered hheld).reached
  · have hlength : (s.table.nativeTable node.number).nodes.entries.length =
        (s.table.postOrder node.number).length := by
      rw [Table.nativeTable, Dictionary.ofList,
        Dictionary.length_insertAll (hs.1.nodup_native hheld) fun _ _ => rfl]
      simp [Dictionary.empty]
    rw [hlength]
    exact hs.1.length_postOrder_le hheld hreadable

end Reference
end DiagramCompiler
