import DiagramCompiler.Proofs.Handles
import DiagramCompiler.Proofs.Renumbering
import DiagramCompiler.Proofs.WellFormedDiagrams

/-! Dumps of handles.
The renumbered nodes of a handle form a diagram, whose values are those of the handle. The dump of
the handle is that diagram; it is refused only if a number does not fit the words of the text or of
the variables. -/
namespace DiagramCompiler
namespace Reference
namespace Table

variable {t : Table} {met : List (Nat × Branch)} {id : Nat}

/-! ### The diagram of a handle -/

def Sound.variableOrder (ht : t.Sound) : VariableOrder where
  toList := t.order.map (· + 1)
  nodup := ht.order_nodup.map fun _ _ h => Nat.succ.inj h
  inRange v hv := by
    obtain ⟨w, hw, rfl⟩ := List.mem_map.1 hv
    have := ht.mem_order_iff.1 hw
    rw [List.length_map]
    omega

theorem Sound.position_varAt (ht : t.Sound) {level : Nat} (h : level < t.order.length) :
    ht.variableOrder.position (t.varAt level + 1) = level := by
  have hlt : level < ht.variableOrder.toList.length := by simpa [variableOrder] using h
  have hget : ht.variableOrder.toList[level] = t.varAt level + 1 := by
    rw [t.varAt_of_lt h]
    exact List.getElem_map _
  rw [VariableOrder.position, ← hget]
  exact ht.variableOrder.nodup.idxOf_getElem level hlt

theorem Sound.levelOf_renamed (ht : t.Sound) (hmet : t.Gathered met) {m : Nat × Branch}
    (hm : m ∈ met) : Diagram.levelOf ht.variableOrder (t.renamed met m) = m.2.level :=
  ht.position_varAt (ht.placed (hmet.node?_eq hm)).level_lt

theorem Gathered.pairwise_renamed (hmet : t.Gathered met) :
    (met.map (t.renamed met)).Pairwise fun a b => b.id < a.id := by
  induction hmet with
  | nil => exact .nil
  | @cons met id n rest node new low high ih =>
    rw [List.map_cons, rest.map_renamed_cons new]
    refine List.pairwise_cons.2 ⟨fun k hk => ?_, ih⟩
    obtain ⟨m, hm, rfl⟩ := List.mem_map.1 hk
    have hlt := rest.numberIn_lt (.inr ⟨m.2, hm⟩)
    have hself : (t.renamed ((id, n) :: met) (id, n)).id = met.length + 2 := by
      rw [renamed, numberIn, if_pos rfl]
      rfl
    rw [hself]
    exact hlt

theorem Gathered.resolves (hmet : t.Gathered met) (hid : Met met id) :
    Diagram.Resolves (met.map (t.renamed met)).reverse ⟨false, numberIn met id⟩ := by
  by_cases hlt : id < 2
  · refine .inl ?_
    rw [hmet.numberIn_terminal hlt, Edge.isTerminal_iff]
    exact hlt
  · obtain ⟨n, hn⟩ := hid.resolve_left hlt
    exact .inr ⟨t.renamed met (id, n), List.mem_reverse.2 (List.mem_map_of_mem hn), rfl⟩

theorem Sound.wellFormed_renumbered (ht : t.Sound) (hid : t.Holds id) :
    Diagram.WellFormed ht.variableOrder ⟨false, numberIn (t.gathered id) id⟩
      (t.renumbered id) := by
  have h := ht.gathers_gathered hid
  have hmet := h.gathered
  have hmem : ∀ k ∈ t.renumbered id, ∃ m ∈ t.gathered id, t.renamed (t.gathered id) m = k :=
    fun k hk => List.mem_map.1 (List.mem_reverse.1 hk)
  exact {
    ascending := List.pairwise_reverse.2 hmet.pairwise_renamed
    notTerminal := fun k hk => by
      obtain ⟨m, hm, rfl⟩ := hmem k hk
      exact hmet.le_numberIn (.inr ⟨m.2, hm⟩) (hmet.two_le hm)
    var_lt := fun k hk => by
      obtain ⟨m, hm, rfl⟩ := hmem k hk
      have := ht.varAt_lt (ht.placed (hmet.node?_eq hm)).level_lt
      simpa [variableOrder, VariableOrder.length, renamed] using this
    root_resolves := hmet.resolves h.reached
    low_resolves := fun k hk => by
      obtain ⟨m, hm, rfl⟩ := hmem k hk
      exact hmet.resolves (hmet.parts hm).1
    high_resolves := fun k hk => by
      obtain ⟨m, hm, rfl⟩ := hmem k hk
      exact hmet.resolves (hmet.parts hm).2
    below := fun k hk k' hk' hedge => by
      obtain ⟨m, hm, rfl⟩ := hmem k hk
      obtain ⟨m', hm', rfl⟩ := hmem k' hk'
      have hp := ht.placed (hmet.node?_eq hm)
      have hlevel := level_of_node? (hmet.node?_eq hm')
      have hmet' : Met (t.gathered id) m'.1 := .inr ⟨m'.2, hm'⟩
      rw [ht.levelOf_renamed hmet hm, ht.levelOf_renamed hmet hm', ← hlevel]
      rcases hedge with heq | heq
      · rw [hmet.numberIn_inj hmet' (hmet.parts hm).1 heq]
        exact hp.above_low
      · rw [hmet.numberIn_inj hmet' (hmet.parts hm).2 heq]
        exact hp.above_high }

def Sound.diagram (ht : t.Sound) (hid : t.Holds id) : Diagram :=
  ⟨ht.variableOrder, ⟨false, numberIn (t.gathered id) id⟩, t.renumbered id,
    ht.wellFormed_renumbered hid⟩

theorem Sound.eval_numberIn (ht : t.Sound) (hid : t.Holds id) (assignment : Nat → Bool)
    {part : Nat} (hpart : Met (t.gathered id) part) :
    (ht.diagram hid).eval assignment ⟨false, numberIn (t.gathered id) part⟩ =
      t.eval (fun v => assignment (v + 1)) part := by
  have hmet := (ht.gathers_gathered hid).gathered
  induction part using Nat.strongRecOn with
  | ind part ih =>
    by_cases hlt : part < 2
    · rw [hmet.numberIn_terminal hlt, Diagram.eval_terminal _ _ (Edge.isTerminal_iff.2 hlt),
        t.eval_terminal _ hlt]
      rw [Edge.trueId, Bool.bne_false]
    · obtain ⟨n, hn⟩ := hpart.resolve_left hlt
      have hnode : t.node? part = some n := hmet.node?_eq hn
      have hp := ht.placed hnode
      obtain ⟨hlow, hhigh⟩ := hmet.parts hn
      have hmem : t.renamed (t.gathered id) (part, n) ∈ (ht.diagram hid).nodes :=
        List.mem_reverse.2 (List.mem_map_of_mem hn)
      have heval := Diagram.eval_node hmem assignment false
      rw [Bool.bne_false] at heval
      refine heval.trans ?_
      rw [eval_branch hnode hp]
      by_cases hvalue : assignment (t.varAt n.level + 1) = true
      · simp only [renamed, Diagram.follow, hvalue, if_true]
        exact ih n.high hp.high_lt hhigh
      · simp only [renamed, Diagram.follow, hvalue]
        exact ih n.low hp.low_lt hlow

/-- Numbers of nodes and variables that are words make the text of every handle readable. -/
theorem Sound.readable (ht : t.Sound) (hid : t.Holds id)
    (hsize : t.nodes.size + 2 ≤ UInt64.size) (horder : t.order.length < UInt32.size) :
    t.Readable id := by
  intro _
  have hmet := (ht.gathers_gathered hid).gathered
  have hbelow : ∀ m ∈ t.gathered id, 2 ≤ m.1 ∧ m.1 < t.nodes.size + 2 := fun m hm =>
    le_and_holds_of_node? (hmet.node?_eq hm)
  have hcount : (t.postOrder id).length ≤ t.nodes.size := by
    have hsub : (t.gathered id).map Prod.fst ⊆ List.range' 2 t.nodes.size := by
      intro i hi
      obtain ⟨m, hm, rfl⟩ := List.mem_map.1 hi
      have := hbelow m hm
      rw [List.mem_range'_1]
      omega
    have hle := (hmet.nodup.subperm hsub).length_le
    rwa [List.length_map, List.length_range', ← List.length_reverse, reverse_gathered] at hle
  have hwords : UInt32.size < UInt64.size := by decide
  refine ⟨by omega, by omega, fun m hm => ?_⟩
  rw [← reverse_gathered, List.mem_reverse] at hm
  have hp := ht.placed (hmet.node?_eq hm)
  have hlow := hp.low_lt
  have hhigh := hp.high_lt
  have hm := hbelow m hm
  have hvar := ht.varAt_lt hp.level_lt
  exact ⟨by omega, by omega, by omega, by omega⟩

end Table

/-! ### Dumps -/

section Dump

variable {bound : Option Duration}

theorem answers_formulaVar (v : Nat) :
    Answers ((manager bound).formulaVar v) (v + 1 < UInt32.size) (v + 1) := by
  by_cases hv : v + 1 < UInt32.size
  · have hok : (manager bound).formulaVar v = .ok (v + 1) := by
      simp [Manager.formulaVar, Manager.capabilities, manager, engine, hv]
    rw [hok]
    exact (Answers.of_ok _).congr (by simp [hv])
  · have herror : (manager bound).formulaVar v = .error (.overflow (.lastVariable v)) := by
      simp [Manager.formulaVar, Manager.capabilities, manager, engine, hv]
    rw [herror]
    exact (Answers.of_error _ _).congr (by simp [hv])

theorem answers_formulaNode (n : Node) :
    Answers ((manager bound).formulaNode n) (n.var + 1 < UInt32.size) n :=
  (answers_formulaVar n.var).map

theorem answers_formulaOrder {t : Table} (ht : t.Sound) :
    Answers ((manager bound).formulaOrder t.order) (t.order.length < UInt32.size)
      ht.variableOrder := by
  have hlimit : (∀ v ∈ t.order, v + 1 < UInt32.size) ↔ t.order.length < UInt32.size := by
    constructor
    · intro h
      rcases Nat.eq_zero_or_pos t.order.length with hzero | hpos
      · rw [hzero]
        decide
      · have := h (t.order.length - 1) (ht.mem_order_iff.2 (by omega))
        omega
    · intro h v hv
      have := ht.mem_order_iff.1 hv
      omega
  refine .congr (.bind_ok (.mapM t.order fun v _ => answers_formulaVar v) ?_) hlimit
  have hlist := ht.variableOrder.ofList?_toList
  rw [Table.Sound.variableOrder] at hlist
  simp only [hlist]
  rfl

/-- The dump of a handle is its diagram, unless a number is too large. -/
theorem answers_dumpOf (bound : Option Duration) {t : Table} (ht : t.Sound) {id : Nat}
    (hid : t.Holds id) :
    Answers ((manager bound).dumpOf ⟨.buddy, t.text id, t.order⟩)
      (t.Readable id ∧ t.order.length < UInt32.size) (.ofDiagram name stub (ht.diagram hid)) := by
  have hparse := ht.answers_parse hid
  rw [Manager.dumpOf]
  simp only [Native.Format.translate, Native.Format.parse]
  cases htable : Native.Buddy.parse (t.text id) with
  | error fault =>
    have hnot : ¬ t.Readable id := fun h => by
      rw [hparse.eq_ok h] at htable
      exact absurd htable (by simp)
    exact (Answers.of_error _ _).congr (by simp [hnot])
  | ok table =>
    obtain ⟨hreadable, rfl⟩ := (hparse table).1 htable
    simp only [Except.bind, ht.number_nativeTable hid]
    have hnodes : Answers ((t.renumbered id).mapM (manager bound).formulaNode)
        (∀ k ∈ t.renumbered id, k.var + 1 < UInt32.size)
        ((t.renumbered id).map fun k => k) := .mapM _ fun k _ => answers_formulaNode k
    rw [List.map_id'] at hnodes
    refine .congr (.bind hnodes ((answers_formulaOrder ht).bind_ok ?_)) ?_
    · rw [(ht.wellFormed_renumbered hid).ofNodes_eq]
      rfl
    · have hvars : t.order.length < UInt32.size →
          ∀ k ∈ t.renumbered id, k.var + 1 < UInt32.size := by
        intro h k hk
        have hlt := (ht.wellFormed_renumbered hid).var_lt k hk
        have hlength : ht.variableOrder.length = t.order.length := List.length_map _
        omega
      exact ⟨fun h => ⟨hreadable, h.2⟩, fun h => ⟨hvars h.2, h.2⟩⟩

theorem run_dump (s : State) (node : NodeRef) :
    ((manager bound).dump node).run s =
      ((manager bound).dumpOf ⟨.buddy, s.table.text node.number, s.table.order⟩, s) := rfl

theorem exists_dump {s : State} (hs : s.table.Sound) {node : NodeRef} (hn : s.Holds node)
    (hsize : s.table.nodes.size + 2 ≤ UInt64.size) (horder : s.table.order.length < UInt32.size) :
    ∃ d, ((manager bound).dump node).run s = (.ok d, s) := by
  have hdump := (answers_dumpOf bound hs hn).eq_ok ⟨hs.readable hn hsize horder, horder⟩
  exact ⟨_, by rw [run_dump, hdump]⟩

end Dump

end Reference
end DiagramCompiler
