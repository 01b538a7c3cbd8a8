import DiagramCompiler.Proofs.CompiledFormulas
import DiagramCompiler.Proofs.HandleDumps
import DiagramCompiler.Proofs.RunOutcomes
import DiagramCompiler.Proofs.TimedOutClauses

/-! Handles that may come too late.
Nothing but a timeout keeps the reference engine from handing out a handle for literals of declared
variables, their disjunctions and conjunctions. Since a clause that times out is skipped, every
formula with declared variables is compiled, at whatever operation the engine is made to fail and
however slow it is. -/
namespace DiagramCompiler

namespace Reference

open Compilation

/-- Whether an action hands out a handle or times out. -/
inductive Tries (a : Action State NodeRef) (s : State) : Prop
  | handsOut {node : NodeRef} {s' : State} (hrun : a.run s = (.ok node, s')) (hadv : s.Advances s')
      (hholds : s'.Holds node) : Tries a s
  | timesOut {failure : Failure} {s' : State} (hrun : a.run s = (.error failure, s'))
      (hadv : s.Advances s') (hrecoverable : failure.isRecoverable = true) : Tries a s

namespace Tries

variable {a : Action State NodeRef} {s s' : State} {f : (Nat → Bool) → Bool}

theorem of_delivers (h : Delivers a s f) : Tries a s := by
  obtain ⟨node, s', hrun, hadv, hholds, -⟩ := h
  exact .handsOut hrun hadv hholds

theorem of_builds (h : Builds a s f)
    (hfails : ∀ failure, (a.run s).1 = .error failure → failure.isRecoverable = true) :
    Tries a s := by
  obtain ⟨hadv, hmeans⟩ := h
  cases hrun : a.run s with
  | mk answer s' =>
    rw [hrun] at hadv hmeans hfails
    cases answer with
    | ok node => exact .handsOut hrun hadv (hmeans rfl).1
    | error failure => exact .timesOut hrun hadv (hfails failure rfl)

theorem of_run_eq {next : Action State NodeRef} (hrun : a.run s = next.run s')
    (hadv : s.Advances s') (h : Tries next s') : Tries a s := by
  cases h with
  | handsOut hrun' hadv' hholds => exact .handsOut (hrun.trans hrun') (hadv.trans hadv') hholds
  | timesOut hrun' hadv' hrecoverable =>
    exact .timesOut (hrun.trans hrun') (hadv.trans hadv') hrecoverable

theorem bind {next : NodeRef → Action State NodeRef} (h : Tries a s)
    (hnext : ∀ node s', s.Advances s' → s'.Holds node → Tries (next node) s') :
    Tries (a >>= next) s := by
  cases h with
  | timesOut hrun hadv hrecoverable =>
    exact .timesOut (Action.run_bind_of_error hrun next) hadv hrecoverable
  | handsOut hrun hadv hholds =>
    exact .of_run_eq (Action.run_bind_of_ok hrun next) hadv (hnext _ _ hadv hholds)

theorem ensuring (h : Tries a s) : Tries (a.ensuring State.release) s := by
  have hafter := Action.run_ensuring a State.release s
  cases h with
  | handsOut hrun hadv hholds =>
    rw [hrun] at hafter
    exact .handsOut hafter hadv.release hholds
  | timesOut hrun hadv hrecoverable =>
    rw [hrun] at hafter
    exact .timesOut hafter hadv.release hrecoverable

end Tries

variable {s : State} {bound : Option Duration}

/-! ### Operations -/

theorem isRecoverable_of_apply {op : BinaryOp} {a b : NodeRef} {limit : Option Duration}
    {failure : Failure} (h : ((apply op a b limit).run s).1 = .error failure) :
    failure.isRecoverable = true := by
  simp only [Action.run, apply] at h
  split at h
  · obtain rfl := Except.error.inj h
    rfl
  · exact absurd h (by simp [handOut])

theorem isRecoverable_of_applyRetaining {op : BinaryOp} {a b : NodeRef} {failure : Failure}
    (h : (((manager bound).applyRetaining op a b).run s).1 = .error failure) :
    failure.isRecoverable = true := by
  simp only [Manager.applyRetaining, manager, engine] at h
  rw [Action.run_bind_of_ok (Action.run_reading _ s)] at h
  cases hrun : (apply op a b bound).run s with
  | mk answer s' =>
    cases answer with
    | error cause =>
      rw [Action.run_bind_of_error hrun] at h
      obtain rfl := Except.error.inj h
      exact isRecoverable_of_apply (congrArg Prod.fst hrun)
    | ok node =>
      rw [Action.run_bind_of_ok hrun, Action.run_bind_of_ok (Action.run_reading _ s')] at h
      cases bound with
      | none => exact absurd h (by simp)
      | some limit =>
        simp only at h
        split at h
        · obtain rfl := Except.error.inj h
          rfl
        · exact absurd h (by simp)

theorem applyRetaining_tries (hs : s.table.Sound) (op : BinaryOp) {a b : NodeRef} (ha : s.Holds a)
    (hb : s.Holds b) : Tries ((manager bound).applyRetaining op a b) s :=
  .of_builds (applyRetaining_builds hs bound op ha hb) fun _ => isRecoverable_of_applyRetaining

theorem apply_tries (hs : s.table.Sound) (op : BinaryOp) {a b : NodeRef} (ha : s.Holds a)
    (hb : s.Holds b) : Tries ((manager bound).apply op a b) s :=
  (applyRetaining_tries hs op ha hb).ensuring.ensuring

/-! ### Clauses and formulas -/

theorem disjoin_tries (hs : s.table.Sound) {disjunction : NodeRef} (hd : s.Holds disjunction)
    {ls : List Literal} (h : Declared s ls) : Tries (disjoin (manager bound) disjunction ls) s := by
  induction ls generalizing s disjunction with
  | nil => exact .of_delivers (Delivers.of_held hs hd)
  | cons l ls ih =>
    obtain ⟨hpos, hle⟩ := h l List.mem_cons_self
    have hliteral : Delivers ((manager bound).literal l) s l.eval := literal_delivers hs hpos hle
    obtain ⟨literal, s₁, hrun, hadv, hholds, -⟩ := hliteral
    have hattempt : ((manager bound).literal l).attempt.run s = (.ok (.ok literal), s₁) := by
      rw [Action.run_attempt, hrun]
    have hrest : Tries (do
        let next ← (manager bound).apply .or disjunction literal
        disjoin (manager bound) next ls) s₁ := by
      refine (apply_tries hadv.sound .or (hadv.holds hd) hholds).bind
        fun next s₂ hadv₂ hholds₂ => ih hadv₂.sound hholds₂ ?_
      exact Declared.advances (fun l' hl' => h l' (List.mem_cons_of_mem l hl')) (hadv.trans hadv₂)
    have hdisjoin : (disjoin (manager bound) disjunction (l :: ls)).run s =
        (do
          let next ← (manager bound).apply .or disjunction literal
          disjoin (manager bound) next ls).run s₁ := by
      rw [disjoin, Action.run_bind_of_ok hattempt]
    exact .of_run_eq hdisjoin hadv hrest

theorem conjoinClause_tries (bound : Option Duration) (hs : s.table.Sound) {accumulator : NodeRef}
    (ha : s.Holds accumulator) {c : Clause} (h : Declared s c.literals) :
    Tries (conjoinClause (manager bound) accumulator c) s := by
  have hzero : Tries (manager bound).zero s := .of_delivers ((zero_builds hs bound).delivers rfl)
  have hclause : Tries (clauseDiagram (manager bound) c) s :=
    hzero.bind fun node s' hadv hholds => disjoin_tries hadv.sound hholds (h.advances hadv)
  exact hclause.bind fun clause s' hadv hholds =>
    (applyRetaining_tries hadv.sound .and (hadv.holds ha) hholds).ensuring

/-- Clauses are conjoined or skipped, and the conjunction is handed out. -/
theorem exists_conjoin (bound : Option Duration) (hs : s.table.Sound) {accumulator : NodeRef}
    (ha : s.Holds accumulator) (known : Nat) {cs : List Clause}
    (h : ∀ c ∈ cs, Declared s c.literals) :
    ∃ node skipped s', (conjoin (manager bound) accumulator known cs).run s =
      (.ok (node, skipped), s') ∧ s.Advances s' ∧ s'.Holds node := by
  induction cs generalizing s accumulator known with
  | nil => exact ⟨accumulator, known, s, rfl, .refl hs, ha⟩
  | cons c cs ih =>
    have hrest {s' : State} (hadv : s.Advances s') : ∀ c' ∈ cs, Declared s' c'.literals :=
      fun c' hc' => (h c' (List.mem_cons_of_mem c hc')).advances hadv
    cases conjoinClause_tries bound hs ha (h c List.mem_cons_self) with
    | @handsOut next s₁ hrun hadv hholds =>
      have hadv₁ : s.Advances s₁.release := hadv.release
      have hheld : s₁.release.Holds next := hholds
      obtain ⟨node, skipped, s', hrun', hadv', hholds'⟩ := ih hadv₁.sound hheld known (hrest hadv₁)
      exact ⟨node, skipped, s', (run_conjoin_kept hrun known cs).trans hrun', hadv₁.trans hadv',
        hholds'⟩
    | @timesOut failure s₁ hrun hadv hrecoverable =>
      obtain ⟨node, skipped, s', hrun', hadv', hholds'⟩ :=
        ih hadv.sound (hadv.holds ha) (known + 1) (hrest hadv)
      refine ⟨node, skipped, s', ?_, hadv.trans hadv', hholds'⟩
      rw [run_conjoin_of_error hrun, if_pos hrecoverable, hrun']

theorem exists_compile (bound : Option Duration) (hs : s.table.Sound) (f : Formula)
    (hvars : f.varCount < UInt32.size)
    (hdeclared : s.table.order.length = f.varCount) :
    ∃ c s', (compile (manager bound) f none).run s = (.ok c, s') ∧ s'.table.Sound ∧
      s'.table.order.length = f.varCount ∧ s'.Holds c.diagram := by
  have hprepare : (prepare (manager bound) f none).run s = (.ok (), s) := by
    have hdeclare := run_declareVars (s := s) bound hvars
    rw [hdeclared, Nat.sub_self, List.range'_zero, List.append_nil] at hdeclare
    exact (Action.run_bind_of_ok hdeclare _).trans rfl
  obtain ⟨accumulator, s₁, hone, hadv₁, hholds₁, -⟩ :=
    (one_builds hs bound).delivers (show _ = Except.ok ⟨1⟩ from rfl)
  have hliterals : ∀ c ∈ f.clauses, Declared s₁ c.literals := fun c hc l hl => by
    rw [hadv₁.grows.order_eq, hdeclared]
    exact f.var_range hc hl
  obtain ⟨node, skipped, s₂, hconjoin, hadv₂, hholds₂⟩ :=
    exists_conjoin bound hadv₁.sound hholds₁ 0 hliterals
  refine ⟨_, s₂, run_compile_of_ok hprepare hone hconjoin, hadv₂.sound, ?_, hholds₂⟩
  rw [hadv₂.grows.order_eq, hadv₁.grows.order_eq, hdeclared]

/-! ### From an order to a dump -/

def Reorders (stub : String) : Prop :=
  isNoReordering stub = true ∨ Text.sameLetters "lib-default".toList stub.toList = true

theorem exists_setReordering (bound : Option Duration) {stub : String} (h : Reorders stub)
    (s : State) :
    ∃ s', ((manager bound).setReordering stub).run s = (.ok (), s') ∧ s'.table = s.table := by
  rw [Manager.setReordering]
  by_cases hnone : isNoReordering stub = true
  · rw [if_pos hnone]
    exact ⟨{ s with reordering := false }, rfl, rfl⟩
  · have hfind : (manager bound).capabilities.reorderings.find?
        (fun r => Text.sameLetters r.1.toList stub.toList) = some ("lib-default", 1) :=
      List.find?_cons_of_pos (h.resolve_left hnone)
    rw [if_neg hnone, hfind]
    exact ⟨{ s with reordering := true }, rfl, rfl⟩

theorem exists_setOrder (bound : Option Duration) {s : State} (hs : s.table.Sound)
    (hnodes : s.table.nodes.size = 0) {order : VariableOrder}
    (hlength : order.length = s.table.order.length) :
    ∃ s', ((manager bound).setOrder order).run s = (.ok (), s') ∧ s'.table.Sound ∧
      s'.table.order.length = order.length := by
  have hcount : (order.toList.map fun v => v - 1).length = s.table.order.length :=
    (List.length_map _).trans hlength
  have hset : ((manager bound).setOrder order).run s =
      (.ok (), s.withOrder (order.toList.map fun v => v - 1)) := by
    rw [run_setOrder, Action.run, setOrder, if_neg (by simp [hnodes]), if_neg (by simp [hcount])]
    rfl
  have hkeeps := setOrder_keeps hs bound order
  rw [hset] at hkeeps
  exact ⟨_, hset, hkeeps.sound, List.length_map _⟩

/-- The variables of a formula are declared and placed in a fresh engine. -/
theorem exists_prepare (bound : Option Duration) {o : Options} (h : Reorders o.reordering)
    {f : Formula} {order : VariableOrder} (hvars : f.varCount < UInt32.size)
    (hlength : order.length = f.varCount) (failing : Option Nat) (delay : Duration) :
    ∃ s, (Run.prepare o (manager bound) f order).run (.fresh failing delay) = (.ok (), s) ∧
      s.table.Sound ∧ s.table.order.length = f.varCount := by
  let declared := (State.fresh failing delay).withOrder (List.range' 0 f.varCount)
  have hdeclare : ((manager bound).declareVars f.varCount).run (.fresh failing delay) =
      (.ok (), declared) := run_declareVars bound hvars
  have hkeeps := declare_keeps (s := .fresh failing delay) Table.sound_empty bound f.varCount
  rw [hdeclare] at hkeeps
  have hcount : declared.table.order.length = f.varCount := List.length_range'
  cases hempty : order.isEmpty with
  | true =>
    obtain ⟨s, hreorder, htable⟩ := exists_setReordering bound h declared
    refine ⟨s, ?_, htable ▸ hkeeps.sound, htable ▸ hcount⟩
    refine (Action.run_bind_of_ok hdeclare _).trans ?_
    simp only [hempty]
    exact hreorder
  | false =>
    obtain ⟨placed, hset, hsound, hplaced⟩ :=
      exists_setOrder bound hkeeps.sound rfl (hlength.trans hcount.symm)
    obtain ⟨s, hreorder, htable⟩ := exists_setReordering bound h placed
    refine ⟨s, ?_, htable ▸ hsound, htable ▸ hplaced.trans hlength⟩
    refine (Action.run_bind_of_ok hdeclare _).trans ?_
    simp only [hempty]
    exact (Action.run_bind_of_ok hset _).trans hreorder

/-- A fresh engine comes to a dump of a formula, unless there are too many nodes for it. -/
theorem exists_compiles {o : Options} (h : Reorders o.reordering) {f : Formula}
    {order : VariableOrder} (hvars : f.varCount < UInt32.size) (hlength : order.length = f.varCount)
    {failing : Option Nat} {delay : Duration} {bound : Option Duration}
    (hroom : ∀ s₁ c s₂,
      (Run.prepare o (manager bound) f order).run (.fresh failing delay) = (.ok (), s₁) →
      (compile (manager bound) f none).run s₁ = (.ok c, s₂) →
      s₂.table.nodes.size + 2 ≤ UInt64.size) :
    ∃ c d s, Run.Compiles o (manager bound) f order (.fresh failing delay) c d s := by
  obtain ⟨s₁, hprepare, hsound₁, hcount₁⟩ := exists_prepare bound h hvars hlength failing delay
  obtain ⟨c, s₂, hcompile, hsound₂, hcount₂, hholds⟩ := exists_compile bound hsound₁ f hvars hcount₁
  obtain ⟨d, hdump⟩ := exists_dump hsound₂ hholds (hroom s₁ c s₂ hprepare hcompile)
    (hcount₂ ▸ hvars)
  exact ⟨c, d, s₂, .compiled hprepare hcompile hdump⟩

end Reference
end DiagramCompiler
