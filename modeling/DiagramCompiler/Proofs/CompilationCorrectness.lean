import Mathlib.Algebra.Group.Nat.Defs
import DiagramCompiler.Proofs.CompiledFormulas

/-! Correctness of compilation.
A formula is compiled, its diagram is written as a text, the text is read back, and the nodes are
numbered anew. What comes out has the values of the formula. The variables of engines are words of
32 bits, which is the only limit on formulas. -/
namespace DiagramCompiler
namespace Reference

variable {bound : Option Duration}

theorem holds_diagram {s : State} (hs : s.table.Sound) {node : NodeRef} (hn : s.Holds node)
    (values : List Bool) :
    (hs.diagram hn).holds values = s.meaning node fun v => values.getD (v - 1) false :=
  hs.eval_numberIn hn _ (hs.gathers_gathered hn).reached

/-- A formula is compiled exactly if its variables are words. No clause is skipped, and as long as
the numbers of nodes are words too, the dump of the diagram has the given order and, for a value for
each variable, the value of the formula. -/
theorem compile_dump_correct (bound : Option Duration) (delay : Duration)
    (ht : InTime bound (.fresh none delay)) (f : Formula) (order : Option VariableOrder)
    (horder : ∀ o, order = some o → o.length = f.varCount) :
    (f.varCount < UInt32.size → ∃ c s,
      (Compilation.compile (manager bound) f order).run (.fresh none delay) = (.ok c, s) ∧
        c.skipped = 0 ∧
        (s.table.nodes.size + 2 ≤ UInt64.size → ∃ d,
          ((manager bound).dump c.diagram).run s = (.ok d, s) ∧
            d.diagram.order = order.getD (.identity f.varCount) ∧
            ∀ values : List Bool, values.length = f.varCount →
              f.eval? values = some (d.diagram.holds values))) ∧
      (UInt32.size ≤ f.varCount → ∃ failure s,
        (Compilation.compile (manager bound) f order).run (.fresh none delay) =
          (.error failure, s)) := by
  constructor
  · intro hvars
    obtain ⟨c, s, hrun, hskipped, hs, hplaced, hholds, hmeaning⟩ :=
      run_compile f hvars horder ht
    refine ⟨c, s, hrun, hskipped, fun hsize => ?_⟩
    have hlength : s.table.order.length < UInt32.size := by
      rw [hplaced, length_engineOrder horder]
      exact hvars
    have hdump := (answers_dumpOf bound hs hholds).eq_ok
      ⟨hs.readable hholds hsize hlength, hlength⟩
    refine ⟨_, by rw [run_dump, hdump], variableOrder_eq hs hplaced, fun values hvalues => ?_⟩
    rw [f.eval?_eq (Nat.le_of_eq hvalues.symm), ← hmeaning]
    exact congrArg some (holds_diagram hs hholds values).symm
  · intro hvars
    rcases hr : (Compilation.compile (manager bound) f order).run (.fresh none delay) with
      ⟨answer, s⟩
    cases answer with
    | ok c => exact absurd (of_run_compile hr).1 (Nat.not_lt_of_le hvars)
    | error failure => exact ⟨failure, s, rfl⟩

theorem compile_dump_two_clauses :
    let f := Formula.ofClauses 3 [.ofLiterals [.ofVar 1 true, .ofVar 2 false],
      .ofLiterals [.ofVar 2 true, .ofVar 3 true]]
    let order : VariableOrder := ⟨[3, 1, 2], by decide, by decide⟩
    InTime (some ⟨5⟩) (.fresh none ⟨4⟩) ∧ order.length = f.varCount ∧ f.varCount < UInt32.size ∧
      ∃ c s, (Compilation.compile (manager (some ⟨5⟩)) f (some order)).run (.fresh none ⟨4⟩) =
          (.ok c, s) ∧
        c.skipped = 0 ∧
        (s.table.nodes.size + 2 ≤ UInt64.size → ∃ d,
          ((manager (some ⟨5⟩)).dump c.diagram).run s = (.ok d, s) ∧
            d.diagram.order = order ∧
            ∀ values : List Bool, values.length = f.varCount →
              f.eval? values = some (d.diagram.holds values)) := by
  intro f order
  have htime : InTime (some ⟨5⟩) (.fresh none ⟨4⟩) := by
    refine ⟨rfl, fun limit hlimit => ?_⟩
    obtain rfl := Option.some.inj hlimit
    decide
  have hlength : order.length = f.varCount := by decide
  have hvars : f.varCount < UInt32.size := by decide
  have h := compile_dump_correct (some ⟨5⟩) ⟨4⟩ htime f (some order)
    fun o ho => Option.some.inj ho ▸ hlength
  exact ⟨htime, hlength, hvars, h.1 hvars⟩

/-- There is no diagram of a formula with so many variables. -/
theorem compile_of_too_many_variables :
    (Compilation.compile (manager none) (.ofClauses (2 ^ 61) []) none).run (.fresh none .zero) =
        (.error (.overflow (.variables (2 ^ 61))), .fresh none .zero) ∧
      ¬ ∀ (f : Formula) (order : Option VariableOrder),
        (∀ o, order = some o → o.length = f.varCount) → ∃ c s,
          (Compilation.compile (manager none) f order).run (.fresh none .zero) = (.ok c, s) := by
  have hrun : (Compilation.compile (manager none) (.ofClauses (2 ^ 61) []) none).run
      (.fresh none .zero) =
        (.error (.overflow (.variables (2 ^ 61))), .fresh none .zero) := rfl
  refine ⟨hrun, fun hall => ?_⟩
  obtain ⟨c, s, hok⟩ := hall (.ofClauses (2 ^ 61) []) none (by simp)
  rw [hrun] at hok
  exact absurd (congrArg Prod.fst hok) (by simp)

end Reference
end DiagramCompiler
