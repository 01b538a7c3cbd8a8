import DiagramCompiler.Compilation
import DiagramCompiler.Proofs.Actions
import DiagramCompiler.Proofs.HeldReferences
import DiagramCompiler.Workbench

/-! Engines on parts of states.
An engine whose state has more to it than that of another one, such as a record of what was done,
may do on that part what the other one does. Then so does every manager, compilation and workbench:
the answers are the same, and with the rest of the state left out so are the states. -/
namespace DiagramCompiler

namespace Action

variable {σ τ α β : Type}

def Projects (part : τ → σ) (a' : Action τ α) (a : Action σ α) : Prop :=
  ∀ t, a.run (part t) = ((a'.run t).1, part (a'.run t).2)

namespace Projects

variable {part : τ → σ} {a' : Action τ α} {a : Action σ α}

theorem run_eq (h : Projects part a' a) {t t' : τ} {answer : Except Failure α}
    (hrun : a'.run t = (answer, t')) : a.run (part t) = (answer, part t') := by
  rw [h t, hrun]

theorem pure (value : α) : Projects part (Pure.pure value) (Pure.pure value : Action σ α) :=
  fun _ => rfl

theorem bind {next' : α → Action τ β} {next : α → Action σ β} (h : Projects part a' a)
    (hnext : ∀ value, Projects part (next' value) (next value)) :
    Projects part (a' >>= next') (a >>= next) := by
  intro t
  rw [run_bind, run_bind, h t]
  cases hrun : a'.run t with
  | mk answer t' =>
    cases answer with
    | ok value => exact hnext value t'
    | error failure => rfl

theorem fail (failure : Failure) :
    Projects part (Action.fail failure : Action τ α) (Action.fail failure) := fun _ => rfl

theorem ofExcept (answer : Except Failure α) :
    Projects part (Action.ofExcept answer) (Action.ofExcept answer) := fun _ => rfl

theorem reading (read : σ → α) :
    Projects part (Action.reading fun t => read (part t)) (Action.reading read) := fun _ => rfl

theorem change {after' : τ → τ} {after : σ → σ} (h : ∀ t, after (part t) = part (after' t)) :
    Projects part (Action.change after') (Action.change after) := fun t => by
  rw [run_change, run_change, h]

theorem ensuring (h : Projects part a' a) {after' : τ → τ} {after : σ → σ}
    (hafter : ∀ t, after (part t) = part (after' t)) :
    Projects part (a'.ensuring after') (a.ensuring after) := fun t => by
  rw [run_ensuring, run_ensuring, h t, hafter]

theorem attempt (h : Projects part a' a) : Projects part a'.attempt a.attempt := fun t => by
  rw [run_attempt, run_attempt, h t]

theorem ite {condition : Prop} [Decidable condition] {b' : Action τ α} {b : Action σ α}
    (h : Projects part a' a) (h' : Projects part b' b) :
    Projects part (if condition then a' else b') (if condition then a else b) := by
  split
  · exact h
  · exact h'

end Projects

end Action

variable {σ τ α : Type}

/-- Whether an engine does what another one does on a part of its state. -/
structure Engine.Projects (part : τ → σ) (e' : Engine τ) (e : Engine σ) : Prop where
  name : e'.name = e.name
  stub : e'.stub = e.stub
  capabilities : e'.capabilities = e.capabilities
  zero : Action.Projects part e'.zero e.zero
  one : Action.Projects part e'.one e.one
  var (v : Nat) : Action.Projects part (e'.var v) (e.var v)
  negatedVar (v : Nat) : Action.Projects part (e'.negatedVar v) (e.negatedVar v)
  negate (node : NodeRef) : Action.Projects part (e'.negate node) (e.negate node)
  apply (op : BinaryOp) (lhs rhs : NodeRef) (limit : Option Duration) :
    Action.Projects part (e'.apply op lhs rhs limit) (e.apply op lhs rhs limit)
  release (node : NodeRef) (t : τ) : e.release node (part t) = part (e'.release node t)
  declare (count : Nat) : Action.Projects part (e'.declare count) (e.declare count)
  setOrder (order : List Nat) : Action.Projects part (e'.setOrder order) (e.setOrder order)
  enableReordering (algorithm : Int) :
    Action.Projects part (e'.enableReordering algorithm) (e.enableReordering algorithm)
  disableReordering : Action.Projects part e'.disableReordering e.disableReordering
  dump (node : NodeRef) : Action.Projects part (e'.dump node) (e.dump node)
  now (t : τ) : e'.now t = e.now (part t)

/-- Whether a manager does what another one does on a part of its state. -/
structure Manager.Projects (part : τ → σ) (m' : Manager τ) (m : Manager σ) : Prop where
  engine : m'.engine.Projects part m.engine
  bound : m'.bound = m.bound

theorem Action.Projects.negateConsuming {part : τ → σ} {diagram' : Action τ NodeRef}
    {diagram : Action σ NodeRef} {negate' : NodeRef → Action τ NodeRef}
    {negate : NodeRef → Action σ NodeRef} {release' : NodeRef → τ → τ} {release : NodeRef → σ → σ}
    (hdiagram : Action.Projects part diagram' diagram)
    (hnegate : ∀ node, Action.Projects part (negate' node) (negate node))
    (hrelease : ∀ node t, release node (part t) = part (release' node t)) :
    Action.Projects part (negateConsuming diagram' negate' release')
      (negateConsuming diagram negate release) :=
  .bind hdiagram fun positive => .ensuring (hnegate positive) (hrelease positive)

/-! ### Managers -/

namespace Manager.Projects

variable {part : τ → σ} {m' : Manager τ} {m : Manager σ} (h : Manager.Projects part m' m)

include h

theorem capabilities : m'.capabilities = m.capabilities := h.engine.capabilities

theorem engineVar (v : Nat) : m'.engineVar v = m.engineVar v := by
  rw [Manager.engineVar, Manager.engineVar, h.capabilities]

theorem now : (Action.Projects part (.reading m'.engine.now) (.reading m.engine.now)) := by
  have hnow : m'.engine.now = fun t => m.engine.now (part t) := funext h.engine.now
  rw [hnow]
  exact .reading _

theorem release (node : NodeRef) (t : τ) : m.release node (part t) = part (m'.release node t) :=
  h.engine.release node t

theorem declareVars (count : Nat) :
    Action.Projects part (m'.declareVars count) (m.declareVars count) := by
  rw [Manager.declareVars, Manager.declareVars, h.capabilities]
  exact .ite (h.engine.declare count) (.pure ())

theorem setOrder (order : VariableOrder) :
    Action.Projects part (m'.setOrder order) (m.setOrder order) := by
  rw [Manager.setOrder, Manager.setOrder, funext h.engineVar]
  exact h.engine.setOrder _

theorem setReordering (stub : String) :
    Action.Projects part (m'.setReordering stub) (m.setReordering stub) := by
  have hname : m'.name = m.name := h.engine.name
  rw [Manager.setReordering, Manager.setReordering, h.capabilities, hname]
  refine .ite h.engine.disableReordering ?_
  split
  · exact h.engine.enableReordering _
  · exact .fail _

theorem literal (l : Literal) : Action.Projects part (m'.literal l) (m.literal l) := by
  rw [Manager.literal, Manager.literal, h.capabilities, h.engineVar]
  refine .ite (.fail _) (.ite (h.engine.var _) ?_)
  split
  · exact .negateConsuming (h.engine.var _) h.engine.negate h.release
  · exact h.engine.negatedVar _

theorem applyRetaining (op : BinaryOp) (lhs rhs : NodeRef) :
    Action.Projects part (m'.applyRetaining op lhs rhs) (m.applyRetaining op lhs rhs) := by
  have happly := h.engine.apply op lhs rhs m.bound
  rw [Manager.applyRetaining, Manager.applyRetaining, h.bound]
  refine .bind h.now fun started => ?_
  refine .bind happly fun result => ?_
  refine .bind h.now fun ended => ?_
  split
  · exact .pure result
  · exact .ite (.ensuring (.fail _) (h.release result)) (.pure result)

theorem apply (op : BinaryOp) (lhs rhs : NodeRef) :
    Action.Projects part (m'.apply op lhs rhs) (m.apply op lhs rhs) :=
  .ensuring (.ensuring (h.applyRetaining op lhs rhs) (h.release rhs)) (h.release lhs)

theorem dumpOf (native : NativeDump) : m'.dumpOf native = m.dumpOf native := by
  have hname : m'.name = m.name := h.engine.name
  have hstub : m'.stub = m.stub := h.engine.stub
  have hvar : m'.formulaVar = m.formulaVar := by
    funext v
    rw [Manager.formulaVar, Manager.formulaVar, h.capabilities]
  have hnode : m'.formulaNode = m.formulaNode := by
    funext n
    rw [Manager.formulaNode, Manager.formulaNode, hvar]
  have horder : m'.formulaOrder = m.formulaOrder := by
    funext vars
    rw [Manager.formulaOrder, Manager.formulaOrder, hvar]
  rw [Manager.dumpOf, Manager.dumpOf, hnode, horder, hname, hstub]

theorem dump (node : NodeRef) : Action.Projects part (m'.dump node) (m.dump node) := by
  have hdump := h.engine.dump node
  rw [Manager.dump, Manager.dump, funext h.dumpOf]
  exact .bind hdump fun _ => .ofExcept _

/-! ### Compilations -/

theorem disjoin (ls : List Literal) (disjunction : NodeRef) :
    Action.Projects part (Compilation.disjoin m' disjunction ls)
      (Compilation.disjoin m disjunction ls) := by
  induction ls generalizing disjunction with
  | nil => exact .pure disjunction
  | cons l ls ih =>
    refine .bind (.attempt (h.literal l)) fun answer => ?_
    cases answer with
    | error failure => exact .ensuring (.fail failure) (h.release disjunction)
    | ok literal => exact .bind (h.apply .or disjunction literal) fun next => ih next

theorem conjoinClause (accumulator : NodeRef) (c : Clause) :
    Action.Projects part (Compilation.conjoinClause m' accumulator c)
      (Compilation.conjoinClause m accumulator c) := by
  have hclause : Action.Projects part (Compilation.clauseDiagram m' c)
      (Compilation.clauseDiagram m c) :=
    .bind h.engine.zero fun disjunction => h.disjoin c.literals disjunction
  exact .bind hclause fun clause =>
    .ensuring (h.applyRetaining .and accumulator clause) (h.release clause)

theorem conjoin (cs : List Clause) (accumulator : NodeRef) (skipped : Nat) :
    Action.Projects part (Compilation.conjoin m' accumulator skipped cs)
      (Compilation.conjoin m accumulator skipped cs) := by
  induction cs generalizing accumulator skipped with
  | nil => exact .pure (accumulator, skipped)
  | cons c cs ih =>
    refine .bind (.attempt (h.conjoinClause accumulator c)) fun answer => ?_
    cases answer with
    | ok next => exact .bind (.change (h.release accumulator)) fun _ => ih next skipped
    | error failure =>
      exact .ite (ih accumulator (skipped + 1)) (.ensuring (.fail failure) (h.release accumulator))

theorem prepare (f : Formula) (order : Option VariableOrder) :
    Action.Projects part (Compilation.prepare m' f order) (Compilation.prepare m f order) := by
  refine .bind (h.declareVars f.varCount) fun _ => ?_
  cases order with
  | none => exact .pure ()
  | some order => exact .ite (.fail _) (.ite (.pure ()) (h.setOrder order))

theorem compile (f : Formula) (order : Option VariableOrder) :
    Action.Projects part (Compilation.compile m' f order) (Compilation.compile m f order) := by
  refine .bind (h.prepare f order) fun _ => ?_
  refine .bind h.now fun started => ?_
  refine .bind h.engine.one fun accumulator => ?_
  refine .bind (h.conjoin f.clauses accumulator 0) fun conjoined => ?_
  refine .bind h.now fun ended => ?_
  exact .pure _

/-! ### Workbenches -/

theorem store (into : String) (node : NodeRef) (slots : Slots) (t : τ) :
    Workbench.store m into node slots (part t) =
      ((Workbench.store m' into node slots t).1, part (Workbench.store m' into node slots t).2) := by
  rw [Workbench.store, Workbench.store]
  split
  · rfl
  · rw [h.release]

theorem storing {a' : Action τ NodeRef} {a : Action σ NodeRef} (ha : Action.Projects part a' a)
    (into : String) (slots : Slots) (t : τ) :
    Workbench.storing m into a slots (part t) =
      ((Workbench.storing m' into a' slots t).1, (Workbench.storing m' into a' slots t).2.1,
        part (Workbench.storing m' into a' slots t).2.2) := by
  rw [Workbench.storing, Workbench.storing, ha t]
  cases hrun : a'.run t with
  | mk answer t' =>
    cases answer with
    | ok node => simp only [h.store]
    | error failure => rfl

omit h in
theorem acting {a' : Action τ Unit} {a : Action σ Unit} (ha : Action.Projects part a' a)
    (slots : Slots) (t : τ) :
    Workbench.acting a slots (part t) =
      ((Workbench.acting a' slots t).1, (Workbench.acting a' slots t).2.1,
        part (Workbench.acting a' slots t).2.2) := by
  rw [Workbench.acting, Workbench.acting, ha t]
  cases hrun : a'.run t with
  | mk answer t' => cases answer <;> rfl

theorem run (c : Command) (slots : Slots) (t : τ) :
    Workbench.run m c slots (part t) =
      ((Workbench.run m' c slots t).1, (Workbench.run m' c slots t).2.1,
        part (Workbench.run m' c slots t).2.2) := by
  cases c with
  | info => rfl
  | declare count => exact acting (h.declareVars count) slots t
  | order vars =>
    simp only [Workbench.run]
    split
    · exact acting (h.setOrder _) slots t
    · rfl
  | reorder stub => exact acting (h.setReordering stub) slots t
  | drop slot =>
    simp only [Workbench.run]
    split
    · rw [h.release]
    · rfl
  | zero into => exact h.storing h.engine.zero into slots t
  | one into => exact h.storing h.engine.one into slots t
  | literal l into => exact h.storing (h.literal l) into slots t
  | negate slot into =>
    simp only [Workbench.run]
    split
    · exact h.storing (h.engine.negate _) into slots t
    · rfl
  | consume op lhs rhs into =>
    simp only [Workbench.run]
    split
    · exact h.storing (h.apply op _ _) into _ t
    · rfl
  | retain op lhs rhs into =>
    simp only [Workbench.run]
    split
    · exact h.storing (h.applyRetaining op _ _) into slots t
    · rfl
  | dump slot =>
    simp only [Workbench.run]
    split
    · next node _ =>
      rw [h.dump node t]
      cases hrun : (m'.dump node).run t with
      | mk answer t' => cases answer <;> rfl
    · rfl

theorem runTask (task : Task) (slots : Slots) (t : τ) :
    task.run m slots (part t) = ((task.run m' slots t).1, part (task.run m' slots t).2) := by
  cases task with
  | command c => rw [Task.run, Task.run, h.run]
  | compile f order into =>
    rw [Task.run, Task.run, h.compile f order t]
    cases hrun : (Compilation.compile m' f order).run t with
    | mk answer t' =>
      cases answer with
      | ok c => exact h.store into c.diagram slots t'
      | error failure => rfl

theorem runAll (tasks : List Task) (slots : Slots) (t : τ) :
    Task.runAll m tasks slots (part t) =
      ((Task.runAll m' tasks slots t).1, part (Task.runAll m' tasks slots t).2) := by
  induction tasks generalizing slots t with
  | nil => rfl
  | cons task tasks ih => rw [Task.runAll, Task.runAll, h.runTask, ih]

end Manager.Projects

end DiagramCompiler
