import Mathlib.Algebra.Order.Group.Multiset
import DiagramCompiler.Compilation
import DiagramCompiler.Proofs.Actions
import DiagramCompiler.Proofs.EngineContracts

/-! Held references.
A custody of an engine says which references are held in a state, each as often as it was handed out
and not given back: what answers with a reference adds one of it, a release takes one away, and
everything else, failures included, leaves them as they are. Whatever managers, compilations and
workbenches do with an engine in custody, what is held is what their handles refer to. -/
namespace DiagramCompiler

variable {σ α β : Type}

namespace Action

abbrev Keeps (a : Action σ α) (holds : σ → Multiset NodeRef → Prop) (s : σ)
    (refs : Multiset NodeRef) : Prop :=
  a.Ends s (holds · refs) fun _ s' => holds s' refs

/-- Whether an action answers with one more reference, and leaves what is held as it is if it
fails. -/
abbrev Hands (a : Action σ NodeRef) (holds : σ → Multiset NodeRef → Prop) (s : σ)
    (refs : Multiset NodeRef) : Prop :=
  a.Ends s (holds · refs) fun node s' => holds s' (node ::ₘ refs)

end Action

theorem Semantics.Gives.hands {M : Semantics σ} {a : Action σ NodeRef} {s : σ}
    {refs : Multiset NodeRef} {f : (Nat → Bool) → Bool} (h : M.Gives a s refs f) :
    a.Hands M.holds s refs where
  ok {node s'} hrun := by
    have hholds := (h.ok (congrArg Prod.fst hrun)).1
    rwa [hrun] at hholds
  error {failure s'} hrun := by
    have hholds := h.error (congrArg Prod.fst hrun)
    rwa [hrun] at hholds

/-- What references are held in the states of an engine. Operands are held, and an order places each
variable of the engine once. -/
structure Engine.Custody (e : Engine σ) where
  holds : σ → Multiset NodeRef → Prop
  zero {s : σ} {refs : Multiset NodeRef} (h : holds s refs) : e.zero.Hands holds s refs
  one {s : σ} {refs : Multiset NodeRef} (h : holds s refs) : e.one.Hands holds s refs
  var {s : σ} {refs : Multiset NodeRef} (h : holds s refs) (v : Nat) :
    (e.var v).Hands holds s refs
  negatedVar {s : σ} {refs : Multiset NodeRef} (h : holds s refs) (v : Nat) :
    (e.negatedVar v).Hands holds s refs
  negate {s : σ} {refs : Multiset NodeRef} (h : holds s refs) {node : NodeRef}
    (hnode : node ∈ refs) : (e.negate node).Hands holds s refs
  apply {s : σ} {refs : Multiset NodeRef} (h : holds s refs) (op : BinaryOp) {lhs rhs : NodeRef}
    (hlhs : lhs ∈ refs) (hrhs : rhs ∈ refs) (limit : Option Duration) :
    (e.apply op lhs rhs limit).Hands holds s refs
  release {s : σ} {refs : Multiset NodeRef} {node : NodeRef} (h : holds s (node ::ₘ refs)) :
    holds (e.release node s) refs
  declare {s : σ} {refs : Multiset NodeRef} (h : holds s refs) (count : Nat) :
    (e.declare count).Keeps holds s refs
  setOrder {s : σ} {refs : Multiset NodeRef} (h : holds s refs) {order : List Nat}
    (horder : order.Perm (List.range' e.capabilities.firstVar order.length)) :
    (e.setOrder order).Keeps holds s refs
  enableReordering {s : σ} {refs : Multiset NodeRef} (h : holds s refs) (algorithm : Int) :
    (e.enableReordering algorithm).Keeps holds s refs
  disableReordering {s : σ} {refs : Multiset NodeRef} (h : holds s refs) :
    e.disableReordering.Keeps holds s refs
  dump {s : σ} {refs : Multiset NodeRef} (h : holds s refs) {node : NodeRef} (hnode : node ∈ refs) :
    (e.dump node).Keeps holds s refs

def Engine.Contract.custody {e : Engine σ} (C : e.Contract)
    (hdump : ∀ {s refs node}, C.holds s refs → node ∈ refs → (e.dump node).Keeps C.holds s refs) :
    e.Custody where
  holds := C.holds
  zero h := (C.zero h).hands
  one h := (C.one h).hands
  var h v := (C.var h v).hands
  negatedVar h v := (C.negatedVar h v).hands
  negate h _ hnode := (C.negate h hnode).hands
  apply h op _ _ hlhs hrhs limit := (C.apply h op hlhs hrhs limit).hands
  release h := (C.release h).holds
  declare h count := .of_state (C.declare h count).holds
  setOrder h _ horder := .of_state (C.setOrder h horder).holds
  enableReordering h algorithm := .of_state (C.enableReordering h algorithm).holds
  disableReordering h := .of_state (C.disableReordering h).holds
  dump h _ hnode := hdump h hnode

section Handing

variable {holds : σ → Multiset NodeRef → Prop} {release : NodeRef → σ → σ} {s : σ}
  {refs : Multiset NodeRef}

theorem Action.keeps_ofExcept (h : holds s refs) (answer : Except Failure α) :
    (Action.ofExcept answer).Keeps holds s refs :=
  .ofExcept h fun _ _ => h

/-- A reference that an action needs only while it runs is released afterwards. -/
theorem Action.Hands.releasing {a : Action σ NodeRef} {node : NodeRef}
    (h : a.Hands holds s (node ::ₘ refs))
    (hrelease : ∀ {s refs}, holds s (node ::ₘ refs) → holds (release node s) refs) :
    (a.ensuring (release node)).Hands holds s refs := by
  refine .ensuring (h.mono (fun _ hfails => hrelease hfails) fun value s' hgives => ?_)
  rw [Multiset.cons_swap] at hgives
  exact hrelease hgives

theorem Action.ends_fail_ensuring {gives : α → σ → Prop} {node : NodeRef} (failure : Failure)
    (h : holds (release node s) refs) :
    ((Action.fail failure).ensuring (release node) : Action σ α).Ends s (holds · refs) gives :=
  .ensuring (.of_error (Action.run_fail failure s) h)

theorem hands_negateConsuming {diagram : Action σ NodeRef} {negate : NodeRef → Action σ NodeRef}
    (hdiagram : diagram.Hands holds s refs)
    (hnegate : ∀ {s refs node}, holds s refs → node ∈ refs → (negate node).Hands holds s refs)
    (hrelease : ∀ {s refs node}, holds s (node ::ₘ refs) → holds (release node s) refs) :
    (negateConsuming diagram negate release).Hands holds s refs :=
  .bind hdiagram fun positive _ hheld =>
    Action.Hands.releasing (hnegate hheld (Multiset.mem_cons_self positive refs)) hrelease

end Handing

/-! ### Managers -/

namespace Manager

variable {m : Manager σ} {C : m.engine.Custody} {s : σ} {refs : Multiset NodeRef}

theorem keeps_declareVars (h : C.holds s refs) (count : Nat) :
    (m.declareVars count).Keeps C.holds s refs := by
  rw [declareVars]
  split
  · exact C.declare h count
  · exact .pure h

theorem keeps_setOrder (h : C.holds s refs) (order : VariableOrder) :
    (m.setOrder order).Keeps C.holds s refs :=
  C.setOrder h (m.perm_engineVars order)

theorem keeps_setReordering (h : C.holds s refs) (stub : String) :
    (m.setReordering stub).Keeps C.holds s refs := by
  rw [setReordering]
  split
  · exact C.disableReordering h
  · split
    · exact C.enableReordering h _
    · exact .of_error (Action.run_fail _ s) h

theorem hands_literal (h : C.holds s refs) (l : Literal) :
    (m.literal l).Hands C.holds s refs := by
  rw [literal]
  split
  · exact .of_error (Action.run_fail _ s) h
  · split
    · exact C.var h _
    · split
      · exact hands_negateConsuming (C.var h _) (fun h hnode => C.negate h hnode) C.release
      · exact C.negatedVar h _

theorem hands_applyRetaining (h : C.holds s refs) (op : BinaryOp) {lhs rhs : NodeRef}
    (hlhs : lhs ∈ refs) (hrhs : rhs ∈ refs) :
    (m.applyRetaining op lhs rhs).Hands C.holds s refs := by
  refine .reading_bind (.bind (C.apply h op hlhs hrhs m.bound) fun result s' h => ?_)
  refine .reading_bind ?_
  cases m.bound with
  | none => exact .pure h
  | some bound =>
    simp only
    split
    · exact Action.ends_fail_ensuring _ (C.release h)
    · exact .pure h

theorem hands_apply (op : BinaryOp) {lhs rhs : NodeRef} (h : C.holds s (lhs ::ₘ rhs ::ₘ refs)) :
    (m.apply op lhs rhs).Hands C.holds s refs := by
  have hrhs : rhs ∈ lhs ::ₘ rhs ::ₘ refs := Multiset.mem_cons_of_mem (Multiset.mem_cons_self _ _)
  have happly := hands_applyRetaining h op (Multiset.mem_cons_self _ _) hrhs
  rw [Multiset.cons_swap] at happly
  exact (happly.releasing C.release).releasing C.release

theorem keeps_dump (h : C.holds s refs) {node : NodeRef} (hnode : node ∈ refs) :
    (m.dump node).Keeps C.holds s refs :=
  .bind (C.dump h hnode) fun _ _ h => Action.keeps_ofExcept h _

end Manager

/-! ### Compilations -/

namespace Compilation

variable {m : Manager σ} {C : m.engine.Custody} {s : σ} {refs : Multiset NodeRef}

theorem hands_disjoin {disjunction : NodeRef} (h : C.holds s (disjunction ::ₘ refs))
    (ls : List Literal) : (disjoin m disjunction ls).Hands C.holds s refs := by
  induction ls generalizing disjunction s with
  | nil => exact .pure h
  | cons l ls ih =>
    refine .bind (.mono (.attempt (m.hands_literal h l)) (fun _ => False.elim) fun _ _ => id) ?_
    rintro answer s' (⟨failure, rfl, h⟩ | ⟨literal, rfl, h⟩)
    · exact Action.ends_fail_ensuring failure (C.release h)
    · rw [Multiset.cons_swap] at h
      exact .bind (m.hands_apply .or h) fun next s' h => ih h

theorem hands_clauseDiagram (h : C.holds s refs) (c : Clause) :
    (clauseDiagram m c).Hands C.holds s refs :=
  .bind (C.zero h) fun _ _ h => hands_disjoin h c.literals

/-- The diagram of the clause is given back, that of the accumulator is not. -/
theorem hands_conjoinClause (h : C.holds s refs) {accumulator : NodeRef}
    (haccumulator : accumulator ∈ refs) (c : Clause) :
    (conjoinClause m accumulator c).Hands C.holds s refs := by
  refine .bind (hands_clauseDiagram h c) fun clause s' h => ?_
  exact (m.hands_applyRetaining h .and (Multiset.mem_cons_of_mem haccumulator)
    (Multiset.mem_cons_self clause refs)).releasing C.release

/-- The loop holds its accumulator and nothing else of its own, whichever clauses it gives up. -/
theorem hands_conjoin {accumulator : NodeRef} (h : C.holds s (accumulator ::ₘ refs)) (skipped : Nat)
    (cs : List Clause) :
    (conjoin m accumulator skipped cs).Ends s (C.holds · refs)
      fun result s' => C.holds s' (result.1 ::ₘ refs) := by
  induction cs generalizing accumulator skipped s with
  | nil => exact .pure h
  | cons c cs ih =>
    have hclause := hands_conjoinClause h (Multiset.mem_cons_self accumulator refs) c
    refine .bind (.mono (.attempt hclause) (fun _ => False.elim) fun _ _ => id) ?_
    rintro answer s' (⟨failure, rfl, h⟩ | ⟨next, rfl, h⟩)
    · simp only
      split
      · exact ih h (skipped + 1)
      · exact Action.ends_fail_ensuring failure (C.release h)
    · rw [Multiset.cons_swap] at h
      exact .bind (.of_ok (Action.run_change _ s') (C.release h)) fun _ s' h => ih h skipped

theorem keeps_prepare (h : C.holds s refs) (f : Formula) (order : Option VariableOrder) :
    (prepare m f order).Keeps C.holds s refs := by
  refine .bind (m.keeps_declareVars h f.varCount) fun _ s' h => ?_
  cases order with
  | none => exact .pure h
  | some order =>
    simp only
    split
    · exact .of_error (Action.run_fail _ s') h
    · split
      · exact .pure h
      · exact m.keeps_setOrder h order

/-- A compilation hands out the diagram of the formula and otherwise gives back all that it was
handed out. -/
theorem hands_compile (h : C.holds s refs) (f : Formula) (order : Option VariableOrder) :
    (compile m f order).Ends s (C.holds · refs)
      fun c s' => C.holds s' (c.diagram ::ₘ refs) := by
  refine .bind (keeps_prepare h f order) fun _ s' h => ?_
  refine .reading_bind (.bind (C.one h) fun accumulator s' h => ?_)
  exact .bind (hands_conjoin h 0 f.clauses) fun result s' h => .reading_bind (.pure h)

end Compilation

/-! ### Handles in slots -/

namespace Slots

/-- The references in slots, each as often as it is there. -/
def handles (slots : Slots) : Multiset NodeRef := slots.values

@[simp] theorem handles_empty : handles .empty = 0 := rfl

theorem handles_of_get? {slots : Slots} {slot : String} {node : NodeRef}
    (h : slots.get? slot = some node) : handles slots = node ::ₘ handles (slots.erase slot) :=
  Multiset.coe_eq_coe.2 ((Dictionary.perm_of_get? h).map Prod.snd)

theorem handles_insert (slots : Slots) (slot : String) (node : NodeRef) :
    handles (slots.insert slot node) = node ::ₘ handles (slots.erase slot) :=
  Multiset.coe_eq_coe.2 ((slots.perm_insert slot node).map Prod.snd)

theorem mem_handles {slots : Slots} {slot : String} {node : NodeRef}
    (h : slots.get? slot = some node) : node ∈ handles slots := by
  rw [handles_of_get? h]
  exact Multiset.mem_cons_self _ _

end Slots

namespace Workbench

variable {m : Manager σ} {C : m.engine.Custody} {s : σ} {slots : Slots} {rest : Multiset NodeRef}

theorem holds_store {node : NodeRef} (h : C.holds s (node ::ₘ (slots.handles + rest)))
    (into : String) :
    C.holds (store m into node slots s).2 ((store m into node slots s).1.handles + rest) := by
  rw [store]
  cases hslot : slots.get? into with
  | none =>
    rwa [Slots.handles_insert, Dictionary.erase_of_get?_eq_none hslot, Multiset.cons_add]
  | some old =>
    rw [Slots.handles_of_get? hslot, Multiset.cons_add, Multiset.cons_swap] at h
    rw [Slots.handles_insert, Multiset.cons_add]
    exact C.release h

theorem holds_storing {a : Action σ NodeRef} (h : a.Hands C.holds s (slots.handles + rest))
    (into : String) :
    C.holds (storing m into a slots s).2.2 ((storing m into a slots s).2.1.handles + rest) := by
  rw [storing]
  cases hrun : a.run s with
  | mk answer s' =>
    cases answer with
    | ok node => exact holds_store (h.ok hrun) into
    | error failure => exact h.error hrun

theorem holds_acting {a : Action σ Unit} (h : a.Keeps C.holds s (slots.handles + rest)) :
    C.holds (acting a slots s).2.2 ((acting a slots s).2.1.handles + rest) := by
  rw [acting]
  cases hrun : a.run s with
  | mk answer s' =>
    cases answer with
    | ok _ => exact h.ok hrun
    | error failure => exact h.error hrun

theorem mem_handles_add {slot : String} {node : NodeRef} (h : slots.get? slot = some node) :
    node ∈ slots.handles + rest :=
  Multiset.mem_add.2 (.inl (Slots.mem_handles h))

theorem holds_dump (h : C.holds s (slots.handles + rest)) (slot : String) :
    C.holds (run m (.dump slot) slots s).2.2 ((run m (.dump slot) slots s).2.1.handles + rest) := by
  rw [run]
  cases hslot : slots.get? slot with
  | none => exact h
  | some node =>
    have hdump := m.keeps_dump h (mem_handles_add hslot)
    cases hrun : (m.dump node).run s with
    | mk answer s' =>
      simp only [hrun]
      cases answer with
      | ok dump => exact hdump.ok hrun
      | error failure => exact hdump.error hrun

/-- After a command, as before it, what is held is what the slots refer to, and what was held
besides. -/
theorem holds_run (h : C.holds s (slots.handles + rest)) (c : Command) :
    C.holds (run m c slots s).2.2 ((run m c slots s).2.1.handles + rest) := by
  cases c with
  | info => exact h
  | declare count => exact holds_acting (m.keeps_declareVars h count)
  | order vars =>
    rw [run]
    cases VariableOrder.ofList? vars with
    | ok order => exact holds_acting (m.keeps_setOrder h order)
    | error fault => exact h
  | reorder stub => exact holds_acting (m.keeps_setReordering h stub)
  | drop slot =>
    rw [run]
    cases hslot : slots.get? slot with
    | none => exact h
    | some node =>
      rw [Slots.handles_of_get? hslot, Multiset.cons_add] at h
      exact C.release h
  | zero into => exact holds_storing (C.zero h) into
  | one into => exact holds_storing (C.one h) into
  | literal l into => exact holds_storing (m.hands_literal h l) into
  | negate slot into =>
    rw [run]
    cases hslot : slots.get? slot with
    | none => exact h
    | some node => exact holds_storing (C.negate h (mem_handles_add hslot)) into
  | consume op lhs rhs into =>
    rw [run]
    split
    · next a b ha hb =>
      rw [Slots.handles_of_get? ha, Slots.handles_of_get? hb, Multiset.cons_add,
        Multiset.cons_add] at h
      exact holds_storing (m.hands_apply op h) into
    · exact h
  | retain op lhs rhs into =>
    rw [run]
    split
    · next a b ha hb =>
      exact holds_storing (m.hands_applyRetaining h op (mem_handles_add ha) (mem_handles_add hb))
        into
    · exact h
  | dump slot => exact holds_dump h slot

end Workbench

/-! ### Tasks one after the other -/

/-- What is done with a manager: a command of a workbench, or the compilation of a formula, whose
diagram goes into a slot. -/
inductive Task where
  | command (c : Command)
  | compile (f : Formula) (order : Option VariableOrder) (into : String)

namespace Task

def run (m : Manager σ) (t : Task) (slots : Slots) (s : σ) : Slots × σ :=
  match t with
  | .command c => (Workbench.run m c slots s).2
  | .compile f order into =>
    match (Compilation.compile m f order).run s with
    | (.ok c, s) => Workbench.store m into c.diagram slots s
    | (.error _, s) => (slots, s)

def runAll (m : Manager σ) : List Task → Slots → σ → Slots × σ
  | [], slots, s => (slots, s)
  | t :: ts, slots, s => runAll m ts (t.run m slots s).1 (t.run m slots s).2

variable {m : Manager σ} {C : m.engine.Custody} {s : σ} {slots : Slots} {rest : Multiset NodeRef}

theorem holds_run (h : C.holds s (slots.handles + rest)) (t : Task) :
    C.holds (t.run m slots s).2 ((t.run m slots s).1.handles + rest) := by
  cases t with
  | command c => exact Workbench.holds_run h c
  | compile f order into =>
    have hcompile := Compilation.hands_compile h f order
    rw [run]
    cases hrun : (Compilation.compile m f order).run s with
    | mk answer s' =>
      cases answer with
      | ok c => exact Workbench.holds_store (hcompile.ok hrun) into
      | error failure => exact hcompile.error hrun

/-- Between any two tasks what is held is what the slots refer to, and what was held besides. -/
theorem holds_runAll (h : C.holds s (slots.handles + rest)) (ts : List Task) :
    C.holds (runAll m ts slots s).2 ((runAll m ts slots s).1.handles + rest) := by
  induction ts generalizing slots s with
  | nil => exact h
  | cons t ts ih => exact ih (holds_run h t)

end Task

/-- Whether, between any two tasks that begin with empty slots, a state holds what the slots refer
to, and whether a compilation then adds its diagram to that, or nothing if it fails. -/
def Manager.Accounts (m : Manager σ) (start : σ) (holds : σ → Multiset NodeRef → Prop) : Prop :=
  ∀ (tasks : List Task) (f : Formula) (order : Option VariableOrder),
    let reached := Task.runAll m tasks .empty start
    holds reached.2 reached.1.handles ∧
      (Compilation.compile m f order).Ends reached.2 (holds · reached.1.handles)
        fun c s => holds s (c.diagram ::ₘ reached.1.handles)

theorem Manager.Accounts.mono {m : Manager σ} {start : σ} {holds holds' : σ → Multiset NodeRef → Prop}
    (haccounts : m.Accounts start holds) (h : ∀ s refs, holds s refs → holds' s refs) :
    m.Accounts start holds' := fun tasks f order =>
  have ⟨hreached, hends⟩ := haccounts tasks f order
  ⟨h _ _ hreached, hends.mono (fun _ => h _ _) fun _ _ => h _ _⟩

theorem Manager.accounts (m : Manager σ) (C : m.engine.Custody) {start : σ}
    (h : C.holds start 0) : m.Accounts start C.holds := by
  intro tasks f order reached
  have hstart : C.holds start (Slots.handles .empty + 0) := h
  have hreached := Task.holds_runAll hstart tasks
  rw [add_zero] at hreached
  exact ⟨hreached, Compilation.hands_compile hreached f order⟩

end DiagramCompiler
