import DiagramCompiler.Proofs.EngineParts
import DiagramCompiler.Proofs.Handles

/-! Tallied references.
A tallied engine does what the engine does and writes down which references it hands out and which
are released. A reference is handed out just as often as it is released, but for the handles on it
that are there: nothing is leaked, and nothing is released twice. -/
namespace DiagramCompiler

variable {σ α : Type}

/-- What happens to a reference. -/
inductive Transfer where
  | handedOut (node : NodeRef)
  | released (node : NodeRef)
  deriving DecidableEq, Repr

/-- A state and what has happened to references so far, the last first. -/
abbrev Tallied (σ : Type) := σ × List Transfer

namespace Tallied

/-- Whether every reference was handed out as often as it was released, and once more for each time
that it is held. -/
def Balances (s : Tallied σ) (refs : Multiset NodeRef) : Prop :=
  ∀ node, s.2.count (.handedOut node) = s.2.count (.released node) + refs.count node

def release (release : NodeRef → σ → σ) (node : NodeRef) (s : Tallied σ) : Tallied σ :=
  (release node s.1, .released node :: s.2)

end Tallied

namespace Action

/-- Writes the reference down that an action answers with. -/
def tallied (a : Action σ NodeRef) : Action (Tallied σ) NodeRef := fun (s, tally) =>
  match a s with
  | (.ok node, s) => (.ok node, s, .handedOut node :: tally)
  | (.error failure, s) => (.error failure, s, tally)

def untallied (a : Action σ α) : Action (Tallied σ) α := fun (s, tally) =>
  match a s with
  | (answer, s) => (answer, s, tally)

end Action

namespace Engine

def tallied (e : Engine σ) : Engine (Tallied σ) where
  name := e.name
  stub := e.stub
  capabilities := e.capabilities
  zero := e.zero.tallied
  one := e.one.tallied
  var v := (e.var v).tallied
  negatedVar v := (e.negatedVar v).tallied
  negate node := (e.negate node).tallied
  apply op lhs rhs limit := (e.apply op lhs rhs limit).tallied
  release := Tallied.release e.release
  declare count := (e.declare count).untallied
  setOrder order := (e.setOrder order).untallied
  enableReordering algorithm := (e.enableReordering algorithm).untallied
  disableReordering := e.disableReordering.untallied
  dump node := (e.dump node).untallied
  now s := e.now s.1

/-- The engine with negated variables of its own, or with the negations of its variables. -/
def negatingVars (e : Engine σ) (own : Bool) : Engine σ :=
  { e with
    negatedVar := fun v =>
      if own then e.negatedVar v else negateConsuming (e.var v) e.negate e.release }

end Engine

/-- Fails in place of an action if a failure is due, and counts either way. -/
def Action.interrupted (fails : Nat → Option Failure) (a : Action σ α) : Action (σ × Nat) α :=
  fun (s, count) =>
    match fails count with
    | some failure => (.error failure, s, count + 1)
    | none => ((a s).1, (a s).2, count + 1)

/-- The engine with failures in place of some of its operations, which are counted. -/
def Engine.interrupted (fails : Nat → Option Failure) (e : Engine σ) : Engine (σ × Nat) where
  name := e.name
  stub := e.stub
  capabilities := e.capabilities
  zero := e.zero.interrupted fails
  one := e.one.interrupted fails
  var v := (e.var v).interrupted fails
  negatedVar v := (e.negatedVar v).interrupted fails
  negate node := (e.negate node).interrupted fails
  apply op lhs rhs limit := (e.apply op lhs rhs limit).interrupted fails
  release node := Prod.map (e.release node) id
  declare count := (e.declare count).interrupted fails
  setOrder order := (e.setOrder order).interrupted fails
  enableReordering algorithm := (e.enableReordering algorithm).interrupted fails
  disableReordering := e.disableReordering.interrupted fails
  dump node := (e.dump node).interrupted fails
  now s := e.now s.1

/-! ### What a tally changes -/

theorem Action.Projects.tallied (a : Action σ NodeRef) :
    Action.Projects Prod.fst a.tallied a := by
  rintro ⟨s, tally⟩
  rw [Action.run, Action.run, Action.tallied]
  cases a s with
  | mk answer s' => cases answer <;> rfl

theorem Action.Projects.untallied (a : Action σ α) :
    Action.Projects Prod.fst a.untallied a := fun _ => rfl

theorem Engine.projects_tallied (e : Engine σ) : e.tallied.Projects Prod.fst e where
  name := rfl
  stub := rfl
  capabilities := rfl
  zero := .tallied _
  one := .tallied _
  var _ := .tallied _
  negatedVar _ := .tallied _
  negate _ := .tallied _
  apply _ _ _ _ := .tallied _
  release _ _ := rfl
  declare _ := .untallied _
  setOrder _ := .untallied _
  enableReordering _ := .untallied _
  disableReordering := .untallied _
  dump _ := .untallied _
  now _ := rfl

theorem Engine.Projects.negatingVars {τ : Type} {part : τ → σ} {e' : Engine τ} {e : Engine σ}
    (h : e'.Projects part e) (own : Bool) :
    (e'.negatingVars own).Projects part (e.negatingVars own) :=
  { h with
    negatedVar := fun v =>
      .ite (h.negatedVar v) (.negateConsuming (h.var v) h.negate h.release) }

/-! ### Custodies -/

namespace Tallied

variable {s : Tallied σ} {refs : Multiset NodeRef} {node : NodeRef}

theorem Balances.handsOut {s' : σ} (h : s.Balances refs) :
    Balances (s', .handedOut node :: s.2) (node ::ₘ refs) := by
  intro other
  have hother := h other
  by_cases hnode : node = other
  · subst hnode
    simp [hother, Nat.add_assoc]
  · simp [hother, hnode, Ne.symm hnode]

theorem Balances.release {s' : σ} (h : s.Balances (node ::ₘ refs)) :
    Balances (s', .released node :: s.2) refs := by
  intro other
  have hother := h other
  by_cases hnode : node = other
  · subst hnode
    simp only [Multiset.count_cons_self] at hother
    simp [hother]
    omega
  · simpa [hnode, Ne.symm hnode] using hother

theorem Balances.tallied (h : s.Balances refs) (a : Action σ NodeRef) :
    a.tallied.Hands Balances s refs := by
  obtain ⟨s, tally⟩ := s
  cases hrun : a s with
  | mk answer s' =>
    cases answer with
    | ok node =>
      have htallied : a.tallied.run (s, tally) = (.ok node, s', .handedOut node :: tally) := by
        rw [Action.run, Action.tallied, hrun]
      exact .of_ok htallied h.handsOut
    | error failure =>
      have htallied : a.tallied.run (s, tally) = (.error failure, s', tally) := by
        rw [Action.run, Action.tallied, hrun]
      exact .of_error htallied h

theorem Balances.untallied (h : s.Balances refs) (a : Action σ α) :
    a.untallied.Keeps Balances s refs :=
  .of_state h

end Tallied

/-- The tally of an engine says what is held, whatever the engine does. -/
def Engine.talliedCustody (e : Engine σ) : e.tallied.Custody where
  holds := Tallied.Balances
  zero h := h.tallied _
  one h := h.tallied _
  var h _ := h.tallied _
  negatedVar h _ := h.tallied _
  negate h _ _ := h.tallied _
  apply h _ _ _ _ _ _ := h.tallied _
  release h := h.release
  declare h _ := h.untallied _
  setOrder h _ _ := h.untallied _
  enableReordering h _ := h.untallied _
  disableReordering h := h.untallied _
  dump h _ _ := h.untallied _

namespace Engine.Custody

variable {e : Engine σ}

def negatingVars (C : e.Custody) (own : Bool) : (e.negatingVars own).Custody :=
  { C with
    negatedVar := fun h v => by
      rw [Engine.negatingVars]
      split
      · exact C.negatedVar h v
      · exact hands_negateConsuming (C.var h v) (fun h hnode => C.negate h hnode) C.release }

end Engine.Custody

/-- What holds of both ends of an action holds of its failure in place of the action. -/
theorem Action.Ends.interrupted {a : Action σ α} {s : σ × Nat} {refuses : σ → Prop}
    {gives : α → σ → Prop} (h : a.Ends s.1 refuses gives) (hs : refuses s.1)
    (fails : Nat → Option Failure) :
    (a.interrupted fails).Ends s (fun s => refuses s.1) fun value s => gives value s.1 := by
  obtain ⟨s, count⟩ := s
  cases hfails : fails count with
  | some failure =>
    have hrun : (a.interrupted fails).run (s, count) = (.error failure, s, count + 1) := by
      simp only [Action.run, Action.interrupted, hfails]
    exact .of_error hrun hs
  | none =>
    have hrun : (a.interrupted fails).run (s, count) = ((a.run s).1, (a.run s).2, count + 1) := by
      simp only [Action.run, Action.interrupted, hfails]
    cases ha : a.run s with
    | mk answer s' =>
      rw [ha] at hrun
      cases answer with
      | ok value => exact .of_ok hrun (h.ok ha)
      | error failure => exact .of_error hrun (h.error ha)

def Engine.Custody.interrupted {e : Engine σ} (C : e.Custody) (fails : Nat → Option Failure) :
    (e.interrupted fails).Custody where
  holds s refs := C.holds s.1 refs
  zero h := (C.zero h).interrupted h fails
  one h := (C.one h).interrupted h fails
  var h v := (C.var h v).interrupted h fails
  negatedVar h v := (C.negatedVar h v).interrupted h fails
  negate h _ hnode := (C.negate h hnode).interrupted h fails
  apply h op _ _ hlhs hrhs limit := (C.apply h op hlhs hrhs limit).interrupted h fails
  release h := C.release h
  declare h count := (C.declare h count).interrupted h fails
  setOrder h _ horder := (C.setOrder h horder).interrupted h fails
  enableReordering h algorithm := (C.enableReordering h algorithm).interrupted h fails
  disableReordering h := (C.disableReordering h).interrupted h fails
  dump h _ hnode := (C.dump h hnode).interrupted h fails

/-! ### The reference engine -/

namespace Reference

def Counts (s : State) (refs : Multiset NodeRef) : Prop := s.live = refs.card

variable {s : State} {refs : Multiset NodeRef}

theorem Counts.handsOut (h : Counts s refs) (build : Table → Nat × Table) :
    (handOut build).Hands Counts s refs := by
  refine .of_ok rfl ?_
  simpa [Counts] using h

theorem Counts.release {node : NodeRef} (h : Counts s (node ::ₘ refs)) : Counts s.release refs := by
  rw [Counts, Multiset.card_cons] at h
  rw [Counts, State.release, h, Nat.add_sub_cancel]

theorem Counts.var (h : Counts s refs) (v : Nat) : (var v).Hands Counts s refs := by
  have hvar : (Reference.var v).run s = if v < s.table.order.length then
      (handOut fun t => t.make (s.table.order.idxOf v) 0 1).run s
    else (.error (.engine shortName ("variable " ++ Numeral.text v ++ " was never declared")), s) :=
    rfl
  split at hvar
  · exact ⟨fun hrun => (h.handsOut _).ok (hvar.symm.trans hrun),
      fun hrun => (h.handsOut _).error (hvar.symm.trans hrun)⟩
  · exact .of_error hvar h

theorem Counts.apply (h : Counts s refs) (op : BinaryOp) (lhs rhs : NodeRef)
    (limit : Option Duration) : (apply op lhs rhs limit).Hands Counts s refs := by
  let counted : State := { s with applications := s.applications + 1 }
  let waited : State := { counted with clock := s.clock + s.delay + ⟨1⟩ }
  have hrun : (Reference.apply op lhs rhs limit).run s =
      if s.failing = some (s.applications + 1) then
        (.error (.timeout (limit.getD .zero) (limit.getD .zero)), counted)
      else (handOut fun t => t.apply op lhs.number rhs.number).run waited := rfl
  split at hrun
  · exact .of_error hrun h
  · have hwaited : Counts waited refs := h
    have hhands := hwaited.handsOut fun t => t.apply op lhs.number rhs.number
    exact ⟨fun h' => hhands.ok (hrun.symm.trans h'), fun h' => hhands.error (hrun.symm.trans h')⟩

theorem Counts.declare (h : Counts s refs) (count : Nat) :
    (declare count).Keeps Counts s refs := by
  rw [Reference.declare]
  split
  · exact .of_error (Action.run_fail _ s) h
  · split
    · exact .of_error (Action.run_fail _ s) h
    · exact .of_ok (Action.run_change _ s) h

theorem Counts.setOrder (h : Counts s refs) (order : List Nat) :
    (setOrder order).Keeps Counts s refs := by
  refine .of_state ?_
  rw [Action.run, Reference.setOrder]
  split
  · exact h
  · split <;> exact h

def custody : engine.Custody where
  holds := Counts
  zero h := h.handsOut fun t => (0, t)
  one h := h.handsOut fun t => (1, t)
  var h v := h.var v
  negatedVar h v := hands_negateConsuming (h.var v) (fun h _ => h.handsOut _) Counts.release
  negate h node _ := h.handsOut fun t => t.negate node.number
  apply h op lhs rhs _ _ limit := h.apply op lhs rhs limit
  release h := h.release
  declare h count := h.declare count
  setOrder h order _ := h.setOrder order
  enableReordering h _ := .of_state h
  disableReordering h := .of_state h
  dump h _ _ := .of_state h

end Reference

/-! ### References and handles -/

/-- Let any tasks be done one after the other, beginning without handles, and then a formula be
compiled. Whatever the engine is and whatever fails, every reference was handed out as often as it
was released and as there are handles on it, where the compilation adds its diagram and a failed one
nothing; keeping the tally changes neither the handles nor the engine. On the reference engine the
number of live references is that of handles, also if any of its operations are made to fail. -/
theorem references_are_handles (e : Engine σ) (own : Bool) (start : σ) (bound : Option Duration)
    (failing : Option Nat) (delay : Duration) (fails : Nat → Option Failure) :
    Manager.Accounts ⟨e.tallied.negatingVars own, bound⟩ (start, []) (fun s refs => ∀ node,
      s.2.count (.handedOut node) = s.2.count (.released node) + refs.count node) ∧
    (∀ tasks, Task.runAll ⟨e.negatingVars own, bound⟩ tasks .empty start =
      Prod.map id Prod.fst
        (Task.runAll ⟨e.tallied.negatingVars own, bound⟩ tasks .empty (start, []))) ∧
    Manager.Accounts (Reference.manager bound) (.fresh failing delay)
      (fun s refs => s.live = refs.card) ∧
    Manager.Accounts ⟨(Reference.engine.interrupted fails).negatingVars own, bound⟩
      (.fresh failing delay, 0) (fun s refs => s.1.live = refs.card) := by
  have htally : Tallied.Balances (start, []) 0 := fun node => by simp
  have hlive : Reference.Counts (.fresh failing delay) 0 := rfl
  have hprojects : Manager.Projects Prod.fst ⟨e.tallied.negatingVars own, bound⟩
      ⟨e.negatingVars own, bound⟩ := ⟨e.projects_tallied.negatingVars own, rfl⟩
  exact ⟨Manager.accounts ⟨_, bound⟩ (e.talliedCustody.negatingVars own) htally,
    fun tasks => hprojects.runAll tasks .empty (start, []),
    Manager.accounts ⟨_, bound⟩ Reference.custody hlive,
    Manager.accounts ⟨_, bound⟩ ((Reference.custody.interrupted fails).negatingVars own) hlive⟩

end DiagramCompiler
