import DiagramCompiler.Compilation
import DiagramCompiler.Proofs.EngineContracts

/-! Records of operations.
A recorded engine does what the engine does and writes down each operation that it is asked for and
how it failed, if it did; a binary operation that comes too late for its limit counts as timed out.
What a manager does with one clause is a list of operations that are performed one after the other
until one fails. -/
namespace DiagramCompiler

/-- What an engine is asked for, without references. -/
inductive Operation where
  | zero
  | one
  | var (v : Nat)
  | negatedVar (v : Nat)
  | negate
  | apply (op : BinaryOp)
  | declare (count : Nat)
  | setOrder (order : List Nat)
  | enableReordering (algorithm : Int)
  | disableReordering
  | dump
  deriving DecidableEq, Repr

/-- An operation that was performed and how it failed, if it did. -/
structure Performed where
  operation : Operation
  failure : Option Failure
  deriving DecidableEq, Repr

abbrev Recorded (σ : Type) := σ × List Performed

def failure? {α : Type} : Except Failure α → Option Failure
  | .ok _ => none
  | .error failure => some failure

variable {σ : Type}

def Action.recorded {α : Type} (a : Action σ α) (operation : Operation) : Action (Recorded σ) α :=
  fun (s, log) =>
    match a s with
    | (answer, s) => (answer, s, log ++ [⟨operation, failure? answer⟩])

namespace Engine

/-- How a binary operation that led from one state to another one failed, if it did. One that took
longer than its limit timed out. -/
def applyFailure? (e : Engine σ) (limit : Option Duration) (s s' : σ) :
    Except Failure NodeRef → Option Failure
  | .error failure => some failure
  | .ok _ =>
    match limit with
    | none => none
    | some bound =>
      if bound < e.now s' - e.now s then some (.timeout (e.now s' - e.now s) bound) else none

def recorded (e : Engine σ) : Engine (Recorded σ) where
  name := e.name
  stub := e.stub
  capabilities := e.capabilities
  zero := e.zero.recorded .zero
  one := e.one.recorded .one
  var v := (e.var v).recorded (.var v)
  negatedVar v := (e.negatedVar v).recorded (.negatedVar v)
  negate node := (e.negate node).recorded .negate
  apply op lhs rhs limit := fun (s, log) =>
    match e.apply op lhs rhs limit s with
    | (answer, s') => (answer, s', log ++ [⟨.apply op, e.applyFailure? limit s s' answer⟩])
  release node := Prod.map (e.release node) id
  declare count := (e.declare count).recorded (.declare count)
  setOrder order := (e.setOrder order).recorded (.setOrder order)
  enableReordering algorithm := (e.enableReordering algorithm).recorded (.enableReordering algorithm)
  disableReordering := e.disableReordering.recorded .disableReordering
  dump node := (e.dump node).recorded .dump
  now s := e.now s.1

end Engine

/-- The manager with a record of what its engine is asked for. -/
def Manager.recorded (m : Manager σ) : Manager (Recorded σ) := ⟨m.engine.recorded, m.bound⟩

/-- Whether a recorded action does what an action does and adds some operations to the record. -/
def Records {α : Type} (a' : Action (Recorded σ) α) (a : Action σ α) (s : σ)
    (log : List Performed) : Prop :=
  ∀ before, a'.run (s, before) = ((a.run s).1, (a.run s).2, before ++ log)

/-- Whether a record is that of operations performed one after the other, of which the last one
failed if there is a failure. -/
inductive WorksOff : List Operation → List Performed → Option Failure → Prop
  | done : WorksOff [] [] none
  | succeed (operation : Operation) {operations : List Operation} {log : List Performed}
      {failure : Option Failure} (h : WorksOff operations log failure) :
      WorksOff (operation :: operations) (⟨operation, none⟩ :: log) failure
  | fail (operation : Operation) (operations : List Operation) (failure : Failure) :
      WorksOff (operation :: operations) [⟨operation, some failure⟩] (some failure)

namespace WorksOff

variable {operations operations' : List Operation} {log log' : List Performed}
  {outcome : Option Failure} {failure : Failure}

theorem single (operation : Operation) (outcome : Option Failure) :
    WorksOff [operation] [⟨operation, outcome⟩] outcome := by
  cases outcome with
  | none => exact .succeed operation .done
  | some failure => exact .fail operation [] failure

theorem append (h : WorksOff operations log none) (h' : WorksOff operations' log' outcome) :
    WorksOff (operations ++ operations') (log ++ log') outcome := by
  generalize hnone : (none : Option Failure) = first at h
  induction h with
  | done => exact h'
  | succeed operation _ ih => exact .succeed operation (ih hnone)
  | fail => exact absurd hnone (by simp)

theorem append_of_some (h : WorksOff operations log (some failure))
    (operations' : List Operation) : WorksOff (operations ++ operations') log (some failure) := by
  generalize hsome : some failure = first at h
  induction h with
  | done => exact absurd hsome (by simp)
  | succeed operation _ ih => exact .succeed operation (ih hsome)
  | fail operation operations failure => exact .fail operation _ failure

theorem exists_failed_iff (h : WorksOff operations log outcome) :
    (∃ p ∈ log, p.failure = some failure) ↔ outcome = some failure := by
  induction h with
  | done => simp
  | succeed operation _ ih => simpa using ih
  | fail => simp

end WorksOff

namespace Records

variable {α β : Type} {a' : Action (Recorded σ) α} {a : Action σ α} {s s' : σ}
  {log log' : List Performed} {next' : α → Action (Recorded σ) β} {next : α → Action σ β}

theorem of_recorded (a : Action σ α) (operation : Operation) (s : σ) :
    Records (a.recorded operation) a s [⟨operation, failure? (a.run s).1⟩] := fun _ => rfl

theorem bind_of_ok (h : Records a' a s log) {value : α} (hok : a.run s = (.ok value, s'))
    (hnext : Records (next' value) (next value) s' log') :
    Records (a' >>= next') (a >>= next) s (log ++ log') := by
  intro before
  rw [Action.run_bind, h before, Action.run_bind_of_ok hok, hok, ← List.append_assoc]
  exact hnext _

theorem bind_of_error (h : Records a' a s log) {failure : Failure}
    (herror : a.run s = (.error failure, s')) (next' : α → Action (Recorded σ) β)
    (next : α → Action σ β) : Records (a' >>= next') (a >>= next) s log := by
  intro before
  rw [Action.run_bind, h before, Action.run_bind_of_error herror, herror]

theorem ensuring (h : Records a' a s log) {after' : Recorded σ → Recorded σ} {after : σ → σ}
    (hafter : after' = Prod.map after id) :
    Records (a'.ensuring after') (a.ensuring after) s log := by
  intro before
  rw [Action.run_ensuring, h before, hafter]
  rfl

theorem attempt (h : Records a' a s log) : Records a'.attempt a.attempt s log := by
  intro before
  rw [Action.run_attempt, h before]
  rfl

end Records

namespace Manager

/-- The values of an engine's variables that values of a formula's variables come to. -/
def values (m : Manager σ) (assignment : Nat → Bool) (v : Nat) : Bool :=
  assignment (if m.capabilities.zeroBased then v + 1 else v)

theorem values_engineVar (m : Manager σ) (assignment : Nat → Bool) {v : Nat} (h : 1 ≤ v) :
    m.values assignment (m.engineVar v) = assignment v := by
  rw [values, engineVar]
  split
  · rw [Nat.sub_add_cancel h]
  · rfl

/-- What references stand for as functions of the variables of formulas. -/
def semantics (m : Manager σ) (C : m.engine.Contract) : Semantics σ where
  meaning s node assignment := C.meaning s node (m.values assignment)
  holds := C.holds

end Manager

/-- Whether one more reference is held, which stands for a function. -/
def Semantics.Hands (M : Semantics σ) (refs : Multiset NodeRef) (f : (Nat → Bool) → Bool)
    (node : NodeRef) (s : σ) : Prop :=
  M.holds s (node ::ₘ refs) ∧ M.meaning s node = f

/-- Whether a recorded action and the action without the record work off some operations in the same
way. All that is held goes on standing for the same, and unless an operation fails, something is
true of the value and the state after it. -/
structure Semantics.Does {α : Type} (M : Semantics σ) (a' : Action (Recorded σ) α) (a : Action σ α)
    (s : σ) (refs : Multiset NodeRef) (operations : List Operation) (post : α → σ → Prop) :
    Prop where
  agrees : M.Agrees refs s (a.run s).2
  ok {value : α} (h : (a.run s).1 = .ok value) : post value (a.run s).2
  error {failure : Failure} (h : (a.run s).1 = .error failure) : M.holds (a.run s).2 refs
  records : ∃ log, Records a' a s log ∧ WorksOff operations log (failure? (a.run s).1)

namespace Semantics.Does

variable {α β : Type} {M : Semantics σ} {a : Action σ α} {a' : Action (Recorded σ) α} {s s' : σ}
  {refs : Multiset NodeRef} {operation : Operation} {operations operations' : List Operation}
  {post : α → σ → Prop} {post' : β → σ → Prop}

theorem of_run_ok {value : α} {log : List Performed} (hrun : a.run s = (.ok value, s'))
    (hrecords : Records a' a s log) (hworks : WorksOff operations log none)
    (hagrees : M.Agrees refs s s') (hpost : post value s') :
    M.Does a' a s refs operations post := by
  refine ⟨?_, fun hok => ?_, fun herror => ?_, log, hrecords, ?_⟩
  · rwa [hrun]
  · rw [hrun] at hok ⊢
    exact Except.ok.inj hok ▸ hpost
  · rw [hrun] at herror
    exact absurd herror (by simp)
  · rwa [hrun]

theorem of_run_error {failure : Failure} {log : List Performed}
    (hrun : a.run s = (.error failure, s')) (hrecords : Records a' a s log)
    (hworks : WorksOff operations log (some failure)) (hstays : M.Stays s refs s') :
    M.Does a' a s refs operations post := by
  refine ⟨?_, fun hok => ?_, fun _ => ?_, log, hrecords, ?_⟩
  · rw [hrun]
    exact hstays.agrees
  · rw [hrun] at hok
    exact absurd hok (by simp)
  · rw [hrun]
    exact hstays.holds
  · rwa [hrun]

theorem pure {value : α} (hpost : post value s) :
    M.Does (Pure.pure value) (Pure.pure value) s refs [] post :=
  of_run_ok rfl (fun before => by rw [List.append_nil]; rfl) .done (fun _ _ => rfl) hpost

theorem cases (h : M.Does a' a s refs operations post) :
    (∃ failure s' log, a.run s = (.error failure, s') ∧ Records a' a s log ∧
      WorksOff operations log (some failure) ∧ M.Stays s refs s') ∨
    ∃ value s' log, a.run s = (.ok value, s') ∧ Records a' a s log ∧ WorksOff operations log none ∧
      M.Agrees refs s s' ∧ post value s' := by
  obtain ⟨log, hrecords, hworks⟩ := h.records
  have hagrees := h.agrees
  rcases hrun : a.run s with ⟨failure | value, s'⟩
  · have hholds := h.error (congrArg Prod.fst hrun)
    rw [hrun] at hworks hagrees hholds
    exact .inl ⟨failure, s', log, rfl, hrecords, hworks, hagrees, hholds⟩
  · have hpost := h.ok (congrArg Prod.fst hrun)
    rw [hrun] at hworks hagrees hpost
    exact .inr ⟨value, s', log, rfl, hrecords, hworks, hagrees, hpost⟩

theorem bind {next : α → Action σ β} {next' : α → Action (Recorded σ) β}
    (h : M.Does a' a s refs operations post)
    (hnext : ∀ value s', M.Agrees refs s s' → post value s' →
      M.Does (next' value) (next value) s' refs operations' post') :
    M.Does (a' >>= next') (a >>= next) s refs (operations ++ operations') post' := by
  rcases h.cases with ⟨failure, s', log, hrun, hrecords, hworks, hstays⟩ |
    ⟨value, s', log, hrun, hrecords, hworks, hagrees, hpost⟩
  · exact of_run_error (Action.run_bind_of_error hrun next)
      (hrecords.bind_of_error hrun next' next) (hworks.append_of_some operations') hstays
  · have hbind := Action.run_bind_of_ok hrun next
    rcases (hnext value s' hagrees hpost).cases with
      ⟨failure, s'', log', hrun', hrecords', hworks', hstays⟩ |
      ⟨result, s'', log', hrun', hrecords', hworks', hagrees', hpost'⟩
    · exact of_run_error (hbind.trans hrun') (hrecords.bind_of_ok hrun hrecords')
        (hworks.append hworks') ⟨hagrees.trans hstays.agrees, hstays.holds⟩
    · exact of_run_ok (hbind.trans hrun') (hrecords.bind_of_ok hrun hrecords')
        (hworks.append hworks') (hagrees.trans hagrees') hpost'

end Semantics.Does

namespace Manager

variable {m : Manager σ} {C : m.engine.Contract} {s : σ} {refs : Multiset NodeRef}
  {a : Action σ NodeRef} {a' : Action (Recorded σ) NodeRef} {f g : (Nat → Bool) → Bool}
  {operations operations' : List Operation}

theorem semantics_agrees {s' : σ} (h : C.Agrees refs s s') : (m.semantics C).Agrees refs s s' :=
  fun node hnode => funext fun _ => congrFun (h node hnode) _

theorem semantics_stays {s' : σ} (h : C.Stays s refs s') : (m.semantics C).Stays s refs s' :=
  ⟨semantics_agrees h.agrees, h.holds⟩

theorem does_of_recorded (h : C.Gives a s refs f)
    (hf : ∀ assignment, f (m.values assignment) = g assignment) (operation : Operation) :
    (m.semantics C).Does (a.recorded operation) a s refs [operation]
      ((m.semantics C).Hands refs g) where
  agrees := semantics_agrees h.agrees
  ok hok := ⟨(h.ok hok).1, funext fun assignment =>
    (congrFun (h.ok hok).2 _).trans (hf assignment)⟩
  error := h.error
  records := ⟨_, .of_recorded a operation s, .single operation _⟩

theorem stays_release {node : NodeRef} (h : C.holds s (node ::ₘ refs)) :
    (m.semantics C).Stays s refs (m.release node s) := semantics_stays (C.release h)

theorem does_release {node : NodeRef}
    (h : (m.semantics C).Does a' a s (node ::ₘ refs) operations
      ((m.semantics C).Hands (node ::ₘ refs) f)) :
    (m.semantics C).Does (a'.ensuring (m.recorded.release node)) (a.ensuring (m.release node)) s refs
      operations ((m.semantics C).Hands refs f) := by
  rcases h.cases with ⟨failure, s', log, hrun, hrecords, hworks, hstays⟩ |
    ⟨value, s', log, hrun, hrecords, hworks, hagrees, hholds, hmeaning⟩
  · have hreleased := stays_release (m := m) hstays.holds
    have hrun' : (a.ensuring (m.release node)).run s = (.error failure, m.release node s') := by
      rw [Action.run_ensuring, hrun]
    exact .of_run_error hrun' (hrecords.ensuring rfl) hworks
      ⟨hstays.agrees.of_cons.trans hreleased.agrees, hreleased.holds⟩
  · rw [Multiset.cons_swap] at hholds
    have hreleased := stays_release (m := m) hholds
    have hrun' : (a.ensuring (m.release node)).run s = (.ok value, m.release node s') := by
      rw [Action.run_ensuring, hrun]
    exact .of_run_ok hrun' (hrecords.ensuring rfl) hworks
      (hagrees.of_cons.trans hreleased.agrees.of_cons)
      ⟨hreleased.holds, (hreleased.agrees _ (Multiset.mem_cons_self _ _)).trans hmeaning⟩

/-- Going on with a reference, or giving back another one if there is none. -/
theorem does_attempt {node : NodeRef} {next : NodeRef → Action σ NodeRef}
    {next' : NodeRef → Action (Recorded σ) NodeRef} {post : NodeRef → σ → Prop}
    (h : (m.semantics C).Does a' a s (node ::ₘ refs) operations
      ((m.semantics C).Hands (node ::ₘ refs) f))
    (hnext : ∀ other s', (m.semantics C).Agrees (node ::ₘ refs) s s' →
      (m.semantics C).Hands (node ::ₘ refs) f other s' →
      (m.semantics C).Does (next' other) (next other) s' refs operations' post) :
    (m.semantics C).Does
      (a'.attempt >>= fun
        | .error failure => (Action.fail failure).ensuring (m.recorded.release node)
        | .ok other => next' other)
      (a.attempt >>= fun
        | .error failure => (Action.fail failure).ensuring (m.release node)
        | .ok other => next other)
      s refs (operations ++ operations') post := by
  rcases h.cases with ⟨failure, s', log, hrun, hrecords, hworks, hstays⟩ |
    ⟨other, s', log, hrun, hrecords, hworks, hagrees, hhands⟩
  · have hattempt : a.attempt.run s = (.ok (.error failure), s') := by
      rw [Action.run_attempt, hrun]
    have hreleased := stays_release (m := m) hstays.holds
    have hgiven : Records ((Action.fail failure).ensuring (m.recorded.release node))
        ((Action.fail failure : Action σ NodeRef).ensuring (m.release node)) s' [] :=
      fun before => by rw [List.append_nil]; rfl
    refine .of_run_error (Action.run_bind_of_ok hattempt _)
      (hrecords.attempt.bind_of_ok hattempt hgiven) ?_
      ⟨hstays.agrees.of_cons.trans hreleased.agrees, hreleased.holds⟩
    rw [List.append_nil]
    exact hworks.append_of_some operations'
  · have hattempt : a.attempt.run s = (.ok (.ok other), s') := by rw [Action.run_attempt, hrun]
    have hbind := Action.run_bind_of_ok hattempt fun
      | .error failure => (Action.fail failure).ensuring (m.release node)
      | .ok other => next other
    rcases (hnext other s' hagrees hhands).cases with
      ⟨failure, s'', log', hrun', hrecords', hworks', hstays⟩ |
      ⟨result, s'', log', hrun', hrecords', hworks', hagrees', hpost⟩
    · exact .of_run_error (hbind.trans hrun') (hrecords.attempt.bind_of_ok hattempt hrecords')
        (hworks.append hworks') ⟨hagrees.of_cons.trans hstays.agrees, hstays.holds⟩
    · exact .of_run_ok (hbind.trans hrun') (hrecords.attempt.bind_of_ok hattempt hrecords')
        (hworks.append hworks') (hagrees.of_cons.trans hagrees') hpost

def literalOperations (m : Manager σ) (l : Literal) : List Operation :=
  if !l.isNegated then [.var (m.engineVar l.var)]
  else
    match m.capabilities.negation with
    | .complementEdge => [.var (m.engineVar l.var), .negate]
    | .rebuild => [.negatedVar (m.engineVar l.var)]

theorem literal_of_pos (m : Manager σ) {l : Literal} (hl : 1 ≤ l.var) :
    m.literal l =
      if !l.isNegated then m.engine.var (m.engineVar l.var)
      else
        match m.capabilities.negation with
        | .complementEdge => negateConsuming (m.engine.var (m.engineVar l.var)) m.negate m.release
        | .rebuild => m.engine.negatedVar (m.engineVar l.var) :=
  if_neg fun h => Nat.not_le_of_lt hl (Nat.le_of_eq h.2)

theorem literal_does (hs : C.holds s refs) {l : Literal} (hl : 1 ≤ l.var) :
    (m.semantics C).Does (m.recorded.literal l) (m.literal l) s refs (m.literalOperations l)
      ((m.semantics C).Hands refs l.eval) := by
  have hvar (assignment : Nat → Bool) : m.values assignment (m.engineVar l.var) = assignment l.var :=
    m.values_engineVar assignment hl
  have hpositive := does_of_recorded (g := fun assignment => assignment l.var)
    (C.var hs (m.engineVar l.var)) hvar (.var (m.engineVar l.var))
  rw [literal_of_pos m hl, literal_of_pos m.recorded hl, literalOperations]
  by_cases hneg : l.isNegated = true
  · have heval : l.eval = fun assignment => !assignment l.var := by
      funext assignment
      simp [Literal.eval, Literal.holdsAt, hneg]
    have hkind : m.recorded.capabilities.negation = m.capabilities.negation := rfl
    rw [hneg, hkind, heval]
    cases m.capabilities.negation with
    | rebuild =>
      exact does_of_recorded (C.negatedVar hs _) (fun assignment => congrArg not (hvar assignment)) _
    | complementEdge =>
      refine hpositive.bind fun node s' _ hhands => does_release ?_
      refine does_of_recorded (C.negate hhands.1 (Multiset.mem_cons_self _ _)) (fun assignment => ?_) _
      exact congrArg not (congrFun hhands.2 assignment)
  · have heval : l.eval = fun assignment => assignment l.var := by
      funext assignment
      simp [Literal.eval, Literal.holdsAt, hneg]
    rw [Bool.not_eq_true] at hneg
    rw [hneg, heval]
    exact hpositive

section ApplyRetaining

variable {op : BinaryOp} {lhs rhs node : NodeRef} {s' : σ} {failure : Failure}

theorem run_applyRetaining_of_error
    (h : (m.engine.apply op lhs rhs m.bound).run s = (.error failure, s')) :
    (m.applyRetaining op lhs rhs).run s = (.error failure, s') := by
  rw [applyRetaining, Action.run_bind_of_ok (Action.run_reading _ _), Action.run_bind_of_error h]

theorem run_applyRetaining_of_ok
    (h : (m.engine.apply op lhs rhs m.bound).run s = (.ok node, s')) :
    (m.applyRetaining op lhs rhs).run s =
      match m.engine.applyFailure? m.bound s s' (.ok node) with
      | none => (.ok node, s')
      | some failure => (.error failure, m.release node s') := by
  rw [applyRetaining, Action.run_bind_of_ok (Action.run_reading _ _), Action.run_bind_of_ok h,
    Action.run_bind_of_ok (Action.run_reading _ _)]
  cases hbound : m.bound with
  | none => rfl
  | some bound =>
    simp only [Engine.applyFailure?]
    split <;> rfl

theorem run_recorded_apply {answer : Except Failure NodeRef}
    (h : (m.engine.apply op lhs rhs m.bound).run s = (answer, s')) (before : List Performed) :
    (m.recorded.engine.apply op lhs rhs m.recorded.bound).run (s, before) =
      (answer, s', before ++ [⟨.apply op, m.engine.applyFailure? m.bound s s' answer⟩]) := by
  show (match (m.engine.apply op lhs rhs m.bound).run s with
    | (answer, s') => (answer, s', before ++
      [(⟨.apply op, m.engine.applyFailure? m.bound s s' answer⟩ : Performed)])) = _
  rw [h]

def combined (m : Manager σ) (C : m.engine.Contract) (s : σ) (op : BinaryOp) (lhs rhs : NodeRef)
    (assignment : Nat → Bool) : Bool :=
  op.eval ((m.semantics C).meaning s lhs assignment) ((m.semantics C).meaning s rhs assignment)

theorem applyRetaining_does (hs : C.holds s refs) (op : BinaryOp) (hlhs : lhs ∈ refs)
    (hrhs : rhs ∈ refs) :
    (m.semantics C).Does (m.recorded.applyRetaining op lhs rhs) (m.applyRetaining op lhs rhs) s refs
      [.apply op] ((m.semantics C).Hands refs (m.combined C s op lhs rhs)) := by
  have hgives := C.apply hs op hlhs hrhs m.bound
  rcases happly : (m.engine.apply op lhs rhs m.bound).run s with ⟨answer, s'⟩
  have happly' := run_recorded_apply happly
  have hagrees := semantics_agrees (m := m) hgives.agrees
  rw [happly] at hagrees
  cases answer with
  | error failure =>
    have hholds := hgives.error (congrArg Prod.fst happly)
    have hrun := run_applyRetaining_of_error happly
    rw [happly] at hholds
    refine .of_run_error hrun (fun before => ?_) (.single _ _) ⟨hagrees, hholds⟩
    rw [run_applyRetaining_of_error (happly' before), hrun]
    rfl
  | ok node =>
    obtain ⟨hholds, hmeaning⟩ := hgives.ok (congrArg Prod.fst happly)
    rw [happly] at hholds hmeaning
    have hrun := run_applyRetaining_of_ok happly
    have hrun' (before : List Performed) :=
      run_applyRetaining_of_ok (m := m.recorded) (happly' before)
    have hlate (before : List Performed) :
        m.recorded.engine.applyFailure? m.recorded.bound (s, before) (s', before ++
          [⟨.apply op, m.engine.applyFailure? m.bound s s' (.ok node)⟩]) (.ok node) =
        m.engine.applyFailure? m.bound s s' (.ok node) := rfl
    simp only [hlate] at hrun'
    cases hfailure : m.engine.applyFailure? m.bound s s' (.ok node) with
    | none =>
      simp only [hfailure] at hrun hrun'
      refine .of_run_ok hrun (fun before => ?_) (.single _ _) hagrees ⟨hholds, ?_⟩
      · rw [hrun', hrun]
      · exact funext fun assignment => congrFun hmeaning _
    | some failure =>
      simp only [hfailure] at hrun hrun'
      have hstays := stays_release (m := m) hholds
      refine .of_run_error hrun (fun before => ?_) (.single _ _)
        ⟨hagrees.trans hstays.agrees, hstays.holds⟩
      rw [hrun', hrun]
      rfl

end ApplyRetaining

theorem apply_does (op : BinaryOp) {lhs rhs : NodeRef} (hs : C.holds s (lhs ::ₘ rhs ::ₘ refs)) :
    (m.semantics C).Does (m.recorded.apply op lhs rhs) (m.apply op lhs rhs) s refs [.apply op]
      ((m.semantics C).Hands refs (m.combined C s op lhs rhs)) := by
  have hrhs : rhs ∈ lhs ::ₘ rhs ::ₘ refs :=
    Multiset.mem_cons_of_mem (Multiset.mem_cons_self _ _)
  have h := applyRetaining_does hs op (Multiset.mem_cons_self _ _) hrhs
  rw [Multiset.cons_swap] at h
  exact does_release (does_release h)

end Manager
end DiagramCompiler
