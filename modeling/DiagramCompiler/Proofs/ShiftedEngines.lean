import DiagramCompiler.Proofs.ShiftedTables
import DiagramCompiler.Workbench

/-! Engines with shifted variables.
Two engines that do the same, of which one counts its variables from 0 and the other from 1, are
told apart by the variables that they are given and by those that they write. A manager gives the
one what comes before a variable of a formula and the other the variable itself, and takes them back
in the same way, so that whoever works with the managers has the same answers from both. -/
namespace DiagramCompiler

variable {σ τ α β α' β' : Type} {R : σ → τ → Prop}

namespace Action

/-- Whether two actions have values that are related or the same failure, with states after them
that are related. -/
inductive Beside (R : σ → τ → Prop) (related : α → α' → Prop) (a : Action σ α) (a' : Action τ α')
    (s : σ) (t : τ) : Prop
  | ok {value : α} {value' : α'} {s' : σ} {t' : τ} (hrun : a.run s = (.ok value, s'))
      (hrun' : a'.run t = (.ok value', t')) (hvalue : related value value') (h : R s' t') :
      Beside R related a a' s t
  | error {failure : Failure} {s' : σ} {t' : τ} (hrun : a.run s = (.error failure, s'))
      (hrun' : a'.run t = (.error failure, t')) (h : R s' t') : Beside R related a a' s t

def Mirrors (R : σ → τ → Prop) (related : α → α' → Prop) (a : Action σ α) (a' : Action τ α') :
    Prop :=
  ∀ ⦃s t⦄, R s t → Beside R related a a' s t

namespace Mirrors

variable {related : α → α' → Prop} {a : Action σ α} {a' : Action τ α'}

theorem pure {value : α} {value' : α'} (h : related value value') :
    Mirrors R related (Pure.pure value) (Pure.pure value') := fun _ _ hst => .ok rfl rfl h hst

theorem fail (failure : Failure) :
    Mirrors R related (Action.fail failure) (Action.fail failure) :=
  fun _ _ hst => .error rfl rfl hst

theorem ofExcept (answer : Except Failure α) :
    Mirrors R Eq (Action.ofExcept answer) (Action.ofExcept answer) := fun _ _ hst => by
  cases answer with
  | ok value => exact .ok rfl rfl rfl hst
  | error failure => exact .error rfl rfl hst

theorem reading {read : σ → α} {read' : τ → α'}
    (h : ∀ ⦃s t⦄, R s t → related (read s) (read' t)) :
    Mirrors R related (Action.reading read) (Action.reading read') :=
  fun _ _ hst => .ok rfl rfl (h hst) hst

theorem change {after : σ → σ} {after' : τ → τ} (h : ∀ ⦃s t⦄, R s t → R (after s) (after' t)) :
    Mirrors R Eq (Action.change after) (Action.change after') :=
  fun _ _ hst => .ok rfl rfl rfl (h hst)

theorem bind {next : α → Action σ β} {next' : α' → Action τ β'} {ends : β → β' → Prop}
    (h : Mirrors R related a a')
    (hnext : ∀ ⦃value value'⦄, related value value' → Mirrors R ends (next value) (next' value')) :
    Mirrors R ends (a >>= next) (a' >>= next') := by
  intro s t hst
  cases h hst with
  | ok hrun hrun' hvalue hbetween =>
    have hfirst := run_bind_of_ok hrun next
    have hfirst' := run_bind_of_ok hrun' next'
    cases hnext hvalue hbetween with
    | ok hrest hrest' hvalue hend =>
      exact .ok (hfirst.trans hrest) (hfirst'.trans hrest') hvalue hend
    | error hrest hrest' hend => exact .error (hfirst.trans hrest) (hfirst'.trans hrest') hend
  | error hrun hrun' hbetween =>
    exact .error (run_bind_of_error hrun next) (run_bind_of_error hrun' next') hbetween

theorem ensuring {after : σ → σ} {after' : τ → τ} (h : Mirrors R related a a')
    (hafter : ∀ ⦃s t⦄, R s t → R (after s) (after' t)) :
    Mirrors R related (a.ensuring after) (a'.ensuring after') := by
  intro s t hst
  cases h hst with
  | ok hrun hrun' hvalue hbetween =>
    exact .ok (by rw [run_ensuring, hrun]) (by rw [run_ensuring, hrun']) hvalue (hafter hbetween)
  | error hrun hrun' hbetween =>
    exact .error (by rw [run_ensuring, hrun]) (by rw [run_ensuring, hrun']) (hafter hbetween)

theorem ite {condition : Prop} [Decidable condition] {b : Action σ α} {b' : Action τ α'}
    (h : Mirrors R related a a') (h' : Mirrors R related b b') :
    Mirrors R related (if condition then a else b) (if condition then a' else b') := by
  split
  · exact h
  · exact h'

theorem negateConsuming {diagram : Action σ NodeRef} {diagram' : Action τ NodeRef}
    {negate : NodeRef → Action σ NodeRef} {negate' : NodeRef → Action τ NodeRef}
    {release : NodeRef → σ → σ} {release' : NodeRef → τ → τ}
    (hdiagram : Mirrors R Eq diagram diagram')
    (hnegate : ∀ node, Mirrors R Eq (negate node) (negate' node))
    (hrelease : ∀ node ⦃s t⦄, R s t → R (release node s) (release' node t)) :
    Mirrors R Eq (negateConsuming diagram negate release)
      (negateConsuming diagram' negate' release') :=
  .bind hdiagram fun positive _ heq => heq ▸ .ensuring (hnegate positive) (hrelease positive)

end Mirrors

end Action

open DiagramCompiler.Action (Mirrors)

/-- Variables of formulas are the magnitudes of literals, which have 31 bits. -/
def varBound : Nat := 2147483648

/-- Whether two engines, one that counts its variables from 0 and one that counts them from 1, do
the same while their states are related. Variables that the second one is given and writes are one
higher than those of the first one. -/
structure Engine.Shifts (R : σ → τ → Prop) (e : Engine σ) (e' : Engine τ) : Prop where
  name : e'.name = e.name
  stub : e'.stub = e.stub
  zeroBased : e.capabilities.zeroBased = true
  capabilities : e'.capabilities = { e.capabilities with zeroBased := false }
  zero : Mirrors R Eq e.zero e'.zero
  one : Mirrors R Eq e.one e'.one
  var {v : Nat} (hv : v + 1 < varBound) : Mirrors R Eq (e.var v) (e'.var (v + 1))
  negatedVar {v : Nat} (hv : v + 1 < varBound) :
    Mirrors R Eq (e.negatedVar v) (e'.negatedVar (v + 1))
  negate (node : NodeRef) : Mirrors R Eq (e.negate node) (e'.negate node)
  apply (op : BinaryOp) (lhs rhs : NodeRef) (limit : Option Duration) :
    Mirrors R Eq (e.apply op lhs rhs limit) (e'.apply op lhs rhs limit)
  release (node : NodeRef) ⦃s : σ⦄ ⦃t : τ⦄ (h : R s t) : R (e.release node s) (e'.release node t)
  declare (count : Nat) : Mirrors R Eq (e.declare count) (e'.declare count)
  setOrder {order : List Nat} (horder : ∀ v ∈ order, v + 1 < varBound) :
    Mirrors R Eq (e.setOrder order) (e'.setOrder (order.map (· + 1)))
  enableReordering (algorithm : Int) :
    Mirrors R Eq (e.enableReordering algorithm) (e'.enableReordering algorithm)
  disableReordering : Mirrors R Eq e.disableReordering e'.disableReordering
  dump (node : NodeRef) : Mirrors R NativeDump.Shifts (e.dump node) (e'.dump node)
  now ⦃s : σ⦄ ⦃t : τ⦄ (h : R s t) : e'.now t = e.now s

/-- Whether two managers have the same bound and engines that do the same with shifted variables. -/
structure Manager.Shifts (R : σ → τ → Prop) (m : Manager σ) (m' : Manager τ) : Prop where
  engine : m.engine.Shifts R m'.engine
  bound : m'.bound = m.bound

/-! ### Managers -/

namespace Manager.Shifts

variable {m : Manager σ} {m' : Manager τ} (h : Manager.Shifts R m m')

include h

theorem zeroBased : m.capabilities.zeroBased = true := h.engine.zeroBased

theorem capabilities : m'.capabilities = { m.capabilities with zeroBased := false } :=
  h.engine.capabilities

theorem oneBased : m'.capabilities.zeroBased = false := by rw [h.capabilities]

theorem engineVar {var : Nat} (hvar : 1 ≤ var) : m'.engineVar var = m.engineVar var + 1 := by
  rw [Manager.engineVar, Manager.engineVar, if_pos h.zeroBased, h.oneBased, if_neg (by simp)]
  omega

theorem engineVar_lt {var : Nat} (hvar : 1 ≤ var) (hlt : var < varBound) :
    m.engineVar var + 1 < varBound := by
  rw [Manager.engineVar, if_pos h.zeroBased]
  omega

theorem now : Mirrors R Eq (.reading m.engine.now) (.reading m'.engine.now) :=
  .reading fun _ _ hst => (h.engine.now hst).symm

theorem declareVars (count : Nat) : Mirrors R Eq (m.declareVars count) (m'.declareVars count) := by
  rw [Manager.declareVars, Manager.declareVars, h.capabilities]
  exact .ite (h.engine.declare count) (.pure rfl)

theorem setOrder {order : VariableOrder} (horder : ∀ v ∈ order.toList, v < varBound) :
    Mirrors R Eq (m.setOrder order) (m'.setOrder order) := by
  have hvars : order.toList.map m'.engineVar = (order.toList.map m.engineVar).map (· + 1) := by
    rw [List.map_map]
    exact List.map_congr_left fun v hv => h.engineVar (order.inRange v hv).1
  rw [Manager.setOrder, Manager.setOrder, hvars]
  refine h.engine.setOrder fun v hv => ?_
  obtain ⟨w, hw, rfl⟩ := List.mem_map.1 hv
  exact h.engineVar_lt (order.inRange w hw).1 (horder w hw)

theorem setReordering (stub : String) :
    Mirrors R Eq (m.setReordering stub) (m'.setReordering stub) := by
  have hname : m'.name = m.name := h.engine.name
  rw [Manager.setReordering, Manager.setReordering, h.capabilities, hname]
  refine .ite h.engine.disableReordering ?_
  dsimp only
  split
  · exact h.engine.enableReordering _
  · exact .fail _

theorem literal {l : Literal} (hl : 1 ≤ l.var) : Mirrors R Eq (m.literal l) (m'.literal l) := by
  have hvar : ¬ l.var = 0 := by omega
  have hlt := h.engineVar_lt hl l.var_lt
  rw [Manager.literal, Manager.literal, h.capabilities, h.engineVar hl]
  simp only [hvar, and_false, if_false]
  refine .ite (h.engine.var hlt) ?_
  split
  · exact .negateConsuming (h.engine.var hlt) h.engine.negate h.engine.release
  · exact h.engine.negatedVar hlt

theorem applyRetaining (op : BinaryOp) (lhs rhs : NodeRef) :
    Mirrors R Eq (m.applyRetaining op lhs rhs) (m'.applyRetaining op lhs rhs) := by
  rw [Manager.applyRetaining, Manager.applyRetaining, h.bound]
  refine .bind h.now fun started _ hstarted => ?_
  refine .bind (h.engine.apply op lhs rhs m.bound) fun result _ hresult => ?_
  refine .bind h.now fun ended _ hended => ?_
  subst hstarted hresult hended
  split
  · exact .pure rfl
  · exact .ite (.ensuring (.fail _) (h.engine.release result)) (.pure rfl)

theorem apply (op : BinaryOp) (lhs rhs : NodeRef) :
    Mirrors R Eq (m.apply op lhs rhs) (m'.apply op lhs rhs) :=
  .ensuring (.ensuring (h.applyRetaining op lhs rhs) (h.engine.release rhs)) (h.engine.release lhs)

theorem dump (node : NodeRef) : Mirrors R Eq (m.dump node) (m'.dump node) := by
  refine .bind (h.engine.dump node) fun native native' hnative => ?_
  rw [dumpOf_shift h.zeroBased h.oneBased h.engine.name h.engine.stub hnative]
  exact .ofExcept _

end Manager.Shifts

/-! ### Workbenches -/

/-- Whether the variables that a command names are of formulas, numbered from 1 and of 31 bits. The
magnitudes of literals have 31 bits, and no list with a zero is an order. -/
def Command.NamesFormulaVars : Command → Prop
  | .order vars => ∀ v ∈ vars, v < varBound
  | .literal l _ => 1 ≤ l.var
  | _ => True

namespace Workbench

/-- Runs commands one after the other and collects the replies. -/
def runAll (m : Manager σ) : List Command → Slots → σ → List Reply × Slots × σ
  | [], slots, s => ([], slots, s)
  | c :: cs, slots, s =>
    let out := run m c slots s
    let rest := runAll m cs out.2.1 out.2.2
    (out.1 :: rest.1, rest.2)

theorem runAll_append (m : Manager σ) (cs cs' : List Command) (slots : Slots) (s : σ) :
    runAll m (cs ++ cs') slots s =
      let out := runAll m cs slots s
      let rest := runAll m cs' out.2.1 out.2.2
      (out.1 ++ rest.1, rest.2) := by
  induction cs generalizing slots s with
  | nil => rfl
  | cons c cs ih => rw [List.cons_append, runAll, ih]; rfl

/-- Whether two outcomes are the same but for states that are related. -/
structure Beside (R : σ → τ → Prop) (out : α × Slots × σ) (out' : α × Slots × τ) : Prop where
  reply : out'.1 = out.1
  slots : out'.2.1 = out.2.1
  state : R out.2.2 out'.2.2

end Workbench

namespace Manager.Shifts

variable {m : Manager σ} {m' : Manager τ} (h : Manager.Shifts R m m') {s : σ} {t : τ}

include h

theorem storing {a : Action σ NodeRef} {a' : Action τ NodeRef} (ha : Mirrors R Eq a a')
    (into : String) (slots : Slots) (hst : R s t) :
    Workbench.Beside R (Workbench.storing m into a slots s)
      (Workbench.storing m' into a' slots t) := by
  rw [Workbench.storing, Workbench.storing]
  cases ha hst with
  | ok hrun hrun' hvalue hbetween =>
    subst hvalue
    simp only [hrun, hrun', Workbench.store]
    split
    · exact ⟨rfl, rfl, hbetween⟩
    · exact ⟨rfl, rfl, h.engine.release _ hbetween⟩
  | error hrun hrun' hbetween =>
    simp only [hrun, hrun']
    exact ⟨rfl, rfl, hbetween⟩

omit h in
theorem acting {a : Action σ Unit} {a' : Action τ Unit} (ha : Mirrors R Eq a a') (slots : Slots)
    (hst : R s t) :
    Workbench.Beside R (Workbench.acting a slots s) (Workbench.acting a' slots t) := by
  rw [Workbench.acting, Workbench.acting]
  cases ha hst with
  | ok hrun hrun' _ hbetween =>
    simp only [hrun, hrun']
    exact ⟨rfl, rfl, hbetween⟩
  | error hrun hrun' hbetween =>
    simp only [hrun, hrun']
    exact ⟨rfl, rfl, hbetween⟩

theorem run {c : Command} (hc : c.NamesFormulaVars) (slots : Slots) (hst : R s t) :
    Workbench.Beside R (Workbench.run m c slots s) (Workbench.run m' c slots t) := by
  cases c with
  | info => exact ⟨rfl, rfl, hst⟩
  | declare count => exact acting (h.declareVars count) slots hst
  | order vars =>
    simp only [Workbench.run]
    split
    · next order hlist =>
      have horder : ∀ v ∈ order.toList, v < varBound := fun v hv =>
        hc v (VariableOrder.toList_ofList? hlist ▸ hv)
      exact acting (h.setOrder horder) slots hst
    · exact ⟨rfl, rfl, hst⟩
  | reorder stub => exact acting (h.setReordering stub) slots hst
  | drop slot =>
    simp only [Workbench.run]
    split
    · exact ⟨rfl, rfl, h.engine.release _ hst⟩
    · exact ⟨rfl, rfl, hst⟩
  | zero into => exact h.storing h.engine.zero into slots hst
  | one into => exact h.storing h.engine.one into slots hst
  | literal l into => exact h.storing (h.literal hc) into slots hst
  | negate slot into =>
    simp only [Workbench.run]
    split
    · exact h.storing (h.engine.negate _) into slots hst
    · exact ⟨rfl, rfl, hst⟩
  | consume op lhs rhs into =>
    simp only [Workbench.run]
    split
    · exact h.storing (h.apply op _ _) into _ hst
    · exact ⟨rfl, rfl, hst⟩
  | retain op lhs rhs into =>
    simp only [Workbench.run]
    split
    · exact h.storing (h.applyRetaining op _ _) into slots hst
    · exact ⟨rfl, rfl, hst⟩
  | dump slot =>
    simp only [Workbench.run]
    split
    · next node _ =>
      cases h.dump node hst with
      | ok hrun hrun' hvalue hbetween =>
        simp only [hrun, hrun']
        exact ⟨congrArg Reply.dump hvalue.symm, rfl, hbetween⟩
      | error hrun hrun' hbetween =>
        simp only [hrun, hrun']
        exact ⟨rfl, rfl, hbetween⟩
    · exact ⟨rfl, rfl, hst⟩

end Manager.Shifts

/-- Managers hide from where their engines count. Let two engines do the same from related states
on, one with variables counted from 0 and the other with the same variables counted from 1. Then
commands that name variables of formulas get the same replies from the managers of both, failures
and dumps included, one by one; they fill the slots alike and leave related states. -/
theorem Manager.Shifts.index_base_hidden {m : Manager σ} {m' : Manager τ}
    (h : Manager.Shifts R m m') {cs : List Command} (hcs : ∀ c ∈ cs, c.NamesFormulaVars)
    (slots : Slots) {s : σ} {t : τ} (hst : R s t) :
    Workbench.Beside R (Workbench.runAll m cs slots s) (Workbench.runAll m' cs slots t) := by
  induction cs generalizing slots s t with
  | nil => exact ⟨rfl, rfl, hst⟩
  | cons c cs ih =>
    obtain ⟨hc, hcs⟩ := List.forall_mem_cons.1 hcs
    have hfirst := h.run hc slots hst
    have hrest := ih hcs (Workbench.run m c slots s).2.1 hfirst.state
    simp only [Workbench.runAll, hfirst.slots]
    exact ⟨congrArg₂ List.cons hfirst.reply hrest.reply, hrest.slots, hrest.state⟩

/-! ### Scripted engines -/

namespace Scripted

/-- Whether two engines have handed out the same numbers and have the same time. -/
structure State.Paces (s t : State) : Prop where
  last : t.last = s.last
  clock : t.clock = s.clock

theorem State.Paces.write {s t : State} (h : s.Paces t) (line line' : String) :
    (s.write line).Paces (t.write line') := ⟨h.last, h.clock⟩

/-- The script of an engine that counts from 1 and answers dumps with `native`. -/
def Script.fromOne (script : Script) (native : NativeDump) : Script :=
  { script with capabilities := { script.capabilities with zeroBased := false }, native := native }

variable {script : Script} {native native' : NativeDump}

theorem mirrors_handOut (line line' : String) :
    Mirrors State.Paces Eq (handOut line) (handOut line') := fun s t hst => by
  have hlast : t.last = s.last := hst.last
  exact .ok rfl rfl (by rw [hlast]) ⟨congrArg (· + 1) hlast, hst.clock⟩

theorem guarded_eq (script : Script) (call : String) (act : Action State α) :
    guarded script call act =
      match script.failing.get? call with
      | none => act
      | some .timeout => .fail (.timeout .zero .zero)
      | some (.message text) =>
        Action.change (fun s => s.write (call ++ " fails")) >>= fun _ =>
          .fail (.engine name text) := by
  funext s
  rw [guarded]
  cases script.failing.get? call with
  | none => rfl
  | some outcome => cases outcome <;> rfl

theorem mirrors_guarded (call : String) {act act' : Action State α}
    (h : Mirrors State.Paces Eq act act') :
    Mirrors State.Paces Eq (guarded script call act)
      (guarded (script.fromOne native') call act') := by
  have hfailing : (script.fromOne native').failing = script.failing := rfl
  rw [guarded_eq, guarded_eq, hfailing]
  split
  · exact h
  · exact .fail _
  · exact .bind (.change fun _ _ hst => hst.write _ _) fun _ _ _ => .fail _

theorem mirrors_making (call line line' : String) :
    Mirrors State.Paces Eq (making script call line)
      (making (script.fromOne native') call line') :=
  mirrors_guarded call (mirrors_handOut line line')

theorem mirrors_doing (call line line' : String) :
    Mirrors State.Paces Eq (doing script call line) (doing (script.fromOne native') call line') :=
  .bind (.change fun _ _ hst => hst.write line line') fun _ _ _ =>
    mirrors_guarded call (.pure rfl)

/-- Scripted engines do not look at variables but write them down. -/
theorem shifts_engine (hzero : script.capabilities.zeroBased = true)
    (hnative : script.native = some native) (hshifts : native.Shifts native') :
    (engine script).Shifts State.Paces (engine (script.fromOne native')) where
  name := rfl
  stub := rfl
  zeroBased := hzero
  capabilities := rfl
  zero := mirrors_making _ _ _
  one := mirrors_making _ _ _
  var _ := mirrors_making _ _ _
  negatedVar _ :=
    .ite (mirrors_making _ _ _)
      (.negateConsuming (mirrors_making _ _ _) (fun _ => mirrors_making _ _ _)
        fun _ _ _ hst => hst.write _ _)
  negate _ := mirrors_making _ _ _
  apply op lhs rhs limit :=
    .bind (.change fun s t hst => ⟨hst.last, by rw [hst.clock]; rfl⟩) fun _ _ _ =>
      mirrors_making _ _ _
  release _ _ _ hst := hst.write _ _
  declare _ := mirrors_doing _ _ _
  setOrder _ := mirrors_doing _ _ _
  enableReordering _ := mirrors_doing _ _ _
  disableReordering := mirrors_doing _ _ _
  dump node := by
    refine .bind (mirrors_doing _ _ _) fun _ _ _ => ?_
    rw [hnative]
    exact .pure hshifts
  now _ _ hst := hst.clock

end Scripted

/-! ### An engine that counts from 1 -/

namespace FromOne

open Scripted

/-- What an engine that counts from 1 writes where one that counts from 0 writes
`Answered.rotated`. -/
def rotated : NativeDump := ⟨.buddy, "2 3\n2 0 1\n2 1 0 1\n3 2 0 2\n", [2, 3, 1]⟩

def table : Native.Table :=
  ⟨⟨false, .node 3⟩, .ofList [(2, ⟨1, ⟨false, .terminal false⟩, ⟨false, .terminal true⟩⟩),
    (3, ⟨2, ⟨false, .terminal false⟩, ⟨false, .node 2⟩⟩)]⟩

theorem parse_rotated : rotated.format.parse rotated.text = .ok table := by decide +kernel

theorem shifts_rotated : Answered.rotated.Shifts rotated where
  format := rfl
  text := .inl ⟨_, table, Library.Rotated.parse_text .buddy, parse_rotated, .of_entries rfl rfl⟩
  order := rfl
  words := by decide

/-- An engine that counts from 0 and refuses dynamic reorderings. -/
def script : Script where
  capabilities := ⟨true, true, .rebuild, [("sift", 4)]⟩
  ownNegatedVar := false
  native := some Answered.rotated
  failing := .ofList [("enable_dynamic_reordering", .message "no reordering")]
  delay := .zero

def manager : Manager State := ⟨engine script, none⟩

def managerFromOne : Manager State := ⟨engine (script.fromOne rotated), none⟩

theorem shifts_manager : Manager.Shifts State.Paces manager managerFromOne :=
  ⟨shifts_engine rfl rfl shifts_rotated, rfl⟩

/-- Orders and lists that are none, what the engine refuses, and literals of both signs. -/
def building : List Command :=
  [.declare 3, .order [2, 3, 1], .order [2, 2, 1], .reorder "SIFT", .literal ⟨2, by decide⟩ "a",
    .literal ⟨-1, by decide⟩ "b", .retain .or "a" "b" "c", .consume .and "a" "b" "d"]

def replies : List Reply :=
  [.done, .done, .failed (.invalidOrder "variable 2 occurs more than once"),
    .failed (.engine name "no reordering"), .node ⟨1⟩, .node ⟨3⟩, .node ⟨4⟩, .node ⟨5⟩]

theorem namesFormulaVars_building_dump :
    ∀ c ∈ building ++ [.dump "d"], c.NamesFormulaVars := by
  simp [building, Command.NamesFormulaVars, Literal.var, varBound]

theorem replies_building : (Workbench.runAll manager building .empty .fresh).1 = replies := by
  decide +kernel

theorem exists_run_dump (slots : Slots) {node : NodeRef} (hnode : slots.get? "d" = some node)
    (s : State) : ∃ d, (Workbench.run manager (.dump "d") slots s).1 = .dump d := by
  obtain ⟨d, hd⟩ : ∃ d, manager.dumpOf Answered.rotated = .ok d :=
    (Manager.exists_dumpOf_iff rfl).2 ⟨_, Library.Rotated.order, Library.Rotated.parse_text .buddy,
      rfl, by decide, Library.Rotated.descends_table .buddy⟩
  have hrun : (manager.engine.dump node).run s =
      (.ok Answered.rotated, s.write ("dump " ++ Scripted.node node)) := rfl
  have hdump := Action.run_bind_of_ok hrun fun native => .ofExcept (manager.dumpOf native)
  rw [Action.run_ofExcept, hd] at hdump
  refine ⟨d, ?_⟩
  rw [Workbench.run, hnode]
  simp only [Manager.dump, hdump]

/-- Both managers fail alike and make the same dump, of engines that were asked for other
variables. -/
theorem index_base_hidden_rotated :
    (Workbench.runAll manager building .empty .fresh).2.2.calls ≠
        (Workbench.runAll managerFromOne building .empty .fresh).2.2.calls ∧
      ∃ d, (Workbench.runAll manager (building ++ [.dump "d"]) .empty .fresh).1 =
          replies ++ [.dump d] ∧
        (Workbench.runAll managerFromOne (building ++ [.dump "d"]) .empty .fresh).1 =
          replies ++ [.dump d] := by
  have hslot : (Workbench.runAll manager building .empty .fresh).2.1.get? "d" = some ⟨5⟩ := by
    decide +kernel
  obtain ⟨d, hd⟩ := exists_run_dump _ hslot (Workbench.runAll manager building .empty .fresh).2.2
  have hreplies : (Workbench.runAll manager (building ++ [.dump "d"]) .empty .fresh).1 =
      replies ++ [.dump d] := by
    rw [Workbench.runAll_append]
    simp only [replies_building, Workbench.runAll, hd]
  have hbeside := shifts_manager.index_base_hidden namesFormulaVars_building_dump .empty
    (s := .fresh) (t := .fresh) ⟨rfl, rfl⟩
  exact ⟨by decide +kernel, d, hreplies, hbeside.reply.trans hreplies⟩

end FromOne
end DiagramCompiler
