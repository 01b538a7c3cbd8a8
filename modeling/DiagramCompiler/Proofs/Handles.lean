import DiagramCompiler.Proofs.Actions
import DiagramCompiler.Proofs.Operations
import DiagramCompiler.Engine.Reference
import DiagramCompiler.Manager

/-! Handles of the reference engine.
A handle stands for a truth function of the variables of a formula. Every operation that hands one
out leaves all earlier handles as they were, whether it succeeds or not, and its result stands for
what the operation says about its operands. -/
namespace DiagramCompiler

namespace Reference

/-- The manager of the reference engine with a bound on the time of binary operations. -/
def manager (bound : Option Duration) : Manager State := ⟨engine, bound⟩

namespace State

/-- The truth function that a handle stands for. Variables of formulas are numbered from 1. -/
def meaning (s : State) (node : NodeRef) (assignment : Nat → Bool) : Bool :=
  s.table.eval (fun v => assignment (v + 1)) node.number

def Holds (s : State) (node : NodeRef) : Prop := s.table.Holds node.number

/-- What a step leaves as it was: the order, all handles with their meanings, and how the engine
was set up. -/
structure Advances (s s' : State) : Prop where
  sound : s'.table.Sound
  grows : s.table.Extends s'.table
  settings_eq : s'.failing = s.failing ∧ s'.delay = s.delay

namespace Advances

variable {s s' s'' : State}

theorem refl (hs : s.table.Sound) : s.Advances s := ⟨hs, .refl _, rfl, rfl⟩

theorem trans (h : s.Advances s') (h' : s'.Advances s'') : s.Advances s'' :=
  ⟨h'.sound, h.grows.trans h'.grows, h'.settings_eq.1.trans h.settings_eq.1,
    h'.settings_eq.2.trans h.settings_eq.2⟩

theorem release (h : s.Advances s') : s.Advances s'.release :=
  ⟨h.sound, h.grows, h.settings_eq⟩

theorem holds (h : s.Advances s') {node : NodeRef} (hn : s.Holds node) : s'.Holds node :=
  h.grows.holds hn

theorem meaning_eq (h : s.Advances s') (hs : s.table.Sound) {node : NodeRef} (hn : s.Holds node) :
    s'.meaning node = s.meaning node := by
  funext assignment
  exact h.grows.eval_eq hs h.sound hn _

end Advances
end State

/-- What an action that hands out a handle comes to. -/
structure Builds (a : Action State NodeRef) (s : State) (meaning : (Nat → Bool) → Bool) : Prop where
  advances : s.Advances (a.run s).2
  means : ∀ {node}, (a.run s).1 = .ok node →
    (a.run s).2.Holds node ∧ (a.run s).2.meaning node = meaning

namespace Builds

variable {a : Action State NodeRef} {s : State} {f g : (Nat → Bool) → Bool}

theorem of_error (failure : Failure) (hs : s.table.Sound) (h : a.run s = (.error failure, s)) :
    Builds a s f where
  advances := by rw [h]; exact .refl hs
  means hok := by rw [h] at hok; exact absurd hok (by simp)

theorem of_held (hs : s.table.Sound) {node : NodeRef} (hn : s.Holds node)
    (hm : s.meaning node = f) : Builds (pure node) s f where
  advances := .refl hs
  means hok := by
    obtain rfl : node = _ := Except.ok.inj hok
    exact ⟨hn, hm⟩

theorem reading {α : Type} {read : State → α} {next : α → Action State NodeRef}
    (h : Builds (next (read s)) s f) : Builds (Action.reading read >>= next) s f :=
  ⟨h.advances, h.means⟩

theorem ensuring (h : Builds a s f) (after : State → State)
    (htable : ∀ s, (after s).table = s.table)
    (hsettings : ∀ s, (after s).failing = s.failing ∧ (after s).delay = s.delay) :
    Builds (a.ensuring after) s f where
  advances := by
    refine ⟨?_, ?_, ?_⟩
    · simpa [htable] using h.advances.sound
    · simpa [htable] using h.advances.grows
    · simpa [hsettings] using h.advances.settings_eq
  means hok := by
    simpa [State.Holds, State.meaning, htable, funext_iff] using h.means hok

theorem bind {next : NodeRef → Action State NodeRef} (h : Builds a s f)
    (hnext : ∀ node s', s.Advances s' → s'.Holds node → s'.meaning node = f →
      Builds (next node) s' g) : Builds (a >>= next) s g := by
  rcases hr : a.run s with ⟨answer, s'⟩
  have hadv := h.advances
  rw [hr] at hadv
  cases answer with
  | error failure =>
    have hrun := Action.run_bind_of_error hr next
    constructor
    · rw [hrun]
      exact hadv
    · intro node hok
      rw [hrun] at hok
      exact absurd hok (by simp)
  | ok node =>
    have hrun := Action.run_bind_of_ok hr next
    obtain ⟨hholds, hm⟩ := h.means (show (a.run s).1 = .ok node by rw [hr])
    rw [hr] at hholds hm
    have hbuilds := hnext node s' hadv hholds hm
    constructor
    · rw [hrun]
      exact hadv.trans hbuilds.advances
    · intro node' hok
      rw [hrun] at hok ⊢
      exact hbuilds.means hok

end Builds

/-! ### Operations of the engine -/

section Engine

variable {s : State}

theorem handOut_builds {build : Table → Nat × Table} {f : (Nat → Bool) → Bool}
    (hsound : (build s.table).2.Sound) (hgrows : s.table.Extends (build s.table).2)
    (hholds : (build s.table).2.Holds (build s.table).1)
    (heval : ∀ assignment : Nat → Bool,
      (build s.table).2.eval (fun v => assignment (v + 1)) (build s.table).1 = f assignment) :
    Builds (handOut build) s f where
  advances := ⟨hsound, hgrows, rfl, rfl⟩
  means {node} hok := by
    have hnode : node = ⟨(build s.table).1⟩ := by simpa [handOut, Action.run] using hok.symm
    subst hnode
    exact ⟨hholds, funext heval⟩

theorem zero_builds (hs : s.table.Sound) (bound : Option Duration) :
    Builds (manager bound).zero s fun _ => false := by
  show Builds (handOut fun t => (0, t)) s fun _ => false
  exact handOut_builds hs (.refl _) (s.table.holds_of_lt Nat.zero_lt_two)
    fun _ => s.table.eval_zero _

theorem one_builds (hs : s.table.Sound) (bound : Option Duration) :
    Builds (manager bound).one s fun _ => true := by
  show Builds (handOut fun t => (1, t)) s fun _ => true
  exact handOut_builds hs (.refl _) (s.table.holds_of_lt Nat.one_lt_two)
    fun _ => s.table.eval_one _

theorem var_builds (hs : s.table.Sound) (v : Nat) :
    Builds (var v) s fun assignment => assignment (v + 1) := by
  by_cases hv : v < s.table.order.length
  · have hrun : (var v).run s =
        (handOut fun t => t.make (s.table.order.idxOf v) 0 1).run s := by
      simp [var, withVar, Action.run, hv]
    have hlt := hs.idxOf_lt hv
    obtain ⟨msound, mgrows, mrep⟩ := hs.represents_make hlt
      (Table.Sound.represents_terminal hlt false) (Table.Sound.represents_terminal hlt true)
    have hbuilds : Builds (handOut fun t => t.make (s.table.order.idxOf v) 0 1) s
        fun assignment => assignment (v + 1) := by
      refine handOut_builds msound mgrows mrep.holds fun assignment => ?_
      have heval := mrep.eval_eq fun v => assignment (v + 1)
      rw [hs.varAt_idxOf hv] at heval
      refine heval.trans ?_
      split <;> simp_all
    exact ⟨hrun ▸ hbuilds.advances, hrun ▸ hbuilds.means⟩
  · refine .of_error (.engine shortName
      ("variable " ++ Numeral.text v ++ " was never declared")) hs ?_
    simp [var, withVar, Action.run, hv]

theorem negate_builds (hs : s.table.Sound) {node : NodeRef} (hn : s.Holds node) :
    Builds (negate node) s fun assignment => !s.meaning node assignment := by
  obtain ⟨hsound, hgrows, hholds, heval⟩ := hs.negate hn
  exact handOut_builds hsound hgrows hholds fun _ => heval _

theorem negatedVar_builds (hs : s.table.Sound) (v : Nat) :
    Builds (engine.negatedVar v) s fun assignment => !assignment (v + 1) := by
  refine (var_builds hs v).bind fun node s' hadv hn hm => ?_
  have h := (negate_builds hadv.sound hn).ensuring State.release (fun _ => rfl) fun _ => ⟨rfl, rfl⟩
  rwa [hm] at h

theorem literal_builds (hs : s.table.Sound) (bound : Option Duration) (l : Literal) :
    Builds ((manager bound).literal l) s l.eval := by
  by_cases hl : l.var = 0
  · refine .of_error (.overflow .noVariable) hs ?_
    simp [Manager.literal, manager, Manager.capabilities, engine, hl]
  · have hvar : l.var - 1 + 1 = l.var := by omega
    by_cases hneg : l.isNegated = true
    · have h := negatedVar_builds hs (l.var - 1)
      rw [hvar] at h
      have heval : l.eval = fun assignment => !assignment l.var := by
        funext assignment
        simp [Literal.eval, Literal.holdsAt, hneg]
      rw [heval]
      simpa [Manager.literal, manager, Manager.capabilities, Manager.engineVar, engine, hl, hneg]
        using h
    · have h := var_builds hs (l.var - 1)
      rw [hvar] at h
      have heval : l.eval = fun assignment => assignment l.var := by
        funext assignment
        simp [Literal.eval, Literal.holdsAt, hneg]
      rw [heval]
      simpa [Manager.literal, manager, Manager.capabilities, Manager.engineVar, engine, hl, hneg]
        using h

theorem apply_builds (hs : s.table.Sound) (op : BinaryOp) {a b : NodeRef} (ha : s.Holds a)
    (hb : s.Holds b) (limit : Option Duration) :
    Builds (apply op a b limit) s fun assignment =>
      op.eval (s.meaning a assignment) (s.meaning b assignment) := by
  by_cases hfail : s.failing = some (s.applications + 1)
  · have hrun : (apply op a b limit).run s = (.error (.timeout (limit.getD .zero) (limit.getD .zero)),
        { s with applications := s.applications + 1 }) := by
      simp [apply, Action.run, hfail]
    constructor
    · rw [hrun]
      exact ⟨hs, .refl _, rfl, rfl⟩
    · intro node hok
      rw [hrun] at hok
      exact absurd hok (by simp)
  · let s' : State :=
      { s with applications := s.applications + 1, clock := s.clock + s.delay + ⟨1⟩ }
    have hrun : (apply op a b limit).run s =
        (handOut fun t => t.apply op a.number b.number).run s' := by
      simp [apply, Action.run, hfail, s']
    obtain ⟨hsound, hgrows, hholds, heval⟩ := hs.apply op ha hb
    have hbuilds : Builds (handOut fun t => t.apply op a.number b.number) s'
        fun assignment => op.eval (s.meaning a assignment) (s.meaning b assignment) :=
      handOut_builds hsound hgrows hholds fun _ => heval _
    constructor
    · rw [hrun]
      exact ⟨hbuilds.advances.sound, hbuilds.advances.grows, hbuilds.advances.settings_eq⟩
    · intro node hok
      rw [hrun] at hok ⊢
      exact hbuilds.means hok

/-- A result that came too late is given up, which changes no handle. -/
theorem applyRetaining_builds (hs : s.table.Sound) (bound : Option Duration) (op : BinaryOp)
    {a b : NodeRef} (ha : s.Holds a) (hb : s.Holds b) :
    Builds ((manager bound).applyRetaining op a b) s fun assignment =>
      op.eval (s.meaning a assignment) (s.meaning b assignment) := by
  refine .reading ((apply_builds hs op ha hb bound).bind fun node s' hadv hn hm => .reading ?_)
  cases bound with
  | none => exact .of_held hadv.sound hn hm
  | some limit =>
    show Builds (if limit < s'.clock - s.clock then
      (Action.fail (.timeout (s'.clock - s.clock) limit)).ensuring State.release
      else pure node) s' _
    by_cases hlate : limit < s'.clock - s.clock
    · simp only [hlate, if_true]
      exact (Builds.of_error (.timeout (s'.clock - s.clock) limit) hadv.sound rfl).ensuring
        State.release (fun _ => rfl) fun _ => ⟨rfl, rfl⟩
    · simp only [hlate, if_false]
      exact .of_held hadv.sound hn hm

theorem manager_apply_builds (hs : s.table.Sound) (bound : Option Duration) (op : BinaryOp)
    {a b : NodeRef} (ha : s.Holds a) (hb : s.Holds b) :
    Builds ((manager bound).apply op a b) s fun assignment =>
      op.eval (s.meaning a assignment) (s.meaning b assignment) :=
  ((applyRetaining_builds hs bound op ha hb).ensuring State.release (fun _ => rfl)
    fun _ => ⟨rfl, rfl⟩).ensuring State.release (fun _ => rfl) fun _ => ⟨rfl, rfl⟩

end Engine

end Reference
end DiagramCompiler
