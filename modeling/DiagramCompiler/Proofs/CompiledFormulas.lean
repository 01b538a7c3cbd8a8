import DiagramCompiler.Proofs.HandleCanonicity
import DiagramCompiler.Proofs.HandleDumps
import DiagramCompiler.Compilation

/-! Compiled formulas.
While no operation comes too late, every step of a compilation succeeds: literals are disjoined onto
falsehood, clauses are conjoined onto truth, and no clause is skipped. Both are induction on the
list that is left. -/
namespace DiagramCompiler

/-! ### Values of formulas -/

theorem Clause.evalLiterals?_eq {values : List Bool} {ls : List Literal}
    (h : ∀ l ∈ ls, 1 ≤ l.var ∧ l.var ≤ values.length) :
    evalLiterals? values ls =
      some (ls.any (·.eval fun v => values.getD (v - 1) false)) := by
  induction ls with
  | nil => rfl
  | cons l ls ih =>
    have hl := h l List.mem_cons_self
    have hzero : l.var ≠ 0 := by omega
    have hlt : l.var - 1 < values.length := by omega
    rw [evalLiterals?, ih fun l' hl' => h l' (List.mem_cons_of_mem l hl')]
    simp only [valueAt?, hzero, if_false, List.getElem?_eq_getElem hlt, Option.bind_eq_bind,
      Option.bind_some, List.any_cons, Literal.eval, List.getD_eq_getElem?_getD, Option.getD_some]
    cases l.holdsAt values[l.var - 1] <;> rfl

theorem Formula.evalClauses?_eq {values : List Bool} {cs : List Clause}
    (h : ∀ c ∈ cs, ∀ l ∈ c.literals, 1 ≤ l.var ∧ l.var ≤ values.length) :
    evalClauses? values cs = some (cs.all (·.eval fun v => values.getD (v - 1) false)) := by
  induction cs with
  | nil => rfl
  | cons c cs ih =>
    have hc : c.eval? values = some (c.eval fun v => values.getD (v - 1) false) :=
      Clause.evalLiterals?_eq (h c List.mem_cons_self)
    rw [evalClauses?, hc, ih fun c' hc' => h c' (List.mem_cons_of_mem c hc')]
    simp only [Option.bind_eq_bind, Option.bind_some, List.all_cons]
    cases c.eval fun v => values.getD (v - 1) false <;> rfl

theorem Formula.var_range (f : Formula) {c : Clause} (hc : c ∈ f.clauses) {l : Literal}
    (hl : l ∈ c.literals) : 1 ≤ l.var ∧ l.var ≤ f.varCount :=
  ⟨f.one_le_var hc (List.mem_map_of_mem hl), f.vars_le c hc _ (List.mem_map_of_mem hl)⟩

theorem Formula.eval?_eq (f : Formula) {values : List Bool} (h : f.varCount ≤ values.length) :
    f.eval? values = some (f.eval fun v => values.getD (v - 1) false) := by
  rw [eval?, if_neg (Nat.not_lt_of_le h)]
  refine evalClauses?_eq fun c hc l hl => ?_
  have := f.var_range hc hl
  omega

namespace Reference

/-- Whether no binary operation of a state times out or comes too late for a bound. -/
def InTime (bound : Option Duration) (s : State) : Prop :=
  s.failing = none ∧ ∀ limit, bound = some limit → ¬ limit < s.delay + ⟨1⟩

theorem State.Advances.inTime {s s' : State} (h : s.Advances s') {bound : Option Duration}
    (ht : InTime bound s) : InTime bound s' := by
  obtain ⟨hfailing, hdelay⟩ := h.settings_eq
  exact ⟨hfailing.trans ht.1, by rw [hdelay]; exact ht.2⟩

def Delivers (a : Action State NodeRef) (s : State) (f : (Nat → Bool) → Bool) : Prop :=
  ∃ node s', a.run s = (.ok node, s') ∧ s.Advances s' ∧ s'.Holds node ∧ s'.meaning node = f

section Delivers

variable {a : Action State NodeRef} {s : State} {f g : (Nat → Bool) → Bool}

theorem Builds.delivers (h : Builds a s f) {node : NodeRef} (hok : (a.run s).1 = .ok node) :
    Delivers a s f := by
  obtain ⟨hholds, hmeaning⟩ := h.means hok
  exact ⟨node, (a.run s).2, by rw [← hok], h.advances, hholds, hmeaning⟩

theorem Delivers.bind {next : NodeRef → Action State NodeRef} (h : Delivers a s f)
    (hnext : ∀ node s', s.Advances s' → s'.Holds node → s'.meaning node = f →
      Delivers (next node) s' g) : Delivers (a >>= next) s g := by
  obtain ⟨node, s', hrun, hadv, hholds, hmeaning⟩ := h
  obtain ⟨node', s'', hrun', hadv', hholds', hmeaning'⟩ := hnext node s' hadv hholds hmeaning
  exact ⟨node', s'', (Action.run_bind_of_ok hrun next).trans hrun', hadv.trans hadv', hholds',
    hmeaning'⟩

theorem Delivers.congr (h : Delivers a s f) (hfg : f = g) : Delivers a s g := hfg ▸ h

theorem Delivers.of_held (hs : s.table.Sound) {node : NodeRef} (hn : s.Holds node) :
    Delivers (pure node) s (s.meaning node) := ⟨node, s, rfl, .refl hs, hn, rfl⟩

theorem Delivers.attempt {next : Except Failure NodeRef → Action State NodeRef}
    (h : Delivers a s f) (hnext : ∀ node s', s.Advances s' → s'.Holds node → s'.meaning node = f →
      Delivers (next (.ok node)) s' g) : Delivers (a.attempt >>= next) s g := by
  obtain ⟨node, s', hrun, hadv, hholds, hmeaning⟩ := h
  have hattempt : a.attempt.run s = (.ok (.ok node), s') := by rw [Action.run_attempt, hrun]
  obtain ⟨node', s'', hrun', hadv', hholds', hmeaning'⟩ := hnext node s' hadv hholds hmeaning
  exact ⟨node', s'', (Action.run_bind_of_ok hattempt next).trans hrun', hadv.trans hadv', hholds',
    hmeaning'⟩

theorem Delivers.ensuring (h : Delivers a s f) :
    Delivers (a.ensuring State.release) s f := by
  obtain ⟨node, s', hrun, hadv, hholds, hmeaning⟩ := h
  exact ⟨node, s'.release, by rw [Action.run_ensuring, hrun], hadv.release, hholds, hmeaning⟩

end Delivers

/-! ### Operations that succeed -/

section Operation

variable {s : State} {bound : Option Duration}

theorem run_var {v : Nat} (hv : v < s.table.order.length) :
    ∃ node, ((var v).run s).1 = .ok node :=
  ⟨⟨(s.table.make (s.table.order.idxOf v) 0 1).1⟩, by
    simp [var, withVar, handOut, Action.run, hv]⟩

theorem literal_delivers (hs : s.table.Sound) {l : Literal} (hpos : 1 ≤ l.var)
    (hle : l.var ≤ s.table.order.length) : Delivers ((manager bound).literal l) s l.eval := by
  have hb := literal_builds hs bound l
  obtain ⟨node, hvar⟩ := run_var (s := s) (v := l.var - 1) (by omega)
  have hzero : l.var ≠ 0 := by omega
  by_cases hneg : l.isNegated = true
  · have hlit : (manager bound).literal l = engine.negatedVar (l.var - 1) := by
      simp [Manager.literal, manager, Manager.capabilities, Manager.engineVar, engine, hneg, hzero]
    rcases hr : (var (l.var - 1)).run s with ⟨answer, s'⟩
    rw [hr] at hvar
    obtain rfl : answer = .ok node := hvar
    have hok : (((manager bound).literal l).run s).1 =
        .ok ⟨(s'.table.negate node.number).1⟩ := by
      rw [hlit]
      simp only [engine, negateConsuming, Action.run_bind, hr, Action.run_ensuring]
      rfl
    exact hb.delivers hok
  · have hlit : (manager bound).literal l = var (l.var - 1) := by
      simp [Manager.literal, manager, Manager.capabilities, Manager.engineVar, engine, hneg, hzero]
    exact hb.delivers (by rw [hlit]; exact hvar)

theorem applyRetaining_delivers (hs : s.table.Sound) (ht : InTime bound s) (op : BinaryOp)
    {a b : NodeRef} (ha : s.Holds a) (hb : s.Holds b) :
    Delivers ((manager bound).applyRetaining op a b) s fun assignment =>
      op.eval (s.meaning a assignment) (s.meaning b assignment) := by
  let node : NodeRef := ⟨(s.table.apply op a.number b.number).1⟩
  let s' : State :=
    { s with
      applications := s.applications + 1
      clock := s.clock + s.delay + ⟨1⟩
      table := (s.table.apply op a.number b.number).2
      live := s.live + 1 }
  have hrun : (apply op a b bound).run s = (.ok node, s') := by
    have hfail : ¬ s.failing = some (s.applications + 1) := by simp [ht.1]
    simp [apply, handOut, Action.run, hfail, node, s']
  have htime : s'.clock - s.clock = s.delay + ⟨1⟩ := by
    have hnat : s.clock.nanoseconds + s.delay.nanoseconds + 1 - s.clock.nanoseconds =
        s.delay.nanoseconds + 1 := by omega
    exact congrArg Duration.mk hnat
  have hok : (((manager bound).applyRetaining op a b).run s).1 = .ok node := by
    simp only [Manager.applyRetaining, manager, engine]
    rw [Action.run_bind_of_ok (Action.run_reading _ s), Action.run_bind_of_ok hrun,
      Action.run_bind_of_ok (Action.run_reading _ s')]
    cases bound with
    | none => rfl
    | some limit =>
      have hlate : ¬ limit < s'.clock - s.clock := by
        rw [htime]
        exact ht.2 limit rfl
      simp only [if_neg hlate]
      rfl
  exact (applyRetaining_builds hs bound op ha hb).delivers hok

theorem apply_delivers (hs : s.table.Sound) (ht : InTime bound s) (op : BinaryOp) {a b : NodeRef}
    (ha : s.Holds a) (hb : s.Holds b) :
    Delivers ((manager bound).apply op a b) s fun assignment =>
      op.eval (s.meaning a assignment) (s.meaning b assignment) := by
  obtain ⟨node, s', hrun, _⟩ := applyRetaining_delivers hs ht op ha hb
  have hok : (((manager bound).apply op a b).run s).1 = .ok node := by
    rw [Manager.apply, Action.run_ensuring, Action.run_ensuring, hrun]
  exact (manager_apply_builds hs bound op ha hb).delivers hok

end Operation

/-! ### Clauses and formulas -/

section Compilation

variable {s : State} {bound : Option Duration}

open Compilation

def Declared (s : State) (ls : List Literal) : Prop :=
  ∀ l ∈ ls, 1 ≤ l.var ∧ l.var ≤ s.table.order.length

theorem Declared.advances {s s' : State} {ls : List Literal} (h : Declared s ls)
    (hadv : s.Advances s') : Declared s' ls := by
  rw [Declared, hadv.grows.order_eq]
  exact h

theorem disjoin_delivers (hs : s.table.Sound) (ht : InTime bound s) {disjunction : NodeRef}
    (hd : s.Holds disjunction) {ls : List Literal} (h : Declared s ls) :
    Delivers (disjoin (manager bound) disjunction ls) s fun assignment =>
      s.meaning disjunction assignment || ls.any (·.eval assignment) := by
  induction ls generalizing s disjunction with
  | nil => exact (Delivers.of_held hs hd).congr (by simp)
  | cons l ls ih =>
    obtain ⟨hpos, hle⟩ := h l List.mem_cons_self
    refine (literal_delivers hs hpos hle).attempt fun literal s₁ hadv₁ hholds₁ hmeaning₁ => ?_
    have hd₁ := hadv₁.holds hd
    refine (apply_delivers hadv₁.sound (hadv₁.inTime ht) .or hd₁ hholds₁).bind
      fun next s₂ hadv₂ hholds₂ hmeaning₂ => ?_
    have hrest : Declared s₂ ls := Declared.advances
      (fun l' hl' => h l' (List.mem_cons_of_mem l hl')) (hadv₁.trans hadv₂)
    refine (ih hadv₂.sound (hadv₂.inTime (hadv₁.inTime ht)) hholds₂ hrest).congr ?_
    funext assignment
    rw [hmeaning₂, hmeaning₁, hadv₁.meaning_eq hs hd]
    simp [BinaryOp.eval, Bool.or_assoc]

theorem clauseDiagram_delivers (hs : s.table.Sound) (ht : InTime bound s) {c : Clause}
    (h : Declared s c.literals) : Delivers (clauseDiagram (manager bound) c) s c.eval := by
  have hzero : Delivers (manager bound).zero s fun _ => false :=
    (zero_builds hs bound).delivers rfl
  refine hzero.bind fun node s' hadv hholds hmeaning => ?_
  refine (disjoin_delivers hadv.sound (hadv.inTime ht) hholds (h.advances hadv)).congr ?_
  funext assignment
  rw [hmeaning, Bool.false_or]
  rfl

theorem conjoinClause_delivers (hs : s.table.Sound) (ht : InTime bound s) {accumulator : NodeRef}
    (ha : s.Holds accumulator) {c : Clause} (h : Declared s c.literals) :
    Delivers (conjoinClause (manager bound) accumulator c) s fun assignment =>
      s.meaning accumulator assignment && c.eval assignment := by
  refine (clauseDiagram_delivers hs ht h).bind fun clause s' hadv hholds hmeaning => ?_
  have happly := applyRetaining_delivers hadv.sound (hadv.inTime ht) .and (hadv.holds ha) hholds
  refine happly.ensuring.congr ?_
  funext assignment
  rw [hmeaning, hadv.meaning_eq hs ha]
  rfl

theorem run_conjoin (hs : s.table.Sound) (ht : InTime bound s) {accumulator : NodeRef}
    (ha : s.Holds accumulator) (skipped : Nat) {cs : List Clause}
    (h : ∀ c ∈ cs, Declared s c.literals) :
    ∃ node s', (conjoin (manager bound) accumulator skipped cs).run s = (.ok (node, skipped), s') ∧
      s.Advances s' ∧ s'.Holds node ∧
      s'.meaning node = fun assignment =>
        s.meaning accumulator assignment && cs.all (·.eval assignment) := by
  induction cs generalizing s accumulator with
  | nil => exact ⟨accumulator, s, rfl, .refl hs, ha, by simp⟩
  | cons c cs ih =>
    obtain ⟨next, s₁, hrun₁, hadv₁, hholds₁, hmeaning₁⟩ :=
      conjoinClause_delivers hs ht ha (h c List.mem_cons_self)
    have hadv₂ : s.Advances s₁.release := hadv₁.release
    have hnext : s₁.release.Holds next := hholds₁
    obtain ⟨node, s', hrun, hadv, hholds, hmeaning⟩ := ih hadv₂.sound (hadv₂.inTime ht) hnext
      fun c' hc' => (h c' (List.mem_cons_of_mem c hc')).advances hadv₂
    refine ⟨node, s', ?_, hadv₂.trans hadv, hholds, ?_⟩
    · have hattempt : (conjoinClause (manager bound) accumulator c).attempt.run s =
          (.ok (.ok next), s₁) := by rw [Action.run_attempt, hrun₁]
      rw [conjoin, Action.run_bind_of_ok hattempt]
      exact (Action.run_bind_of_ok (Action.run_change _ s₁) _).trans hrun
    · funext assignment
      have hsame : s₁.release.meaning next = s₁.meaning next := rfl
      rw [hmeaning, hsame, hmeaning₁, List.all_cons]
      exact Bool.and_assoc _ _ _

/-- The variables as the engine numbers them, in a given order or one after the other. -/
def engineOrder (f : Formula) (order : Option VariableOrder) : List Nat :=
  (order.getD (.identity f.varCount)).toList.map fun v => v - 1

def prepared (f : Formula) (order : Option VariableOrder) (delay : Duration) : State :=
  (State.fresh none delay).withOrder (engineOrder f order)

theorem length_engineOrder {f : Formula} {order : Option VariableOrder}
    (h : ∀ o, order = some o → o.length = f.varCount) :
    (engineOrder f order).length = f.varCount := by
  rw [engineOrder, List.length_map]
  cases order with
  | none => exact VariableOrder.length_identity f.varCount
  | some o => exact h o rfl

theorem engineOrder_none (f : Formula) : engineOrder f none = List.range' 0 f.varCount := by
  rw [engineOrder, Option.getD_none, VariableOrder.identity]
  refine List.ext_getElem (by simp) fun i h _ => ?_
  simp

theorem sound_prepared (f : Formula) (order : Option VariableOrder) (delay : Duration) :
    (prepared f order delay).table.Sound := by
  refine Table.sound_empty.withOrder ?_ (.inl rfl)
  rw [engineOrder, List.length_map]
  exact perm_range_of_order _

theorem run_prepare (f : Formula) {order : Option VariableOrder} (delay : Duration)
    (hvars : f.varCount < UInt32.size) (horder : ∀ o, order = some o → o.length = f.varCount) :
    (prepare (manager bound) f order).run (.fresh none delay) =
      (.ok (), prepared f order delay) := by
  have hdeclare : ((manager bound).declareVars f.varCount).run (.fresh none delay) =
      (.ok (), prepared f none delay) := by
    rw [run_declareVars bound hvars, prepared, engineOrder_none]
    rfl
  rw [prepare.eq_def, Action.run_bind_of_ok hdeclare]
  cases order with
  | none => rfl
  | some o =>
    have hlength := horder o rfl
    simp only [hlength, ne_eq, not_true_eq_false, if_false]
    by_cases hempty : o.isEmpty = true
    · have hnil : o.toList = [] := List.isEmpty_iff.1 hempty
      have hzero : f.varCount = 0 := by rw [← hlength, VariableOrder.length, hnil]; rfl
      have hsame : prepared f none delay = prepared f (some o) delay := by
        rw [prepared, engineOrder_none, hzero, prepared, engineOrder, Option.getD_some, hnil]
        rfl
      rw [if_pos hempty, hsame]
      rfl
    · rw [if_neg hempty, run_setOrder]
      have hcount : (o.toList.map fun v => v - 1).length =
          (prepared f none delay).table.order.length := by
        rw [List.length_map]
        exact hlength.trans (length_engineOrder (f := f) fun o ho => absurd ho (by simp)).symm
      have hnodes : (prepared f none delay).table.nodes.size = 0 := rfl
      rw [Action.run, setOrder, if_neg (by simp [hnodes]), if_neg (by simp [hcount])]
      rfl

theorem of_run_prepare {f : Formula} {order : Option VariableOrder} {s s' : State}
    (h : (prepare (manager bound) f order).run s = (.ok (), s')) :
    f.varCount < UInt32.size ∧ ∀ o, order = some o → o.length = f.varCount := by
  rw [prepare.eq_def] at h
  by_cases hvars : f.varCount < UInt32.size
  · refine ⟨hvars, fun o ho => ?_⟩
    by_contra hlength
    rw [Action.run_bind_of_ok (run_declareVars bound hvars), ho] at h
    simp [hlength] at h
  · obtain ⟨failure, hrun⟩ := run_declareVars_of_le (s := s) bound (Nat.le_of_not_lt hvars)
    rw [Action.run_bind_of_error hrun] at h
    exact absurd (congrArg Prod.fst h) (by simp)

theorem of_run_compile {f : Formula} {order : Option VariableOrder} {s s' : State}
    {c : Compilation} (h : (compile (manager bound) f order).run s = (.ok c, s')) :
    f.varCount < UInt32.size ∧ ∀ o, order = some o → o.length = f.varCount := by
  rcases hr : (prepare (manager bound) f order).run s with ⟨answer, s₁⟩
  cases answer with
  | ok _ => exact of_run_prepare hr
  | error failure =>
    rw [compile, Action.run_bind_of_error hr] at h
    exact absurd (congrArg Prod.fst h) (by simp)

/-- A compilation in time hands out the function of the formula and skips no clause. -/
theorem run_compile (f : Formula) {order : Option VariableOrder} {delay : Duration}
    (hvars : f.varCount < UInt32.size) (horder : ∀ o, order = some o → o.length = f.varCount)
    (ht : InTime bound (.fresh none delay)) :
    ∃ c s, (compile (manager bound) f order).run (.fresh none delay) = (.ok c, s) ∧
      c.skipped = 0 ∧ s.table.Sound ∧ s.table.order = engineOrder f order ∧ s.Holds c.diagram ∧
      s.meaning c.diagram = f.eval := by
  have hs := sound_prepared f order delay
  have ht' : InTime bound (prepared f order delay) := ht
  obtain ⟨one, s₁, hone, hadv₁, hholds₁, hmeaning₁⟩ :=
    (one_builds hs bound).delivers (show _ = Except.ok ⟨1⟩ from rfl)
  have hdeclared : ∀ c ∈ f.clauses, Declared s₁ c.literals := by
    intro c hc l hl
    have hrange := f.var_range hc hl
    have hlength := length_engineOrder horder
    have horder₁ : s₁.table.order = engineOrder f order := hadv₁.grows.order_eq
    rw [horder₁, hlength]
    exact hrange
  obtain ⟨node, s₂, hrun₂, hadv₂, hholds₂, hmeaning₂⟩ :=
    run_conjoin hadv₁.sound (hadv₁.inTime ht') hholds₁ 0 hdeclared
  have hcompile : ∃ c, (compile (manager bound) f order).run (.fresh none delay) = (.ok c, s₂) ∧
      c.skipped = 0 ∧ c.diagram = node := by
    rw [compile, Action.run_bind_of_ok (run_prepare f delay hvars horder),
      Action.run_bind_of_ok (Action.run_reading _ _), Action.run_bind_of_ok hone,
      Action.run_bind_of_ok hrun₂, Action.run_bind_of_ok (Action.run_reading _ _)]
    exact ⟨_, rfl, rfl, rfl⟩
  obtain ⟨c, hrun, hskipped, hdiagram⟩ := hcompile
  refine ⟨c, s₂, hrun, hskipped, hadv₂.sound, hadv₂.grows.order_eq.trans hadv₁.grows.order_eq,
    hdiagram ▸ hholds₂, ?_⟩
  funext assignment
  rw [hdiagram, hmeaning₂, hmeaning₁]
  exact Bool.true_and _

/-- The variables of a compiled formula are placed as they were asked for. -/
theorem variableOrder_eq {f : Formula} {order : Option VariableOrder} {t : Table} (hs : t.Sound)
    (h : t.order = engineOrder f order) : hs.variableOrder = order.getD (.identity f.varCount) := by
  have hlist : hs.variableOrder.toList = (order.getD (.identity f.varCount)).toList := by
    show t.order.map (· + 1) = _
    rw [h, engineOrder, List.map_map]
    refine (List.map_congr_left fun v hv => ?_).trans (List.map_id _)
    have := ((order.getD (.identity f.varCount)).inRange v hv).1
    simp only [Function.comp_apply, id_eq]
    omega
  generalize order.getD (.identity f.varCount) = o at hlist
  generalize hs.variableOrder = o' at hlist
  cases o
  cases o'
  simp_all

end Compilation

end Reference
end DiagramCompiler
