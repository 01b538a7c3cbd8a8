import DiagramCompiler.Proofs.RecordedEngines

/-! Clauses that time out.
Whatever operations fail, a compilation either comes to an end or fails as one of its operations did.
What it comes to is the conjunction of the clauses for which no operation timed out: the diagram from
before a clause is held while the clause is worked on, and is kept if the clause is given up. The
induction is on the clauses that are left. -/
namespace DiagramCompiler

variable {σ : Type}

/-- The operations for a clause: its literals are disjoined onto falsehood, and it is conjoined onto
the diagram of the clauses before it. -/
def Manager.clauseOperations (m : Manager σ) (c : Clause) : List Operation :=
  (.zero :: c.literals.flatMap fun l => m.literalOperations l ++ [.apply .or]) ++ [.apply .and]

def Manager.preparations (m : Manager σ) (f : Formula) (order : Option VariableOrder) :
    List Operation :=
  (if m.capabilities.declaresVars ∧ 0 < f.varCount then [.declare f.varCount] else []) ++
    (match order with
      | none => []
      | some order => if order.isEmpty then [] else [.setOrder (order.toList.map m.engineVar)])

def timedOut (log : List Performed) : Bool := log.any fun p => p.failure.any Failure.isRecoverable

/-- Whether a record is that of the operations for a clause, all of them or up to one that timed
out. -/
def Manager.IsWorkOn (m : Manager σ) (c : Clause) (part : List Performed) : Prop :=
  ∃ outcome, WorksOff (m.clauseOperations c) part outcome ∧
    ∀ failure, outcome = some failure → failure.isRecoverable = true

/-- The clauses for which nothing timed out, of clauses with the parts of a record for them. -/
def keptClauses (cs : List Clause) (parts : List (List Performed)) : List Clause :=
  ((cs.zip parts).filter fun p => !timedOut p.2).map Prod.fst

/-- The number of parts of a record in which something timed out. -/
def timeouts (parts : List (List Performed)) : Nat := parts.countP timedOut

/-- Whether what comes before the clauses never times out. -/
structure Engine.PreparesInTime (e : Engine σ) : Prop where
  one {s : σ} {failure : Failure} : (e.one.run s).1 = .error failure → failure.isRecoverable = false
  declare {count : Nat} {s : σ} {failure : Failure} :
    ((e.declare count).run s).1 = .error failure → failure.isRecoverable = false
  setOrder {order : List Nat} {s : σ} {failure : Failure} :
    ((e.setOrder order).run s).1 = .error failure → failure.isRecoverable = false

namespace Compilation

variable {m : Manager σ} {C : m.engine.Contract} {s : σ} {refs : Multiset NodeRef}

/-! ### Clauses -/

theorem disjoin_does {disjunction : NodeRef} (hs : C.holds s (disjunction ::ₘ refs))
    {ls : List Literal} (hls : ∀ l ∈ ls, 1 ≤ l.var) :
    (m.semantics C).Does (disjoin m.recorded disjunction ls) (disjoin m disjunction ls) s refs
      (ls.flatMap fun l => m.literalOperations l ++ [.apply .or])
      ((m.semantics C).Hands refs fun assignment =>
        (m.semantics C).meaning s disjunction assignment || ls.any (·.eval assignment)) := by
  induction ls generalizing s disjunction with
  | nil =>
    refine .pure ⟨hs, ?_⟩
    funext assignment
    exact (Bool.or_false _).symm
  | cons l ls ih =>
    rw [List.flatMap_cons, List.append_assoc]
    refine Manager.does_attempt (Manager.literal_does hs (hls l List.mem_cons_self))
      fun literal s₁ hagrees₁ ⟨hholds₁, hmeaning₁⟩ => ?_
    rw [Multiset.cons_swap] at hholds₁
    refine (Manager.apply_does .or hholds₁).bind fun next s₂ hagrees₂ ⟨hholds₂, hmeaning₂⟩ => ?_
    have hrest := ih hholds₂ fun l' hl' => hls l' (List.mem_cons_of_mem l hl')
    have hmeaning (assignment : Nat → Bool) : ((m.semantics C).meaning s₂ next assignment ||
          ls.any (·.eval assignment)) =
        ((m.semantics C).meaning s disjunction assignment ||
          (l :: ls).any (·.eval assignment)) := by
      rw [hmeaning₂, Manager.combined, hmeaning₁, hagrees₁ _ (Multiset.mem_cons_self _ _)]
      exact Bool.or_assoc _ _ _
    simpa only [hmeaning] using hrest

theorem clauseDiagram_does (hs : C.holds s refs) {c : Clause} (hc : ∀ l ∈ c.literals, 1 ≤ l.var) :
    (m.semantics C).Does (clauseDiagram m.recorded c) (clauseDiagram m c) s refs
      (.zero :: c.literals.flatMap fun l => m.literalOperations l ++ [.apply .or])
      ((m.semantics C).Hands refs c.eval) := by
  have hzero : (m.semantics C).Does m.recorded.zero m.zero s refs [.zero]
      ((m.semantics C).Hands refs fun _ => false) :=
    Manager.does_of_recorded (C.zero hs) (fun _ => rfl) .zero
  refine hzero.bind fun node s' _ ⟨hholds, hmeaning⟩ => ?_
  have hdisjoin := disjoin_does hholds hc
  rw [hmeaning] at hdisjoin
  exact hdisjoin

theorem conjoinClause_does {accumulator : NodeRef} (hs : C.holds s (accumulator ::ₘ refs))
    {c : Clause} (hc : ∀ l ∈ c.literals, 1 ≤ l.var) :
    (m.semantics C).Does (conjoinClause m.recorded accumulator c) (conjoinClause m accumulator c) s
      (accumulator ::ₘ refs) (m.clauseOperations c)
      ((m.semantics C).Hands (accumulator ::ₘ refs) fun assignment =>
        (m.semantics C).meaning s accumulator assignment && c.eval assignment) := by
  refine (clauseDiagram_does hs hc).bind fun clause s' hagrees ⟨hholds, hmeaning⟩ => ?_
  have hand := Manager.applyRetaining_does hholds .and
    (Multiset.mem_cons_of_mem (Multiset.mem_cons_self _ _)) (Multiset.mem_cons_self _ _)
  have hcombined : m.combined C s' .and accumulator clause = fun assignment =>
      (m.semantics C).meaning s accumulator assignment && c.eval assignment := by
    funext assignment
    rw [Manager.combined, hmeaning, hagrees _ (Multiset.mem_cons_self _ _)]
    rfl
  rw [hcombined] at hand
  exact Manager.does_release hand

/-! ### Conjunctions -/

theorem timedOut_eq {operations : List Operation} {part : List Performed}
    {outcome : Option Failure} (h : WorksOff operations part outcome) :
    timedOut part = outcome.any Failure.isRecoverable := by
  induction h with
  | done => rfl
  | succeed operation _ ih => rw [timedOut, List.any_cons]; exact ih
  | fail operation operations failure => simp [timedOut]

/-- What conjoining clauses onto a diagram comes to: each clause has its part of the record, what the
result stands for is the conjunction of those for which nothing timed out, and the others are
counted. -/
structure Conjoins (m : Manager σ) (M : Semantics σ) (refs : Multiset NodeRef)
    (f : (Nat → Bool) → Bool) (cs : List Clause) (parts : List (List Performed))
    (node : NodeRef) (s : σ) : Prop where
  work : List.Forall₂ m.IsWorkOn cs parts
  holds : M.holds s (node ::ₘ refs)
  meaning (assignment : Nat → Bool) :
    M.meaning s node assignment = (f assignment && (keptClauses cs parts).all (·.eval assignment))

theorem keptClauses_of_timedOut {part : List Performed} (h : timedOut part = true) (c : Clause)
    (cs : List Clause) (parts : List (List Performed)) :
    keptClauses (c :: cs) (part :: parts) = keptClauses cs parts := by
  rw [keptClauses, List.zip_cons_cons, List.filter_cons_of_neg (by simp [h])]
  rfl

theorem keptClauses_of_not_timedOut {part : List Performed} (h : timedOut part = false) (c : Clause)
    (cs : List Clause) (parts : List (List Performed)) :
    keptClauses (c :: cs) (part :: parts) = c :: keptClauses cs parts := by
  rw [keptClauses, List.zip_cons_cons, List.filter_cons_of_pos (by simp [h])]
  rfl

theorem subset_of_keptClauses (cs : List Clause) (parts : List (List Performed)) :
    keptClauses cs parts ⊆ cs := by
  intro c hc
  obtain ⟨⟨c, part⟩, hp, rfl⟩ := List.mem_map.1 hc
  exact (List.of_mem_zip (List.mem_filter.1 hp).1).1

theorem keptClauses_of_timeouts_eq_zero {cs : List Clause} {parts : List (List Performed)}
    (hlength : cs.length = parts.length) (h : timeouts parts = 0) : keptClauses cs parts = cs := by
  have hall : ∀ p ∈ cs.zip parts, (!timedOut p.2) = true := fun p hp => by
    simpa using List.countP_eq_zero.1 h p.2 (List.of_mem_zip hp).2
  rw [keptClauses, List.filter_eq_self.2 hall]
  exact List.map_fst_zip (Nat.le_of_eq hlength)

theorem isRecoverable_of_work {cs : List Clause} {parts : List (List Performed)}
    (h : List.Forall₂ m.IsWorkOn cs parts) {p : Performed} (hp : p ∈ parts.flatten)
    {failure : Failure} (hfailure : p.failure = some failure) : failure.isRecoverable = true := by
  induction h with
  | nil => exact absurd hp (by simp)
  | @cons c part cs parts hwork _ ih =>
    rw [List.flatten_cons] at hp
    rcases List.mem_append.1 hp with hp | hp
    · obtain ⟨outcome, hworks, hrecoverable⟩ := hwork
      exact hrecoverable failure (hworks.exists_failed_iff.1 ⟨p, hp, hfailure⟩)
    · exact ih hp

namespace Conjoins

variable {M : Semantics σ} {f : (Nat → Bool) → Bool} {c : Clause} {cs : List Clause}
  {part : List Performed} {parts : List (List Performed)} {node : NodeRef}

theorem kept (h : Conjoins m M refs (fun assignment => f assignment && c.eval assignment) cs parts
      node s) (hpart : WorksOff (m.clauseOperations c) part none) :
    Conjoins m M refs f (c :: cs) (part :: parts) node s where
  work := .cons ⟨none, hpart, by simp⟩ h.work
  holds := h.holds
  meaning assignment := by
    rw [h.meaning assignment, keptClauses_of_not_timedOut (timedOut_eq hpart), List.all_cons,
      Bool.and_assoc]

theorem givenUp (h : Conjoins m M refs f cs parts node s) {failure : Failure}
    (hpart : WorksOff (m.clauseOperations c) part (some failure))
    (hfailure : failure.isRecoverable = true) :
    Conjoins m M refs f (c :: cs) (part :: parts) node s where
  work := .cons ⟨some failure, hpart, fun _ hsome => Option.some.inj hsome ▸ hfailure⟩ h.work
  holds := h.holds
  meaning assignment := by
    rw [h.meaning assignment, keptClauses_of_timedOut ((timedOut_eq hpart).trans hfailure)]

end Conjoins

section Run

variable {accumulator next : NodeRef} {c : Clause} {s' : σ} {failure : Failure}

theorem run_conjoin_kept (h : (conjoinClause m accumulator c).run s = (.ok next, s'))
    (skipped : Nat) (cs : List Clause) :
    (conjoin m accumulator skipped (c :: cs)).run s =
      (conjoin m next skipped cs).run (m.release accumulator s') := by
  have hattempt : (conjoinClause m accumulator c).attempt.run s = (.ok (.ok next), s') := by
    rw [Action.run_attempt, h]
  rw [conjoin, Action.run_bind_of_ok hattempt]
  exact Action.run_bind_of_ok (Action.run_change _ s') _

theorem run_conjoin_of_error (h : (conjoinClause m accumulator c).run s = (.error failure, s'))
    (skipped : Nat) (cs : List Clause) :
    (conjoin m accumulator skipped (c :: cs)).run s =
      if failure.isRecoverable then (conjoin m accumulator (skipped + 1) cs).run s'
      else (.error failure, m.release accumulator s') := by
  have hattempt : (conjoinClause m accumulator c).attempt.run s = (.ok (.error failure), s') := by
    rw [Action.run_attempt, h]
  rw [conjoin, Action.run_bind_of_ok hattempt]
  simp only
  split <;> rfl

end Run

/-- What conjoining clauses comes to: the conjunction of those for which nothing timed out, or the
failure of an operation for one of them, and then nothing of it is held. -/
inductive ConjoinComesTo (m : Manager σ) (M : Semantics σ) (refs : Multiset NodeRef)
    (f : (Nat → Bool) → Bool) (cs : List Clause) (skipped : Nat) (log : List Performed) (s : σ) :
    Except Failure (NodeRef × Nat) → Prop
  | failed {failure : Failure} (hfailure : failure.isRecoverable = false)
      (hlog : ∃ p ∈ log, p.failure = some failure) (hholds : M.holds s refs) :
      ConjoinComesTo m M refs f cs skipped log s (.error failure)
  | conjoined {node : NodeRef} {parts : List (List Performed)} (hlog : log = parts.flatten)
      (h : Conjoins m M refs f cs parts node s) :
      ConjoinComesTo m M refs f cs skipped log s (.ok (node, skipped + timeouts parts))

namespace ConjoinComesTo

variable {M : Semantics σ} {f : (Nat → Bool) → Bool} {c : Clause} {cs : List Clause} {skipped : Nat}
  {part log : List Performed} {answer : Except Failure (NodeRef × Nat)}

theorem kept (h : ConjoinComesTo m M refs (fun assignment => f assignment && c.eval assignment) cs
      skipped log s answer) (hpart : WorksOff (m.clauseOperations c) part none) :
    ConjoinComesTo m M refs f (c :: cs) skipped (part ++ log) s answer := by
  cases h with
  | failed hfailure hlog hholds =>
    obtain ⟨p, hp, hpfailure⟩ := hlog
    exact .failed hfailure ⟨p, List.mem_append_right _ hp, hpfailure⟩ hholds
  | @conjoined node parts hlog h =>
    have hcount : timeouts (part :: parts) = timeouts parts :=
      List.countP_cons_of_neg (by simp [timedOut_eq hpart])
    rw [← hcount]
    exact .conjoined (congrArg (part ++ ·) hlog) (h.kept hpart)

theorem givenUp (h : ConjoinComesTo m M refs f cs (skipped + 1) log s answer) {failure : Failure}
    (hpart : WorksOff (m.clauseOperations c) part (some failure))
    (hfailure : failure.isRecoverable = true) :
    ConjoinComesTo m M refs f (c :: cs) skipped (part ++ log) s answer := by
  cases h with
  | failed hlast hlog hholds =>
    obtain ⟨p, hp, hpfailure⟩ := hlog
    exact .failed hlast ⟨p, List.mem_append_right _ hp, hpfailure⟩ hholds
  | @conjoined node parts hlog h =>
    have hcount : timeouts (part :: parts) = timeouts parts + 1 :=
      List.countP_cons_of_pos ((timedOut_eq hpart).trans hfailure)
    have hskipped : skipped + 1 + timeouts parts = skipped + timeouts (part :: parts) := by omega
    rw [hskipped]
    exact .conjoined (congrArg (part ++ ·) hlog) (h.givenUp hpart hfailure)

end ConjoinComesTo

theorem conjoin_comesTo {accumulator : NodeRef} (hs : C.holds s (accumulator ::ₘ refs))
    (skipped : Nat) {cs : List Clause} (hcs : ∀ c ∈ cs, ∀ l ∈ c.literals, 1 ≤ l.var) :
    ∃ answer s' log, (conjoin m accumulator skipped cs).run s = (answer, s') ∧
      Records (conjoin m.recorded accumulator skipped cs) (conjoin m accumulator skipped cs) s log ∧
      (m.semantics C).Agrees refs s s' ∧
      ConjoinComesTo m (m.semantics C) refs ((m.semantics C).meaning s accumulator) cs skipped log s'
        answer := by
  induction cs generalizing s accumulator skipped with
  | nil =>
    have hconjoins : Conjoins m (m.semantics C) refs ((m.semantics C).meaning s accumulator) [] []
        accumulator s := ⟨.nil, hs, fun assignment => (Bool.and_true _).symm⟩
    exact ⟨_, s, [], rfl, fun before => by rw [List.append_nil]; rfl, fun _ _ => rfl,
      .conjoined rfl hconjoins⟩
  | cons c cs ih =>
    have hrest : ∀ c' ∈ cs, ∀ l ∈ c'.literals, 1 ≤ l.var :=
      fun c' hc' => hcs c' (List.mem_cons_of_mem c hc')
    rcases (conjoinClause_does hs (hcs c List.mem_cons_self)).cases with
      ⟨failure, s₁, part, hrun, hrecords, hworks, hstays⟩ |
      ⟨next, s₁, part, hrun, hrecords, hworks, hagrees, hholds, hmeaning⟩
    · have hstep := run_conjoin_of_error hrun skipped cs
      have hstep' (before : List Performed) := run_conjoin_of_error
        (m := m.recorded) ((hrecords before).trans (by rw [hrun])) skipped cs
      by_cases hfailure : failure.isRecoverable = true
      · -- The clause is given up, and the diagram from before it is still held.
        obtain ⟨answer, s', log, hlater, hrecords', hagrees', hcomes⟩ :=
          ih hstays.holds (skipped + 1) hrest
        simp only [if_pos hfailure] at hstep hstep'
        rw [hstays.agrees _ (Multiset.mem_cons_self _ _)] at hcomes
        refine ⟨answer, s', part ++ log, hstep.trans hlater, fun before => ?_,
          hstays.agrees.of_cons.trans hagrees', hcomes.givenUp hworks hfailure⟩
        rw [hstep', hrecords', hstep, List.append_assoc]
      · simp only [if_neg hfailure] at hstep hstep'
        have hreleased := Manager.stays_release (m := m) hstays.holds
        refine ⟨.error failure, m.release accumulator s₁, part, hstep, fun before => ?_,
          hstays.agrees.of_cons.trans hreleased.agrees, .failed (by simpa using hfailure)
            (hworks.exists_failed_iff.2 rfl) hreleased.holds⟩
        rw [hstep', hstep]
        rfl
    · have hstep := run_conjoin_kept hrun skipped cs
      have hstep' (before : List Performed) := run_conjoin_kept
        (m := m.recorded) ((hrecords before).trans (by rw [hrun])) skipped cs
      rw [Multiset.cons_swap] at hholds
      have hreleased := Manager.stays_release (m := m) hholds
      obtain ⟨answer, s', log, hlater, hrecords', hagrees', hcomes⟩ :=
        ih hreleased.holds skipped hrest
      rw [hreleased.agrees _ (Multiset.mem_cons_self _ _), hmeaning] at hcomes
      refine ⟨answer, s', part ++ log, hstep.trans hlater, fun before => ?_,
        (hagrees.of_cons.trans hreleased.agrees.of_cons).trans hagrees', hcomes.kept hworks⟩
      rw [hstep', hstep, ← List.append_assoc]
      exact hrecords' _

/-! ### Compilations -/

theorem does_of_stays {a : Action σ Unit} (h : C.Stays s refs (a.run s).2) (operation : Operation) :
    (m.semantics C).Does (a.recorded operation) a s refs [operation] fun _ s' => C.holds s' refs where
  agrees := Manager.semantics_agrees h.agrees
  ok _ := h.holds
  error _ := h.holds
  records := ⟨_, .of_recorded a operation s, .single operation _⟩

theorem declareVars_does (hs : C.holds s refs) (count : Nat) :
    (m.semantics C).Does (m.recorded.declareVars count) (m.declareVars count) s refs
      (if m.capabilities.declaresVars ∧ 0 < count then [.declare count] else [])
      fun _ s' => C.holds s' refs := by
  by_cases hdeclares : m.capabilities.declaresVars = true ∧ 0 < count
  · have hplain : m.declareVars count = m.engine.declare count := if_pos hdeclares
    have hrecorded : m.recorded.declareVars count =
        (m.engine.declare count).recorded (.declare count) := if_pos hdeclares
    rw [if_pos hdeclares, hplain, hrecorded]
    exact does_of_stays (C.declare hs count) _
  · have hplain : m.declareVars count = pure () := if_neg hdeclares
    have hrecorded : m.recorded.declareVars count = pure () := if_neg hdeclares
    rw [if_neg hdeclares, hplain, hrecorded]
    exact .pure hs

theorem setOrder_does (hs : C.holds s refs) (o : VariableOrder) :
    (m.semantics C).Does (m.recorded.setOrder o) (m.setOrder o) s refs
      [.setOrder (o.toList.map m.engineVar)] fun _ s' => C.holds s' refs :=
  does_of_stays (C.setOrder hs (m.perm_engineVars o)) _

theorem prepare_does (hs : C.holds s refs) (f : Formula) {order : Option VariableOrder}
    (horder : ∀ o, order = some o → o.length = f.varCount) :
    (m.semantics C).Does (prepare m.recorded f order) (prepare m f order) s refs
      (m.preparations f order) fun _ s' => C.holds s' refs := by
  rw [prepare.eq_def, prepare.eq_def, Manager.preparations.eq_def]
  refine (declareVars_does hs f.varCount).bind fun _ s₁ _ hholds => ?_
  cases order with
  | none => exact .pure hholds
  | some o =>
    simp only [horder o rfl, ne_eq, not_true_eq_false, if_false]
    by_cases hempty : o.isEmpty = true
    · rw [if_pos hempty, if_pos hempty, if_pos hempty]
      exact .pure hholds
    · rw [if_neg hempty, if_neg hempty, if_neg hempty]
      exact setOrder_does hholds o

theorem isRecoverable_of_prepare (hprompt : m.engine.PreparesInTime) {f : Formula}
    {order : Option VariableOrder} {failure : Failure} {s' : σ}
    (h : (prepare m f order).run s = (.error failure, s')) : failure.isRecoverable = false := by
  rw [prepare.eq_def] at h
  rcases hrun : (m.declareVars f.varCount).run s with ⟨answer, s₁⟩
  cases answer with
  | error early =>
    rw [Action.run_bind_of_error hrun] at h
    obtain rfl := Except.error.inj (congrArg Prod.fst h)
    rw [Manager.declareVars] at hrun
    split at hrun
    · exact hprompt.declare (congrArg Prod.fst hrun)
    · exact absurd (congrArg Prod.fst hrun) (by simp)
  | ok _ =>
    rw [Action.run_bind_of_ok hrun] at h
    cases order with
    | none => exact absurd (congrArg Prod.fst h) (by simp)
    | some o =>
      simp only at h
      split at h
      · obtain rfl := Except.error.inj (congrArg Prod.fst h)
        rfl
      · split at h
        · exact absurd (congrArg Prod.fst h) (by simp)
        · exact hprompt.setOrder (congrArg Prod.fst h)

section Run

variable {f : Formula} {order : Option VariableOrder} {s₁ s₂ s₃ : σ}

/-- The compilation with a diagram and a number of clauses given up, between two states. -/
def compiled (m : Manager σ) (f : Formula) (started ended : σ) (conjoined : NodeRef × Nat) :
    Compilation where
  diagram := conjoined.1
  skipped := conjoined.2
  metadata := (Dictionary.empty : Metadata).insertAll
    [(runtimeKey, (m.engine.now ended - m.engine.now started).secondsText),
      (skippedKey, Numeral.text conjoined.2), (clausesKey, Numeral.text f.clauses.length)]

theorem get?_metadata_compiled (conjoined : NodeRef × Nat) :
    (compiled m f s₁ s₂ conjoined).metadata.get? skippedKey =
      some (Numeral.text conjoined.2) := by
  have hclauses : clausesKey ≠ skippedKey := by decide
  simp [compiled, Dictionary.insertAll, hclauses]

theorem run_compile_of_error (hprepare : (prepare m f order).run s = (.ok (), s₁))
    {failure : Failure} (hone : m.one.run s₁ = (.error failure, s₂)) :
    (compile m f order).run s = (.error failure, s₂) := by
  rw [compile, Action.run_bind_of_ok hprepare, Action.run_bind_of_ok (Action.run_reading _ _),
    Action.run_bind_of_error hone]

theorem run_compile_of_ok (hprepare : (prepare m f order).run s = (.ok (), s₁))
    {accumulator : NodeRef} (hone : m.one.run s₁ = (.ok accumulator, s₂))
    {answer : Except Failure (NodeRef × Nat)}
    (hconjoin : (conjoin m accumulator 0 f.clauses).run s₂ = (answer, s₃)) :
    (compile m f order).run s = (answer.map (compiled m f s₁ s₃), s₃) := by
  rw [compile, Action.run_bind_of_ok hprepare, Action.run_bind_of_ok (Action.run_reading _ _),
    Action.run_bind_of_ok hone]
  cases answer with
  | error failure => rw [Action.run_bind_of_error hconjoin]; rfl
  | ok conjoined =>
    rw [Action.run_bind_of_ok hconjoin, Action.run_bind_of_ok (Action.run_reading _ _)]
    rfl

theorem records_compile {log₁ log₂ log₃ : List Performed}
    (hprepare : (prepare m f order).run s = (.ok (), s₁))
    (hrecords₁ : Records (prepare m.recorded f order) (prepare m f order) s log₁)
    {accumulator : NodeRef} (hone : m.one.run s₁ = (.ok accumulator, s₂))
    (hrecords₂ : Records m.recorded.one m.one s₁ log₂)
    {answer : Except Failure (NodeRef × Nat)}
    (hconjoin : (conjoin m accumulator 0 f.clauses).run s₂ = (answer, s₃))
    (hrecords₃ : Records (conjoin m.recorded accumulator 0 f.clauses)
      (conjoin m accumulator 0 f.clauses) s₂ log₃) :
    Records (compile m.recorded f order) (compile m f order) s (log₁ ++ log₂ ++ log₃) := by
  intro before
  have hprepare' : (prepare m.recorded f order).run (s, before) = (.ok (), s₁, before ++ log₁) := by
    rw [hrecords₁, hprepare]
  have hone' : m.recorded.one.run (s₁, before ++ log₁) =
      (.ok accumulator, s₂, (before ++ log₁) ++ log₂) := by rw [hrecords₂, hone]
  have hconjoin' : (conjoin m.recorded accumulator 0 f.clauses).run
      (s₂, (before ++ log₁) ++ log₂) = (answer, s₃, ((before ++ log₁) ++ log₂) ++ log₃) := by
    rw [hrecords₃, hconjoin]
  rw [run_compile_of_ok hprepare' hone' hconjoin', run_compile_of_ok hprepare hone hconjoin,
    ← List.append_assoc, ← List.append_assoc]
  rfl

end Run

/-- What a compiled formula comes to: after some preparations each clause has its part of the record,
and the clauses for which something timed out are counted. -/
structure Accounts (m : Manager σ) (M : Semantics σ) (refs : Multiset NodeRef) (f : Formula)
    (order : Option VariableOrder) (c : Compilation) (log : List Performed)
    (parts : List (List Performed)) (s : σ) : Prop where
  log_eq : ∃ front, WorksOff (m.preparations f order ++ [.one]) front none ∧
    log = front ++ parts.flatten
  conjoins : Conjoins m M refs (fun _ => true) f.clauses parts c.diagram s
  skipped : c.skipped = timeouts parts
  metadata : c.metadata.get? skippedKey = some (Numeral.text c.skipped)

/-- What a compilation comes to: a formula, or the failure of an operation, and then nothing of it
is held. -/
inductive CompileComesTo (m : Manager σ) (M : Semantics σ) (refs : Multiset NodeRef) (f : Formula)
    (order : Option VariableOrder) (log : List Performed) (s : σ) : Except Failure Compilation → Prop
  | failed {failure : Failure} (hfailure : failure.isRecoverable = false)
      (hlog : ∃ p ∈ log, p.failure = some failure) (hholds : M.holds s refs) :
      CompileComesTo m M refs f order log s (.error failure)
  | compiled {c : Compilation} {parts : List (List Performed)}
      (h : Accounts m M refs f order c log parts s) : CompileComesTo m M refs f order log s (.ok c)

theorem compile_comesTo (hprompt : m.engine.PreparesInTime) (hs : C.holds s refs) (f : Formula)
    {order : Option VariableOrder} (horder : ∀ o, order = some o → o.length = f.varCount) :
    ∃ answer s' log, (compile m f order).run s = (answer, s') ∧
      Records (compile m.recorded f order) (compile m f order) s log ∧
      (m.semantics C).Agrees refs s s' ∧
      CompileComesTo m (m.semantics C) refs f order log s' answer := by
  rcases (prepare_does (m := m) hs f horder).cases with
    ⟨failure, s₁, log, hprepare, hrecords, hworks, hstays⟩ |
    ⟨_, s₁, log₁, hprepare, hrecords₁, hworks₁, hagrees₁, hholds₁⟩
  · exact ⟨.error failure, s₁, log, Action.run_bind_of_error hprepare _,
      hrecords.bind_of_error hprepare _ _, hstays.agrees,
      .failed (isRecoverable_of_prepare hprompt hprepare) (hworks.exists_failed_iff.2 rfl)
        hstays.holds⟩
  have hprepare' (before : List Performed) :
      (prepare m.recorded f order).run (s, before) = (.ok (), s₁, before ++ log₁) := by
    rw [hrecords₁, hprepare]
  have hone : (m.semantics C).Does m.recorded.one m.one s₁ refs [.one]
      ((m.semantics C).Hands refs fun _ => true) :=
    Manager.does_of_recorded (C.one hholds₁) (fun _ => rfl) .one
  rcases hone.cases with ⟨failure, s₂, log₂, hone, hrecords₂, hworks₂, hstays⟩ |
    ⟨accumulator, s₂, log₂, hone, hrecords₂, hworks₂, hagrees₂, hholds₂, hmeaning⟩
  · have hrun := run_compile_of_error hprepare hone
    refine ⟨.error failure, s₂, log₁ ++ log₂, hrun, fun before => ?_,
      hagrees₁.trans hstays.agrees, .failed (hprompt.one (congrArg Prod.fst hone))
        ((hworks₁.append hworks₂).exists_failed_iff.2 rfl) hstays.holds⟩
    have hone' : m.recorded.one.run (s₁, before ++ log₁) =
        (.error failure, s₂, (before ++ log₁) ++ log₂) := by rw [hrecords₂, hone]
    rw [run_compile_of_error (hprepare' before) hone', hrun, List.append_assoc]
  obtain ⟨answer, s₃, log₃, hconjoin, hrecords₃, hagrees₃, hcomes⟩ :=
    conjoin_comesTo hholds₂ 0 fun c hc l hl => f.one_le_var hc (List.mem_map_of_mem hl)
  have hrun := run_compile_of_ok hprepare hone hconjoin
  rw [hmeaning] at hcomes
  refine ⟨_, s₃, log₁ ++ log₂ ++ log₃, hrun,
    records_compile hprepare hrecords₁ hone hrecords₂ hconjoin hrecords₃,
    (hagrees₁.trans hagrees₂).trans hagrees₃, ?_⟩
  cases hcomes with
  | failed hfailure hlog hholds =>
    obtain ⟨p, hp, hpfailure⟩ := hlog
    exact .failed hfailure ⟨p, List.mem_append_right _ hp, hpfailure⟩ hholds
  | @conjoined node parts hlog h =>
    exact .compiled ⟨⟨log₁ ++ log₂, hworks₁.append hworks₂, by rw [hlog]⟩, h,
      Nat.zero_add _, get?_metadata_compiled _⟩

end Compilation

/-- A compilation fails exactly if an operation fails otherwise than by timing out. -/
theorem Compilation.CompileComesTo.exists_error_iff {m : Manager σ} {M : Semantics σ}
    {refs : Multiset NodeRef} {f : Formula} {order : Option VariableOrder} {log : List Performed}
    {s : σ} {answer : Except Failure Compilation}
    (h : Compilation.CompileComesTo m M refs f order log s answer) :
    (∃ failure, answer = .error failure) ↔
      ∃ p ∈ log, ∃ failure, p.failure = some failure ∧ failure.isRecoverable = false := by
  cases h with
  | failed hfailure hlog _ =>
    obtain ⟨p, hp, hpfailure⟩ := hlog
    exact ⟨fun _ => ⟨p, hp, _, hpfailure, hfailure⟩, fun _ => ⟨_, rfl⟩⟩
  | compiled h =>
    refine ⟨fun ⟨failure, herror⟩ => absurd herror (by simp), ?_⟩
    rintro ⟨p, hp, failure, hpfailure, hfailure⟩
    obtain ⟨front, hfront, rfl⟩ := h.log_eq
    rcases List.mem_append.1 hp with hp | hp
    · exact absurd (hfront.exists_failed_iff.1 ⟨p, hp, hpfailure⟩) (by simp)
    · rw [isRecoverable_of_work h.conjoins.work hp hpfailure] at hfailure
      exact absurd hfailure (by simp)

/-- However the operations of an engine fail, a compilation fails exactly if one of the operations
that it performs fails otherwise than by timing out. What a compiled formula stands for is the
conjunction of the clauses for which no operation timed out; the others are counted as skipped. So it
holds wherever the formula does, and nowhere else if nothing was skipped. -/
theorem timeouts_drop_whole_clauses {σ : Type} (m : Manager σ) (C : m.engine.Contract)
    (hprompt : m.engine.PreparesInTime) (f : Formula) (order : Option VariableOrder)
    (horder : ∀ o, order = some o → o.length = f.varCount) (s : σ) (refs : Multiset NodeRef)
    (hs : C.holds s refs) :
    ∃ answer s' log, (Compilation.compile m f order).run s = (answer, s') ∧
      (Compilation.compile m.recorded f order).run (s, []) = (answer, s', log) ∧
      ((∃ failure, answer = .error failure) ↔
        ∃ p ∈ log, ∃ failure, p.failure = some failure ∧ failure.isRecoverable = false) ∧
      (∀ failure, answer = .error failure → C.holds s' refs) ∧
      ∀ c, answer = .ok c → C.holds s' (c.diagram ::ₘ refs) ∧
        ∃ front parts, log = front ++ parts.flatten ∧
          WorksOff (m.preparations f order ++ [.one]) front none ∧
          List.Forall₂ m.IsWorkOn f.clauses parts ∧
          (∀ assignment, (m.semantics C).meaning s' c.diagram assignment =
            (keptClauses f.clauses parts).all (·.eval assignment)) ∧
          c.skipped = timeouts parts ∧
          c.metadata.get? Compilation.skippedKey = some (Numeral.text (timeouts parts)) ∧
          (∀ assignment, f.eval assignment = true →
            (m.semantics C).meaning s' c.diagram assignment = true) ∧
          (c.skipped = 0 → (m.semantics C).meaning s' c.diagram = f.eval) := by
  obtain ⟨answer, s', log, hrun, hrecords, -, hcomes⟩ :=
    Compilation.compile_comesTo hprompt hs f horder
  refine ⟨answer, s', log, hrun, by rw [hrecords, hrun, List.nil_append],
    hcomes.exists_error_iff, ?_, ?_⟩
  · rintro failure rfl
    cases hcomes with
    | failed _ _ hholds => exact hholds
  · rintro c rfl
    cases hcomes with
    | @compiled c parts h =>
      obtain ⟨front, hfront, hlog⟩ := h.log_eq
      have hmeaning := h.conjoins.meaning
      simp only [Bool.true_and] at hmeaning
      refine ⟨h.conjoins.holds, front, parts, hlog, hfront, h.conjoins.work, hmeaning, h.skipped,
        h.skipped ▸ h.metadata, fun assignment heval => ?_, fun hzero => ?_⟩
      · rw [hmeaning, List.all_eq_true]
        exact fun c hc => List.all_eq_true.1 heval c (Compilation.subset_of_keptClauses _ _ hc)
      · funext assignment
        rw [hmeaning, Compilation.keptClauses_of_timeouts_eq_zero h.conjoins.work.length_eq
          (h.skipped.symm.trans hzero)]
        rfl

theorem Reference.preparesInTime : Reference.engine.PreparesInTime where
  one h := absurd h (by simp [engine, Action.run, handOut])
  declare {count} s failure h := by
    simp only [engine, declare] at h
    split at h
    · obtain rfl := Except.error.inj h
      rfl
    · split at h
      · obtain rfl := Except.error.inj h
        rfl
      · exact absurd h (by simp)
  setOrder {order} s failure h := by
    simp only [engine, Action.run, setOrder] at h
    split at h
    · obtain rfl := Except.error.inj h
      rfl
    · split at h
      · obtain rfl := Except.error.inj h
        rfl
      · exact absurd h (by simp)

/-- A formula of two empty clauses and the reference engine, whose first conjunction times out. -/
theorem timeout_drops_empty_clause :
    let f := Formula.ofClauses 1 [.ofLiterals [], .ofLiterals []]
    let m := Reference.manager none
    m.engine.PreparesInTime ∧ Reference.contract.holds (.fresh (some 1) .zero) 0 ∧
      ∃ c s' parts, (Compilation.compile m f none).run (.fresh (some 1) .zero) = (.ok c, s') ∧
        List.Forall₂ m.IsWorkOn f.clauses parts ∧ timeouts parts = 1 ∧ ∀ assignment,
          (m.semantics Reference.contract).meaning s' c.diagram assignment =
            (keptClauses f.clauses parts).all (·.eval assignment) := by
  intro f m
  have hheld : Reference.contract.holds (.fresh (some 1) .zero) 0 :=
    ⟨Reference.Table.sound_empty, fun _ hnode => absurd hnode (Multiset.notMem_zero _)⟩
  obtain ⟨answer, s', log, hrun, -, -, -, hok⟩ := timeouts_drop_whole_clauses m Reference.contract
    Reference.preparesInTime f none (by simp) (.fresh (some 1) .zero) 0 hheld
  have heval : (((Compilation.compile m f none).run (.fresh (some 1) .zero)).1.toOption.map
      (·.skipped)) = some 1 := by decide +kernel
  rw [hrun] at heval
  cases answer with
  | error failure => exact absurd heval (by simp [Except.toOption])
  | ok c =>
    obtain ⟨-, front, parts, -, -, hwork, hmeaning, hskipped, -⟩ := hok c rfl
    have hone : c.skipped = 1 := by simpa [Except.toOption] using heval
    exact ⟨Reference.preparesInTime, hheld, c, s', parts, hrun, hwork, hskipped.symm.trans hone,
      hmeaning⟩

end DiagramCompiler
