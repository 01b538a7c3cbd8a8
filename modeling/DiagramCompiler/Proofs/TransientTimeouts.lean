import DiagramCompiler.Proofs.RecordedRuns
import DiagramCompiler.Proofs.RunSequences

/-! Runs in which nothing times out.
A run that compiles gives clauses up only if operations time out. One that answers from the cache
performs no operation, but its report says what the run that stored the diagram said. So a timeout
can outlast the run it came in: neither the name of a diagram nor its digest tells whether clauses
are missing, and a run finds it however much time it has. -/
namespace DiagramCompiler

variable {σ : Type}

/-! ### Records in which nothing timed out -/

theorem timedOut_append (log log' : List Performed) :
    timedOut (log ++ log') = (timedOut log || timedOut log') := List.any_append

theorem timeouts_eq_zero_iff {parts : List (List Performed)} :
    timeouts parts = 0 ↔ timedOut parts.flatten = false := by
  induction parts with
  | nil => simp [timeouts, timedOut]
  | cons part parts ih =>
    rw [List.flatten_cons, timedOut_append, timeouts, List.countP_cons, Bool.or_eq_false_iff, ← ih,
      timeouts]
    cases timedOut part <;> simp

theorem Compilation.Accounts.skipped_eq_zero {m : Manager σ} {M : Semantics σ}
    {refs : Multiset NodeRef} {f : Formula} {order : Option VariableOrder} {c : Compilation}
    {log : List Performed} {parts : List (List Performed)} {s : σ}
    (h : Compilation.Accounts m M refs f order c log parts s) (htimely : timedOut log = false) :
    c.skipped = 0 := by
  obtain ⟨front, -, rfl⟩ := h.log_eq
  rw [timedOut_append, Bool.or_eq_false_iff] at htimely
  rw [h.skipped]
  exact timeouts_eq_zero_iff.2 htimely.2

theorem Manager.exists_of_run_dump {m : Manager σ} {node : NodeRef} {t t' : Recorded σ} {d : Dump}
    (h : (m.recorded.dump node).run t = (.ok d, t')) : ∃ log, t'.2 = t.2 ++ log := by
  obtain ⟨native, between, hdump, h⟩ := Action.exists_of_run_bind h
  obtain ⟨-, rfl⟩ := Prod.mk.inj h
  exact ⟨_, (congrArg (·.2.2) hdump).symm⟩

theorem Provider.exists_of_acquire_recorded {provider : Provider σ} {e : σ} {log : List Performed}
    {m' : Manager (Recorded σ)} {t : Recorded σ}
    (h : provider.recorded.acquire.run (e, log) = (.ok m', t)) :
    ∃ m e', provider.acquire.run e = (.ok m, e') ∧ m' = m.recorded ∧ t = (e', log) := by
  rw [provider.run_acquire_recorded] at h
  obtain ⟨hanswer, rfl⟩ := Prod.mk.inj h
  obtain ⟨m, hm, rfl⟩ := map_eq_ok_iff.1 hanswer
  exact ⟨m, _, Prod.ext hm rfl, rfl, rfl⟩

namespace Run

variable {o : Options} {conditions : Conditions} {provider : Provider σ} {input : Path}
  {content : Bytes} {report : Report} {f : Formula} {order : VariableOrder} {c : Compilation}
  {d : Dump} {e e' : σ} {t t' : Recorded σ}

theorem Compiles.skipped_eq_zero {m : Manager σ} {C : m.engine.Contract} (hs : C.holds t.1 0)
    (h : Compiles o m.recorded f order t c d t') (htimely : timedOut t'.2 = false) :
    c.skipped = 0 := by
  cases h with
  | @compiled t₁ t₂ _ hprepare hcompile hdump =>
    have hprepare' : (prepare o m f order).run t.1 = (.ok (), t₁.1) :=
      (projects_prepare o m f order).run_eq hprepare
    have hcompile' : (Compilation.compile m f none).run t₁.1 = (.ok c, t₂.1) :=
      (Compilation.projects_compile m f).run_eq hcompile
    obtain ⟨log, parts, hrecords, haccounts⟩ := Compilation.accounts_of_compile
      (holds_of_prepare hs hprepare') (by simp) hcompile'
    obtain ⟨last, hlast⟩ := Manager.exists_of_run_dump hdump
    have hlog : t₂.2 = t₁.2 ++ log := by
      have hrun := (hrecords t₁.2).symm.trans hcompile
      exact (congrArg (·.2.2) hrun).symm
    rw [hlast, hlog, timedOut_append, timedOut_append, Bool.or_eq_false_iff,
      Bool.or_eq_false_iff] at htimely
    exact haccounts.skipped_eq_zero htimely.1.2

theorem Produces.fromCache (h : Produces o conditions provider input content e report d e') :
    report.fromCache = false := by
  cases h
  rfl

theorem Produces.skipped_eq_zero (hprovider : provider.IsCorrect e) {before : List Performed}
    (h : Produces o conditions provider.recorded input content (e, before) report d t)
    (htimely : timedOut t.2 = false) : report.skipped = 0 := by
  cases h with
  | fresh path hread hsorted hacquire hcompiles =>
    obtain ⟨m, e', hacquire', rfl, rfl⟩ := Provider.exists_of_acquire_recorded hacquire
    obtain ⟨-, -, C, hholds, -⟩ := hprovider m e' hacquire'
    exact hcompiles.skipped_eq_zero (m := m) (C := C) hholds htimely

end Run

/-! ### Records of runs -/

def Call.performed (call : Call) (files : FileSystem) : List Performed :=
  ((Run.run call.options call.conditions call.provider.recorded call.input).run
    ⟨files, call.engine, []⟩).2.engine.2

theorem Call.exists_of_run_recorded {call : Call} {files files' : FileSystem}
    {answer : Except Failure Report} (h : call.run files = (answer, files')) :
    ∃ e, (Run.run call.options call.conditions call.provider.recorded call.input).run
      ⟨files, call.engine, []⟩ = (answer, ⟨files', e, call.performed files⟩) := by
  obtain ⟨e, hrun⟩ := Call.exists_of_run h
  have hprojects := Run.projects_run call.options call.conditions call.provider call.input
    ⟨files, call.engine, []⟩
  have hsame := hprojects.symm.trans hrun
  rw [Call.performed]
  generalize (Run.run call.options call.conditions call.provider.recorded call.input).run
    ⟨files, call.engine, []⟩ = found at hsame ⊢
  obtain ⟨answer', files'', e', log⟩ := found
  obtain ⟨rfl, hworld⟩ := Prod.mk.inj hsame
  obtain ⟨rfl, rfl⟩ := World.mk.inj hworld
  exact ⟨e', rfl⟩

namespace Sequence

section Reports

variable {c : Cache} {contents : Set Bytes} {s : State} {call : Call} {report : Report}
  {files : FileSystem}

namespace IsProper

theorem exists_leaves_recorded (hproper : IsProper c contents s.files call)
    (hs : s.IsSound c contents) (h : call.run s.files = (.ok report, files)) :
    ∃ content e, Run.Leaves call.options call.conditions call.provider.recorded
      (Entries contents c s.files s.past) call.input content ⟨s.files, call.engine, []⟩
      ⟨files, e, call.performed s.files⟩ report := by
  obtain ⟨e, hrun⟩ := Call.exists_of_run_recorded h
  have hprovider (m' : Manager (Recorded call.σ)) (t : Recorded call.σ)
      (hacquire : call.provider.recorded.acquire.run (call.engine, []) = (.ok m', t)) :
      m'.HasPlainReorderings := by
    obtain ⟨m, e', hacquire', rfl, -⟩ := Provider.exists_of_acquire_recorded hacquire
    exact hproper.reorderings m e' hacquire'
  obtain ⟨content, -, hleaves⟩ := (hproper.ends_run hs hprovider).ok hrun
  exact ⟨content, e, hleaves⟩

theorem performed_of_fromCache (hproper : IsProper c contents s.files call)
    (hs : s.IsSound c contents) (h : call.run s.files = (.ok report, files))
    (hcache : report.fromCache = true) : call.performed s.files = [] := by
  obtain ⟨content, e, hleaves⟩ := hproper.exists_leaves_recorded hs h
  cases hleaves with
  | cached _ _ _ hengine => exact congrArg Prod.snd hengine
  | stored hproduces _ => exact absurd (hproduces.fromCache.symm.trans hcache) (by simp)

theorem skipped_eq_zero (hproper : IsProper c contents s.files call) (hs : s.IsSound c contents)
    (h : call.run s.files = (.ok report, files)) (hfresh : report.fromCache = false)
    (htimely : timedOut (call.performed s.files) = false) : report.skipped = 0 := by
  obtain ⟨content, e, hleaves⟩ := hproper.exists_leaves_recorded hs h
  cases hleaves with
  | cached => exact absurd hfresh (by simp [Run.cachedReport])
  | stored hproduces _ => exact hproduces.skipped_eq_zero hproper.correct htimely

end IsProper

/-! ### What is reported -/

/-- Whether a report says that nothing was given up, and its dump has exactly the models of the
formula. -/
def IsExact (input : Path) (report : Report) (files : FileSystem) : Prop :=
  report.skipped = 0 ∧ ∃ d f, Dump.ofFile report.dumpPath files = .ok d ∧
    Formula.ofFile input files = .ok f ∧ ∀ values : List Bool, values.length = f.varCount →
      f.eval? values = some (d.diagram.holds values)

/-- When a run in which nothing times out answers after any runs and edits over a cache that was
empty at first, all on the same content, it is exact; or else its dump is in the cache since an
earlier run that gave clauses up, its report says how many, and the dump has more models. -/
theorem models_of_timely_run {content : Bytes} {files₀ : FileSystem} (htree : files₀.IsTree)
    (hempty : IsEmpty c files₀) (hreaches : Reaches c {content} ⟨files₀, []⟩ s)
    (hproper : IsProper c {content} s.files call) (hslash : '/' ∉ call.options.reordering.toList)
    (htimely : timedOut (call.performed s.files) = false)
    (h : call.run s.files = (.ok report, files)) :
    IsExact call.input report files ∨
      (report.fromCache = true ∧ 0 < report.skipped ∧
        (∃ p ∈ s.past, p.report.fromCache = false ∧ p.report.skipped = report.skipped ∧
          files.placeOf p.report.dumpPath = files.placeOf report.dumpPath) ∧
        ∃ d f, Dump.ofFile report.dumpPath files = .ok d ∧ Formula.ofFile call.input files = .ok f ∧
          ∀ values : List Bool, values.length = f.varCount →
            f.eval? values = some true → d.diagram.holds values = true) := by
  have hs := hreaches.isSound (isSound_start htree hempty)
  obtain ⟨d, f, p, hdump, hformula, hfor, hmade, hskipped, hplace, hfrom⟩ :=
    exists_accountsFor_of_run (Set.injOn_singleton _ _) htree hempty hreaches hproper hslash h
  by_cases hzero : report.skipped = 0
  · exact .inl ⟨hzero, d, f, hdump, hformula, fun values hvalues => (hfor.models hvalues).2 hzero⟩
  · have hcache : report.fromCache = true := by
      by_contra hfresh
      exact hzero (hproper.skipped_eq_zero hs h (by simpa using hfresh) htimely)
    have hp : p ∈ s.past := by
      rcases hfrom with hsame | hp
      · exact absurd (hmade.symm.trans (hsame ▸ hcache)) (by simp)
      · exact hp
    exact .inr ⟨hcache, Nat.pos_of_ne_zero hzero, ⟨p, hp, hmade, hskipped, hplace⟩, d, f, hdump,
      hformula, fun values hvalues => (hfor.models hvalues).1⟩

end Reports

/-! ### A timeout that lasts -/

namespace GivenUp

theorem exists_timely_run : ∃ s report files', Reaches cache {content} ⟨files, []⟩ s ∧
    IsProper cache {content} s.files (call none) ∧
    timedOut ((call none).performed s.files) = false ∧
    (call none).run s.files = (.ok report, files') ∧ report.skipped = 1 := by
  obtain ⟨s, report, files', hreaches, hproper, hrun, hcache, hskipped⟩ := exists_reaches
  have hs := hreaches.isSound (isSound_start isTree_files isEmpty_files)
  have htimely : timedOut ((call none).performed s.files) = false := by
    rw [hproper.performed_of_fromCache hs hrun hcache]
    rfl
  exact ⟨s, report, files', hreaches, hproper, htimely, hrun, hskipped⟩

/-- The second run performs nothing, but answers what the first one left. -/
theorem models_of_second_timely_run :
    files.IsTree ∧ IsEmpty cache files ∧ '/' ∉ (call none).options.reordering.toList ∧
      ∃ s report files', Reaches cache {content} ⟨files, []⟩ s ∧
        IsProper cache {content} s.files (call none) ∧
        timedOut ((call none).performed s.files) = false ∧
        (call none).run s.files = (.ok report, files') ∧
        (IsExact (call none).input report files' ∨
          (report.fromCache = true ∧ 0 < report.skipped ∧
            (∃ p ∈ s.past, p.report.fromCache = false ∧ p.report.skipped = report.skipped ∧
              files'.placeOf p.report.dumpPath = files'.placeOf report.dumpPath) ∧
            ∃ d f, Dump.ofFile report.dumpPath files' = .ok d ∧
              Formula.ofFile (call none).input files' = .ok f ∧
              ∀ values : List Bool, values.length = f.varCount →
                f.eval? values = some true → d.diagram.holds values = true)) := by
  have hslash : '/' ∉ (call none).options.reordering.toList := by decide
  obtain ⟨s, report, files', hreaches, hproper, htimely, hrun, -⟩ := exists_timely_run
  exact ⟨isTree_files, isEmpty_files, hslash, s, report, files', hreaches, hproper, htimely, hrun,
    models_of_timely_run isTree_files isEmpty_files hreaches hproper hslash htimely hrun⟩

end GivenUp

/-- Not every run in which nothing times out is exact: one may find the diagram of an earlier run, in
which a clause was given up. Nor is every such run exact if there was none before it: the name of its
reordering may lead out of the cache. -/
theorem not_exact_of_timely_run :
    (¬ ∀ (c : Cache) (content : Bytes) (files₀ files : FileSystem) (s : State) (call : Call)
      (report : Report), files₀.IsTree → IsEmpty c files₀ → Reaches c {content} ⟨files₀, []⟩ s →
        IsProper c {content} s.files call → '/' ∉ call.options.reordering.toList →
        timedOut (call.performed s.files) = false → call.run s.files = (.ok report, files) →
        IsExact call.input report files) ∧
      ¬ ∀ (c : Cache) (content : Bytes) (files₀ files : FileSystem) (call : Call) (report : Report),
        files₀.IsTree → IsEmpty c files₀ → IsProper c {content} files₀ call →
        timedOut (call.performed files₀) = false → call.run files₀ = (.ok report, files) →
        IsExact call.input report files := by
  constructor
  · intro hall
    obtain ⟨s, report, files', hreaches, hproper, htimely, hrun, hskipped⟩ :=
      GivenUp.exists_timely_run
    obtain ⟨hzero, -⟩ := hall _ _ _ files' s _ report GivenUp.isTree_files GivenUp.isEmpty_files
      hreaches hproper (by decide) htimely hrun
    rw [hskipped] at hzero
    exact absurd hzero (by simp)
  · intro hall
    obtain ⟨d, files', hrun, hdump, hformula, hfor⟩ := LedOut.exists_run
    have hs : State.IsSound GivenUp.cache {GivenUp.content} ⟨LedOut.files, []⟩ :=
      isSound_start LedOut.isTree_files LedOut.isEmpty_files
    have htimely : timedOut ((GivenUp.callWith LedOut.options none).performed LedOut.files) =
        false := by
      rw [LedOut.isProper_call.performed_of_fromCache hs hrun rfl]
      rfl
    obtain ⟨-, d', f, hdump', hformula', hexact⟩ := hall _ _ _ files' _ _ LedOut.isTree_files
      LedOut.isEmpty_files LedOut.isProper_call htimely hrun
    obtain rfl := Except.ok.inj (hdump.symm.trans hdump')
    obtain rfl := Except.ok.inj (hformula.symm.trans hformula')
    exact LedOut.eval_ne hfor (hexact [true] rfl)

end Sequence
end DiagramCompiler
