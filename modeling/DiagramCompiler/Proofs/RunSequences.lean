import Mathlib
import DiagramCompiler.Proofs.DescribedDumps
import DiagramCompiler.Proofs.RunOutcomes
import DiagramCompiler.Proofs.SortedClauses
import DiagramCompiler.Proofs.UndisturbedRuns

/-! Runs that follow one another over a cache.
Runs with any options and on any engines use one cache, and between them anyone may change what is
outside of it. Neither the name of an entry nor the digest in it says how many clauses its diagram
leaves out, or which of two inputs of one name it was made of. What is kept is that every diagram in
the cache accounts for what the input of some run held: of the run that stored it, whose report says
how many clauses were given up. -/
namespace DiagramCompiler

variable {σ : Type}

/-- Whether a manager runs an engine that keeps a contract, of which nothing is held yet, that writes
its diagrams down as they are, and that goes by plain names. -/
structure Manager.IsCorrect (m : Manager σ) (e : σ) : Prop where
  isPlain : m.IsPlain
  reorderings : m.HasPlainReorderings
  contract : ∃ C : m.engine.Contract, C.holds e 0 ∧ C.WritesDiagrams

def Provider.IsCorrect (provider : Provider σ) (e : σ) : Prop :=
  ∀ m e', provider.acquire.run e = (.ok m, e') → m.IsCorrect e'

/-! ### Dumps of one run -/

namespace Run

variable {o : Options} {conditions : Conditions} {provider : Provider σ} {input : Path}
  {content : Bytes} {report : Report} {d : Dump} {e e' : σ}

theorem holds_of_prepare {m : Manager σ} {C : m.engine.Contract} {refs : Multiset NodeRef}
    (hs : C.holds e refs) {f : Formula} {order : VariableOrder}
    (h : (prepare o m f order).run e = (.ok (), e')) : C.holds e' refs := by
  have hdeclare {e e' : σ} (hs : C.holds e refs)
      (h : (m.declareVars f.varCount).run e = (.ok (), e')) : C.holds e' refs := by
    rw [Manager.declareVars] at h
    split at h
    · have hstays := (C.declare hs f.varCount).holds
      rwa [h] at hstays
    · obtain ⟨-, rfl⟩ := Prod.mk.inj h
      exact hs
  have hreordering {e e' : σ} (hs : C.holds e refs)
      (h : (m.setReordering o.reordering).run e = (.ok (), e')) : C.holds e' refs := by
    rw [Manager.setReordering] at h
    split at h
    · have hstays := (C.disableReordering hs).holds
      rwa [h] at hstays
    · split at h
      · next id _ =>
        have hstays := (C.enableReordering hs id).holds
        rwa [h] at hstays
      · exact absurd (congrArg Prod.fst h) (by simp)
  obtain ⟨_, e₁, hdeclared, h⟩ := Action.exists_of_run_bind h
  have h₁ := hdeclare hs hdeclared
  split at h
  · obtain ⟨_, e₂, horder, h⟩ := Action.exists_of_run_bind h
    have hstays : C.holds ((m.setOrder order).run e₁).2 refs :=
      (C.setOrder h₁ (m.perm_engineVars order)).holds
    rw [horder] at hstays
    exact hreordering hstays h
  · exact hreordering h₁ h

/-- What a run makes accounts for what the input held, and its report says how many clauses were
given up. -/
theorem Produces.exists_accountsFor (h : Produces o conditions provider input content e report d e')
    (hprovider : provider.IsCorrect e) (hinput : '\n' ∉ input.text.toList)
    (hcount : ∀ g, Dimacs.read content = .ok g → g.clauses.length < UInt64.size) :
    report.fromCache = false ∧ d.Plain ∧ d.Fits ∧
      ∃ g, Dimacs.read content = .ok g ∧ d.AccountsFor g report.skipped := by
  cases h with
  | @fresh g f order m e₁ e₂ c d path hread hsorted hacquire hcompiles =>
    cases hcompiles with
    | compiled hprepare hcompile hdump =>
      obtain ⟨hplain, hreorderings, C, hholds, hwrites⟩ := hprovider m _ hacquire
      have ho := isPlain_of_prepare hreorderings hprepare
      obtain ⟨log, parts, -, haccounts⟩ := Compilation.accounts_of_compile
        (holds_of_prepare hholds hprepare) (by simp) hcompile
      have hlength : (ordered o conditions f).clauses.length < UInt64.size :=
        (perm_of_sorted hsorted).length_eq.trans_lt (hcount g hread)
      obtain ⟨hfits, hfor⟩ := haccounts.accountsFor hwrites hlength hdump o
      have heval : f.eval = (g.readFrom input content).eval := eval_of_sorted hsorted
      have hfrom : Formula.IsReadFrom input content (ordered o conditions f) :=
        .ordered o conditions (.read hread content) hsorted
      exact ⟨rfl, (Run.Makes.compiled hplain hcompile hdump).plain ho (hfrom.oneLine hinput), hfits,
        g, hread, hfor.congr heval⟩

end Run

/-! ### Runs one after the other -/

/-- A run on an input: its options, its conditions, and its engine. -/
structure Call where
  σ : Type
  options : Options
  conditions : Conditions
  provider : Provider σ
  engine : σ
  input : Path

/-- What a run answers, and the files after it. -/
def Call.run (call : Call) (files : FileSystem) : Except Failure Report × FileSystem :=
  match (Run.run call.options call.conditions call.provider call.input).run
    ⟨files, call.engine⟩ with
  | (answer, w) => (answer, w.files)

theorem Call.exists_of_run {call : Call} {files files' : FileSystem} {answer : Except Failure Report}
    (h : call.run files = (answer, files')) :
    ∃ e, (Run.run call.options call.conditions call.provider call.input).run ⟨files, call.engine⟩ =
      (answer, ⟨files', e⟩) := by
  obtain ⟨rfl, rfl⟩ := Prod.mk.inj h
  exact ⟨_, rfl⟩

theorem Call.run_eq (call : Call) {files : FileSystem} {answer : Except Failure Report}
    {w : World call.σ} (h : (Run.run call.options call.conditions call.provider call.input).run
      ⟨files, call.engine⟩ = (answer, w)) : call.run files = (answer, w.files) := by
  rw [Call.run, h]

namespace Sequence

/-- Whether a run uses a cache and a correct engine, on an input that lies outside the cache under a
path without line feeds and that holds one of some contents, and a formula of fewer clauses than a
word can count. -/
structure IsProper (c : Cache) (contents : Set Bytes) (files : FileSystem) (call : Call) : Prop where
  cache : files.placeOf call.options.cacheDirectory = files.placeOf c.directory
  isOutside : c.IsOutside files call.input
  oneLine : '\n' ∉ call.input.text.toList
  known {content : Bytes} : files.read call.input = .ok content → content ∈ contents
  count_lt {f : Formula} : Formula.ofFile call.input files = .ok f → f.clauses.length < UInt64.size
  correct : call.provider.IsCorrect call.engine

/-- A run that has answered: what its input held, and its report. -/
structure Past where
  content : Bytes
  report : Report

structure State where
  files : FileSystem
  /-- The runs that have answered, the last one first. -/
  past : List Past

/-- A run that is proper, or an edit outside the cache. -/
inductive Step (c : Cache) (contents : Set Bytes) : State → State → Prop where
  | edit {s : State} {files : FileSystem} (h : Interleaving.Edits c s.files files) :
      Step c contents s { s with files }
  | failed {s : State} {call : Call} (hproper : IsProper c contents s.files call)
      {failure : Failure} {files : FileSystem} (h : call.run s.files = (.error failure, files)) :
      Step c contents s { s with files }
  | answered {s : State} {call : Call} (hproper : IsProper c contents s.files call)
      {content : Bytes} (hread : s.files.read call.input = .ok content)
      {report : Report} {files : FileSystem} (h : call.run s.files = (.ok report, files)) :
      Step c contents s ⟨files, ⟨content, report⟩ :: s.past⟩

/-- Whether some runs and edits lead from one state to another. -/
def Reaches (c : Cache) (contents : Set Bytes) (s s' : State) : Prop :=
  Relation.ReflTransGen (Step c contents) s s'

variable {c : Cache} {contents : Set Bytes} {s s' : State}

/-! ### What is in the cache -/

/-- Whether a run made and stored a dump at a place: it accounts for what the input held then, whose
digest it has, and the report says how many clauses it leaves out. -/
structure Past.Made (p : Past) (fs : FileSystem) (place : Location) (d : Dump) (digest : String) :
    Prop where
  fromCache : p.report.fromCache = false
  place : fs.placeOf p.report.dumpPath = place
  digest : p.content.digest = digest
  accounts : ∃ g, Dimacs.read p.content = .ok g ∧ d.AccountsFor g p.report.skipped

/-- What a cache may hold: a diagram that has the digest of an input is one that a run made. -/
def Entries (contents : Set Bytes) (c : Cache) (fs : FileSystem) (past : List Past) (name : String)
    (stored : Bytes) : Prop :=
  Cache.IsDiagramName name → ∀ text d digest, stored.text? = some text → Dump.parse text = .ok d →
    d.metadata.get? Formula.digestKey = some digest →
      ∃ p ∈ past, p.content ∈ contents ∧
        p.Made fs (fs.placeOf c.directory ++ [name]) d digest

def State.IsSound (c : Cache) (contents : Set Bytes) (s : State) : Prop :=
  c.Holds (Entries contents c s.files s.past) s.files

section Places

variable {fs fs' : FileSystem} {past past' : List Past}

theorem Past.Made.congr {p : Past} {place : Location} {d : Dump} {digest : String}
    (h : p.Made fs place d digest) (hworking : fs'.working = fs.working) :
    p.Made fs' place d digest :=
  ⟨h.fromCache, (FileSystem.placeOf_congr hworking _).trans h.place, h.digest, h.accounts⟩

theorem Entries.mono {name : String} {stored : Bytes} (h : Entries contents c fs past name stored)
    (hworking : fs'.working = fs.working) (hpast : past ⊆ past') :
    Entries contents c fs' past' name stored := by
  intro hname text d digest htext hparse hdigest
  obtain ⟨p, hp, hcontent, hmade⟩ := h hname text d digest htext hparse hdigest
  rw [FileSystem.placeOf_congr hworking]
  exact ⟨p, hpast hp, hcontent, hmade.congr hworking⟩

theorem entries_of_not_isDiagramName {name : String} (h : ¬ Cache.IsDiagramName name)
    (stored : Bytes) : Entries contents c fs past name stored := fun hname => absurd hname h

end Places

/-! ### What runs and edits keep -/

theorem State.IsSound.edit (hs : s.IsSound c contents) {files : FileSystem}
    (h : Interleaving.Edits c s.files files) : State.IsSound c contents { s with files } where
  tree := h.tree
  files {name stored} hfile := by
    rw [FileSystem.placeOf_congr h.working, h.find?] at hfile
    exact (hs.files hfile).mono h.working (List.Subset.refl _)

namespace IsProper

variable {call : Call} {P : String → Bytes → Prop} {files : FileSystem}

theorem holds_iff (hproper : IsProper c contents s.files call)
    (hworking : files.working = s.files.working) :
    call.options.cache.Holds P files ↔ c.Holds P files := by
  have hplace : files.placeOf call.options.cache.directory = files.placeOf c.directory := by
    rw [FileSystem.placeOf_congr hworking, FileSystem.placeOf_congr hworking]
    exact hproper.cache
  exact ⟨fun h => ⟨h.tree, hplace ▸ h.files⟩, fun h => ⟨h.tree, hplace ▸ h.files⟩⟩

theorem reorderings (hproper : IsProper c contents s.files call) (m : Manager call.σ) (e : call.σ)
    (h : call.provider.acquire.run call.engine = (.ok m, e)) : m.HasPlainReorderings :=
  (hproper.correct m e h).reorderings

/-- How a run ends, whatever engine it is given that goes by plain names. -/
theorem ends_run (hproper : IsProper c contents s.files call) (hs : s.IsSound c contents) {σ : Type}
    {provider : Provider σ} {e : σ}
    (hprovider : ∀ m e', provider.acquire.run e = (.ok m, e') → m.HasPlainReorderings) :
    (Run.run call.options call.conditions provider call.input).Ends ⟨s.files, e⟩
      (fun w' => call.options.cache.Serves (Entries contents c s.files s.past) call.input s.files
        w'.files)
      fun report w' => ∃ content, s.files.read call.input = .ok content ∧
        Run.Leaves call.options call.conditions provider (Entries contents c s.files s.past)
          call.input content ⟨s.files, e⟩ w' report := by
  refine Run.leaves_run ((hproper.holds_iff rfl).2 hs)
    (fun hname => entries_of_not_isDiagramName hname) (fun name => ?_) hprovider
  have hplace : s.files.placeOf call.options.cache.directory = s.files.placeOf c.directory :=
    hproper.cache
  rw [hplace]
  exact hproper.isOutside name

/-- What a run finds in the cache was made by an earlier run, if the name of its reordering does not
lead elsewhere. -/
theorem exists_made_of_found (hproper : IsProper c contents s.files call)
    (hslash : '/' ∉ call.options.reordering.toList) {path : Path} {d : Dump}
    {content : Bytes} (hread : s.files.read call.input = .ok content)
    (hfound : call.options.cache.diagram? call.input call.options.engine.stub
      call.options.reordering files = some path)
    (hdump : Dump.ofFile path files = .ok d)
    (hserves : call.options.cache.Serves (Entries contents c s.files s.past) call.input s.files
      files) :
    ∃ p ∈ s.past, p.content ∈ contents ∧ p.Made files (files.placeOf path) d content.digest := by
  obtain ⟨rfl, d', hdump', hcurrent⟩ := call.options.cache.diagram?_eq_some_iff.1 hfound
  obtain rfl := Except.ok.inj (hdump.symm.trans hdump')
  obtain ⟨stored, text, hstored, htext, hparse⟩ := Dump.ofFile_eq_ok_iff.1 hdump
  obtain ⟨name, hname⟩ := hserves.holds.tree.exists_fileName (hserves.read hread)
  obtain ⟨front, hnames, -⟩ :=
    call.options.cache.names_diagramPath hname call.options.engine hslash
  obtain ⟨place, hlocate, hfile⟩ := FileSystem.exists_of_read hstored
  have hplace : files.placeOf (call.options.cache.diagramPath call.input call.options.engine.stub
      call.options.reordering) = files.placeOf c.directory ++ [front ++ ".dd"] := by
    rw [FileSystem.placeOf_of_names hnames, FileSystem.placeOf_congr hserves.working,
      FileSystem.placeOf_congr hserves.working]
    exact congrArg (· ++ _) hproper.cache
  rw [FileSystem.eq_placeOf_of_locate hlocate, hplace] at hfile
  have hentry := ((hproper.holds_iff hserves.working).1 hserves.holds).files hfile
  obtain ⟨p, hp, hcontent, hmade⟩ := hentry ⟨front, rfl⟩ text d _ htext hparse
    (Cache.get?_of_isCurrent hcurrent (hserves.read hread))
  rw [← FileSystem.placeOf_congr hserves.working, ← hplace] at hmade
  exact ⟨p, hp, hcontent, hmade.congr hserves.working⟩

theorem made_of_stored (hproper : IsProper c contents s.files call) {report : Report} {d : Dump}
    {content : Bytes} {e : call.σ} (hread : s.files.read call.input = .ok content)
    (hproduces : Run.Produces call.options call.conditions call.provider call.input content
      call.engine report d e)
    (hstored : call.options.cache.HasStored (Entries contents c s.files s.past) call.input content d
      s.files files report.dumpPath) :
    State.IsSound c contents ⟨files, ⟨content, report⟩ :: s.past⟩ ∧
      ∃ d', Dump.ofFile report.dumpPath files = .ok d' ∧
        Past.Made ⟨content, report⟩ files (files.placeOf report.dumpPath) d' content.digest := by
  obtain ⟨name, hname, hnames, hserves⟩ := hstored.serves
  have hcount (g : Formula) (hg : Dimacs.read content = .ok g) : g.clauses.length < UInt64.size :=
    hproper.count_lt (f := g.readFrom call.input content) (Formula.ofFile_of_read hread hg)
  obtain ⟨hfresh, hplain, hfits, g, hg, hfor⟩ :=
    hproduces.exists_accountsFor hproper.correct hproper.oneLine hcount
  obtain ⟨d', hparse, hdigest, hfor'⟩ := hfor.exists_parse_tagged hplain hfits hproper.oneLine content
  have htext := Bytes.text?_ofText (Cache.tagged call.input content.digest d).text
  have hmade : Past.Made ⟨content, report⟩ files (files.placeOf report.dumpPath) d' content.digest :=
    ⟨hfresh, rfl, rfl, g, hg, hfor'⟩
  refine ⟨((hproper.holds_iff hserves.working).1 hserves.holds).mono fun other stored h => ?_,
    d', Dump.ofFile_eq_ok_iff.2 ⟨_, _, hstored.read, htext, hparse⟩, hmade⟩
  rcases h with h | ⟨rfl, rfl⟩
  · exact h.mono hserves.working (List.subset_cons_self _ _)
  · intro _ text found digest htext' hparse' hdigest'
    obtain rfl := Option.some.inj (htext.symm.trans htext')
    obtain rfl := Except.ok.inj (hparse.symm.trans hparse')
    obtain rfl := Option.some.inj (hdigest.symm.trans hdigest')
    have hplace : files.placeOf report.dumpPath = files.placeOf c.directory ++ [other] := by
      rw [FileSystem.placeOf_congr hserves.working, FileSystem.placeOf_of_names hnames,
        FileSystem.placeOf_congr hserves.working]
      exact congrArg (· ++ _) hproper.cache
    exact ⟨_, List.mem_cons_self, hproper.known hread, hplace ▸ hmade⟩

/-- A run that answers leaves only diagrams in the cache that were made by runs. -/
theorem isSound_of_run (hproper : IsProper c contents s.files call) (hs : s.IsSound c contents)
    {report : Report} (h : call.run s.files = (.ok report, files)) {content : Bytes}
    (hread : s.files.read call.input = .ok content) :
    State.IsSound c contents ⟨files, ⟨content, report⟩ :: s.past⟩ := by
  obtain ⟨e, hrun⟩ := Call.exists_of_run h
  obtain ⟨content', hread', hleaves⟩ := (hproper.ends_run hs hproper.reorderings).ok hrun
  obtain rfl := Except.ok.inj (hread.symm.trans hread')
  cases hleaves with
  | cached _ _ hserves _ =>
    exact ((hproper.holds_iff hserves.working).1 hserves.holds).mono fun _ _ h =>
      h.mono hserves.working (List.subset_cons_self _ _)
  | stored hproduces hstored => exact (hproper.made_of_stored hread hproduces hstored).1

/-- The dump that a run reports was made by a run on a content of the same digest: by itself, or by
an earlier one if the report is from the cache. -/
theorem exists_made_of_run (hproper : IsProper c contents s.files call) (hs : s.IsSound c contents)
    (hslash : '/' ∉ call.options.reordering.toList) {report : Report}
    (h : call.run s.files = (.ok report, files)) {content : Bytes}
    (hread : s.files.read call.input = .ok content) :
    files.read call.input = .ok content ∧
      ∃ d p, Dump.ofFile report.dumpPath files = .ok d ∧ p.content ∈ contents ∧
        p.Made files (files.placeOf report.dumpPath) d content.digest ∧
        p.report.skipped = report.skipped ∧
        (p = ⟨content, report⟩ ∨ report.fromCache = true ∧ p ∈ s.past) := by
  obtain ⟨e, hrun⟩ := Call.exists_of_run h
  obtain ⟨content', hread', hleaves⟩ := (hproper.ends_run hs hproper.reorderings).ok hrun
  obtain rfl := Except.ok.inj (hread.symm.trans hread')
  cases hleaves with
  | @cached path d hfound hdump hserves =>
    obtain ⟨p, hp, hcontent, hmade⟩ :=
      hproper.exists_made_of_found hslash hread hfound hdump hserves
    obtain ⟨g, -, hfor⟩ := hmade.accounts
    exact ⟨hserves.read hread, d, p, hdump, hcontent, hmade,
      (hfor.skipped_cachedReport path).symm, .inr ⟨rfl, hp⟩⟩
  | @stored _ d hproduces hstored =>
    obtain ⟨-, d', hdump, hmade⟩ := hproper.made_of_stored hread hproduces hstored
    obtain ⟨name, -, -, hserves⟩ := hstored.serves
    exact ⟨hserves.read hread, d', _, hdump, hproper.known hread, hmade, rfl, .inl rfl⟩

end IsProper

theorem Step.isSound (h : Step c contents s s') (hs : s.IsSound c contents) :
    s'.IsSound c contents := by
  cases h with
  | edit h => exact hs.edit h
  | failed hproper h =>
    obtain ⟨e, hrun⟩ := Call.exists_of_run h
    have hserves := (hproper.ends_run hs hproper.reorderings).error hrun
    exact ((hproper.holds_iff hserves.working).1 hserves.holds).mono fun _ _ h =>
      h.mono hserves.working (List.Subset.refl _)
  | answered hproper hread h => exact hproper.isSound_of_run hs h hread

theorem Reaches.isSound (h : Reaches c contents s s') (hs : s.IsSound c contents) :
    s'.IsSound c contents := by
  induction h with
  | refl => exact hs
  | tail _ hstep ih => exact hstep.isSound ih

def IsEmpty (c : Cache) (files : FileSystem) : Prop :=
  ∀ name, files.find? (files.placeOf c.directory ++ [name]) = none

theorem isSound_start {files : FileSystem} (htree : files.IsTree) (hempty : IsEmpty c files) :
    State.IsSound c contents ⟨files, []⟩ where
  tree := htree
  files {name stored} hfile := by
    rw [hempty name] at hfile
    exact absurd hfile (by simp)

/-! ### What is reported -/

section Reports

variable {files₀ files : FileSystem} {call : Call} {report : Report}
  (hfree : contents.InjOn Bytes.digest) (htree : files₀.IsTree) (hempty : IsEmpty c files₀) (hreaches : Reaches c contents ⟨files₀, []⟩ s)
  (hproper : IsProper c contents s.files call) (hslash : '/' ∉ call.options.reordering.toList)
  (h : call.run s.files = (.ok report, files))

include hfree htree hempty hreaches hproper hslash h

/-- What is reported accounts for the formula that is in the file, as it was stored by the run itself
or by an earlier one. -/
theorem exists_accountsFor_of_run :
    ∃ d f p, Dump.ofFile report.dumpPath files = .ok d ∧ Formula.ofFile call.input files = .ok f ∧
      d.AccountsFor f report.skipped ∧ p.report.fromCache = false ∧
      p.report.skipped = report.skipped ∧
      files.placeOf p.report.dumpPath = files.placeOf report.dumpPath ∧
      (p.report = report ∨ p ∈ s.past) := by
  have hs := hreaches.isSound (isSound_start htree hempty)
  obtain ⟨e, hrun⟩ := Call.exists_of_run h
  obtain ⟨content, hread, -⟩ := (hproper.ends_run hs hproper.reorderings).ok hrun
  obtain ⟨hread', d, p, hdump, hcontent, hmade, hskipped, hfrom⟩ :=
    hproper.exists_made_of_run hs hslash h hread
  have hsame : p.content = content := hfree hcontent (hproper.known hread) hmade.digest
  obtain ⟨g, hg, hfor⟩ := hmade.accounts
  rw [hsame] at hg
  rw [hskipped] at hfor
  refine ⟨d, g.readFrom call.input content, p, hdump, Formula.ofFile_of_read hread' hg,
    hfor.congr rfl, hmade.fromCache, hskipped, hmade.place, ?_⟩
  rcases hfrom with rfl | ⟨-, hp⟩
  · exact .inl rfl
  · exact .inr hp

/-- When a run answers after any runs and edits over a cache that was empty at first, the dump that
it reports can be read, holds wherever the formula that is in the file does, and nowhere else if no
clauses are reported as given up, whether it was compiled or comes from the cache. -/
theorem models_of_run :
    ∃ d f, Dump.ofFile report.dumpPath files = .ok d ∧ Formula.ofFile call.input files = .ok f ∧
      ∀ values : List Bool, values.length = f.varCount →
        (f.eval? values = some true → d.diagram.holds values = true) ∧
        (report.skipped = 0 → f.eval? values = some (d.diagram.holds values)) := by
  obtain ⟨d, f, p, hdump, hformula, hfor, -⟩ :=
    exists_accountsFor_of_run hfree htree hempty hreaches hproper hslash h
  exact ⟨d, f, hdump, hformula, fun values hvalues => hfor.models hvalues⟩

end Reports

/-! ### A clause that is given up -/

namespace GivenUp

def input : Path := ⟨"f"⟩

def cache : Cache := ⟨⟨"_cache"⟩⟩

/-- A formula with one variable and an empty clause, which never holds. -/
def content : Bytes := .ofText "p cnf 1 1\n0\n"

def formula : Formula := Formula.ofClauses 1 [.ofLiterals []]

def files : FileSystem :=
  (FileSystem.empty.put ["work", "_cache"] .directory).put ["work", "f"] (.file content)

/-- A run on the formula, in which a binary operation may time out. -/
def callWith (options : Options) (failing : Option Nat) : Call where
  σ := Reference.State
  options := options
  conditions := .unhurried 0
  provider := .reference {}
  engine := .fresh failing .zero
  input := input

def call (failing : Option Nat) : Call := callWith {} failing

theorem read_content : Dimacs.read content = .ok formula := by
  let r : Dimacs.Reader := ⟨[[48]], 1, .empty, some ⟨1, 1⟩, [], false⟩
  let loaded : Dimacs.Reader := ⟨[], 2, .empty, some ⟨1, 1⟩, [.stop], false⟩
  have hpreamble : (Dimacs.Reader.ofBytes content).readPreamble = (.ok ⟨1, 1⟩, r) := by cbv
  have hrefill : (r.withTokens []).refill = (.ok true, loaded) := by cbv
  have hfirst : r.nextClause = (.ok (some (.ofLiterals [])), loaded.withTokens []) :=
    (Dimacs.Reader.gather_of_refill rfl hrefill []).trans (Dimacs.Reader.gather_of_some rfl _)
  have hlast : (loaded.withTokens []).nextClause = (.ok none, (loaded.withTokens []).finish) :=
    Dimacs.Reader.gather_of_end rfl rfl
  have hclauses := Dimacs.Reader.clauses_of_some hfirst (Dimacs.Reader.clauses_of_none hlast)
  rw [Dimacs.read, hpreamble]
  simp only [hclauses]
  rfl

/-! #### Files -/

def path : Path := ⟨"_cache/f-buddy-lib-default.dd"⟩

def beside : Path := ⟨"_cache/f-buddy-lib-default.tmp"⟩

def place : Location := ["work", "_cache", "f-buddy-lib-default.dd"]

def besidePlace : Location := ["work", "_cache", "f-buddy-lib-default.tmp"]

def lockPlace : Location := ["work", "_cache", "f.lock"]

def locked (fs : FileSystem) : FileSystem :=
  (fs.put lockPlace (.file (FileSystem.ownerLine fs.process))).hold lockPlace

theorem run_lock {c : Cache} {fs : FileSystem} (hreliable : fs.IsReliable)
    (hplace : fs.target (c.lockPath input) = .ok lockPlace) (hfree : fs.isLocked lockPlace = false) :
    (c.lock input).run fs = (.ok fs.tickets, locked fs) := by
  rw [locked, ← hreliable.locked_eq]
  exact hreliable.run_lock hplace hfree

def written (stored : Bytes) : FileSystem := (locked files).put besidePlace (.file stored)

def answered (stored : Bytes) : FileSystem :=
  (((written stored).vacate besidePlace).put place (.file stored)).unlock 0

theorem isTree_files : files.IsTree := by
  have hcache : (FileSystem.empty.put ["work", "_cache"] .directory).IsTree :=
    @FileSystem.IsTree.put _ FileSystem.isTree_empty ["work"] "_cache" _ rfl fun _ => rfl
  exact @FileSystem.IsTree.put _ hcache ["work"] "f" _ rfl fun h => absurd h (by decide)

theorem isEmpty_files : IsEmpty cache files := by
  intro name
  have hplace : files.placeOf cache.directory = ["work", "_cache"] := by decide
  rw [hplace, files, FileSystem.find?_put (by simp), FileSystem.find?_put (by simp)]
  simp [FileSystem.empty, FileSystem.find?]

theorem diagramPath_input : cache.diagramPath input ({} : Options).engine.stub
    ({} : Options).reordering = path := by
  decide

theorem withExtension_path : path.withExtension "tmp" = beside := by decide

theorem run_inDirectory {fs : FileSystem} (hplace : fs.locate cache.directory = .ok ["work", "_cache"])
    (hdirectory : fs.find? ["work", "_cache"] = some .directory) :
    (Cache.inDirectory cache.directory).run fs = (.ok cache, fs) := by
  rw [Cache.inDirectory, Action.run_bind_of_ok (FileSystem.run_makeDirectories hplace hdirectory)]
  rfl

theorem run_replace (stored : Bytes) :
    (FileSystem.replace path stored).run (locked files) =
      (.ok (), ((written stored).vacate besidePlace).put place (.file stored)) := by
  have hwrite : (FileSystem.write beside stored).run (locked files) = (.ok (), written stored) :=
    FileSystem.run_write (by decide) rfl
  have hmove : (FileSystem.move beside path).run (written stored) =
      (.ok (), ((written stored).vacate besidePlace).put place (.file stored)) :=
    FileSystem.run_move rfl rfl (by decide) rfl
  rw [FileSystem.replace, withExtension_path, Action.run_bind_of_ok hwrite, hmove]

/-! #### The first run -/

def read : Formula := formula.readFrom input content

def ordered : Formula := Run.ordered {} (.unhurried 0) read

def order : VariableOrder := .identity 1

def compilation : Compilation where
  diagram := ⟨1⟩
  metadata := (Dictionary.empty : Metadata).insertAll
    [(Compilation.runtimeKey, Duration.zero.secondsText), (Compilation.skippedKey, "1"),
      (Compilation.clausesKey, "1")]
  skipped := 1

def prepared : Reference.State :=
  ((Run.prepare {} (Reference.manager none) ordered order).run (.fresh (some 1) .zero)).2

def compiled : Reference.State :=
  ((Compilation.compile (Reference.manager none) ordered none).run prepared).2

theorem run_prepare : (Run.prepare {} (Reference.manager none) ordered order).run
    (.fresh (some 1) .zero) = (.ok (), prepared) := Prod.ext rfl rfl

theorem run_compile : (Compilation.compile (Reference.manager none) ordered none).run prepared =
    (.ok compilation, compiled) := Prod.ext rfl rfl

theorem holds_fresh (failing : Option Nat) :
    Reference.contract.holds (.fresh failing .zero) 0 :=
  ⟨Reference.Table.sound_empty, fun _ hnode => absurd hnode (Multiset.notMem_zero _)⟩

theorem exists_dump :
    ∃ d, ((Reference.manager none).dump compilation.diagram).run compiled = (.ok d, compiled) := by
  obtain ⟨log, parts, -, haccounts⟩ := Compilation.accounts_of_compile (C := Reference.contract)
    (Run.holds_of_prepare (holds_fresh (some 1)) run_prepare) (by simp) run_compile
  obtain ⟨hsound, hheld⟩ := haccounts.conjoins.holds
  have hnodes : compiled.table.nodes.size = 0 := rfl
  have horder : compiled.table.order.length = 1 := rfl
  exact Reference.exists_dump hsound (hheld _ (Multiset.mem_cons_self _ _)) (by rw [hnodes]; decide)
    (by rw [horder]; decide)

theorem ofFile_input {fs : FileSystem} (h : fs.read input = .ok content) :
    Formula.ofFile input fs = .ok read := Formula.ofFile_of_read h read_content

theorem diagram?_locked : cache.diagram? input ({} : Options).engine.stub
    ({} : Options).reordering (locked files) = none := by
  have hlocate : (locked files).locate path = .ok place := by decide
  have hread : (locked files).read path = .error .notFound := by
    rw [FileSystem.read, hlocate]
    rfl
  cases h : cache.diagram? input ({} : Options).engine.stub ({} : Options).reordering
      (locked files) with
  | none => rfl
  | some found =>
    obtain ⟨rfl, d, hdump, -⟩ := cache.diagram?_eq_some_iff.1 h
    obtain ⟨stored, -, hstored, -⟩ := Dump.ofFile_eq_ok_iff.1 hdump
    rw [diagramPath_input, hread] at hstored
    exact absurd hstored (by simp)

theorem run_storeDump (d : Dump) :
    (Run.storeDump {} ordered d).run (locked files) = (.ok path,
      ((written (Cache.tagged input content.digest d).bytes).vacate besidePlace).put place
        (.file (Cache.tagged input content.digest d).bytes)) := by
  have hread : (locked files).read input = .ok content := by decide
  have hdigest := Cache.run_digestOf_of_read hread
  have hdiagram : cache.diagramPath input ({} : Options).engine.stub ({} : Options).reordering =
    path := diagramPath_input
  refine (Action.run_bind_of_ok (run_inDirectory (by decide) rfl) _).trans ?_
  refine (Action.run_bind_of_ok hdigest _).trans ?_
  rw [hdiagram, Action.run_bind_of_ok (run_replace _)]
  rfl

theorem run_first : ∃ report d e,
    Run.Produces {} (.unhurried 0) (.reference {}) input content (.fresh (some 1) .zero) report d e ∧
      report.skipped = 1 ∧ report.dumpPath = path ∧
      (call (some 1)).run files =
        (.ok report, answered (Cache.tagged input content.digest d).bytes) := by
  obtain ⟨d, hdump⟩ := exists_dump
  let m := Reference.manager none
  let dump := Run.described {} ordered compilation d
  let stored := (Cache.tagged input content.digest dump).bytes
  let files' := ((written stored).vacate besidePlace).put place (.file stored)
  let e := Reference.engine.release compilation.diagram compiled
  refine ⟨Run.freshReport path order ordered compilation, dump, _,
    .fresh path read_content rfl rfl (.compiled run_prepare run_compile hdump), rfl, rfl, ?_⟩
  have hcompiles : Run.Compiles {} m ordered order (.fresh (some 1) .zero) compilation d compiled :=
    .compiled run_prepare run_compile hdump
  have horder : (Run.orderFor {} (.unhurried 0) read).run (locked files) =
      (.ok (order, ordered), locked files) := rfl
  have hacquire : (Provider.reference {}).acquire.run (.fresh (some 1) .zero) =
      (.ok m, .fresh (some 1) .zero) := rfl
  have hstays : (Cache.inDirectory cache.directory).run (locked files) = (.ok cache, locked files) :=
    run_inDirectory (by decide) rfl
  have hsource : read.source = some input := rfl
  have hlock : (cache.lock input).run files = (.ok 0, locked files) :=
    run_lock (fun _ _ => rfl) (by decide) (by decide)
  have hanswer : (Run.answer {} (.unhurried 0) (.reference {}) read).run
      ⟨locked files, .fresh (some 1) .zero⟩ =
        (.ok (Run.freshReport path order ordered compilation), ⟨files', e⟩) :=
    Run.run_answer_of_none (o := {}) hsource rfl hstays diagram?_locked horder hacquire hcompiles
      (run_storeDump dump)
  have hrun : (Run.run {} (.unhurried 0) (.reference {}) input).run
      ⟨files, .fresh (some 1) .zero⟩ =
        (.ok (Run.freshReport path order ordered compilation), ⟨answered stored, e⟩) :=
    Run.run_of_answer (ofFile_input (by decide)) (run_inDirectory (by decide) rfl) hlock hanswer
  exact (call (some 1)).run_eq hrun

/-! #### The second run -/

theorem isCorrect_reference (failing : Option Nat) :
    (Provider.reference {}).IsCorrect (.fresh failing .zero) := by
  intro m e hacquire
  have hm := Provider.isPlain_reference {} _ _ _ hacquire
  obtain ⟨hok, rfl⟩ := Prod.mk.inj hacquire
  obtain rfl := Except.ok.inj hok
  refine ⟨hm, fun r hr => ?_, Reference.contract, holds_fresh failing,
    Reference.contract_writesDiagrams⟩
  obtain rfl := List.mem_singleton.1 hr
  exact ⟨by decide, by decide⟩

/-- The dump is found, and what the report says is read off it. -/
theorem run_second {report : Report} {d : Dump} {e : Reference.State}
    (h : Run.Produces {} (.unhurried 0) (.reference {}) input content (.fresh (some 1) .zero) report
      d e) (hskipped : report.skipped = 1) :
    ∃ d', (call none).run (answered (Cache.tagged input content.digest d).bytes) =
      (.ok (Run.cachedReport path d'),
        (locked (answered (Cache.tagged input content.digest d).bytes)).unlock 1) ∧
      (Run.cachedReport path d').skipped = 1 := by
  have hcount (g : Formula) (hg : Dimacs.read content = .ok g) : g.clauses.length < UInt64.size := by
    obtain rfl := Except.ok.inj (read_content.symm.trans hg)
    decide
  obtain ⟨-, hplain, hfits, g, -, hfor⟩ :=
    h.exists_accountsFor (isCorrect_reference _) (by decide) hcount
  obtain ⟨d', hparse, hdigest, hfor'⟩ := hfor.exists_parse_tagged hplain hfits
    (show '\n' ∉ input.text.toList by decide) content
  let stored := (Cache.tagged input content.digest d).bytes
  let fs := locked (answered stored)
  have hpath : fs.read path = .ok stored := FileSystem.read_of_locate rfl rfl (by decide)
  have hdump : Dump.ofFile path fs = .ok d' :=
    Dump.ofFile_eq_ok_iff.2 ⟨_, _, hpath, Bytes.text?_ofText _, hparse⟩
  have hinput {fs : FileSystem} (hlocate : fs.locate input = .ok ["work", "f"])
      (hfile : fs.find? ["work", "f"] = some (.file content)) : fs.read input = .ok content :=
    FileSystem.read_of_locate hlocate hfile (by decide)
  have hcurrent : Cache.isCurrent fs input d'.metadata = true := by
    rw [Cache.isCurrent, hdigest, FileSystem.digest, hinput rfl rfl]
    simp
  have hfound := cache.diagram?_eq_some_iff.2 ⟨diagramPath_input.symm, d', hdump, hcurrent⟩
  have hrun : (Run.run {} (.unhurried 0) (.reference {}) input).run
      ⟨answered stored, .fresh none .zero⟩ =
        (.ok (Run.cachedReport path d'), ⟨fs.unlock 1, .fresh none .zero⟩) :=
    Run.run_of_answer (ofFile_input (hinput rfl rfl)) (run_inDirectory rfl rfl)
      (run_lock (fun _ _ => rfl) rfl rfl)
      (Run.run_answer_of_some rfl rfl (run_inDirectory rfl rfl) hfound hdump)
  exact ⟨d', (call none).run_eq hrun, by rw [hfor'.skipped_cachedReport, hskipped]⟩

theorem isProper_callWith {o : Options} (hcache : files.placeOf o.cacheDirectory = ["work", "_cache"])
    {fs : FileSystem} (hworking : fs.working = ["work"]) (hread : fs.read input = .ok content)
    (failing : Option Nat) : IsProper cache {content} fs (callWith o failing) where
  cache := by
    have hdefault : files.placeOf cache.directory = ["work", "_cache"] := by decide
    have hworking' : fs.working = files.working := hworking
    rw [FileSystem.placeOf_congr hworking', FileSystem.placeOf_congr hworking', hdefault]
    exact hcache
  isOutside name := by
    have hworking' : fs.working = files.working := hworking
    have hinput : files.placeOf input = ["work", "f"] := by decide
    have hcache : files.placeOf cache.directory = ["work", "_cache"] := by decide
    have hplace : (callWith o failing).input = input := rfl
    rw [hplace, FileSystem.placeOf_congr hworking', FileSystem.placeOf_congr hworking', hinput, hcache]
    simp
  oneLine := show '\n' ∉ input.text.toList by decide
  known {found} hfound := by
    obtain rfl := Except.ok.inj (hfound.symm.trans hread)
    exact rfl
  count_lt {f} hf := by
    obtain rfl := Except.ok.inj (hf.symm.trans (ofFile_input hread))
    decide
  correct := isCorrect_reference failing

theorem isProper_call {fs : FileSystem} (hworking : fs.working = ["work"])
    (hread : fs.read input = .ok content) (failing : Option Nat) :
    IsProper cache {content} fs (call failing) := isProper_callWith (by decide) hworking hread failing

theorem exists_reaches : ∃ s report files', Reaches cache {content} ⟨files, []⟩ s ∧
    IsProper cache {content} s.files (call none) ∧
    (call none).run s.files = (.ok report, files') ∧ report.fromCache = true ∧
      report.skipped = 1 := by
  obtain ⟨report, d, e, hproduces, hskipped, -, hrun⟩ := run_first
  obtain ⟨d', hrun', hskipped'⟩ := run_second hproduces hskipped
  have hread : files.read input = .ok content := by decide
  have hlocate : (answered (Cache.tagged input content.digest d).bytes).locate input =
      .ok ["work", "f"] := rfl
  have hread' : (answered (Cache.tagged input content.digest d).bytes).read input = .ok content :=
    FileSystem.read_of_locate hlocate rfl (by decide)
  exact ⟨_, _, _, .single (.answered (isProper_call rfl hread _) hread hrun),
    isProper_call rfl hread' none, hrun', rfl, hskipped'⟩

/-- The first run gives the only clause up, and the second one finds its dump. -/
theorem models_of_second_run :
    ({content} : Set Bytes).InjOn Bytes.digest ∧ files.IsTree ∧ IsEmpty cache files ∧
      '/' ∉ (call none).options.reordering.toList ∧
      ∃ s report files', Reaches cache {content} ⟨files, []⟩ s ∧
        IsProper cache {content} s.files (call none) ∧
        (call none).run s.files = (.ok report, files') ∧
        ∃ d f, Dump.ofFile report.dumpPath files' = .ok d ∧
          Formula.ofFile (call none).input files' = .ok f ∧
          ∀ values : List Bool, values.length = f.varCount →
            (f.eval? values = some true → d.diagram.holds values = true) ∧
            (report.skipped = 0 → f.eval? values = some (d.diagram.holds values)) := by
  have hfree : ({content} : Set Bytes).InjOn Bytes.digest := Set.injOn_singleton _ _
  have hslash : '/' ∉ (call none).options.reordering.toList := by decide
  obtain ⟨s, report, files', hreaches, hproper, hrun, -, -⟩ := exists_reaches
  exact ⟨hfree, isTree_files, isEmpty_files, hslash, s, report, files', hreaches, hproper, hrun,
    models_of_run hfree isTree_files isEmpty_files hreaches hproper hslash hrun⟩

end GivenUp

/-! ### A diagram from elsewhere -/

namespace LedOut

open GivenUp (input content formula lockPlace)

/-- The path of the cache leads through a directory in it, which is made on the way, and the name of
the reordering leads from there out of the cache. -/
def options : Options := { cacheDirectory := ⟨"_cache/f-buddy-a/.."⟩, reordering := "a/../../g" }

def path : Path := ⟨"_cache/f-buddy-a/../f-buddy-a/../../g.dd"⟩

def dump : Dump where
  toolVersion := ""
  engineName := ""
  engineStub := ""
  diagram :=
    { order := .identity 1
      root := ⟨false, 1⟩
      nodes := []
      wellFormed := by constructor <;> decide }
  metadata := .ofList [(Compilation.skippedKey, "0")]

def stored : Bytes := (Cache.tagged input content.digest dump).bytes

/-- A dump beside the formula, and no cache. -/
def files : FileSystem :=
  (FileSystem.empty.put ["work", "f"] (.file content)).put ["work", "g.dd"] (.file stored)

def made : FileSystem :=
  (files.put ["work", "_cache"] .directory).put ["work", "_cache", "f-buddy-a"] .directory

def locked : FileSystem := GivenUp.locked made

theorem isTree_files : files.IsTree := by
  have hformula : (FileSystem.empty.put ["work", "f"] (.file content)).IsTree :=
    @FileSystem.IsTree.put _ FileSystem.isTree_empty ["work"] "f" _ rfl fun h => absurd h (by decide)
  exact @FileSystem.IsTree.put _ hformula ["work"] "g.dd" _ rfl fun h => absurd h (by decide)

theorem isEmpty_files : IsEmpty GivenUp.cache files := by
  intro name
  have hplace : files.placeOf GivenUp.cache.directory = ["work", "_cache"] := by decide
  rw [hplace, files, FileSystem.find?_put (by simp), FileSystem.find?_put (by simp)]
  simp [FileSystem.empty, FileSystem.find?]

/-- The dump accounts for every formula that always holds, without clauses given up. -/
theorem exists_parse : ∃ d, Dump.parse (Cache.tagged input content.digest dump).text = .ok d ∧
    d.metadata.get? Formula.digestKey = some content.digest ∧
      d.AccountsFor (Formula.ofClauses 1 []) 0 := by
  have hfor : dump.AccountsFor (Formula.ofClauses 1 []) 0 :=
    ⟨by decide, by decide, fun _ _ => Diagram.eval_terminal _ _ rfl,
      fun _ _ => Diagram.eval_terminal _ _ rfl⟩
  refine hfor.exists_parse_tagged ⟨?_, by decide, by decide, by decide⟩ ⟨by simp [dump], by decide⟩
    (by decide) content
  have hentries : dump.metadata.entries = [(Compilation.skippedKey, "0")] := by decide
  intro e he
  obtain rfl := List.mem_singleton.1 (hentries ▸ he)
  exact .of_value (by decide) (by decide)

theorem read_input {fs : FileSystem} (hlocate : fs.locate input = .ok ["work", "f"])
    (hfile : fs.find? ["work", "f"] = some (.file content)) : fs.read input = .ok content :=
  FileSystem.read_of_locate hlocate hfile (by decide)

theorem exists_run : ∃ d files', (GivenUp.callWith options none).run files =
    (.ok (Run.cachedReport path d), files') ∧ Dump.ofFile path files' = .ok d ∧
      Formula.ofFile input files' = .ok GivenUp.read ∧ d.AccountsFor (Formula.ofClauses 1 []) 0 := by
  obtain ⟨d, hparse, hdigest, hfor⟩ := exists_parse
  have hdump : Dump.ofFile path locked = .ok d := by
    have hpath : locked.read path = .ok stored := FileSystem.read_of_locate rfl rfl (by decide)
    exact Dump.ofFile_eq_ok_iff.2 ⟨_, _, hpath, Bytes.text?_ofText _, hparse⟩
  have hinput : locked.read input = .ok content := read_input rfl rfl
  have hcurrent : Cache.isCurrent locked input d.metadata = true := by
    rw [Cache.isCurrent, hdigest, FileSystem.digest, hinput]
    simp
  have hdiagram : options.cache.diagramPath input options.engine.stub options.reordering = path := by
    decide
  have hmake : (Cache.inDirectory options.cacheDirectory).run files = (.ok options.cache, made) := rfl
  have hstays : (Cache.inDirectory options.cacheDirectory).run locked =
      (.ok options.cache, locked) := rfl
  have hlock : (options.cache.lock input).run made = (.ok 0, locked) :=
    GivenUp.run_lock (fun _ _ => rfl) rfl rfl
  have hrun : (Run.run options (.unhurried 0) (.reference {}) input).run
      ⟨files, .fresh none .zero⟩ =
        (.ok (Run.cachedReport path d), ⟨locked.unlock 0, .fresh none .zero⟩) :=
    Run.run_of_answer (GivenUp.ofFile_input (read_input rfl rfl)) hmake hlock
      (Run.run_answer_of_some rfl rfl hstays
        (options.cache.diagram?_eq_some_iff.2 ⟨hdiagram.symm, d, hdump, hcurrent⟩) hdump)
  exact ⟨d, locked.unlock 0, (GivenUp.callWith options none).run_eq hrun,
    (Dump.ofFile_unlock _ _ _).trans hdump,
    GivenUp.ofFile_input ((FileSystem.read_unlock _ _ _).trans hinput), hfor⟩

theorem eval_ne {d : Dump} (h : d.AccountsFor (Formula.ofClauses 1 []) 0) :
    GivenUp.read.eval? [true] ≠ some (d.diagram.holds [true]) := by
  have hholds : d.diagram.holds [true] = true := h.covers _ rfl
  have heval : GivenUp.read.eval? [true] = some false := rfl
  rw [hholds, heval]
  simp

theorem isProper_call : IsProper GivenUp.cache {content} files (GivenUp.callWith options none) :=
  GivenUp.isProper_callWith (by decide) rfl (read_input rfl rfl) none

/-- Not every run reports a dump of its formula: the name of a reordering may lead out of the cache,
to a dump that always holds. -/
theorem not_models_of_run :
    ¬ ∀ (c : Cache) (contents : Set Bytes) (files₀ files : FileSystem) (s : State) (call : Call)
      (report : Report), contents.InjOn Bytes.digest → files₀.IsTree → IsEmpty c files₀ →
        Reaches c contents ⟨files₀, []⟩ s → IsProper c contents s.files call →
        call.run s.files = (.ok report, files) →
        ∃ d f, Dump.ofFile report.dumpPath files = .ok d ∧ Formula.ofFile call.input files = .ok f ∧
          ∀ values : List Bool, values.length = f.varCount →
            (f.eval? values = some true → d.diagram.holds values = true) ∧
            (report.skipped = 0 → f.eval? values = some (d.diagram.holds values)) := by
  intro hall
  obtain ⟨d, files', hrun, hdump, hformula, hfor⟩ := exists_run
  obtain ⟨d', f, hdump', hformula', hmodels⟩ := hall GivenUp.cache {content} files files'
    ⟨files, []⟩ (GivenUp.callWith options none) (Run.cachedReport path d) (Set.injOn_singleton _ _)
    isTree_files isEmpty_files .refl isProper_call hrun
  obtain rfl := Except.ok.inj (hdump.symm.trans hdump')
  obtain rfl := Except.ok.inj (hformula.symm.trans hformula')
  exact eval_ne hfor ((hmodels [true] rfl).2 (hfor.skipped_cachedReport path))

end LedOut

end Sequence

end DiagramCompiler
