import DiagramCompiler.Engine.Scripted
import DiagramCompiler.Proofs.HeaderLines
import DiagramCompiler.Proofs.RunSequences
import DiagramCompiler.Proofs.WrittenFiles

/-! Orders that are read back from engines.
A run that compiles reports the order that it set, but the dump that it writes has the order that
the engine has when it writes the diagram, and an engine may have moved variables until then. A run
that finds the dump right after that reports what the dump says: the same path, as many clauses that
were given up, and the order that was read back. -/
namespace DiagramCompiler

/-! ### What compilations say of themselves -/

namespace Compilation

variable {σ : Type} {m : Manager σ} {s s' : σ}

theorem skipped_le_of_conjoin {cs : List Clause} {accumulator node : NodeRef} {known skipped : Nat}
    (h : (conjoin m accumulator known cs).run s = (.ok (node, skipped), s')) :
    skipped ≤ known + cs.length := by
  induction cs generalizing accumulator known s with
  | nil =>
    obtain ⟨-, rfl⟩ := Prod.mk.inj (Except.ok.inj (congrArg Prod.fst h))
    exact Nat.le_refl _
  | cons c cs ih =>
    obtain ⟨answer, s₁, -, h⟩ := Action.exists_of_run_bind h
    cases answer with
    | ok next =>
      obtain ⟨_, s₂, -, h⟩ := Action.exists_of_run_bind h
      have hle := ih h
      rw [List.length_cons]
      omega
    | error failure =>
      simp only at h
      split at h
      · have hle := ih h
        rw [List.length_cons]
        omega
      · exact absurd (congrArg Prod.fst h) (by simp)

theorem skipped_of_compile {f : Formula} {order : Option VariableOrder} {c : Compilation}
    (h : (compile m f order).run s = (.ok c, s')) :
    c.skipped ≤ f.clauses.length ∧
      c.metadata.get? skippedKey = some (Numeral.text c.skipped) := by
  obtain ⟨-, s₁, -, h⟩ := Action.exists_of_run_bind h
  obtain ⟨started, s₂, hstarted, h⟩ := Action.exists_of_run_bind h
  obtain ⟨accumulator, s₃, -, h⟩ := Action.exists_of_run_bind h
  obtain ⟨conjoined, s₄, hconjoin, h⟩ := Action.exists_of_run_bind h
  obtain ⟨ended, s₅, hended, h⟩ := Action.exists_of_run_bind h
  rw [Action.run_pure] at h
  obtain rfl := Except.ok.inj (congrArg Prod.fst h)
  refine ⟨?_, ?_⟩
  · have hle := skipped_le_of_conjoin hconjoin
    rwa [Nat.zero_add] at hle
  · have hclauses : clausesKey ≠ skippedKey := by decide
    simp [Dictionary.insertAll, hclauses]

end Compilation

theorem Dump.parse_of_ofFile {fs : FileSystem} {path : Path} {d d' : Dump}
    (hread : fs.read path = .ok d.bytes) (h : Dump.ofFile path fs = .ok d') :
    parse d.text = .ok d' := by
  obtain ⟨found, text, hfound, htext, hparse⟩ := ofFile_eq_ok_iff.1 h
  obtain rfl := Except.ok.inj (hread.symm.trans hfound)
  obtain rfl := Option.some.inj ((Bytes.text?_ofText _).symm.trans htext)
  exact hparse

theorem Manager.exists_of_dump {σ : Type} {m : Manager σ} {node : NodeRef} {s s' : σ} {d : Dump}
    (h : (m.dump node).run s = (.ok d, s')) :
    ∃ native, (m.engine.dump node).run s = (.ok native, s') ∧ m.dumpOf native = .ok d := by
  obtain ⟨native, between, hdump, h⟩ := Action.exists_of_run_bind h
  obtain ⟨hanswer, rfl⟩ := Prod.mk.inj h
  exact ⟨native, hdump, hanswer⟩

namespace Run

variable {σ : Type} {o : Options} {conditions : Conditions} {provider : Provider σ} {input : Path}
  {w w' : World σ} {report : Report} {f : Formula}

/-- The dump of a formula that was read from a file has the later keys of its header on one line
each, whatever the engine is called. -/
theorem endsPlain_tagged {m : Manager σ} {parsed : Bytes} (hf : f.IsReadFrom input parsed)
    {c : Compilation} {s s' t t' : σ} {d : Dump}
    (hcompile : (Compilation.compile m f none).run s = (.ok c, s'))
    (hdump : (m.dump c.diagram).run t = (.ok d, t')) (content : Bytes) :
    (Cache.tagged input content.digest (described o f c d)).EndsPlain := by
  obtain ⟨diagram, rfl⟩ := Manager.ofDiagram_of_dump hdump
  intro e he hlate
  rcases Dictionary.mem_insertAll he with he | he
  · simp only [List.mem_cons, List.not_mem_nil, or_false] at he
    rcases he with rfl | rfl | rfl | rfl | rfl | rfl
    · have hversion : '\n' ∉ Dump.currentVersion.toList := by decide
      exact .of_value (by decide) hversion
    · exact absurd (show Dump.engineNameKey < Dump.nodeCountKey by decide) hlate
    · exact absurd (show Dump.engineStubKey < Dump.nodeCountKey by decide) hlate
    · exact .of_value (by decide) (Numeral.not_mem_text _ (by decide))
    · exact .of_value (by decide) (Text.not_mem_of_isBlank (Edge.isWord_text _).2)
    · refine .of_value (by decide) (Text.not_mem_of_isBlank fun _ => ?_)
      exact VariableOrder.isBlank_of_mem_text
  rcases Dictionary.mem_insertEntry he with rfl | he
  · exact .of_value (by decide) content.not_mem_digest
  rcases Dictionary.mem_insertEntry he with rfl | he
  · exact absurd (show Formula.nameKey < Dump.nodeCountKey by decide) hlate
  rcases Dictionary.mem_insertEntry he with rfl | he
  · exact absurd (show reorderingKey < Dump.nodeCountKey by decide) hlate
  rcases Dictionary.mem_insertAll he with he | he
  · rcases List.mem_append.1 (List.mem_filter.1 he).1 with he | he
    · rcases hf.eq_or_oneLine e he with rfl | hline
      · exact absurd (show Formula.nameKey < Dump.nodeCountKey by decide) hlate
      · exact hline
    · exact Compilation.oneLine_of_compile hcompile e he
  · exact absurd he (by simp [Dump.ofDiagram, Dictionary.empty])

theorem exists_read_of_storeDump {d : Dump} {path : Path} {fs fs' : FileSystem}
    (hsource : f.source = some input) (h : (storeDump o f d).run fs = (.ok path, fs')) :
    path = o.cache.diagramPath input o.engine.stub o.reordering ∧ ∃ content : Bytes,
      fs'.read path = .ok (Cache.tagged input content.digest d).bytes := by
  obtain ⟨cache, fs₁, hcache, h⟩ := Action.exists_of_run_bind h
  obtain ⟨rfl, -⟩ := (ends_inDirectory o fs).ok hcache
  rw [hsource] at h
  obtain ⟨digest, fs₃, hdigest, h⟩ := Action.exists_of_run_bind h
  obtain ⟨_, fs₄, hreplace, h⟩ := Action.exists_of_run_bind h
  obtain ⟨hpath, rfl⟩ := Prod.mk.inj h
  obtain rfl := Except.ok.inj hpath
  have hanswer : FileSystem.failing input (fs₁.digest input) = .ok digest :=
    congrArg Prod.fst hdigest
  rw [FileSystem.digest] at hanswer
  cases hread : fs₁.read input with
  | error fault =>
    rw [hread] at hanswer
    exact absurd hanswer (by simp [FileSystem.failing])
  | ok content =>
    rw [hread] at hanswer
    obtain rfl := Except.ok.inj hanswer
    exact ⟨rfl, content, FileSystem.read_of_replace hreplace⟩

/-! ### What a following run finds -/

/-- What is kept as a diagram is still there when the next run looks for it. -/
theorem read_atLookup {engine reordering : String} {content : Bytes} {fs : FileSystem}
    (h : fs.read (o.cache.diagramPath input engine reordering) = .ok content) :
    (atCache o (atLock o input fs)).read (o.cache.diagramPath input engine reordering) =
      .ok content := by
  have hmade := (FileSystem.extends_makeDirectories o.cacheDirectory fs).read h
  have hne := o.cache.placeOf_lockPath_ne input engine reordering (atCache o fs)
  exact (FileSystem.extends_makeDirectories o.cacheDirectory _).read
    (FileSystem.read_lock hne hmade)

/-- How a run that compiles an input sets an order, and what the engine writes of the diagram. -/
inductive Writes (o : Options) (conditions : Conditions) (provider : Provider σ) (input : Path)
    (w : World σ) : VariableOrder → Manager σ → NativeDump → Prop
  | compiled {g f : Formula} {order : VariableOrder} {m : Manager σ} {c : Compilation}
      {native : NativeDump} {e₁ e₂ e₃ e₄ : σ} (hread : Formula.ofFile input w.files = .ok g)
      (hsorted : sorted o g order = .ok f)
      (hacquire : provider.acquire.run w.engine = (.ok m, e₁))
      (hprepare : (prepare o m (ordered o conditions f) order).run e₁ = (.ok (), e₂))
      (hcompile : (Compilation.compile m (ordered o conditions f) none).run e₂ = (.ok c, e₃))
      (hwrite : (m.engine.dump c.diagram).run e₃ = (.ok native, e₄)) :
      Writes o conditions provider input w order m native

@[simp] theorem dumpPath_cachedReport (path : Path) (d : Dump) :
    (cachedReport path d).dumpPath = path := rfl

@[simp] theorem order_cachedReport (path : Path) (d : Dump) :
    (cachedReport path d).order = d.diagram.order := rfl

/-- Whether a file holds the dump of a report, of which the later keys have one line each. -/
structure Keeps (o : Options) (input : Path) (fs : FileSystem) (report : Report) (d : Dump) :
    Prop where
  path : report.dumpPath = o.cache.diagramPath input o.engine.stub o.reordering
  read : fs.read report.dumpPath = .ok d.bytes
  endsPlain : d.EndsPlain
  skipped : d.metadata.get? Compilation.skippedKey = some (Numeral.text report.skipped)

theorem Keeps.order_of_ofFile {fs : FileSystem} {d d' : Dump} (h : Keeps o input fs report d)
    (hd' : Dump.ofFile report.dumpPath fs = .ok d') : d'.diagram.order = d.diagram.order :=
  Dump.order_of_parse_text h.endsPlain (Dump.parse_of_ofFile h.read hd')

theorem Keeps.report_of_run {d : Dump} (h : Keeps o input w.files report d)
    (hskipped : report.skipped < UInt64.size) {second : Report}
    (hrun : (run o conditions provider input).run w = (.ok second, w'))
    (hcached : second.fromCache = true) :
    second.dumpPath = report.dumpPath ∧ second.skipped = report.skipped ∧
      second.order = d.diagram.order := by
  obtain ⟨g, ticket, v, -, hanswers, rfl⟩ := (ends_run o conditions provider input w).ok hrun
  cases hanswers with
  | stored => exact absurd hcached (by simp [freshReport])
  | @cached path d' v hmade hfound hd' hengine =>
    have hread := h.read
    obtain ⟨rfl, -⟩ := o.cache.diagram?_eq_some_iff.1 hfound
    rw [h.path] at hread
    rw [hmade] at hd'
    have hparse := Dump.parse_of_ofFile (read_atLookup hread) hd'
    have hfound := Dump.get?_of_parse_text_of_endsPlain h.endsPlain hparse (by decide) (by decide)
      h.skipped
    have hword : ∀ c ∈ (Numeral.text report.skipped).toList, Text.isBlank c = false := by
      rw [Numeral.text, String.toList_ofList]
      exact (Numeral.isWord_decimal _).2
    rw [(Dump.isValue_of_isBlank hword).trimmedEnd_eq] at hfound
    rw [dumpPath_cachedReport, skipped_cachedReport_eq hfound hskipped, order_cachedReport]
    exact ⟨h.path.symm, rfl, Dump.order_of_parse_text h.endsPlain hparse⟩

end Run

/-- Whether the numbers of variables in a native dump are words, and those of nodes can be. -/
structure NativeDump.FitsWords (native : NativeDump) : Prop where
  order_lt : ∀ v ∈ native.order, v < UInt32.size
  size_le {t : Native.Table} (h : native.format.parse native.text = .ok t) :
    t.nodes.entries.length + 2 ≤ UInt64.size

theorem Manager.fits_of_fitsWords {σ : Type} {m : Manager σ} {native : NativeDump} {d : Dump}
    (hwords : native.FitsWords) (h : m.dumpOf native = .ok d) : d.Fits := by
  obtain ⟨t, ht⟩ := exists_parse_of_dumpOf h
  exact fits_of_dumpOf ht (hwords.size_le ht) (fun _ => hwords.order_lt) h

namespace Run

variable {σ : Type} {o : Options} {conditions : Conditions} {provider : Provider σ} {input : Path}
  {w w' : World σ} {report : Report}

/-- A run that compiles keeps a dump with the order that the engine wrote. -/
theorem exists_keeps_of_run (hrun : (run o conditions provider input).run w = (.ok report, w'))
    (hfresh : report.fromCache = false) :
    ∃ m native d, Writes o conditions provider input w report.order m native ∧
      m.formulaOrder native.order = .ok d.diagram.order ∧ Keeps o input w'.files report d ∧
      (∃ f, Formula.ofFile input w.files = .ok f ∧ report.skipped ≤ f.clauses.length) ∧
      (m.IsPlain → m.HasPlainReorderings → '\n' ∉ input.text.toList → d.Plain) ∧
      (native.FitsWords → d.Fits) := by
  obtain ⟨g, ticket, v, hread, hanswers, rfl⟩ := (ends_run o conditions provider input w).ok hrun
  cases hanswers with
  | cached => exact absurd hfresh (by simp [cachedReport])
  | @stored f' order c d' fs path v haccesses hobtains hstore =>
    generalize v.engine = e at hobtains
    obtain @⟨f, _, m, _, d, e₁, e₂, hsorted, hacquire, hcompiles⟩ := hobtains
    cases hcompiles with
    | @compiled e₃ e₄ _ hprepare hcompile hdump =>
      obtain ⟨content, g', -, hg, rfl⟩ := Formula.exists_of_ofFile hread
      have hfrom : (ordered o conditions f).IsReadFrom input content :=
        .ordered o conditions (.read hg content) hsorted
      have hsource : (ordered o conditions f).source = some input := source_of_sorted hsorted
      obtain ⟨hpath, digested, hstored⟩ := exists_read_of_storeDump hsource hstore
      obtain ⟨native, hwrite, hdumpOf⟩ := Manager.exists_of_dump hdump
      obtain ⟨hle, hskipped⟩ := Compilation.skipped_of_compile hcompile
      have hback := Manager.formulaOrder_of_dumpOf hdumpOf
      have hkept := get?_described hskipped (by decide) (by decide) o (ordered o conditions f) d
      refine ⟨m, native,
        Cache.tagged input digested.digest (described o (ordered o conditions f) c d),
        .compiled hread hsorted hacquire hprepare hcompile hwrite,
        hback,
        ⟨hpath, (FileSystem.read_unlock v.files ticket path).trans hstored,
          endsPlain_tagged hfrom hcompile hdump digested,
          Cache.get?_tagged hkept (by decide) (by decide) input digested.digest⟩,
        ⟨_, hread, hle.trans_eq (perm_of_sorted hsorted).length_eq⟩,
        fun hm hreorderings hinput => ?_, fun hwords => ?_⟩
      · have ho := isPlain_of_prepare hreorderings hprepare
        have hmakes : Makes o (ordered o conditions f) _ := .compiled hm hcompile hdump
        exact Cache.plain_tagged (hmakes.plain ho (hfrom.oneLine hinput)) hinput digested
      · have hfits := Manager.fits_of_fitsWords hwords hdumpOf
        exact ⟨hfits.id_lt, hfits.length_lt⟩

/-- A run that compiles reports the order that it set. The dump that it writes has the order that
the engine wrote, and so has the report of the next run, if that finds the dump: it has the same
path, and as many clauses were given up. -/
theorem cached_order_read_back {first : Report}
    (hrun : (run o conditions provider input).run w = (.ok first, w'))
    (hfresh : first.fromCache = false)
    (hcount : ∀ f, Formula.ofFile input w.files = .ok f → f.clauses.length < UInt64.size) :
    ∃ m native back, Writes o conditions provider input w first.order m native ∧
      m.formulaOrder native.order = .ok back ∧
      (∃ d : Dump, w'.files.read first.dumpPath = .ok d.bytes ∧ d.diagram.order = back ∧
        (m.IsPlain → m.HasPlainReorderings → '\n' ∉ input.text.toList → native.FitsWords →
          ∃ d', Dump.ofFile first.dumpPath w'.files = .ok d' ∧ d'.diagram = d.diagram)) ∧
      (∀ d, Dump.ofFile first.dumpPath w'.files = .ok d → d.diagram.order = back) ∧
      ∀ {τ : Type} (conditions' : Conditions) (provider' : Provider τ) (e : τ) (second : Report)
        (w'' : World τ),
        (run o conditions' provider' input).run ⟨w'.files, e⟩ = (.ok second, w'') →
        second.fromCache = true →
          second.dumpPath = first.dumpPath ∧ second.skipped = first.skipped ∧
            second.order = back := by
  obtain ⟨m, native, d, hwrites, hback, hkeeps, ⟨f, hf, hle⟩, hplain, hfits⟩ :=
    exists_keeps_of_run hrun hfresh
  refine ⟨m, native, d.diagram.order, hwrites, hback, ⟨d, hkeeps.read, rfl, ?_⟩,
    fun d' => hkeeps.order_of_ofFile, ?_⟩
  · intro hm hreorderings hinput hwords
    obtain ⟨d', hparse, hdiagram⟩ := (hplain hm hreorderings hinput).exists_parse (hfits hwords)
    exact ⟨d', Dump.ofFile_eq_ok_iff.2 ⟨_, _, hkeeps.read, Bytes.text?_ofText _, hparse⟩, hdiagram⟩
  · intro τ conditions' provider' e second w'' hagain hcached
    have hagain' : Keeps o input (⟨w'.files, e⟩ : World τ).files first d := hkeeps
    exact hagain'.report_of_run (Nat.lt_of_le_of_lt hle (hcount f hf)) hagain hcached

end Run

/-! ### An engine that swaps two variables -/

namespace Run
namespace Reordered

open Sequence.GivenUp (input cache path beside place besidePlace lockPlace locked run_inDirectory
  diagramPath_input withExtension_path)

/-- A formula with two variables and no clauses, which always holds. -/
def content : Bytes := .ofText "p cnf 2 0\n"

def formula : Formula := Formula.ofClauses 2 []

/-- An engine that has swapped the variables when it writes the diagram that always holds. -/
def script : Scripted.Script where
  capabilities := ⟨false, true, .rebuild, [("lib-default", 0)]⟩
  ownNegatedVar := false
  native := some ⟨.buddy, "0 0 1", [2, 1]⟩
  failing := .empty
  delay := .zero

def manager : Manager Scripted.State := ⟨Scripted.engine script, none⟩

def provider : Provider Scripted.State := ⟨pure manager, id⟩

def files : FileSystem :=
  (FileSystem.empty.put ["work", "_cache"] .directory).put ["work", "f"] (.file content)

def swapped : VariableOrder := ⟨[2, 1], by decide, by decide⟩

def diagram : Diagram where
  order := swapped
  root := ⟨false, 1⟩
  nodes := []
  wellFormed := by constructor <;> decide

theorem read_content : Dimacs.read content = .ok formula := by
  let r : Dimacs.Reader := ⟨[], 1, .empty, some ⟨2, 0⟩, [], false⟩
  have hpreamble : (Dimacs.Reader.ofBytes content).readPreamble = (.ok ⟨2, 0⟩, r) := by cbv
  have hrefill : (r.withTokens []).refill = (.ok false, r.finish) := by cbv
  exact Dimacs.read_of_no_clause hpreamble (Dimacs.Reader.gather_of_end rfl hrefill) rfl

def read : Formula := formula.readFrom input content

def ordered : Formula := Run.ordered {} (.unhurried 0) read

def order : VariableOrder := .identity 2

def prepared : Scripted.State := ((Run.prepare {} manager ordered order).run .fresh).2

def compiled : Scripted.State := ((Compilation.compile manager ordered none).run prepared).2

def written : Scripted.State := ((manager.dump ⟨1⟩).run compiled).2

def compilation : Compilation where
  diagram := ⟨1⟩
  metadata := (Dictionary.empty : Metadata).insertAll
    [(Compilation.runtimeKey, Duration.zero.secondsText), (Compilation.skippedKey, "0"),
      (Compilation.clausesKey, "0")]
  skipped := 0

theorem run_prepare : (Run.prepare {} manager ordered order).run .fresh = (.ok (), prepared) :=
  Prod.ext rfl rfl

theorem run_compile :
    (Compilation.compile manager ordered none).run prepared = (.ok compilation, compiled) :=
  Prod.ext rfl rfl

theorem dumpOf_native : manager.dumpOf ⟨.buddy, "0 0 1", [2, 1]⟩ =
    .ok (.ofDiagram manager.name manager.stub diagram) := by
  have hformula : manager.formulaOrder [2, 1] = .ok swapped := by decide
  have htranslate : (NativeDump.mk .buddy "0 0 1" [2, 1]).format.translate "0 0 1" =
      .ok ⟨⟨false, 1⟩, []⟩ := by cbv
  have hdiagram : Diagram.ofNodes swapped ⟨false, 1⟩ [] = .ok diagram :=
    diagram.wellFormed.ofNodes_eq
  rw [Manager.dumpOf]
  simp only [htranslate, List.mapM_nil, hformula, hdiagram, bind, Except.bind, pure, Except.pure]

theorem run_dump : (manager.dump compilation.diagram).run compiled =
    (.ok (.ofDiagram manager.name manager.stub diagram), written) := by
  have hwrite : (manager.engine.dump compilation.diagram).run compiled =
      (.ok ⟨.buddy, "0 0 1", [2, 1]⟩, written) := Prod.ext rfl rfl
  rw [Manager.dump, Action.run_bind_of_ok hwrite, Action.run_ofExcept, dumpOf_native]

def dump : Dump := Cache.tagged input content.digest
  (described {} ordered compilation (.ofDiagram manager.name manager.stub diagram))

def kept : FileSystem :=
  ((((locked files).put besidePlace (.file dump.bytes)).vacate besidePlace).put place
    (.file dump.bytes)).unlock 0

theorem read_input {fs : FileSystem} (hlocate : fs.locate input = .ok ["work", "f"])
    (hfile : fs.find? ["work", "f"] = some (.file content)) : fs.read input = .ok content :=
  FileSystem.read_of_locate hlocate hfile (by decide)

theorem ofFile_input {fs : FileSystem} (hread : fs.read input = .ok content) :
    Formula.ofFile input fs = .ok read := Formula.ofFile_of_read hread read_content

theorem diagram?_locked : cache.diagram? input ({} : Options).engine.stub
    ({} : Options).reordering (locked files) = none := by
  have hread : (locked files).read path = .error .notFound := by
    have hlocate : (locked files).locate path = .ok place := by decide
    rw [FileSystem.read, hlocate]
    rfl
  cases hfound : cache.diagram? input ({} : Options).engine.stub ({} : Options).reordering
      (locked files) with
  | none => rfl
  | some found =>
    obtain ⟨rfl, d, hdump, -⟩ := cache.diagram?_eq_some_iff.1 hfound
    obtain ⟨stored, -, hstored, -⟩ := Dump.ofFile_eq_ok_iff.1 hdump
    rw [diagramPath_input, hread] at hstored
    exact absurd hstored (by simp)

theorem run_storeDump : (storeDump {} ordered
    (described {} ordered compilation (.ofDiagram manager.name manager.stub diagram))).run
      (locked files) = (.ok path, (((locked files).put besidePlace (.file dump.bytes)).vacate
        besidePlace).put place (.file dump.bytes)) := by
  have hread : (locked files).read input = .ok content := read_input rfl rfl
  have hdigest := Cache.run_digestOf_of_read hread
  have hwrite : (FileSystem.write beside dump.bytes).run (locked files) =
      (.ok (), (locked files).put besidePlace (.file dump.bytes)) :=
    FileSystem.run_write (by decide) rfl
  have hmove : (FileSystem.move beside path).run
      ((locked files).put besidePlace (.file dump.bytes)) = (.ok (), _) :=
    FileSystem.run_move rfl rfl (by decide) rfl
  have hreplace := (Action.run_bind_of_ok hwrite fun _ => FileSystem.move beside path).trans hmove
  have hdiagram : cache.diagramPath input ({} : Options).engine.stub ({} : Options).reordering =
    path := diagramPath_input
  refine (Action.run_bind_of_ok (run_inDirectory (by decide) rfl) _).trans ?_
  refine (Action.run_bind_of_ok hdigest _).trans ?_
  rw [hdiagram, FileSystem.replace, withExtension_path]
  exact (Action.run_bind_of_ok hreplace _).trans rfl

/-- The first run compiles, and reports the order that it set. -/
theorem run_first : (run {} (.unhurried 0) provider input).run ⟨files, .fresh⟩ =
    (.ok (freshReport path order ordered compilation),
      ⟨kept, Scripted.release compilation.diagram written⟩) := by
  have hcompiles : Compiles {} manager ordered order .fresh compilation
      (.ofDiagram manager.name manager.stub diagram) written :=
    .compiled run_prepare run_compile run_dump
  have horder : (orderFor {} (.unhurried 0) read).run (locked files) =
      (.ok (order, ordered), locked files) := rfl
  have hacquire : provider.acquire.run .fresh = (.ok manager, .fresh) := rfl
  have hstays : (Cache.inDirectory cache.directory).run (locked files) =
      (.ok cache, locked files) := run_inDirectory (by decide) rfl
  have hlock : (cache.lock input).run files = (.ok 0, locked files) :=
    Sequence.GivenUp.run_lock (fun _ _ => rfl) (by decide) (by decide)
  have hanswer : (answer {} (.unhurried 0) provider read).run ⟨locked files, .fresh⟩ =
      (.ok (freshReport path order ordered compilation), ⟨_, _⟩) :=
    run_answer_of_none (o := {}) rfl rfl hstays diagram?_locked horder hacquire hcompiles
      run_storeDump
  exact run_of_answer (ofFile_input (read_input rfl rfl)) (run_inDirectory (by decide) rfl) hlock
    hanswer

theorem exists_parse : ∃ d, Dump.parse dump.text = .ok d ∧ d.diagram = diagram ∧
    d.metadata.get? Formula.digestKey = some content.digest := by
  have hm : manager.IsPlain := ⟨by decide, by decide⟩
  have ho : ({} : Options).IsPlain := ⟨by decide, by decide⟩
  have hinput : '\n' ∉ input.text.toList := by decide
  have hsorted : sorted {} read order = .ok read := rfl
  have hfrom : ordered.IsReadFrom input content :=
    .ordered {} (.unhurried 0) (.read read_content content) hsorted
  have hplain := (Makes.compiled hm run_compile run_dump).plain ho (hfrom.oneLine hinput)
  have hdump : dump.Plain := Cache.plain_tagged hplain hinput content
  have hfits : dump.Fits := by
    refine ⟨fun n hn => ?_, by decide⟩
    rw [show dump.diagram.nodes = [] from rfl] at hn
    exact absurd hn (by simp)
  obtain ⟨d, hparse, hdiagram⟩ := hdump.exists_parse hfits
  exact ⟨d, hparse, hdiagram, Cache.digest_of_parse_tagged hplain hinput hparse⟩

/-- The next run finds the dump, whose order is the other one. -/
theorem exists_run_second : ∃ d files', Dump.ofFile path kept = .ok d ∧ d.diagram = diagram ∧
    (run {} (.unhurried 0) provider input).run ⟨kept, .fresh⟩ =
      (.ok (cachedReport path d), ⟨files', .fresh⟩) := by
  obtain ⟨d, hparse, hdiagram, hdigest⟩ := exists_parse
  have hdump {fs : FileSystem} (hread : fs.read path = .ok dump.bytes) :
      Dump.ofFile path fs = .ok d :=
    Dump.ofFile_eq_ok_iff.2 ⟨_, _, hread, Bytes.text?_ofText _, hparse⟩
  have hcurrent : Cache.isCurrent (locked kept) input d.metadata = true := by
    rw [Cache.isCurrent, hdigest, FileSystem.digest, read_input rfl rfl]
    simp
  have hlocked : Dump.ofFile path (locked kept) = .ok d :=
    hdump (FileSystem.read_of_locate rfl rfl (by decide))
  have hfound := cache.diagram?_eq_some_iff.2 ⟨diagramPath_input.symm, d, hlocked, hcurrent⟩
  exact ⟨d, _, hdump (FileSystem.read_of_locate rfl rfl (by decide)), hdiagram,
    run_of_answer (ofFile_input (read_input rfl rfl)) (run_inDirectory rfl rfl)
      (Sequence.GivenUp.run_lock (fun _ _ => rfl) rfl rfl)
      (run_answer_of_some (o := {}) rfl rfl (run_inDirectory rfl rfl) hfound hlocked)⟩

theorem count_lt {f : Formula} (hf : Formula.ofFile input files = .ok f) :
    f.clauses.length < UInt64.size := by
  obtain rfl := Except.ok.inj (hf.symm.trans (ofFile_input (read_input rfl rfl)))
  decide

/-- The engine that swaps the variables is read back as it is. -/
theorem cached_order_swapped : ∃ first w',
    (run {} (.unhurried 0) provider input).run ⟨files, .fresh⟩ = (.ok first, w') ∧
      first.fromCache = false ∧
      (∀ f, Formula.ofFile input files = .ok f → f.clauses.length < UInt64.size) ∧
      ∃ m native back,
        Writes {} (.unhurried 0) provider input ⟨files, .fresh⟩ first.order m native ∧
        m.formulaOrder native.order = .ok back ∧
        (∀ d, Dump.ofFile first.dumpPath w'.files = .ok d → d.diagram.order = back) ∧
        ∃ second w'', (run {} (.unhurried 0) provider input).run ⟨w'.files, .fresh⟩ =
          (.ok second, w'') ∧ second.fromCache = true ∧ second.dumpPath = first.dumpPath ∧
            second.skipped = first.skipped ∧ second.order = back := by
  obtain ⟨m, native, back, hwrites, hback, -, hread, hagain⟩ :=
    cached_order_read_back run_first rfl fun f => count_lt
  obtain ⟨d, files', hdump, hdiagram, hsecond⟩ := exists_run_second
  exact ⟨_, _, run_first, rfl, fun f => count_lt, m, native, back, hwrites, hback, hread, _, _,
    hsecond, rfl, hagain _ _ _ _ _ hsecond rfl⟩

/-- Not every run that compiles writes a dump with the order that it reports, and not every run that
finds the dump of the run before reports the same order. -/
theorem not_order_reported :
    (¬ ∀ (σ : Type) (o : Options) (conditions : Conditions) (provider : Provider σ) (input : Path)
      (w w' : World σ) (first : Report), '\n' ∉ input.text.toList →
        (run o conditions provider input).run w = (.ok first, w') → first.fromCache = false →
        ∃ d, Dump.ofFile first.dumpPath w'.files = .ok d ∧ d.diagram.order = first.order) ∧
      ¬ ∀ (σ : Type) (o : Options) (conditions : Conditions) (provider : Provider σ) (input : Path)
        (w w' w'' : World σ) (e : σ) (first second : Report), '\n' ∉ input.text.toList →
          (run o conditions provider input).run w = (.ok first, w') → first.fromCache = false →
          (run o conditions provider input).run ⟨w'.files, e⟩ = (.ok second, w'') →
          second.fromCache = true → second.order = first.order := by
  have hinput : '\n' ∉ input.text.toList := by decide
  have hne : diagram.order ≠ order := by decide
  obtain ⟨d, files', hdump, hdiagram, hsecond⟩ := exists_run_second
  constructor
  · intro hall
    obtain ⟨d', hdump', horder⟩ := hall _ _ _ _ _ _ _ _ hinput run_first rfl
    obtain rfl := Except.ok.inj (hdump.symm.trans hdump')
    exact hne (hdiagram ▸ horder)
  · intro hall
    have horder := hall _ _ _ _ _ _ _ _ _ _ _ hinput run_first rfl hsecond rfl
    exact hne (hdiagram ▸ horder)

end Reordered
end Run
end DiagramCompiler
