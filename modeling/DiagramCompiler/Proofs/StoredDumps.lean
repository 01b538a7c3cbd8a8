import DiagramCompiler.Proofs.CachedDiagrams
import DiagramCompiler.Proofs.EngineDumps
import DiagramCompiler.Proofs.HeldReferences
import DiagramCompiler.Proofs.ReadBackOrders
import DiagramCompiler.Proofs.TouchedFiles

/-! Dumps that are stored for files.
A dump of what was compiled is stored under a name that is longer than that of the file, so that the
file stays as it is. What is read back has the diagram of the dump and names the file, and it is
found in the cache for as long as the file has the same content, if the options look for it at all. -/
namespace DiagramCompiler

/-! ### Files that are kept apart -/

theorem FileSystem.placeOf_ne_of_length {fs : FileSystem} {input path directory : Path}
    {above : Location} {name other : String} (hinput : fs.placeOf input = above ++ [name])
    (hpath : path.Names directory other) (hlength : name.length < other.length) :
    fs.placeOf input ≠ fs.placeOf path := by
  rw [hinput, placeOf_of_names hpath]
  intro heq
  obtain ⟨-, hlast⟩ := List.append_inj' heq rfl
  exact absurd (congrArg String.length (List.cons.inj hlast).1) (Nat.ne_of_lt hlength)

theorem FileSystem.placeOf_ne_of_names {fs : FileSystem} {input path directory : Path}
    {above : Location} {name tail ext : String} (hinput : fs.placeOf input = above ++ [name])
    (hpath : path.Names directory (name ++ tail ++ "." ++ ext)) :
    fs.placeOf input ≠ fs.placeOf path := by
  have hdot : (".".length) = 1 := by decide
  refine placeOf_ne_of_length hinput hpath ?_
  simp only [String.length_append, hdot]
  omega

namespace Run

variable {o : Options} {f : Formula} {input path : Path} {d d' : Dump} {content : Bytes}
  {fs fs' : FileSystem}

/-- What is so after a dump of an input with some content was stored. -/
structure Stores (o : Options) (input : Path) (content : Bytes) (d : Dump) (fs fs' : FileSystem)
    (path : Path) : Prop where
  path_eq : path = o.cache.diagramPath input o.engine.stub o.reordering
  tree : fs'.IsTree
  /-- The input is as it was. -/
  read_input : fs'.read input = .ok content
  content_eq {found : Bytes} (h : fs.read input = .ok found) : found = content
  read : fs'.read path = .ok (Cache.tagged input content.digest d).bytes

theorem stores_of_storeDump (htree : fs.IsTree) (ho : '/' ∉ o.reordering.toList)
    (hsource : f.source = some input) (h : (storeDump o f d).run fs = (.ok path, fs')) :
    ∃ content, Stores o input content d fs fs' path := by
  obtain ⟨cache, fs₁, hcache, h⟩ := Action.exists_of_run_bind h
  obtain ⟨rfl, rfl⟩ := (ends_inDirectory o fs).ok hcache
  have htree₁ := (htree.makeDirectories o.cacheDirectory).tree
  rw [hsource] at h
  obtain ⟨rfl, htouch, content, hread, hkept⟩ := (Cache.ends_keep htree₁ input
    (o.cache.diagramPath input o.engine.stub o.reordering)
    fun digest => (Cache.tagged input digest d).bytes).ok h
  obtain ⟨above, name, hname, hplace⟩ := htree₁.exists_placeOf_eq hread
  obtain ⟨hpath, hbeside⟩ := o.cache.names_diagram hname o.engine ho
  have hne := FileSystem.placeOf_ne_of_names hplace hpath
  have hne' := FileSystem.placeOf_ne_of_names hplace hbeside
  refine ⟨content, rfl, htouch.tree, htouch.read ?_ hread, fun hfound => ?_, hkept⟩
  · simp [hne, hne']
  · have hsame := (FileSystem.extends_makeDirectories o.cacheDirectory fs).read hfound
    exact Except.ok.inj (hsame.symm.trans hread)

theorem run_inDirectory_of_read (htree : fs.IsTree) (ho : '/' ∉ o.reordering.toList)
    (hinput : fs.read input = .ok content) {kept : Bytes}
    (hkept : fs.read (o.cache.diagramPath input o.engine.stub o.reordering) = .ok kept) :
    (Cache.inDirectory o.cacheDirectory).run fs = (.ok o.cache, fs) := by
  obtain ⟨name, hname⟩ := htree.exists_fileName hinput
  obtain ⟨hnames, -⟩ := o.cache.names_diagram hname o.engine ho
  obtain ⟨place, hplace, -⟩ := FileSystem.exists_of_read hkept
  rw [Cache.diagramPath_eq, Path.baseName, hname, Option.getD_some] at hnames hplace
  exact Action.run_bind_of_ok (htree.run_makeDirectories_of_join hnames hplace) _

/-- The diagram of a file is found if it is that of the content, unless it is not looked for. -/
theorem run_cachedDiagram?_of_current (htree : fs.IsTree) (ho : '/' ∉ o.reordering.toList)
    (hsource : f.source = some input) (hinput : fs.read input = .ok content)
    (hdump : Dump.ofFile (o.cache.diagramPath input o.engine.stub o.reordering) fs = .ok d)
    (hdigest : d.metadata.get? Formula.digestKey = some content.digest) :
    (cachedDiagram? o f).run fs = (.ok (if o.useCache && o.useCachedResults then
      some (o.cache.diagramPath input o.engine.stub o.reordering) else none), fs) := by
  obtain ⟨kept, -, hkept, -⟩ := Dump.ofFile_eq_ok_iff.1 hdump
  have hopened := run_inDirectory_of_read htree ho hinput hkept
  have hcurrent : Cache.isCurrent fs input d.metadata = true := by
    rw [Cache.isCurrent, hdigest, FileSystem.digest, hinput]
    simp
  have hfound := o.cache.diagram?_eq_some_iff.2 ⟨rfl, d, hdump, hcurrent⟩
  rw [cachedDiagram?, hsource]
  split
  · have hattempt : (Cache.inDirectory o.cacheDirectory).attempt.run fs = (.ok (.ok o.cache), fs) := by
      rw [Action.run_attempt, hopened]
    refine (Action.run_bind_of_ok hattempt _).trans ?_
    simp only [Action.run_reading, hfound]
  · rfl

end Run

def Manager.Accepts {σ : Type} (m : Manager σ) (o : Options) : Prop :=
  ∃ s s', (m.setReordering o.reordering).run s = (.ok (), s')

theorem Formula.IsReadFrom.source_eq {input : Path} {parsed : Bytes} {f : Formula}
    (h : f.IsReadFrom input parsed) : f.source = some input := by
  induction h with
  | read => rfl
  | ordered o conditions _ hsorted ih => exact (Run.source_of_sorted hsorted).trans ih

theorem Cache.name_of_parse_tagged {d d' : Dump} (h : d.Plain) {input : Path}
    (hinput : '\n' ∉ input.text.toList) {content : Bytes}
    (hparse : Dump.parse (tagged input content.digest d).text = .ok d') :
    d'.metadata.get? Formula.nameKey = some (trimmedEnd input.text) := by
  have hkey : Formula.digestKey ≠ Formula.nameKey := by decide
  have hget : (tagged input content.digest d).metadata.get? Formula.nameKey = some input.text := by
    simp [tagged, Dictionary.get?_insert, hkey]
  rw [Dump.get?_of_parse_text (plain_tagged h hinput content).header hparse (by decide), hget,
    Option.map_some]

/-! ### Dumps of what the reference engine compiled -/

namespace Reference

/-- A compilation, and a state of the engine in which its diagram is still held, whatever was done
before the compilation and has been done since. -/
inductive Compiled (bound : Option Duration) (c : Compilation) : State → Prop where
  | held {failing : Option Nat} {delay : Duration} {before : List Task} {f : Formula}
      {order : Option VariableOrder} {s : State}
      (hcompile : (Compilation.compile (manager bound) f order).run
        (Task.runAll (manager bound) before .empty (.fresh failing delay)).2 = (.ok c, s))
      (after : List Task) :
      Compiled bound c (Task.runAll (manager bound) after
        (Task.runAll (manager bound) before .empty (.fresh failing delay)).1 s).2

variable {bound : Option Duration} {c : Compilation} {s : State}

/-- The state is sound, and the diagram is one of those that are held. -/
theorem Compiled.exists_holds (h : Compiled bound c s) :
    ∃ refs, contract.holds s refs ∧ c.diagram ∈ refs := by
  let C : (manager bound).engine.Custody := contract.custody fun hs _ => .reading hs
  cases h with
  | @held failing delay before f order s hcompile after =>
    have hfresh : C.holds (.fresh failing delay) 0 :=
      ⟨Table.sound_empty, fun _ hnode => absurd hnode (Multiset.notMem_zero _)⟩
    obtain ⟨-, hends⟩ := (manager bound).accounts C hfresh before f order
    have hheld := hends.ok hcompile
    rw [← Multiset.singleton_add, add_comm] at hheld
    exact ⟨_, Task.holds_runAll hheld after, by simp⟩

theorem isPlain_manager (bound : Option Duration) : (manager bound).IsPlain :=
  ⟨show '\n' ∉ name.toList by decide, show '\n' ∉ stub.toList by decide⟩

theorem hasPlainReorderings_manager (bound : Option Duration) :
    (manager bound).HasPlainReorderings := by
  have hall : ∀ r ∈ [("lib-default", (1 : Int))], '\n' ∉ r.1.toList ∧ '/' ∉ r.1.toList := by decide
  exact hall

theorem Compiled.oneLine (h : Compiled bound c s) : ∀ e ∈ c.metadata.entries, Dump.OneLine e := by
  obtain ⟨hcompile, -⟩ := h
  exact Compilation.oneLine_of_compile hcompile

theorem Compiled.fits (h : Compiled bound c s) {s' : State} {d : Dump}
    (hdump : ((manager bound).dump c.diagram).run s = (.ok d, s')) : d.Fits := by
  obtain ⟨refs, hholds, hmem⟩ := h.exists_holds
  exact ((manager bound).eval_of_dump contract_writesDiagrams hholds hmem hdump).1

/-- How a dump of what was compiled is stored for a file that a formula was read from. -/
structure Dumped (bound : Option Duration) (o : Options) (input : Path) (f : Formula)
    (c : Compilation) (w w' : World State) (path : Path) : Prop where
  tree : w.files.IsTree
  isReadFrom : ∃ parsed, f.IsReadFrom input parsed
  accepts : (manager bound).Accepts o
  compiled : Compiled bound c w.engine
  run : (Run.dump o (manager bound) c f).run w = (.ok path, w')

theorem Dumped.isPlain {o : Options} {input path : Path} {f : Formula} {w w' : World State}
    (h : Dumped bound o input f c w w' path) : o.IsPlain := by
  obtain ⟨s, s', haccepts⟩ := h.accepts
  exact Run.isPlain_of_setReordering (hasPlainReorderings_manager bound) haccepts

/-- The dump that is stored can be read, and has the diagram that the engine dumps. -/
theorem Dumped.exists_parse {o : Options} {input path : Path} {f : Formula} {w w' : World State}
    (h : Dumped bound o input f c w w' path) (hinput : '\n' ∉ input.text.toList) :
    ∃ d d' content, ((manager bound).dump c.diagram).run w.engine = (.ok d, w'.engine) ∧
      Run.Stores o input content (Run.described o f c d) w.files w'.files path ∧
      Dump.parse (Cache.tagged input content.digest (Run.described o f c d)).text = .ok d' ∧
      d'.diagram = d.diagram ∧ d'.metadata.get? Formula.nameKey = some (trimmedEnd input.text) ∧
      d'.metadata.get? Formula.digestKey = some content.digest := by
  obtain ⟨d, hdump, hstore⟩ := (Run.ends_dump o (manager bound) c f w).ok h.run
  obtain ⟨parsed, hf⟩ := h.isReadFrom
  have ho := h.isPlain
  obtain ⟨content, hstored⟩ := Run.stores_of_storeDump h.tree ho.2 hf.source_eq hstore
  have hplain : (Run.described o f c d).Plain :=
    Run.plain_described (isPlain_manager bound) ho (hf.oneLine hinput) h.compiled.oneLine hdump
  have hfits : (Cache.tagged input content.digest (Run.described o f c d)).Fits :=
    ⟨(h.compiled.fits hdump).id_lt, (h.compiled.fits hdump).length_lt⟩
  obtain ⟨d', hparse, hdiagram⟩ := (Cache.plain_tagged hplain hinput content).exists_parse hfits
  exact ⟨d, d', content, hdump, hstored, hparse, hdiagram,
    Cache.name_of_parse_tagged hplain hinput hparse,
    Cache.digest_of_parse_tagged hplain hinput hparse⟩

/-- A dump that is stored for a file whose path has no line feeds is read back from there with the
diagram that the engine dumps. It names the file, if the path does not end in blanks, and for as long
as the content of the file stays what it was, the dump is the diagram found for the file, unless the
options look for none. -/
theorem stored_dump_read_back {o : Options} {input path : Path} {f : Formula} {w w' : World State}
    (h : Dumped bound o input f c w w' path) (hinput : '\n' ∉ input.text.toList) :
    ∃ d d', ((manager bound).dump c.diagram).run w.engine = (.ok d, w'.engine) ∧
      Dump.ofFile path w'.files = .ok d' ∧ d'.diagram = d.diagram ∧
      (trimmedEnd input.text = input.text →
        d'.metadata.get? Formula.nameKey = some input.text) ∧
      ∃ content, w'.files.IsTree ∧ w'.files.read input = .ok content ∧
        (∀ found, w.files.read input = .ok found → found = content) ∧
        ∀ later : FileSystem, later.IsTree → later.read input = .ok content →
          later.read path = w'.files.read path → (Run.cachedDiagram? o f).run later =
            (.ok (if o.useCache && o.useCachedResults then some path else none), later) := by
  obtain ⟨d, d', content, hdump, hstored, hparse, hdiagram, hname, hdigest⟩ := h.exists_parse hinput
  obtain ⟨parsed, hf⟩ := h.isReadFrom
  have hread {later : FileSystem} (hsame : later.read path = w'.files.read path) :
      Dump.ofFile path later = .ok d' :=
    Dump.ofFile_eq_ok_iff.2 ⟨_, _, hsame.trans hstored.read, Bytes.text?_ofText _, hparse⟩
  refine ⟨d, d', hdump, hread rfl, hdiagram, fun htrimmed => by rw [hname, htrimmed], content,
    hstored.tree, hstored.read_input, fun found => hstored.content_eq,
    fun later hlater hsame hkept => ?_⟩
  have hfound := hread hkept
  rw [hstored.path_eq] at hfound ⊢
  exact Run.run_cachedDiagram?_of_current hlater h.isPlain.2 hf.source_eq hsame hfound hdigest

/-! ### A formula in files of any name -/

namespace DumpedAs

open Interleaving.EditedFormula (before formula compilation holds_one read_before)

def files (name : String) : FileSystem :=
  (FileSystem.empty.put ["work", "_cache"] .directory).put ["work", name] (.file before)

def read (name : String) : Formula := formula.readFrom ⟨name⟩ before

def held : State := ⟨.empty, 1, .zero, 0, none, false, .zero⟩

def dump : Dump := .ofDiagram Reference.name Reference.stub (Table.sound_empty.diagram holds_one)

def path (name : String) : Path := ⟨"_cache/" ++ name ++ "-buddy-lib-default.dd"⟩

def place (name : String) : Location := ["work", "_cache", name ++ "-buddy-lib-default.dd"]

def besidePlace (name : String) : Location := ["work", "_cache", name ++ "-buddy-lib-default.tmp"]

def stored (o : Options) (name : String) : Dump :=
  Cache.tagged ⟨name⟩ before.digest (Run.described o (read name) compilation dump)

def kept (o : Options) (name : String) : FileSystem :=
  (files name).replaced (besidePlace name) (place name) (stored o name).bytes

theorem isTree_files {name : String} (hname : name ≠ "_cache") : (files name).IsTree := by
  have hcache : (FileSystem.empty.put ["work", "_cache"] .directory).IsTree :=
    @FileSystem.IsTree.put _ FileSystem.isTree_empty ["work"] "_cache" _ rfl fun _ => rfl
  refine @FileSystem.IsTree.put _ hcache ["work"] name _ rfl fun h => ?_
  rw [FileSystem.find?_put (by simp)] at h
  simp [hname.symm, FileSystem.empty, FileSystem.find?] at h

theorem compiled_held : Compiled none compilation held :=
  @Compiled.held none compilation none .zero [] formula none held rfl []

theorem run_dump_held : ((manager none).dump compilation.diagram).run held = (.ok dump, held) := by
  have hanswer := (answers_dumpOf none Table.sound_empty holds_one).eq_ok
    ⟨fun h => absurd h (by decide), by decide⟩
  rw [run_dump]
  exact congrArg (·, _) hanswer

theorem dumped {o : Options} {name : String} (hcache : o.cacheDirectory = ⟨"_cache"⟩)
    (hreordering : o.reordering = "lib-default") (hname : name ≠ "_cache")
    (hpath : o.cache.diagramPath ⟨name⟩ o.engine.stub o.reordering = path name)
    (hread : (files name).read ⟨name⟩ = .ok before)
    (hbeside : (files name).target ((path name).withExtension "tmp") = .ok (besidePlace name))
    (hplace : (files name).target (path name) = .ok (place name)) :
    Dumped none o ⟨name⟩ (read name) compilation ⟨files name, held⟩ ⟨kept o name, held⟩
      (path name) where
  tree := isTree_files hname
  isReadFrom := ⟨before, .read read_before before⟩
  accepts := by
    rw [Manager.Accepts, hreordering]
    exact ⟨held, _, rfl⟩
  compiled := compiled_held
  run := by
    have hopened : (Cache.inDirectory o.cacheDirectory).run (files name) =
        (.ok o.cache, files name) := by
      have hmake : (FileSystem.makeDirectories o.cacheDirectory).run (files name) =
          (.ok (), files name) := by
        have hlocate : (files name).locate ⟨"_cache"⟩ = .ok ["work", "_cache"] := rfl
        have hfind : (files name).find? ["work", "_cache"] = some .directory := by
          rw [files, FileSystem.find?_put (by simp), if_neg (by simp [hname])]
          rfl
        exact hcache ▸ FileSystem.run_makeDirectories hlocate hfind
      exact Action.run_bind_of_ok hmake _
    have hdigest := Cache.run_digestOf_of_read hread
    have hreplace : (FileSystem.replace (path name) (stored o name).bytes).run (files name) =
        (.ok (), kept o name) := FileSystem.run_replace hbeside hplace rfl
    have hstore : (Run.storeDump o (read name) (Run.described o (read name) compilation dump)).run
        (files name) = (.ok (path name), kept o name) := by
      refine (Action.run_bind_of_ok hopened _).trans ((Action.run_bind_of_ok hdigest _).trans ?_)
      rw [hpath]
      exact (Action.run_bind_of_ok hreplace _).trans rfl
    exact (Action.run_bind_of_ok (World.run_onEngine run_dump_held) _).trans
      (World.run_onFiles hstore)

theorem dumped_f {o : Options} (hcache : o.cacheDirectory = ⟨"_cache"⟩)
    (hreordering : o.reordering = "lib-default")
    (hpath : o.cache.diagramPath ⟨"f"⟩ o.engine.stub o.reordering = path "f") :
    Dumped none o ⟨"f"⟩ (read "f") compilation ⟨files "f", held⟩ ⟨kept o "f", held⟩ (path "f") :=
  dumped hcache hreordering (by decide) hpath (by decide) (by decide) (by decide)

/-- What is stored for a file with a plain name is read back and found. -/
theorem stored_dump_read_back_f :
    Dumped none {} ⟨"f"⟩ (read "f") compilation ⟨files "f", held⟩ ⟨kept {} "f", held⟩ (path "f") ∧
      '\n' ∉ (⟨"f"⟩ : Path).text.toList ∧ trimmedEnd "f" = "f" ∧
      ∃ d', Dump.ofFile (path "f") (kept {} "f") = .ok d' ∧ d'.diagram = dump.diagram ∧
        d'.metadata.get? Formula.nameKey = some "f" ∧
        (Run.cachedDiagram? {} (read "f")).run (kept {} "f") = (.ok (some (path "f")), kept {} "f") := by
  have hdumped := dumped_f (o := {}) rfl rfl (by decide)
  have htrimmed : trimmedEnd "f" = "f" := by decide
  obtain ⟨d, d', hdump, hread, hdiagram, hname, content, htree, hinput, -, hfound⟩ :=
    stored_dump_read_back hdumped (by decide)
  obtain rfl : dump = d := Except.ok.inj (congrArg Prod.fst (run_dump_held.symm.trans hdump))
  exact ⟨hdumped, by decide, htrimmed, d', hread, hdiagram, hname htrimmed,
    hfound _ htree hinput rfl⟩

theorem dumped_feed : Dumped none {} ⟨"f\ng"⟩ (read "f\ng") compilation ⟨files "f\ng", held⟩
    ⟨kept {} "f\ng", held⟩ (path "f\ng") :=
  dumped rfl rfl (by decide) (by decide) (by decide) (by decide) (by decide)

theorem dumped_blank : Dumped none {} ⟨"f "⟩ (read "f ") compilation ⟨files "f ", held⟩
    ⟨kept {} "f ", held⟩ (path "f ") :=
  dumped rfl rfl (by decide) (by decide) (by decide) (by decide) (by decide)

/-- What is stored for a file whose path has a line feed has a line without a colon. -/
theorem ofFile_feed_ne (d : Dump) : Dump.ofFile (path "f\ng") (kept {} "f\ng") ≠ .ok d := by
  intro h
  have hread : (kept {} "f\ng").read (path "f\ng") = .ok (stored {} "f\ng").bytes :=
    FileSystem.read_of_replace (FileSystem.run_replace (by decide) (by decide) rfl)
  have hnone : (Dump.parse (stored {} "f\ng").text).toOption.isNone = true := by
    rw [Dump.parse, Dump.text, String.toList_ofList]
    decide +kernel
  rw [Dump.parse_of_ofFile hread h] at hnone
  exact absurd hnone (by simp [Except.toOption])

/-- Not every dump that is stored can be read back, not every one that can names its file, and not
every one is found while the file stays as it is: the path may have a line feed or end in a blank,
and the options may look for no diagrams. -/
theorem not_stored_dump_read_back :
    (¬ ∀ (o : Options) (input path : Path) (f : Formula) (c : Compilation) (w w' : World State),
      Dumped none o input f c w w' path → ∃ d, Dump.ofFile path w'.files = .ok d) ∧
    (¬ ∀ (o : Options) (input path : Path) (f : Formula) (c : Compilation) (w w' : World State),
      Dumped none o input f c w w' path → ∀ d, Dump.ofFile path w'.files = .ok d →
        d.metadata.get? Formula.nameKey = some input.text) ∧
    ¬ ∀ (o : Options) (input path : Path) (f : Formula) (c : Compilation) (w w' : World State),
      Dumped none o input f c w w' path →
        (Run.cachedDiagram? o f).run w'.files = (.ok (some path), w'.files) := by
  refine ⟨fun hall => ?_, fun hall => ?_, fun hall => ?_⟩
  · obtain ⟨d, hread⟩ := hall _ _ _ _ _ _ _ dumped_feed
    exact ofFile_feed_ne d hread
  · obtain ⟨d, d', content, -, hstored, hparse, -, hname, -⟩ := dumped_blank.exists_parse (by decide)
    have hnamed := hall _ _ _ _ _ _ _ dumped_blank d'
      (Dump.ofFile_eq_ok_iff.2 ⟨_, _, hstored.read, Bytes.text?_ofText _, hparse⟩)
    have htrimmed : trimmedEnd "f " ≠ "f " := by decide
    exact htrimmed (Option.some.inj (hname.symm.trans hnamed))
  · have hfound := hall _ _ _ _ _ _ _ (dumped_f (o := { useCache := false }) rfl rfl (by decide))
    have hnone : (Run.cachedDiagram? { useCache := false } (read "f")).run
        (kept { useCache := false } "f") = (.ok none, kept { useCache := false } "f") := rfl
    exact absurd (congrArg Prod.fst (hnone.symm.trans hfound)) (by simp)

end DumpedAs
end Reference
end DiagramCompiler
