import DiagramCompiler.Proofs.DamagedEntries
import DiagramCompiler.Proofs.ResemblingFiles
import DiagramCompiler.Proofs.StoredDumps

/-! Runs that bypass their cache.
If the options allow neither orders nor results of the cache to be used, a run reads nothing but its
input. It still locks the cache and stores what it makes there, so that what can go wrong with that
has to be the same from whatever files are there. Of the random choices only the seed counts. -/
namespace DiagramCompiler

/-! ### Seeds -/

namespace Options

variable {o : Options}

theorem findOrder_entropy (hseed : o.seed.isSome) (conditions : Conditions) (entropy : Nat)
    (f : Formula) (start : Option VariableOrder) :
    o.findOrder { conditions with entropy } f start = o.findOrder conditions f start := by
  obtain ⟨seed, hseed⟩ := Option.isSome_iff_exists.1 hseed
  have hforce (start : Option VariableOrder) :
      o.forceOrder { conditions with entropy } f start = o.forceOrder conditions f start := by
    rw [forceOrder, forceOrder, hseed]
    rfl
  have htriage (start : Option VariableOrder) :
      o.triageOrder { conditions with entropy } f start = o.triageOrder conditions f start := by
    rw [triageOrder, triageOrder, hseed]
    rfl
  rw [findOrder, findOrder]
  simp only [hforce, htriage]

end Options

namespace Run

variable {σ : Type} {o : Options} {conditions : Conditions} {provider : Provider σ} {input : Path}
  {place : Location} {fs fs' : FileSystem} {f : Formula} {w w' : World σ} {m : Manager σ}
  {name : String}

theorem orderFor_entropy (hseed : o.seed.isSome) (conditions : Conditions) (entropy : Nat)
    (f : Formula) : orderFor o { conditions with entropy } f = orderFor o conditions f := by
  unfold orderFor chooseOrder keptOrder searchOrder
  simp only [Options.findOrder_entropy hseed]
  rfl

theorem run_entropy (hseed : o.seed.isSome) (conditions : Conditions) (entropy : Nat)
    (provider : Provider σ) (input : Path) :
    run o { conditions with entropy } provider input = run o conditions provider input := by
  unfold run answer compileFormula
  simp only [orderFor_entropy hseed]

/-! ### Orders -/

def Bypasses (o : Options) : Prop :=
  o.useCache = false ∨ o.useCachedOrder = false ∧ o.useCachedResults = false

theorem Bypasses.useCachedOrder (h : Bypasses o) (hcaches : cachesOrders o = true) :
    o.useCachedOrder = false := by
  rcases h with huse | ⟨horder, -⟩
  · exact absurd hcaches (by simp [cachesOrders, huse])
  · exact horder

theorem Bypasses.run_cachedDiagram? (h : Bypasses o) (f : Formula) (fs : FileSystem) :
    (cachedDiagram? o f).run fs = (.ok none, fs) := by
  have huse : (o.useCache && o.useCachedResults) = false := by
    rcases h with huse | ⟨-, hresults⟩
    · rw [huse, Bool.false_and]
    · rw [hresults, Bool.and_false]
  rw [cachedDiagram?, huse]
  rfl

section Files

open FileSystem (Resembles)

variable (h : Resembles o.cacheDirectory input place fs fs')

include h

theorem inDirectory_resembling :
    (Cache.inDirectory o.cacheDirectory).Alike fs fs' (fun _ _ => True) fun cache t t' =>
      cache = o.cache ∧ Resembles o.cacheDirectory input place t t' :=
  h.makeDirectories.bind fun _ _ _ h => .pure ⟨rfl, h⟩

theorem digestOf_resembling :
    (Cache.digestOf input).Alike fs fs' (fun _ _ => True) fun _ =>
      Resembles o.cacheDirectory input place := by
  refine .asking ?_ trivial fun _ _ => h
  rw [FileSystem.digest, FileSystem.digest, h.read_eq]

variable (hname : input.fileName = some name)

include hname

theorem searchOrder_resembling (start : Option VariableOrder) :
    (searchOrder o conditions f o.cache input start).Alike fs fs' (fun _ _ => True) fun _ =>
      Resembles o.cacheDirectory input place := by
  obtain ⟨front, horder, hbeside⟩ := o.cache.names_orderPath hname o
  refine Action.Alike.bind (.ofExcept trivial fun _ _ => h) fun order t t' h => ?_
  have hstore : (o.cache.storeOrder input o.stage order).Alike t t' (fun _ _ => True) fun _ =>
      Resembles o.cacheDirectory input place :=
    (digestOf_resembling h).bind fun digest _ _ h =>
      (h.replace horder hbeside _).bind fun _ _ _ ⟨h, _⟩ => .pure h
  exact hstore.bind fun _ _ _ h => .pure h

/-- No order is looked up, so that the search starts from none. -/
theorem chooseOrder_resembling (hbypass : Bypasses o) (hsource : f.source = some input) :
    (chooseOrder o conditions f).Alike fs fs' (fun _ _ => True) fun _ =>
      Resembles o.cacheDirectory input place := by
  have hcache : (orderCache o f).Alike fs fs' (fun _ _ => True) fun found t t' =>
      Resembles o.cacheDirectory input place t t' ∧
        (found = none ∨ found = some (o.cache, input) ∧ o.useCachedOrder = false) := by
    rw [orderCache, hsource]
    simp only
    split
    · next hcaches =>
      refine (inDirectory_resembling h).bind ?_
      rintro cache t t' ⟨rfl, h⟩
      exact .pure ⟨h, .inr ⟨rfl, hbypass.useCachedOrder hcaches⟩⟩
    · exact .pure ⟨h, .inl rfl⟩
  refine hcache.bind ?_
  rintro found t t' ⟨h, rfl | ⟨rfl, horder⟩⟩
  · exact .ofExcept trivial fun _ _ => h
  · simp only [keptOrder, horder]
    exact searchOrder_resembling h hname none

theorem orderFor_resembling (hbypass : Bypasses o) (hsource : f.source = some input) :
    (orderFor o conditions f).Alike fs fs' (fun _ _ => True) fun found t t' =>
      Resembles o.cacheDirectory input place t t' ∧ found.2.source = some input := by
  refine (chooseOrder_resembling h hname hbypass hsource).bind fun order t t' h => ?_
  have hsorted : (Action.ofExcept (sorted o f order)).Alike t t' (fun _ _ => True) fun g u u' =>
      Resembles o.cacheDirectory input place u u' ∧ sorted o f order = .ok g :=
    .ofExcept trivial fun _ hg => ⟨h, hg⟩
  exact hsorted.bind fun g _ _ ⟨h, hg⟩ => .pure ⟨h, (source_of_sorted hg).trans hsource⟩

/-! ### Dumps -/

def StoresAlike (path : Path) (fs fs' : FileSystem) : Prop :=
  ∃ content, fs.read path = .ok content ∧ fs'.read path = .ok content

theorem storeDump_resembling (hreordering : '/' ∉ o.reordering.toList)
    (hsource : f.source = some input) (d : Dump) :
    (storeDump o f d).Alike fs fs' (fun _ _ => True) StoresAlike := by
  obtain ⟨front, hdiagram, hbeside⟩ := o.cache.names_diagramPath hname o.engine hreordering
  refine (inDirectory_resembling h).bind ?_
  rintro cache t t' ⟨rfl, h⟩
  rw [hsource]
  exact (digestOf_resembling h).bind fun digest _ _ h =>
    (h.replace hdiagram hbeside _).bind fun _ _ _ ⟨_, hread, hread'⟩ => .pure ⟨_, hread, hread'⟩

end Files

/-! ### Whole runs -/

/-- Whether the report is on a new dump, which was stored in the same way in two worlds. -/
def ReportsAlike (report : Report) (w w' : World σ) : Prop :=
  report.fromCache = false ∧ StoresAlike report.dumpPath w.files w'.files

section Runs

open FileSystem (Resembles)

variable (hname : input.fileName = some name) (hsource : f.source = some input)

include hname hsource

/-- What is compiled is stored in the same way; for a reordering that could lead out of the cache,
nothing is compiled. -/
theorem compileWith_resembling (hm : m.HasPlainReorderings) (order : VariableOrder)
    (h : World.Both (Resembles o.cacheDirectory input place) w w') :
    (compileWith o m f order).Alike w w' (fun _ _ => True) ReportsAlike := by
  refine (Action.Alike.onEngine _ h fun _ _ _ => trivial).bind fun c v v' ⟨h, hrun⟩ => ?_
  -- the engine has taken the reordering, so that its name has no slash
  obtain ⟨_, _, hprepare, -⟩ := Action.exists_of_run_bind hrun
  have hplain := isPlain_of_prepare hm hprepare
  have hdump : (dump o m c f).Alike v v' (fun _ _ => True) fun path t t' =>
      StoresAlike path t.files t'.files := by
    refine (Action.Alike.onEngine _ h fun _ _ _ => trivial).bind fun d u u' ⟨h, _⟩ => ?_
    exact (Action.Alike.onFiles (storeDump_resembling h.files hname hplain.2 hsource _)
      h.engine).mono (fun _ _ _ => trivial) fun _ _ _ h => h.files
  exact (Action.Alike.ensuring hdump).bind fun path _ _ h => .pure ⟨rfl, h⟩

theorem compileFormula_resembling (hbypass : Bypasses o)
    (hprovider : ∀ e m e', provider.acquire.run e = (.ok m, e') → m.HasPlainReorderings)
    (h : World.Both (Resembles o.cacheDirectory input place) w w') :
    (compileFormula o conditions provider f).Alike w w' (fun _ _ => True) ReportsAlike := by
  refine ((Action.Alike.onFiles (orderFor_resembling h.files hname hbypass hsource)
    h.engine).mono (fun _ _ _ => trivial) fun _ _ _ => id).bind ?_
  rintro ⟨order, g⟩ v v' ⟨⟨h, hsource⟩, hengine⟩
  refine (Action.Alike.onEngine _ ⟨h, hengine⟩ fun _ _ _ => trivial).bind
    fun m u u' ⟨h, hacquire⟩ => ?_
  exact Action.Alike.ensuring
    (compileWith_resembling hname hsource (hprovider _ m _ hacquire) order h)

theorem answer_resembling (hbypass : Bypasses o)
    (hprovider : ∀ e m e', provider.acquire.run e = (.ok m, e') → m.HasPlainReorderings)
    (h : World.Both (Resembles o.cacheDirectory input place) w w') :
    (answer o conditions provider f).Alike w w' (fun _ _ => True) ReportsAlike :=
  .bind_of_ok (World.run_onFiles (hbypass.run_cachedDiagram? f w.files))
    (World.run_onFiles (hbypass.run_cachedDiagram? f w'.files))
    (compileFormula_resembling hname hsource hbypass hprovider h)

end Runs

/-- Whether two file systems have the same directories, the same locks and the same input, and make
a directory in the same way if it is not there. Their other files may hold anything. They are on
one device, perhaps of two processes, if it takes alike what these write into locks. -/
structure SharesInput (directory input : Path) (fs fs' : FileSystem) : Prop where
  directories : fs.SameDirectories fs'
  ways : FileSystem.SameWays directory fs fs'
  read : fs'.read input = fs.read input
  locks : fs'.locks = fs.locks
  tickets : fs'.tickets = fs.tickets
  device : fs'.device = fs.device
  owner (place : Location) :
    fs.device place (FileSystem.ownerLine fs'.process) =
      fs.device place (FileSystem.ownerLine fs.process)

theorem SharesInput.refl (directory input : Path) (fs : FileSystem) :
    SharesInput directory input fs fs :=
  ⟨⟨rfl, fun _ => Iff.rfl⟩, .inr fun _ => Iff.rfl, rfl, rfl, rfl, rfl, fun _ => rfl⟩

theorem SharesInput.put {directory input : Path} {entry : Location}
    (h : SharesInput directory input fs fs') (hdirectory : fs.HasDirectory directory)
    (hinput : fs.locate input = .ok place) (hentry : fs'.find? entry ≠ some .directory)
    (hne : entry ≠ place) (content : Bytes) :
    SharesInput directory input fs (fs'.put entry (.file content)) := by
  have hput := FileSystem.sameDirectories_put hentry content
  have hkept : (fs'.put entry (.file content)).find? place = fs'.find? place := by
    rw [FileSystem.find?_put (FileSystem.ne_nil_of_find?_ne hentry), if_neg hne]
  exact ⟨h.directories.trans hput, .inl hdirectory,
    (hput.read_eq (h.directories.locate hinput) hkept).trans h.read, h.locks, h.tickets, h.device,
    h.owner⟩

theorem SharesInput.exists_resembles {directory input : Path} {content : Bytes}
    (h : SharesInput directory input fs fs') (hread : fs.read input = .ok content) :
    ∃ place, FileSystem.Resembles directory input place fs fs' := by
  obtain ⟨place, hplace, hfile⟩ := FileSystem.exists_of_read hread
  have hfile' := FileSystem.find?_of_read (h.read.trans hread) (h.directories.locate hplace)
  exact ⟨place, h.directories, h.ways, hplace, hfile'.trans hfile.symm, h.locks, h.tickets, h.device,
    h.owner⟩

theorem run_resembling (conditions : Conditions) (hbypass : Bypasses o)
    (hprovider : ∀ e m e', provider.acquire.run e = (.ok m, e') → m.HasPlainReorderings)
    (ht : fs.IsTree) (h : SharesInput o.cacheDirectory input fs fs') (e : σ) :
    (run o conditions provider input).Alike ⟨fs, e⟩ ⟨fs', e⟩ (fun _ _ => True) ReportsAlike := by
  have hsame : Formula.ofFile input fs' = Formula.ofFile input fs := by
    rw [Formula.ofFile, Formula.ofFile, h.read]
  cases hf : Formula.ofFile input fs with
  | error failure =>
    exact .error (Action.run_bind_of_error (World.run_onFiles (congrArg (·, fs) hf)) _)
      (Action.run_bind_of_error (World.run_onFiles (congrArg (·, fs') (hsame.trans hf))) _) trivial
  | ok f =>
  refine .bind_of_ok (World.run_onFiles (congrArg (·, fs) hf))
    (World.run_onFiles (congrArg (·, fs') (hsame.trans hf))) ?_
  obtain ⟨content, g, hread, -, rfl⟩ := Formula.exists_of_ofFile hf
  -- what can be read is a file, whose name the entries have in theirs
  obtain ⟨place, hresembles⟩ := h.exists_resembles hread
  obtain ⟨above, name, hname, hplace⟩ := ht.exists_placeOf_eq hread
  have hlock : (do
      let cache ← Cache.inDirectory o.cacheDirectory
      cache.lock input).Alike fs fs' (fun _ _ => True) fun _ =>
        FileSystem.Resembles o.cacheDirectory input place := by
    refine (inDirectory_resembling hresembles).bind ?_
    rintro cache t t' ⟨rfl, h⟩
    have hnames := o.cache.names_lockPath hname
    have hinput : t.placeOf input = above ++ [name] := by
      rw [← hplace, ← FileSystem.eq_placeOf_of_locate h.located,
        ← FileSystem.eq_placeOf_of_locate hresembles.located]
    have hlonger : name.length < (name ++ ".lock").length := by
      have hext : (".lock".length) = 5 := by decide
      rw [String.length_append, hext]
      omega
    have hne := FileSystem.placeOf_ne_of_length hinput hnames hlonger
    rw [← FileSystem.eq_placeOf_of_locate h.located] at hne
    exact h.lock hnames hne.symm
  have hlocked : (World.onFiles (do
      let cache ← Cache.inDirectory o.cacheDirectory
      cache.lock input)).Alike (⟨fs, e⟩ : World σ) ⟨fs', e⟩ (fun _ _ => True) fun _ =>
        World.Both (FileSystem.Resembles o.cacheDirectory input place) :=
    (@Action.Alike.onFiles σ _ ⟨fs, e⟩ ⟨fs', e⟩ _ _ _ hlock rfl).mono (fun _ _ _ => trivial)
      fun _ _ _ => id
  refine hlocked.bind fun ticket v v' h => .ensuring ?_
  refine (answer_resembling hname rfl hbypass hprovider h).mono (fun _ _ _ => trivial) ?_
  rintro report u u' ⟨hfresh, stored, hread, hread'⟩
  exact ⟨hfresh, stored, (FileSystem.read_unlock _ ticket _).trans hread,
    (FileSystem.read_unlock _ ticket _).trans hread'⟩

/-- A run on the reference engine that bypasses its cache answers the same whatever the entries of
the cache hold, and whatever the files besides the input hold at all: it fails in the same way, or
its report is the same, on a dump that was not in the cache before and that is stored with the same
content. A seed that the options name makes that independent of other random choices. -/
theorem bypassed_runs_agree (o : Options) (conditions : Conditions) (entropy : Nat) (input : Path)
    (fs fs' : FileSystem) (s : Reference.State)
    (hbypass : o.useCache = false ∨ o.useCachedOrder = false ∧ o.useCachedResults = false)
    (hseed : o.seed.isSome) (ht : fs.IsTree) (h : SharesInput o.cacheDirectory input fs fs') :
    ∃ answer w w',
      (run o conditions (.reference o) input).run ⟨fs, s⟩ = (answer, w) ∧
      (run o { conditions with entropy } (.reference o) input).run ⟨fs', s⟩ = (answer, w') ∧
      ∀ report, answer = .ok report → report.fromCache = false ∧
        ∃ stored, w.files.read report.dumpPath = .ok stored ∧
          w'.files.read report.dumpPath = .ok stored := by
  have hprovider : ∀ e m e', (Provider.reference o).acquire.run e = (.ok m, e') →
      m.HasPlainReorderings := by
    intro e m e' hm
    obtain rfl : Reference.manager o.operationBound = m := Except.ok.inj (congrArg Prod.fst hm)
    exact Reference.hasPlainReorderings_manager o.operationBound
  rw [run_entropy hseed conditions entropy]
  cases run_resembling conditions hbypass hprovider ht h s with
  | ok hrun hrun' h =>
    refine ⟨_, _, _, hrun, hrun', fun report hreport => ?_⟩
    exact Except.ok.inj hreport ▸ h
  | error hrun hrun' _ => exact ⟨_, _, _, hrun, hrun', fun _ hreport => by cases hreport⟩

end Run

/-! #### Entries that are not to be trusted -/

namespace Run.Bypassed

open Sequence.GivenUp (input content read)

def options : Options :=
  { heuristic := .degree, seed := some 7, useCachedOrder := false, useCachedResults := false }

abbrev files : FileSystem := Sequence.GivenUp.files

/-- The same with an order that is current and a diagram of another formula that seems to be. -/
def poisoned : FileSystem :=
  (files.put ["work", "_cache", "f-dbo.order"]
    (.file (.ofText ("input-hash:" ++ content.digest ++ "\norder:1\n")))).put
      Sequence.GivenUp.place (.file (.ofText ("engine-name:x\nengine-stub:x\ninput-hash:" ++
        content.digest ++ "\nnode-count:0\norder:1\nroot:1:1\ntool-version:x\n----\n")))

theorem hasDirectory_files : files.HasDirectory options.cacheDirectory :=
  .inr ⟨["work", "_cache"], by decide, by decide⟩

theorem sharesInput_poisoned : SharesInput options.cacheDirectory input files poisoned := by
  have hinput : files.locate input = .ok ["work", "f"] := by decide
  have hsame := SharesInput.refl options.cacheDirectory input files
  refine (hsame.put hasDirectory_files hinput ?_ ?_ _).put hasDirectory_files hinput ?_ ?_ _
  all_goals decide

theorem hasStorage_files : HasStorage options input content files where
  reliable _ _ := rfl
  read := by decide
  directory := hasDirectory_files
  written := by decide

/-- What the cache holds and what is random elsewhere makes no difference to an answer, even if an
operation of the engine times out. -/
theorem bypassed_run_ignores_entries :
    (options.useCache = false ∨
      options.useCachedOrder = false ∧ options.useCachedResults = false) ∧
    options.seed.isSome ∧ files.IsTree ∧ SharesInput options.cacheDirectory input files poisoned ∧
      ∃ report w w',
        (run options (.unhurried 0) (.reference options) input).run
          ⟨files, .fresh (some 1) .zero⟩ = (.ok report, w) ∧
        (run options (.unhurried 5) (.reference options) input).run
          ⟨poisoned, .fresh (some 1) .zero⟩ = (.ok report, w') ∧
        report.fromCache = false ∧ ∃ stored, w.files.read report.dumpPath = .ok stored ∧
          w'.files.read report.dumpPath = .ok stored := by
  have hbypass : options.useCache = false ∨
      options.useCachedOrder = false ∧ options.useCachedResults = false := .inr ⟨rfl, rfl⟩
  have htree : files.IsTree := Sequence.GivenUp.isTree_files
  obtain ⟨answer, w, w', hrun, hrun', hanswer⟩ := bypassed_runs_agree options (.unhurried 0) 5 input
    files poisoned (.fresh (some 1) .zero) hbypass rfl htree sharesInput_poisoned
  have hspace : options.HasSpace read :=
    ⟨by decide, ⟨by decide, fun _ => by decide⟩, fun _ hsorts => absurd hsorts (by decide)⟩
  obtain ⟨report, w₁, hok⟩ := exists_run (o := options) (.unhurried 0) hspace hasStorage_files
    Damaged.ofContent_content (by decide) (.inr (by decide)) Damaged.hasRoom
  obtain ⟨rfl, -⟩ := Prod.mk.inj (hrun.symm.trans hok)
  exact ⟨hbypass, rfl, htree, sharesInput_poisoned, report, w, w', hrun, hrun',
    hanswer report rfl⟩

end Run.Bypassed
end DiagramCompiler
