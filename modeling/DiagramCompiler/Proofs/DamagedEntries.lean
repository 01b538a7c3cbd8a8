import DiagramCompiler.Proofs.ReadProblems
import DiagramCompiler.Proofs.TimelyHandles
import DiagramCompiler.Proofs.WorkingStorage

/-! Damaged entries of a cache.
An entry for a diagram counts if it is a dump that has the digest of the input. Then a run answers
with it; otherwise the run does what it would do without the entry, and takes its place. No content
of an entry, for an order or for a diagram, makes a run fail that has working storage and room for
its search. -/
namespace DiagramCompiler
namespace Run

variable {σ : Type} {o : Options} {conditions : Conditions} {provider : Provider σ} {input : Path}
  {content : Bytes} {fs fs' : FileSystem} {f : Formula} {d : Dump} {w w' : World σ}

/-! ### Entries that count -/

/-- Whether a run answers with the dump that is kept for an input. -/
structure Finds (o : Options) (input : Path) (content : Bytes) (fs : FileSystem) (d : Dump) :
    Prop where
  useCache : o.useCache = true
  useCachedResults : o.useCachedResults = true
  ofFile : Dump.ofFile (diagramPath o input) fs = .ok d
  digest : d.metadata.get? Formula.digestKey = some content.digest

theorem isCurrent_of_digest (hread : fs.read input = .ok content)
    (hdigest : d.metadata.get? Formula.digestKey = some content.digest) :
    Cache.isCurrent fs input d.metadata = true := by
  rw [Cache.isCurrent, hdigest, FileSystem.digest, hread]
  simp

theorem Finds.diagram? (hstorage : HasStorage o input content fs) (h : Finds o input content fs d) :
    o.cache.diagram? input o.engine.stub o.reordering fs = some (diagramPath o input) :=
  o.cache.diagram?_eq_some_iff.2
    ⟨rfl, d, h.ofFile, isCurrent_of_digest hstorage.read h.digest⟩

theorem run_cachedDiagram?_of_not_finds (hstorage : HasStorage o input content fs)
    (hsource : f.source = some input) (hno : ∀ d, ¬ Finds o input content fs d) :
    (cachedDiagram? o f).run fs = (.ok none, fs) := by
  cases huse : (o.useCache && o.useCachedResults) with
  | false =>
    rw [cachedDiagram?, huse]
    rfl
  | true =>
    have hnone : o.cache.diagram? input o.engine.stub o.reordering fs = none := by
      cases hfound : o.cache.diagram? input o.engine.stub o.reordering fs with
      | none => rfl
      | some path =>
        obtain ⟨rfl, d, hdump, hcurrent⟩ := o.cache.diagram?_eq_some_iff.1 hfound
        obtain ⟨huse, huse'⟩ := Bool.and_eq_true_iff.1 huse
        exact absurd ⟨huse, huse', hdump, Cache.get?_of_isCurrent hcurrent hstorage.read⟩ (hno d)
    rw [run_cachedDiagram? hsource huse hstorage.run_inDirectory, hnone]

theorem ofFile_locked (hstorage : HasStorage o input content fs) :
    Dump.ofFile (diagramPath o input) (fs.locked (fs.placeOf (o.cache.lockPath input))) =
      Dump.ofFile (diagramPath o input) fs := by
  have hnot := hstorage.find?_ne mem_lockPath
  have hother := o.cache.placeOf_lockPath_ne input o.engine.stub o.reordering fs
  have hread := (FileSystem.sameDirectories_locked hnot).read_eq
    (FileSystem.locate_of_target (hstorage.target mem_diagramPath)).1
    (FileSystem.find?_locked_of_ne hnot hother)
  unfold Dump.ofFile FileSystem.readText
  simp only [hread]

theorem finds_locked_iff (hstorage : HasStorage o input content fs) :
    Finds o input content (fs.locked (fs.placeOf (o.cache.lockPath input))) d ↔
      Finds o input content fs d := by
  have hfile := ofFile_locked hstorage
  exact ⟨fun h => ⟨h.useCache, h.useCachedResults, hfile ▸ h.ofFile, h.digest⟩,
    fun h => ⟨h.useCache, h.useCachedResults, hfile.symm ▸ h.ofFile, h.digest⟩⟩

theorem source_of_ofContent (h : Formula.ofContent input content = .ok f) :
    f.source = some input := by
  rw [Formula.ofContent] at h
  split at h
  · exact Except.ok.inj h ▸ rfl
  · exact absurd h (by simp)

theorem run_ofFile (hstorage : HasStorage o input content fs)
    (hf : Formula.ofContent input content = .ok f) :
    (Action.asking (Formula.ofFile input)).run fs = (.ok f, fs) := by
  rw [Action.run_asking, Formula.ofFile, hstorage.read]
  simp only [hf]

variable (hsource : f.source = some input)

include hsource

omit hsource

theorem run_of_finds (conditions : Conditions) (provider : Provider σ)
    (hstorage : HasStorage o input content fs)
    (hf : Formula.ofContent input content = .ok f)
    (hfree : fs.isLocked (fs.placeOf (o.cache.lockPath input)) = false)
    (h : Finds o input content fs d) (e : σ) :
    ∃ fs', (run o conditions provider input).run ⟨fs, e⟩ =
      (.ok (cachedReport (diagramPath o input) d), ⟨fs', e⟩) := by
  have hlocked := (finds_locked_iff hstorage).2 h
  have huse : (o.useCache && o.useCachedResults) = true := by
    rw [h.useCache, h.useCachedResults]
    rfl
  have hanswer :
      (answer o conditions provider f).run ⟨fs.locked (fs.placeOf (o.cache.lockPath input)), e⟩ =
        (.ok (cachedReport (diagramPath o input) d),
          ⟨fs.locked (fs.placeOf (o.cache.lockPath input)), e⟩) :=
    run_answer_of_some (source_of_ofContent hf) huse hstorage.locked.run_inDirectory
      (hlocked.diagram? hstorage.locked) hlocked.ofFile
  refine ⟨(fs.locked (fs.placeOf (o.cache.lockPath input))).unlock fs.tickets, ?_⟩
  refine (Action.run_bind_of_ok (World.run_onFiles (run_ofFile hstorage hf)) _).trans ?_
  refine (Action.run_bind_of_ok (World.run_onFiles (hstorage.run_lock hfree)) _).trans ?_
  refine (Action.run_ensuring _ _ _).trans ?_
  rw [hanswer]
  rfl

/-! ### Runs on the reference engine -/

theorem exists_orderFor (conditions : Conditions) (hspace : o.HasSpace f)
    (hstorage : HasStorage o input content fs) (hsource : f.source = some input) :
    ∃ found fs', (orderFor o conditions f).run fs = (.ok found, fs') ∧
      Chosen o input content f found.1 fs' fs' ∧
        ∃ f', sorted o f found.1 = .ok f' ∧ found.2 = ordered o conditions f' :=
  ((orderFor_alike conditions hsource hstorage.twins).mono (fun _ _ h => h.1 hspace)
    fun _ _ _ => id).exists_ok

/-- Whether the reference engine has numbers for the nodes of a formula, in whatever order its
variables are. -/
def HasRoom (o : Options) (f : Formula) (s : Reference.State) : Prop :=
  ∀ order g s₁ c s₂, order.length = f.varCount → sorted o f order = .ok g →
    (prepare o (Reference.manager o.operationBound) g order).run s = (.ok (), s₁) →
    (Compilation.compile (Reference.manager o.operationBound) g none).run s₁ = (.ok c, s₂) →
    s₂.table.nodes.size + 2 ≤ UInt64.size

theorem varCount_of_sorted {g : Formula} {order : VariableOrder} (h : sorted o f order = .ok g) :
    g.varCount = f.varCount := by
  rcases eq_or_permute_of_sorted h with rfl | ⟨positions, rfl⟩ <;> rfl

/-- Whatever an entry for an order holds, the reference engine comes to a dump, and that is kept. -/
theorem exists_compileFormula (conditions : Conditions) (hspace : o.HasSpace f)
    (hstorage : HasStorage o input content fs) (hsource : f.source = some input)
    (hreorders : Reference.Reorders o.reordering)
    {failing : Option Nat} {delay : Duration} (hroom : HasRoom o f (.fresh failing delay)) :
    ∃ report w, (compileFormula o conditions (.reference o) f).run ⟨fs, .fresh failing delay⟩ =
      (.ok report, w) := by
  obtain ⟨⟨order, g⟩, fs₁, horder, hchosen, f', hsorted, rfl⟩ :=
    exists_orderFor conditions hspace hstorage hsource
  have hlength := hchosen.length hspace
  let m := Reference.manager o.operationBound
  let g := ordered o conditions f'
  have hsame : f'.varCount = f.varCount := varCount_of_sorted hsorted
  have hcount : g.varCount = f.varCount := hsame
  have hsource' : g.source = some input := (source_of_sorted hsorted).trans hsource
  obtain ⟨c, d, e, hcompiles⟩ : ∃ c d e, Compiles o m g order (.fresh failing delay) c d e :=
    Reference.exists_compiles hreorders (hcount ▸ hspace.vars) (hlength.trans hcount.symm)
      fun s₁ c s₂ => hroom order f' s₁ c s₂ hlength hsorted
  obtain ⟨path, fs₂, hstore, -⟩ :=
    (hchosen.twins.storeDump hsource' (described o g c d)).exists_ok
  have hcompile : ((compileWith o m g order).ensuring
      (World.mapEngine (Provider.reference o).dispose)).run ⟨fs₁, .fresh failing delay⟩ =
        (.ok (freshReport path order g c), ⟨fs₂, m.release c.diagram e⟩) := by
    rw [Action.run_ensuring, run_compileWith hcompiles hstore]
    rfl
  refine ⟨freshReport path order g c, ⟨fs₂, m.release c.diagram e⟩, ?_⟩
  refine (Action.run_bind_of_ok (World.run_onFiles horder) _).trans ?_
  exact (Action.run_bind_of_ok (World.run_onEngine rfl) _).trans hcompile

theorem exists_run (conditions : Conditions) (hspace : o.HasSpace f)
    (hstorage : HasStorage o input content fs) (hf : Formula.ofContent input content = .ok f)
    (hfree : fs.isLocked (fs.placeOf (o.cache.lockPath input)) = false)
    (hreorders : Reference.Reorders o.reordering) {failing : Option Nat} {delay : Duration}
    (hroom : HasRoom o f (.fresh failing delay)) :
    ∃ report w, (run o conditions (.reference o) input).run ⟨fs, .fresh failing delay⟩ =
      (.ok report, w) := by
  by_cases hfinds : ∃ d, Finds o input content fs d
  · obtain ⟨d, hd⟩ := hfinds
    obtain ⟨fs', hrun⟩ := run_of_finds conditions (.reference o) hstorage hf hfree hd
      (.fresh failing delay)
    exact ⟨_, _, hrun⟩
  · have hsource := source_of_ofContent hf
    have hno := fun d hd => not_exists.1 hfinds d ((finds_locked_iff hstorage).1 hd)
    have hcached := run_cachedDiagram?_of_not_finds hstorage.locked hsource hno
    obtain ⟨report, w, hcompile⟩ :=
      exists_compileFormula conditions hspace hstorage.locked hsource hreorders hroom
    refine ⟨report, w.mapFiles (FileSystem.unlock fs.tickets), ?_⟩
    refine (Action.run_bind_of_ok (World.run_onFiles (run_ofFile hstorage hf)) _).trans ?_
    refine (Action.run_bind_of_ok (World.run_onFiles (hstorage.run_lock hfree)) _).trans ?_
    refine (Action.run_ensuring _ _ _).trans ?_
    have hanswer : (answer o conditions (.reference o) f).run
        ⟨fs.locked (fs.placeOf (o.cache.lockPath input)), .fresh failing delay⟩ =
          (.ok report, w) := by
      refine (Action.run_bind_of_ok (World.run_onFiles hcached) _).trans ?_
      exact hcompile
    rw [hanswer]

/-! ### Damage -/

end Run

/-! #### Entries of another formula and of no text -/

namespace Run.Damaged

open Sequence.GivenUp (input content read)

def options : Options := { heuristic := .degree }

/-- An input, an entry for an order of it, and one for a diagram that is no text. -/
def filesWith (content : Bytes) (name : String) (entry : Bytes) : FileSystem :=
  (((FileSystem.empty.put ["work", "_cache"] .directory).put ["work", "f"] (.file content)).put
    ["work", "_cache", name] (.file entry)).put Sequence.GivenUp.place (.file [0xFF])

/-- An order of two variables, for a formula with one. -/
def files : FileSystem :=
  filesWith content "f-dbo.order" (.ofText "input-hash:0\norder:2,1\n")

theorem hasStorage_files : HasStorage options input content files where
  reliable _ _ := rfl
  read := by decide
  directory := .inr ⟨["work", "_cache"], by decide, by decide⟩
  written := by decide

theorem ofContent_content : Formula.ofContent input content = .ok read := by
  rw [Formula.ofContent, Sequence.GivenUp.read_content]
  rfl

/-- There is one order of one variable, and no node for an empty clause. -/
theorem hasRoom : HasRoom options read (.fresh (some 1) .zero) := by
  rintro ⟨vars, hnodup, hrange⟩ g s₁ c s₂ hlength hsorted hprepare hcompile
  have hsingle : vars.length = 1 := hlength
  obtain ⟨v, rfl⟩ := List.length_eq_one_iff.1 hsingle
  obtain ⟨hpos, hle⟩ := hrange v (List.mem_singleton_self v)
  obtain rfl : v = 1 := Nat.le_antisymm hle hpos
  obtain rfl : read = g := Except.ok.inj hsorted
  obtain rfl := congrArg Prod.snd hprepare
  obtain rfl := congrArg Prod.snd hcompile
  exact Nat.le_trans (Nat.le_of_eq (show _ = 2 from rfl)) (by decide)

/-- More variables than memory can hold, and no clause. -/
def vast : Bytes := .ofText "p cnf 2305843009213693952 0\n"

end Run.Damaged
end DiagramCompiler
