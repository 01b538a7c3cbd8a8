import DiagramCompiler.Proofs.EditedInputs
import DiagramCompiler.Proofs.RunCourses

/-! Runs that nothing disturbs.
What a run does to files when no other run and no edit comes between its steps is done by steps of
the interleaving, and what it comes to know is held afterwards. -/
namespace DiagramCompiler

/-- Whether the engines of a provider call themselves by names without line feeds. -/
def Provider.IsPlain {σ : Type} (provider : Provider σ) : Prop :=
  ∀ e m e', provider.acquire.run e = (.ok m, e') → m.IsPlain

theorem Provider.isPlain_reference (o : Options) : (Provider.reference o).IsPlain := by
  intro e m e' h
  obtain rfl := Except.ok.inj (congrArg Prod.fst h)
  have hname : '\n' ∉ Reference.name.toList := by decide
  have hstub : '\n' ∉ Reference.stub.toList := by decide
  exact ⟨hname, hstub⟩

namespace Interleaving

variable {σ α β : Type} {c : Cache} {s s' : State} {o : Options} {input : Path} {parsed : Bytes}
  {f : Formula}

theorem Step.subset_held (h : Step c s s') : s.held ⊆ s'.held := by
  cases h with
  | learn => exact List.subset_cons_self _ _
  | _ => exact fun _ => id

theorem Reaches.subset_held (h : Reaches c s s') : s.held ⊆ s'.held := by
  induction h with
  | refl => exact fun _ => id
  | tail _ hstep ih => exact fun _ hitem => hstep.subset_held (ih hitem)

def ReachesFiles (c : Cache) (s : State) (files : FileSystem) : Prop :=
  ∃ s', Reaches c s s' ∧ s'.files = files

abbrev Covers (c : Cache) (a : Action FileSystem α) (s : State) : Prop :=
  ReachesFiles c s (a.run s.files).2

namespace ReachesFiles

variable {a : Action FileSystem α} {files : FileSystem}

theorem refl (h : s.files = files) : ReachesFiles c s files := ⟨s, .refl, h⟩

theorem of_step (h : Step c s { s with files }) : ReachesFiles c s files := ⟨_, .single h, rfl⟩

theorem after (h : ReachesFiles c s' files) (hreaches : Reaches c s s') :
    ReachesFiles c s files := by
  obtain ⟨s'', hreaches', hfiles⟩ := h
  exact ⟨s'', hreaches.trans hreaches', hfiles⟩

/-- Something may be learnt first, which leaves the files as they are. -/
theorem after_learning {item : Item} (hitem : Learns c s item)
    (h : ReachesFiles c (s.hold item) files) : ReachesFiles c s files :=
  h.after (.single (.learn hitem))

theorem bind {next : α → Action FileSystem β} (h : Covers c a s)
    (hnext : ∀ value s', Reaches c s s' → a.run s.files = (.ok value, s'.files) →
      Covers c (next value) s') :
    Covers c (a >>= next) s := by
  obtain ⟨s', hreaches, hfiles⟩ := h
  cases ha : a.run s.files with
  | mk answer files =>
    rw [ha] at hfiles
    obtain rfl : s'.files = files := hfiles
    cases answer with
    | error failure => exact ⟨s', hreaches, by rw [Action.run_bind_of_error ha]⟩
    | ok value =>
      obtain ⟨s'', hreaches', hfiles'⟩ := hnext value s' hreaches ha
      exact ⟨s'', hreaches.trans hreaches', by rw [Action.run_bind_of_ok ha, hfiles']⟩

end ReachesFiles

/-! ### Files -/

theorem covers_replace {path : Path} {content : Bytes} {origin : Option Origin}
    (h : .entry path content origin ∈ s.held) :
    Covers c (FileSystem.replace path content) s := by
  cases hwrite : (FileSystem.write (path.withExtension "tmp") content).run s.files with
  | mk answer files =>
    cases answer with
    | error failure =>
      have hreplace : (FileSystem.replace path content).run s.files = (.error failure, files) :=
        Action.run_bind_of_error hwrite _
      cases hplace : s.files.target (path.withExtension "tmp") with
      | error fault =>
        refine .refl ?_
        rw [hreplace, ← FileSystem.write_of_target_error hplace content, hwrite]
      | ok place => exact ⟨_, .single (.stop h hwrite hplace), (congrArg Prod.snd hreplace).symm⟩
    | ok =>
      obtain ⟨place, hplace, hput⟩ := FileSystem.eq_put_of_write hwrite
      let s₁ : State := { s with
        files, origins := Function.update s.origins place origin, torn := s.torn \ {place} }
      have hstep : Step c s s₁ := .write h hwrite hplace
      have hreplace : (FileSystem.replace path content).run s.files =
          (FileSystem.move (path.withExtension "tmp") path).run files :=
        Action.run_bind_of_ok hwrite _
      cases hmove : (FileSystem.move (path.withExtension "tmp") path).run files with
      | mk answer moved =>
        rw [hmove] at hreplace
        cases answer with
        | error failure =>
          refine ⟨s₁, .single hstep, ?_⟩
          rw [hreplace, FileSystem.move_of_error hmove]
        | ok =>
          obtain ⟨here, there, hhere, hthere⟩ := FileSystem.places_of_move hmove
          have hsame : here = place := by
            have hworking : files.working = s.files.working := hput ▸ rfl
            rw [FileSystem.eq_placeOf_of_locate hhere, FileSystem.placeOf_congr hworking,
              FileSystem.eq_placeOf_of_locate (FileSystem.locate_of_target hplace).1]
          have hwhole : here ∉ s₁.torn := fun htorn => htorn.2 hsame
          exact ⟨_, (Relation.ReflTransGen.single hstep).tail (.move h hmove hhere hwhole hthere),
            (congrArg Prod.snd hreplace).symm⟩

theorem covers_digestOf (c : Cache) (s : State) (input : Path) :
    Covers c (Cache.digestOf input) s := .refl rfl

theorem exists_of_digestOf {fs fs' : FileSystem} {digest : String}
    (h : (Cache.digestOf input).run fs = (.ok digest, fs')) :
    ∃ content, fs'.read input = .ok content ∧ digest = content.digest := by
  obtain ⟨hdigest, rfl⟩ : FileSystem.failing input (fs.digest input) = .ok digest ∧ fs = fs' :=
    Prod.mk.inj h
  rw [FileSystem.digest] at hdigest
  cases hread : fs.read input with
  | error fault =>
    rw [hread] at hdigest
    exact absurd hdigest (by simp [FileSystem.failing])
  | ok content =>
    rw [hread] at hdigest
    exact ⟨content, rfl, (Except.ok.inj hdigest).symm⟩

theorem covers_keep (path : Path) (entry : String → Bytes) {origin : Bytes → Option Origin}
    (hlearn : ∀ s' digested, Reaches c s s' → s'.files.read input = .ok digested →
      Learns c s' (.entry path (entry digested.digest) (origin digested))) :
    Covers c (do
      let digest ← Cache.digestOf input
      FileSystem.replace path (entry digest)
      return path) s := by
  refine (covers_digestOf c s input).bind fun digest s' hreaches hrun => ?_
  obtain ⟨digested, hread, rfl⟩ := exists_of_digestOf hrun
  refine .after_learning (hlearn s' digested hreaches hread) ?_
  exact (covers_replace List.mem_cons_self).bind fun _ _ _ _ => .refl rfl

/-! ### Accesses -/

theorem reachesFiles_of_access (h : .formula input parsed f ∈ s.held) {fs fs' : FileSystem}
    (hfiles : s.files = fs) (haccess : Run.Access o input fs fs') :
    ReachesFiles o.cache s fs' := by
  subst hfiles
  cases haccess with
  | make => exact .of_step (.makeDirectories s)
  | lock => exact .of_step (.lock s input)
  | keep order =>
    exact covers_keep _ (fun digest => .ofText (Cache.orderText input digest order))
      fun s' digested hreaches hread => .orderEntry o order (hreaches.subset_held h) hread

theorem reachesFiles_of_accesses (h : .formula input parsed f ∈ s.held) {fs : FileSystem}
    (haccesses : Run.Accesses o input s.files fs) :
    ReachesFiles o.cache s fs := by
  induction haccesses with
  | refl => exact ⟨s, .refl, rfl⟩
  | tail _ haccess ih =>
    obtain ⟨s', hreaches, hfiles⟩ := ih
    exact (reachesFiles_of_access (hreaches.subset_held h) hfiles haccess).after hreaches

/-! ### Formulas -/

theorem exists_reaches_formula (hinput : '\n' ∉ input.text.toList) (c : Cache)
    (hf : Formula.ofFile input s.files = .ok f) :
    ∃ s' parsed, Reaches c s s' ∧ s'.files = s.files ∧ .formula input parsed f ∈ s'.held := by
  obtain ⟨parsed, g, hread, hg, rfl⟩ := Formula.exists_of_ofFile hf
  let s₁ := s.hold (.clauses input parsed g)
  let s₂ := s₁.hold (.formula input parsed (g.readFrom input parsed))
  have h₁ : Step c s s₁ := .learn (.clauses hinput hread hg)
  have h₂ : Step c s₁ s₂ := .learn (.formula List.mem_cons_self hread)
  exact ⟨s₂, parsed, (Relation.ReflTransGen.single h₁).tail h₂, rfl, List.mem_cons_self⟩

theorem exists_reaches_dump {conditions : Conditions} {provider : Provider σ}
    (hprovider : provider.IsPlain) (ho : o.IsPlain) (c : Cache)
    (h : .formula input parsed f ∈ s.held) {e e' : σ} {order : VariableOrder} {f' : Formula}
    {compilation : Compilation} {d : Dump}
    (hobtains : Run.Obtains o conditions provider f e order f' compilation d e') :
    ∃ s', Reaches c s s' ∧ s'.files = s.files ∧ .dump o input parsed d ∈ s'.held := by
  cases hobtains with
  | @compiled f' _ m _ d _ _ hsorted hacquire hcompiles =>
    cases hcompiles with
    | compiled _ hcompile hdump =>
      let ordered := Run.ordered o conditions f'
      let s₁ := s.hold (.formula input parsed ordered)
      let s₂ := s₁.hold (.dump o input parsed (Run.described o ordered compilation d))
      have h₁ : Step c s s₁ := .learn (.ordered o conditions h hsorted)
      have hmakes : Run.Makes o ordered (Run.described o ordered compilation d) :=
        .compiled (hprovider _ _ _ hacquire) hcompile hdump
      have h₂ : Step c s₁ s₂ := .learn (.dump List.mem_cons_self ho hmakes)
      exact ⟨s₂, (Relation.ReflTransGen.single h₁).tail h₂, rfl, List.mem_cons_self⟩

/-! ### Diagrams -/

theorem covers_storeDump {d : Dump} (hsource : f.source = some input)
    (h : .dump o input parsed d ∈ s.held) : Covers o.cache (Run.storeDump o f d) s := by
  have hmake : Covers o.cache (Cache.inDirectory o.cacheDirectory) s := by
    exact ReachesFiles.bind (.of_step (.makeDirectories s)) fun _ _ _ _ => .refl rfl
  refine hmake.bind fun cache s' hreaches hrun => ?_
  obtain ⟨rfl, -⟩ := (Run.ends_inDirectory o s.files).ok hrun
  rw [hsource]
  exact covers_keep _ (fun digest => (Cache.tagged input digest d).bytes)
    fun s'' digested hreaches' hread =>
      .dumpEntry (hreaches'.subset_held (hreaches.subset_held h)) hread

def HasFound (input path : Path) (s : State) : Prop :=
  ∃ d origin current, .found input path d origin current ∈ s.held

theorem exists_reaches_found (ho : o.IsPlain) {c : Cache} {path : Path}
    (h : c.diagram? input o.engine.stub o.reordering s.files = some path) :
    ∃ s', Reaches c s s' ∧ s'.files = s.files ∧ HasFound input path s' := by
  obtain ⟨rfl, d, hdump, hcurrent⟩ := c.diagram?_eq_some_iff.1 h
  obtain ⟨content, _, hread, -, -⟩ := Dump.ofFile_eq_ok_iff.1 hdump
  obtain ⟨place, hplace, -⟩ := FileSystem.exists_of_read hread
  obtain ⟨current, hinput⟩ := Cache.exists_read_of_isCurrent hcurrent
  let path := c.diagramPath input o.engine.stub o.reordering
  let s₁ := s.hold (.seen input path d (s.origins place))
  let s₂ := s₁.hold (.found input path d (s.origins place) current)
  have h₁ : Step c s s₁ := .learn (.seen ho.2 hdump hplace)
  have h₂ : Step c s₁ s₂ := .learn (.found List.mem_cons_self hcurrent hinput)
  exact ⟨s₂, (Relation.ReflTransGen.single h₁).tail h₂, rfl, d, _, current, List.mem_cons_self⟩

/-! ### Whole runs -/

/-- A dump that a run obtains is stored by steps, or storing it stops. -/
theorem reachesFiles_of_obtains {conditions : Conditions} {provider : Provider σ}
    (hprovider : provider.IsPlain) (ho : o.IsPlain) (h : .formula input parsed f ∈ s.held)
    (hsource : f.source = some input) {fs : FileSystem}
    (haccesses : Run.Accesses o input s.files fs) {e e' : σ} {order : VariableOrder}
    {f' : Formula} {compilation : Compilation} {d : Dump}
    (hobtains : Run.Obtains o conditions provider f e order f' compilation d e') :
    ReachesFiles o.cache s ((Run.storeDump o f' d).run fs).2 := by
  obtain ⟨s₁, h₁, rfl⟩ := reachesFiles_of_accesses h haccesses
  obtain ⟨s₂, h₂, hfiles₂, hdump⟩ :=
    exists_reaches_dump hprovider ho o.cache (h₁.subset_held h) hobtains
  obtain ⟨s₃, h₃, hfiles₃⟩ := covers_storeDump (hobtains.source_eq.trans hsource) hdump
  rw [hfiles₂] at hfiles₃
  exact ⟨s₃, (h₁.trans h₂).trans h₃, hfiles₃⟩

section Ends

variable {conditions : Conditions} {provider : Provider σ} {e : σ} {w' : World σ}
  (hprovider : provider.IsPlain) (ho : o.IsPlain) (hheld : .formula input parsed f ∈ s.held)
  (hsource : f.source = some input)

include hprovider ho hheld hsource

theorem reachesFiles_of_fails (h : Run.Fails o conditions provider input f s.files e w') :
    ReachesFiles o.cache s w'.files := by
  cases h with
  | before haccesses => exact reachesFiles_of_accesses hheld haccesses
  | storing haccesses hobtains hstore =>
    have hstored := reachesFiles_of_obtains hprovider ho hheld hsource haccesses hobtains
    rwa [hstore] at hstored

theorem exists_reaches_of_answers {report : Report}
    (h : Run.Answers o conditions provider input f s.files e report w') :
    ∃ s', Reaches o.cache s s' ∧ s'.files = w'.files ∧
      (report.fromCache = true → HasFound input report.dumpPath s') := by
  cases h with
  | cached hmade hfound =>
    have haccesses : Run.Accesses o input s.files w'.files := by
      rw [hmade]
      exact .single (.make s.files)
    obtain ⟨s₁, h₁, hfiles₁⟩ := reachesFiles_of_accesses hheld haccesses
    rw [← hfiles₁] at hfound
    obtain ⟨s₂, h₂, hfiles₂, hhas⟩ := exists_reaches_found ho hfound
    exact ⟨s₂, h₁.trans h₂, hfiles₂.trans hfiles₁, fun _ => hhas⟩
  | stored haccesses hobtains hstore =>
    obtain ⟨s', hreaches, hfiles'⟩ :=
      reachesFiles_of_obtains hprovider ho hheld hsource haccesses hobtains
    rw [hstore] at hfiles'
    exact ⟨s', hreaches, hfiles', fun hcache => absurd hcache (by simp [Run.freshReport])⟩

end Ends

/-- A run on a file is done by steps, and if it answers from the cache, then it found a dump
there. -/
theorem covers_run (ho : o.IsPlain) (conditions : Conditions) {provider : Provider σ}
    (hprovider : provider.IsPlain) (hinput : '\n' ∉ input.text.toList) {w : World σ}
    (hfiles : s.files = w.files) :
    (Run.run o conditions provider input).Ends w (fun w' => ReachesFiles o.cache s w'.files)
      fun report w' => ∃ s', Reaches o.cache s s' ∧ s'.files = w'.files ∧
        (report.fromCache = true → HasFound input report.dumpPath s') := by
  have hlocked {g : Formula} (hg : Formula.ofFile input w.files = .ok g) :
      g.source = some input ∧ ∃ s' parsed, Reaches o.cache s s' ∧
        s'.files = Run.atLock o input w.files ∧ .formula input parsed g ∈ s'.held := by
    rw [← hfiles] at hg ⊢
    obtain ⟨s₁, parsed, h₁, hfiles₁, hheld⟩ := exists_reaches_formula hinput o.cache hg
    rw [← hfiles₁]
    obtain ⟨s₂, h₂, hfiles₂⟩ :=
      reachesFiles_of_accesses hheld (Run.accesses_atLock o input s₁.files)
    exact ⟨Formula.source_of_ofFile hg, s₂, parsed, h₁.trans h₂, hfiles₂, h₂.subset_held hheld⟩
  refine (Run.ends_run o conditions provider input w).mono ?_ ?_
  · rintro w' (hsame | ⟨g, hg, haccesses | ⟨ticket, v, hfails, rfl⟩⟩)
    · exact .refl (hfiles.trans hsame.symm)
    · rw [← hfiles] at hg haccesses
      obtain ⟨s₁, parsed, h₁, hfiles₁, hheld⟩ := exists_reaches_formula hinput o.cache hg
      rw [← hfiles₁] at haccesses
      exact (reachesFiles_of_accesses hheld haccesses).after h₁
    · obtain ⟨hsource, s₁, parsed, h₁, hfiles₁, hheld⟩ := hlocked hg
      rw [← hfiles₁] at hfails
      obtain ⟨s₂, h₂, hfiles₂⟩ := reachesFiles_of_fails hprovider ho hheld hsource hfails
      exact ⟨_, (h₁.trans h₂).tail (.unlock s₂ ticket), congrArg (FileSystem.unlock ticket) hfiles₂⟩
  · rintro report w' ⟨g, ticket, v, hg, hanswers, rfl⟩
    obtain ⟨hsource, s₁, parsed, h₁, hfiles₁, hheld⟩ := hlocked hg
    rw [← hfiles₁] at hanswers
    obtain ⟨s₂, h₂, hfiles₂, hfound⟩ :=
      exists_reaches_of_answers hprovider ho hheld hsource hanswers
    exact ⟨_, (h₁.trans h₂).tail (.unlock s₂ ticket),
      congrArg (FileSystem.unlock ticket) hfiles₂, hfound⟩

end Interleaving
end DiagramCompiler
