import DiagramCompiler.Proofs.Actions
import DiagramCompiler.Proofs.MadeDumps
import Mathlib.Logic.Relation

/-! Courses of runs.
A run reads its input and locks the cache. It answers with a diagram from there, or it orders the
formula, compiles it and stores the diagram; then it gives the lock back. Before it stores anything,
all that it does to files is to make the directory of the cache, to lock it and to keep orders. The
stages of a run are walked through here, so that what becomes of files can be told from the course
of the run alone. -/
namespace DiagramCompiler

def Options.cache (o : Options) : Cache := ⟨o.cacheDirectory⟩

namespace World

variable {σ α : Type} {w : World σ}

theorem run_onFiles {a : Action FileSystem α} {answer : Except Failure α} {files : FileSystem}
    (h : a.run w.files = (answer, files)) : (onFiles a).run w = (answer, { w with files }) := by
  have hrun : (onFiles a).run w = ((a.run w.files).1, { w with files := (a.run w.files).2 }) := rfl
  rw [hrun, h]

theorem run_onEngine {a : Action σ α} {answer : Except Failure α} {engine : σ}
    (h : a.run w.engine = (answer, engine)) : (onEngine a).run w = (answer, { w with engine }) := by
  have hrun : (onEngine a).run w = ((a.run w.engine).1, { w with engine := (a.run w.engine).2 }) :=
    rfl
  rw [hrun, h]

end World

namespace Action.Ends

variable {σ α : Type}

theorem onFiles {a : Action FileSystem α} {w : World σ} {fails : FileSystem → Prop}
    {gives : α → FileSystem → Prop} (h : a.Ends w.files fails gives) :
    (World.onFiles a).Ends w (fun w' => fails w'.files ∧ w'.engine = w.engine)
      fun value w' => gives value w'.files ∧ w'.engine = w.engine := by
  cases ha : a.run w.files with
  | mk answer files =>
    cases answer with
    | ok value => exact .of_ok (World.run_onFiles ha) ⟨h.ok ha, rfl⟩
    | error failure => exact .of_error (World.run_onFiles ha) ⟨h.error ha, rfl⟩

theorem onEngine (a : Action σ α) (w : World σ) :
    (World.onEngine a).Ends w (fun w' => w'.files = w.files)
      fun value w' => w'.files = w.files ∧ a.run w.engine = (.ok value, w'.engine) := by
  cases ha : a.run w.engine with
  | mk answer engine =>
    cases answer with
    | ok value => exact .of_ok (World.run_onEngine ha) ⟨rfl, rfl⟩
    | error failure => exact .of_error (World.run_onEngine ha) rfl

end Action.Ends

namespace Run

variable {σ : Type} {o : Options} {conditions : Conditions} {provider : Provider σ} {input : Path}
  {before fs : FileSystem} {f g : Formula} {w v : World σ}

/-! ### Accesses -/

/-- What a run does to files before it stores a diagram. -/
inductive Access (o : Options) (input : Path) : FileSystem → FileSystem → Prop
  | make (fs : FileSystem) :
      Access o input fs ((FileSystem.makeDirectories o.cacheDirectory).run fs).2
  | lock (fs : FileSystem) : Access o input fs ((o.cache.lock input).run fs).2
  | keep (fs : FileSystem) (order : VariableOrder) :
      Access o input fs ((o.cache.storeOrder input o.stage order).run fs).2

abbrev Accesses (o : Options) (input : Path) : FileSystem → FileSystem → Prop :=
  Relation.ReflTransGen (Access o input)

def atCache (o : Options) (fs : FileSystem) : FileSystem :=
  ((FileSystem.makeDirectories o.cacheDirectory).run fs).2

def atLock (o : Options) (input : Path) (fs : FileSystem) : FileSystem :=
  ((o.cache.lock input).run (atCache o fs)).2

theorem accesses_atLock (o : Options) (input : Path) (fs : FileSystem) :
    Accesses o input fs (atLock o input fs) :=
  (Relation.ReflTransGen.single (.make fs)).tail (.lock _)

theorem ends_inDirectory (o : Options) (fs : FileSystem) :
    (Cache.inDirectory o.cacheDirectory).Ends fs (· = atCache o fs)
      fun cache fs' => cache = o.cache ∧ fs' = atCache o fs := by
  have hmake : (FileSystem.makeDirectories o.cacheDirectory).Ends fs (· = atCache o fs)
      fun _ fs' => fs' = atCache o fs := .of_state rfl
  exact hmake.bind fun _ fs' hfs => .pure ⟨rfl, hfs⟩

/-! ### Orders -/

section Files

variable (h : Accesses o input before fs)

include h

theorem ends_searchOrder (start : Option VariableOrder) :
    (searchOrder o conditions f o.cache input start).Ends fs (Accesses o input before)
      fun _ => Accesses o input before := by
  refine (Action.Ends.ofExcept h fun _ _ => h).bind fun order fs' h' => ?_
  have hkeep : (o.cache.storeOrder input o.stage order).Ends fs' (Accesses o input before)
      fun _ => Accesses o input before := .of_state (h'.tail (.keep fs' order))
  exact hkeep.bind fun _ _ h'' => .pure h''

theorem ends_keptOrder :
    (keptOrder o conditions f o.cache input).Ends fs (Accesses o input before)
      fun _ => Accesses o input before := by
  rw [keptOrder]
  split
  · refine .reading_bind ?_
    split
    · exact .pure h
    · exact .reading_bind (ends_searchOrder h _)
  · exact ends_searchOrder h none

theorem ends_chooseOrder (hsource : f.source = some input) :
    (chooseOrder o conditions f).Ends fs (Accesses o input before)
      fun _ => Accesses o input before := by
  have hmake : Accesses o input before (atCache o fs) := h.tail (.make fs)
  have hcache : (orderCache o f).Ends fs (Accesses o input before) fun kept fs' =>
      (kept = none ∨ kept = some (o.cache, input)) ∧ Accesses o input before fs' := by
    rw [orderCache, hsource]
    simp only
    split
    · refine ((ends_inDirectory o fs).mono (fun _ heq => heq ▸ hmake) fun _ _ => id).bind ?_
      rintro cache _ ⟨rfl, rfl⟩
      exact .pure ⟨.inr rfl, hmake⟩
    · exact .pure ⟨.inl rfl, h⟩
  refine hcache.bind fun kept fs' hkept => ?_
  obtain ⟨rfl | rfl, h'⟩ := hkept
  · exact .ofExcept h' fun _ _ => h'
  · exact ends_keptOrder h'

theorem ends_orderFor (hsource : f.source = some input) :
    (orderFor o conditions f).Ends fs (Accesses o input before) fun value fs' =>
      (∃ f', sorted o f value.1 = .ok f' ∧ value.2 = ordered o conditions f') ∧
        Accesses o input before fs' := by
  refine (ends_chooseOrder h hsource).bind fun order fs' h' => ?_
  have hsorted : (Action.ofExcept (sorted o f order)).Ends fs' (Accesses o input before)
      fun f' fs'' => sorted o f order = .ok f' ∧ Accesses o input before fs'' :=
    .ofExcept h' fun _ heq => ⟨heq, h'⟩
  exact hsorted.bind fun f' fs'' ⟨heq, h''⟩ => .pure ⟨⟨f', heq, rfl⟩, h''⟩

end Files

/-! ### Diagrams -/

theorem ends_cachedDiagram? (hsource : f.source = some input) (fs : FileSystem) :
    (cachedDiagram? o f).Ends fs (fun _ => False) fun found fs' =>
      (found = none ∧ Accesses o input fs fs') ∨ ∃ path, found = some path ∧ fs' = atCache o fs ∧
        o.cache.diagram? input o.engine.stub o.reordering fs' = some path := by
  have hmake : Accesses o input fs (atCache o fs) := .single (.make fs)
  rw [cachedDiagram?]
  split
  · rw [hsource]
    refine (ends_inDirectory o fs).attempt.bind fun answer fs' hanswer => ?_
    rcases hanswer with ⟨failure, rfl, rfl⟩ | ⟨cache, rfl, rfl, rfl⟩
    · exact .pure (.inl ⟨rfl, hmake⟩)
    · cases hfound : o.cache.diagram? input o.engine.stub o.reordering (atCache o fs) with
      | none => exact .reading (.inl ⟨hfound, hmake⟩)
      | some path => exact .reading (.inr ⟨path, hfound, rfl, hfound⟩)
  · exact .pure (.inl ⟨rfl, .refl⟩)

/-- How an engine comes to the dump of a formula. -/
inductive Compiles (o : Options) (m : Manager σ) (f : Formula) (order : VariableOrder) (e : σ)
    (c : Compilation) (d : Dump) : σ → Prop where
  | compiled {e₁ e₂ e₃ : σ} (hprepare : (prepare o m f order).run e = (.ok (), e₁))
      (hcompile : (Compilation.compile m f none).run e₁ = (.ok c, e₂))
      (hdump : (m.dump c.diagram).run e₂ = (.ok d, e₃)) : Compiles o m f order e c d e₃

/-- How a formula is ordered and compiled to a dump that is to be stored, and what becomes of the
engine after that. -/
inductive Obtains (o : Options) (conditions : Conditions) (provider : Provider σ) (g : Formula)
    (e : σ) : VariableOrder → Formula → Compilation → Dump → σ → Prop
  | compiled {f : Formula} {order : VariableOrder} {m : Manager σ} {c : Compilation} {d : Dump}
      {e₁ e₂ : σ} (hsorted : sorted o g order = .ok f)
      (hacquire : provider.acquire.run e = (.ok m, e₁))
      (hcompiles : Compiles o m (ordered o conditions f) order e₁ c d e₂) :
      Obtains o conditions provider g e order (ordered o conditions f) c
        (described o (ordered o conditions f) c d) (provider.dispose (m.release c.diagram e₂))

theorem Obtains.source_eq {order : VariableOrder} {c : Compilation} {d : Dump}
    {e e' : σ} (h : Obtains o conditions provider g e order f c d e') : f.source = g.source := by
  cases h with
  | compiled hsorted =>
    have hsource := source_of_sorted hsorted
    exact hsource

/-- How a run fails that has read a formula: before it stores anything, or when it stores a dump. -/
inductive Fails (o : Options) (conditions : Conditions) (provider : Provider σ) (input : Path)
    (g : Formula) (fs : FileSystem) (e : σ) : World σ → Prop
  | before {w : World σ} (haccesses : Accesses o input fs w.files) :
      Fails o conditions provider input g fs e w
  | storing {f : Formula} {order : VariableOrder} {c : Compilation} {d : Dump} {fs' : FileSystem}
      {failure : Failure} {w : World σ} (haccesses : Accesses o input fs fs')
      (hobtains : Obtains o conditions provider g e order f c d w.engine)
      (hstore : (storeDump o f d).run fs' = (.error failure, w.files)) :
      Fails o conditions provider input g fs e w

/-- How a run answers that has read a formula: it finds a diagram, or it stores a dump. -/
inductive Answers (o : Options) (conditions : Conditions) (provider : Provider σ) (input : Path)
    (g : Formula) (fs : FileSystem) (e : σ) : Report → World σ → Prop
  | cached {path : Path} {d : Dump} {w : World σ} (hmade : w.files = atCache o fs)
      (hfound : o.cache.diagram? input o.engine.stub o.reordering w.files = some path)
      (hdump : Dump.ofFile path w.files = .ok d) (hengine : w.engine = e) :
      Answers o conditions provider input g fs e (cachedReport path d) w
  | stored {f : Formula} {order : VariableOrder} {c : Compilation} {d : Dump} {fs' : FileSystem}
      {path : Path} {w : World σ} (haccesses : Accesses o input fs fs')
      (hobtains : Obtains o conditions provider g e order f c d w.engine)
      (hstore : (storeDump o f d).run fs' = (.ok path, w.files)) :
      Answers o conditions provider input g fs e (freshReport path order f c) w

theorem ends_dump (o : Options) (m : Manager σ) (c : Compilation) (f : Formula) (w : World σ) :
    (dump o m c f).Ends w
      (fun w' => w'.files = w.files ∨ ∃ d failure, (m.dump c.diagram).run w.engine =
        (.ok d, w'.engine) ∧
          (storeDump o f (described o f c d)).run w.files = (.error failure, w'.files))
      fun path w' => ∃ d, (m.dump c.diagram).run w.engine = (.ok d, w'.engine) ∧
        (storeDump o f (described o f c d)).run w.files = (.ok path, w'.files) := by
  refine ((Action.Ends.onEngine _ w).mono (fun _ => .inl) fun _ _ => id).bind
    fun d v ⟨hfiles, hdump⟩ => ?_
  rw [← hfiles]
  refine (Action.Ends.onFiles (.of_run _ v.files)).mono ?_ ?_
  · rintro w' ⟨⟨failure, hstore⟩, hengine⟩
    rw [← hengine] at hdump
    exact .inr ⟨d, failure, hdump, hstore⟩
  · rintro path w' ⟨hstore, hengine⟩
    rw [← hengine] at hdump
    exact ⟨d, hdump, hstore⟩

theorem ends_compileWith (o : Options) (m : Manager σ) (f : Formula) (order : VariableOrder)
    (w : World σ) :
    (compileWith o m f order).Ends w
      (fun w' => w'.files = w.files ∨ ∃ c d e failure, Compiles o m f order w.engine c d e ∧
        w'.engine = m.release c.diagram e ∧
          (storeDump o f (described o f c d)).run w.files = (.error failure, w'.files))
      fun report w' => ∃ c d e path, Compiles o m f order w.engine c d e ∧
        report = freshReport path order f c ∧ w'.engine = m.release c.diagram e ∧
          (storeDump o f (described o f c d)).run w.files = (.ok path, w'.files) := by
  refine ((Action.Ends.onEngine _ w).mono (fun _ => .inl) fun _ _ => id).bind
    fun c v ⟨hfiles, hrun⟩ => ?_
  obtain ⟨_, e₁, hprepare, hcompile⟩ := Action.exists_of_run_bind hrun
  rw [← hfiles]
  have hdump : ((dump o m c f).ensuring (World.mapEngine (m.release c.diagram))).Ends v
      (fun w' => w'.files = v.files ∨ ∃ c d e failure, Compiles o m f order w.engine c d e ∧
        w'.engine = m.release c.diagram e ∧
          (storeDump o f (described o f c d)).run v.files = (.error failure, w'.files))
      fun path w' => ∃ d e, Compiles o m f order w.engine c d e ∧
        w'.engine = m.release c.diagram e ∧
          (storeDump o f (described o f c d)).run v.files = (.ok path, w'.files) := by
    refine .ensuring ((ends_dump o m c f v).mono ?_ ?_)
    · rintro w' (hsame | ⟨d, failure, hdump, hstore⟩)
      · exact .inl hsame
      · exact .inr ⟨c, d, _, failure, .compiled hprepare hcompile hdump, rfl, hstore⟩
    · rintro path w' ⟨d, hdump, hstore⟩
      exact ⟨d, _, .compiled hprepare hcompile hdump, rfl, hstore⟩
  refine hdump.bind fun path w' ⟨d, e, hcompiles, hengine, hstore⟩ => ?_
  exact .pure ⟨c, d, e, path, hcompiles, rfl, hengine, hstore⟩

theorem ends_compileFormula (hsource : g.source = some input)
    (haccesses : Accesses o input w.files v.files) (hengine : v.engine = w.engine) :
    (compileFormula o conditions provider g).Ends v
      (Fails o conditions provider input g w.files w.engine)
      (Answers o conditions provider input g w.files w.engine) := by
  refine ((Action.Ends.onFiles (ends_orderFor haccesses hsource)).mono
    (fun _ h => .before h.1) fun _ _ => id).bind ?_
  rintro ⟨order, _⟩ v₁ ⟨⟨⟨f, hsorted, rfl⟩, h₁⟩, he₁⟩
  refine ((Action.Ends.onEngine _ v₁).mono (fun w' hfiles => ?_) fun _ _ => id).bind
    fun m v₂ ⟨hfiles, hacquire⟩ => ?_
  · rw [← hfiles] at h₁
    exact .before h₁
  rw [← hfiles] at h₁
  rw [he₁, hengine] at hacquire
  refine .ensuring ((ends_compileWith o m (ordered o conditions f) order v₂).mono ?_ ?_)
  · rintro w' (hsame | ⟨c, d, e, failure, hcompiles, he, hstore⟩)
    · rw [← hsame] at h₁
      exact .before h₁
    · have hobtains := Obtains.compiled hsorted hacquire hcompiles
      rw [← he] at hobtains
      exact .storing h₁ hobtains hstore
  · rintro _ w' ⟨c, d, e, path, hcompiles, rfl, he, hstore⟩
    have hobtains := Obtains.compiled hsorted hacquire hcompiles
    rw [← he] at hobtains
    exact .stored h₁ hobtains hstore

/-! ### Whole runs -/

theorem ends_answer (hsource : g.source = some input) (w : World σ) :
    (answer o conditions provider g).Ends w (Fails o conditions provider input g w.files w.engine)
      (Answers o conditions provider input g w.files w.engine) := by
  refine ((Action.Ends.onFiles (ends_cachedDiagram? hsource w.files)).mono
    (fun _ h => h.1.elim) fun _ _ => id).bind fun found v ⟨hfound, hengine⟩ => ?_
  rcases hfound with ⟨rfl, haccesses⟩ | ⟨path, rfl, hmade, hfound⟩
  · exact ends_compileFormula hsource haccesses hengine
  · have haccesses : Accesses o input w.files v.files := hmade ▸ .single (.make w.files)
    have hdump : (Action.asking (Dump.ofFile path)).Ends v.files (Accesses o input w.files)
        fun d fs => fs = v.files ∧ Dump.ofFile path v.files = .ok d :=
      .asking haccesses fun _ hd => ⟨rfl, hd⟩
    refine ((Action.Ends.onFiles hdump).mono (fun _ h => .before h.1) fun _ _ => id).bind
      fun d w' ⟨⟨hfiles, hd⟩, he⟩ => .pure ?_
    rw [← hfiles] at hmade hfound hd
    exact .cached hmade hfound hd (he.trans hengine)

/-- A run reads its input and locks the cache, then it fails or answers and gives the lock back. -/
theorem ends_run (o : Options) (conditions : Conditions) (provider : Provider σ) (input : Path)
    (w : World σ) :
    (run o conditions provider input).Ends w
      (fun w' => w'.files = w.files ∨ ∃ g, Formula.ofFile input w.files = .ok g ∧
        (Accesses o input w.files w'.files ∨ ∃ ticket v,
          Fails o conditions provider input g (atLock o input w.files) w.engine v ∧
            w' = v.mapFiles (FileSystem.unlock ticket)))
      fun report w' => ∃ g ticket v, Formula.ofFile input w.files = .ok g ∧
        Answers o conditions provider input g (atLock o input w.files) w.engine report v ∧
          w' = v.mapFiles (FileSystem.unlock ticket) := by
  have hread : (Action.asking (Formula.ofFile input)).Ends w.files (· = w.files)
      fun g fs => fs = w.files ∧ Formula.ofFile input w.files = .ok g :=
    .asking rfl fun g hg => ⟨rfl, hg⟩
  refine ((Action.Ends.onFiles hread).mono (fun _ h => .inl h.1) fun _ _ => id).bind
    fun g v ⟨⟨hfiles, hg⟩, he⟩ => ?_
  have hlock : (do
      let cache ← Cache.inDirectory o.cacheDirectory
      cache.lock input).Ends v.files (Accesses o input w.files)
      fun _ fs => fs = atLock o input w.files := by
    have hmake : Accesses o input w.files (atCache o w.files) := .single (.make w.files)
    rw [hfiles]
    refine ((ends_inDirectory o w.files).mono (fun _ heq => heq ▸ hmake) fun _ _ => id).bind ?_
    rintro cache _ ⟨rfl, rfl⟩
    have hlocked : (o.cache.lock input).Ends (atCache o w.files)
        (fun fs => fs = atLock o input w.files) fun _ fs => fs = atLock o input w.files :=
      .of_state rfl
    exact hlocked.mono (fun _ heq => heq ▸ accesses_atLock o input w.files) fun _ _ => id
  refine ((Action.Ends.onFiles hlock).mono (fun _ h => .inr ⟨g, hg, .inl h.1⟩) fun _ _ => id).bind
    fun ticket v₁ ⟨hfiles₁, he₁⟩ => ?_
  have hanswer : (answer o conditions provider g).Ends v₁
      (Fails o conditions provider input g v₁.files v₁.engine)
      (Answers o conditions provider input g v₁.files v₁.engine) :=
    ends_answer (Formula.source_of_ofFile hg) v₁
  rw [hfiles₁, he₁, he] at hanswer
  exact .ensuring (hanswer.mono
    (fun w' hfails => .inr ⟨g, hg, .inr ⟨ticket, w', hfails, rfl⟩⟩)
    fun report w' hanswers => ⟨g, ticket, w', hg, hanswers, rfl⟩)

end Run
end DiagramCompiler
