import DiagramCompiler.Proofs.KeptCaches
import DiagramCompiler.Proofs.RunCourses

/-! What runs come to.
A run that fails leaves every diagram in its cache as it was. One that answers has found a diagram
in the cache with the digest of the input, or it has compiled what the input holds and stored the
dump, which is then the only diagram in the cache that has changed. -/
namespace DiagramCompiler

theorem Dump.ofFile_unlock (fs : FileSystem) (ticket : Ticket) (path : Path) :
    Dump.ofFile path (fs.unlock ticket) = Dump.ofFile path fs := by
  rw [ofFile, ofFile, FileSystem.readText, FileSystem.readText, FileSystem.read_unlock]

namespace Cache

theorem diagram?_unlock (c : Cache) (fs : FileSystem) (ticket : Ticket) {input path : Path}
    {engine reordering : String} (h : c.diagram? input engine reordering fs = some path) :
    c.diagram? input engine reordering (fs.unlock ticket) = some path := by
  obtain ⟨hpath, d, hdump, hcurrent⟩ := c.diagram?_eq_some_iff.1 h
  refine c.diagram?_eq_some_iff.2 ⟨hpath, d, (Dump.ofFile_unlock fs ticket path).trans hdump, ?_⟩
  simpa only [isCurrent, FileSystem.digest, FileSystem.read_unlock] using hcurrent

def IsDiagramName (name : String) : Prop := ∃ front, name = front ++ ".dd"

theorem not_isDiagramName {ext : String} {c : Char} (hlast : ext.toList.getLast? = some c)
    (hc : c ≠ 'd') (front : String) : ¬ IsDiagramName (front ++ ext) := by
  rintro ⟨other, heq⟩
  have hdd : (".dd" : String).toList.getLast? = some 'd' := by decide
  have hchars := congrArg (fun s : String => s.toList.getLast?) heq
  simp only [String.toList_append, List.getLast?_append, hlast, hdd, Option.some_or] at hchars
  exact hc (Option.some.inj hchars)

/-- Whether a run on an input can use a cache in which only the diagrams are restricted. -/
structure Suits (c : Cache) (P : String → Bytes → Prop) (input : Path) (content : Bytes)
    (before : FileSystem) : Prop where
  tree : before.IsTree
  read : before.read input = .ok content
  isOutside : c.IsOutside before input
  others {name : String} (h : ¬ IsDiagramName name) (content : Bytes) : P name content

def And (P : String → Bytes → Prop) (name : String) (content : Bytes) : String → Bytes → Prop :=
  fun other found => P other found ∨ other = name ∧ found = content

/-- What is so after a dump of an input was stored at a path: nothing else was put under the name of
a diagram. -/
structure HasStored (c : Cache) (P : String → Bytes → Prop) (input : Path) (content : Bytes)
    (d : Dump) (before after : FileSystem) (path : Path) : Prop where
  serves : ∃ name, IsDiagramName name ∧ path.Names c.directory name ∧
    c.Serves (And P name (tagged input content.digest d).bytes) input before after
  read : after.read path = .ok (tagged input content.digest d).bytes

variable {c : Cache} {P : String → Bytes → Prop} {input : Path} {content : Bytes}
  {before fs : FileSystem}

namespace Suits

theorem exists_fileName (hs : c.Suits P input content before) : ∃ name, input.fileName = some name :=
  hs.tree.exists_fileName hs.read

theorem serves_lock (hs : c.Suits P input content before) (h : c.Serves P input before fs) :
    c.Serves P input before ((c.lock input).run fs).2 := by
  obtain ⟨name, hname⟩ := hs.exists_fileName
  have hlock : ¬ IsDiagramName (name ++ ".lock") :=
    not_isDiagramName (c := 'k') (by decide) (by decide) _
  exact h.lock hs.isOutside (c.names_lockPath hname) (hs.others hlock)

theorem ends_digestOf (hs : c.Suits P input content before) (h : c.Serves P input before fs) :
    (digestOf input).Ends fs (c.Serves P input before) fun digest fs' =>
      digest = content.digest ∧ c.Serves P input before fs' :=
  .of_ok (run_digestOf_of_read (h.read hs.read)) ⟨rfl, h⟩

theorem ends_storeOrder (hs : c.Suits P input content before) (h : c.Serves P input before fs)
    (o : Options) (order : VariableOrder) :
    (c.storeOrder input o.stage order).Ends fs (c.Serves P input before) fun _ =>
      c.Serves P input before := by
  obtain ⟨name, hname⟩ := hs.exists_fileName
  obtain ⟨front, horder, htmp⟩ := c.names_orderPath hname o
  have hother : ¬ IsDiagramName (front ++ ".order") :=
    not_isDiagramName (c := 'r') (by decide) (by decide) _
  have hbeside : ¬ IsDiagramName (front ++ ".tmp") :=
    not_isDiagramName (c := 'p') (by decide) (by decide) _
  refine (hs.ends_digestOf h).bind fun digest fs' ⟨_, h'⟩ => ?_
  refine (h'.ends_replace hs.isOutside horder htmp (hs.others hbeside) (fun _ _ => id)
    (hs.others hother _)).bind fun _ fs'' h'' => ?_
  exact .pure h''.1

/-- A dump is stored under the name of a diagram, with the digest of the input. -/
theorem ends_storeDiagram (hs : c.Suits P input content before) (h : c.Serves P input before fs)
    (engine : EngineKind) {reordering : String} (hreordering : '/' ∉ reordering.toList) (d : Dump) :
    (c.storeDiagram input engine.stub reordering d).Ends fs (c.Serves P input before)
      fun path fs' => c.HasStored P input content d before fs' path := by
  obtain ⟨name, hname⟩ := hs.exists_fileName
  obtain ⟨front, hdiagram, htmp⟩ := c.names_diagramPath hname engine hreordering
  have hbeside : ¬ IsDiagramName (front ++ ".tmp") :=
    not_isDiagramName (c := 'p') (by decide) (by decide) _
  refine (hs.ends_digestOf h).bind fun digest fs' ⟨hdigest, h'⟩ => ?_
  subst hdigest
  let stored := (tagged input content.digest d).bytes
  have hreplace : (FileSystem.replace (c.diagramPath input engine.stub reordering) stored).Ends fs'
      (c.Serves P input before) fun _ fs'' => c.Serves (And P (front ++ ".dd") stored) input before
        fs'' ∧ fs''.read (c.diagramPath input engine.stub reordering) = .ok stored :=
    h'.ends_replace hs.isOutside hdiagram htmp (hs.others hbeside) (fun _ _ => .inl)
      (.inr ⟨rfl, rfl⟩)
  refine hreplace.bind fun _ fs'' ⟨h'', hread⟩ => ?_
  exact .pure ⟨⟨front ++ ".dd", ⟨front, rfl⟩, hdiagram, h''⟩, hread⟩

end Suits

end Cache

/-- Whether the names of an engine's dynamic reorderings have no line feeds and no slashes. -/
def Manager.HasPlainReorderings {σ : Type} (m : Manager σ) : Prop :=
  ∀ r ∈ m.capabilities.reorderings, '\n' ∉ r.1.toList ∧ '/' ∉ r.1.toList

namespace Run

variable {σ : Type} {o : Options} {conditions : Conditions} {provider : Provider σ}
  {P : String → Bytes → Prop} {input : Path} {content : Bytes} {before fs : FileSystem} {f : Formula}

/-! ### Accesses -/

theorem Access.serves (hs : o.cache.Suits P input content before)
    (h : o.cache.Serves P input before fs) {fs' : FileSystem} (haccess : Access o input fs fs') :
    o.cache.Serves P input before fs' := by
  cases haccess with
  | make => exact h.makeDirectories hs.isOutside o.cacheDirectory
  | lock => exact hs.serves_lock h
  | keep order =>
    rcases (hs.ends_storeOrder h o order).cases with
      ⟨failure, fs', hrun, h'⟩ | ⟨path, fs', hrun, h'⟩ <;> rwa [hrun]

/-- What a run does to files before it stores a diagram leaves the diagrams in its cache alone. -/
theorem Accesses.serves (hs : o.cache.Suits P input content before)
    (h : o.cache.Serves P input before fs) {fs' : FileSystem} (haccesses : Accesses o input fs fs') :
    o.cache.Serves P input before fs' := by
  induction haccesses with
  | refl => exact h
  | tail _ haccess ih => exact haccess.serves hs ih

theorem ends_storeDump (hs : o.cache.Suits P input content before)
    (h : o.cache.Serves P input before fs) (hsource : f.source = some input)
    (hreordering : '/' ∉ o.reordering.toList) (d : Dump) :
    (storeDump o f d).Ends fs (o.cache.Serves P input before)
      fun path fs' => o.cache.HasStored P input content d before fs' path := by
  have hmake : o.cache.Serves P input before (atCache o fs) :=
    h.makeDirectories hs.isOutside o.cacheDirectory
  refine ((ends_inDirectory o fs).mono (fun _ heq => heq ▸ hmake) fun _ _ => id).bind ?_
  rintro cache _ ⟨rfl, rfl⟩
  rw [hsource]
  exact hs.ends_storeDiagram hmake o.engine hreordering d

/-! ### Engines -/

theorem isPlain_of_setReordering {m : Manager σ} (hm : m.HasPlainReorderings) {e e' : σ}
    (h : (m.setReordering o.reordering).run e = (.ok (), e')) : o.IsPlain := by
  rw [Manager.setReordering] at h
  split at h
  · next hoff =>
    exact ⟨not_mem_of_isNoReordering hoff (by decide), not_mem_of_isNoReordering hoff (by decide)⟩
  · split at h
    · next name id hfound =>
      have hsame : Text.sameLetters o.reordering.toList name.toList = true := by
        have hsame := List.find?_some hfound
        simpa [Text.sameLetters, eq_comm] using hsame
      obtain ⟨hline, hslash⟩ := hm (name, id) (List.mem_of_find?_eq_some hfound)
      exact ⟨Text.not_mem_of_sameLetters hsame (by decide) hline,
        Text.not_mem_of_sameLetters hsame (by decide) hslash⟩
    · exact absurd (congrArg Prod.fst h) (by simp)

theorem isPlain_of_prepare {m : Manager σ} (hm : m.HasPlainReorderings) {order : VariableOrder}
    {e e' : σ} (h : (prepare o m f order).run e = (.ok (), e')) : o.IsPlain := by
  obtain ⟨_, e₁, -, h⟩ := Action.exists_of_run_bind h
  split at h
  · obtain ⟨_, e₂, -, h⟩ := Action.exists_of_run_bind h
    exact isPlain_of_setReordering hm h
  · exact isPlain_of_setReordering hm h

/-- How a run comes to the report on a dump that it makes, and what becomes of the engine. -/
inductive Produces (o : Options) (conditions : Conditions) (provider : Provider σ) (input : Path)
    (content : Bytes) (e : σ) : Report → Dump → σ → Prop where
  | fresh {g f : Formula} {order : VariableOrder} {m : Manager σ} {e₁ e₂ : σ} {c : Compilation}
      {d : Dump} (path : Path) (hread : Dimacs.read content = .ok g)
      (hsorted : sorted o (g.readFrom input content) order = .ok f)
      (hacquire : provider.acquire.run e = (.ok m, e₁))
      (hcompiles : Compiles o m (ordered o conditions f) order e₁ c d e₂) :
      Produces o conditions provider input content e
        (freshReport path order (ordered o conditions f) c)
        (described o (ordered o conditions f) c d) (provider.dispose (m.release c.diagram e₂))

/-- What a run that answers leaves behind. -/
inductive Leaves (o : Options) (conditions : Conditions) (provider : Provider σ)
    (P : String → Bytes → Prop) (input : Path) (content : Bytes) (w w' : World σ) :
    Report → Prop where
  /-- A diagram was found in the cache. -/
  | cached {path : Path} {d : Dump}
      (hfound : o.cache.diagram? input o.engine.stub o.reordering w'.files = some path)
      (hdump : Dump.ofFile path w'.files = .ok d)
      (hserves : o.cache.Serves P input w.files w'.files) (hengine : w'.engine = w.engine) :
      Leaves o conditions provider P input content w w' (cachedReport path d)
  /-- A dump was made and stored. -/
  | stored {report : Report} {d : Dump}
      (hproduces : Produces o conditions provider input content w.engine report d w'.engine)
      (hstored : o.cache.HasStored P input content d w.files w'.files report.dumpPath) :
      Leaves o conditions provider P input content w w' report

theorem Obtains.produces {g f : Formula} {order : VariableOrder} {c : Compilation} {d : Dump}
    {e e' : σ} (h : Obtains o conditions provider (g.readFrom input content) e order f c d e')
    (hread : Dimacs.read content = .ok g) (path : Path) :
    Produces o conditions provider input content e (freshReport path order f c) d e' := by
  cases h with
  | compiled hsorted hacquire hcompiles => exact .fresh path hread hsorted hacquire hcompiles

theorem Obtains.isPlain {g f : Formula} {order : VariableOrder} {c : Compilation} {d : Dump}
    {e e' : σ} (h : Obtains o conditions provider g e order f c d e')
    (hprovider : ∀ m e', provider.acquire.run e = (.ok m, e') → m.HasPlainReorderings) :
    o.IsPlain := by
  cases h with
  | compiled _ hacquire hcompiles =>
    cases hcompiles with
    | compiled hprepare => exact isPlain_of_prepare (hprovider _ _ hacquire) hprepare

section Runs

variable {g : Formula} {w v : World σ} (hs : o.cache.Suits P input content w.files)
  (h : o.cache.Serves P input w.files fs)
  (hprovider : ∀ m e, provider.acquire.run w.engine = (.ok m, e) → m.HasPlainReorderings)

include hs h hprovider

theorem Fails.serves
    (hfails : Fails o conditions provider input (g.readFrom input content) fs w.engine v) :
    o.cache.Serves P input w.files v.files := by
  cases hfails with
  | before haccesses => exact haccesses.serves hs h
  | storing haccesses hobtains hstore =>
    have hends := ends_storeDump hs (haccesses.serves hs h) hobtains.source_eq
      (hobtains.isPlain hprovider).2
    exact (hends _).error hstore

theorem Answers.leaves (hread : Dimacs.read content = .ok g) {report : Report}
    (hanswers : Answers o conditions provider input (g.readFrom input content) fs w.engine report
      v) :
    Leaves o conditions provider P input content w v report := by
  cases hanswers with
  | cached hmade hfound hdump hengine =>
    have haccesses : Accesses o input fs v.files := hmade ▸ .single (.make fs)
    exact .cached hfound hdump (haccesses.serves hs h) hengine
  | stored haccesses hobtains hstore =>
    have hends := ends_storeDump hs (haccesses.serves hs h) hobtains.source_eq
      (hobtains.isPlain hprovider).2
    exact .stored (hobtains.produces hread _) ((hends _).ok hstore)

end Runs

/-! ### Whole runs -/

theorem Leaves.unlock {w w' : World σ} {report : Report} (houtside : o.cache.IsOutside w.files input)
    (h : Leaves o conditions provider P input content w w' report) (ticket : Ticket) :
    Leaves o conditions provider P input content w (w'.mapFiles (FileSystem.unlock ticket))
      report := by
  cases h with
  | @cached path d hfound hdump hserves hengine =>
    refine .cached ?_ ?_ (hserves.unlock houtside ticket) hengine
    · exact o.cache.diagram?_unlock w'.files ticket hfound
    · exact (Dump.ofFile_unlock w'.files ticket path).trans hdump
  | stored hproduces hstored =>
    obtain ⟨name, hname, hnames, hserves⟩ := hstored.serves
    refine .stored hproduces ⟨⟨name, hname, hnames, hserves.unlock houtside ticket⟩, ?_⟩
    exact (FileSystem.read_unlock w'.files ticket _).trans hstored.read

/-- A run that fails leaves the diagrams in its cache as they were. One that answers has found a
diagram there, or it has made and stored one. -/
theorem leaves_run {w : World σ} (hholds : o.cache.Holds P w.files)
    (hothers : ∀ {name}, ¬ Cache.IsDiagramName name → ∀ content, P name content)
    (houtside : o.cache.IsOutside w.files input)
    (hprovider : ∀ m e, provider.acquire.run w.engine = (.ok m, e) → m.HasPlainReorderings) :
    (run o conditions provider input).Ends w (fun w' => o.cache.Serves P input w.files w'.files)
      fun report w' => ∃ content, w.files.read input = .ok content ∧
        Leaves o conditions provider P input content w w' report := by
  have hserves := hholds.serves input
  have hsuits {content : Bytes} (hread : w.files.read input = .ok content) :
      o.cache.Suits P input content w.files := ⟨hholds.tree, hread, houtside, hothers⟩
  refine (ends_run o conditions provider input w).mono ?_ ?_
  · rintro w' (hsame | ⟨f, hf, haccesses | ⟨ticket, v, hfails, rfl⟩⟩)
    · rwa [hsame]
    · obtain ⟨content, g, hread, -, -⟩ := Formula.exists_of_ofFile hf
      exact haccesses.serves (hsuits hread) hserves
    · obtain ⟨content, g, hread, -, rfl⟩ := Formula.exists_of_ofFile hf
      have hs := hsuits hread
      have hlocked := (accesses_atLock o input w.files).serves hs hserves
      exact (hfails.serves hs hlocked hprovider).unlock houtside ticket
  · rintro report w' ⟨f, ticket, v, hf, hanswers, rfl⟩
    obtain ⟨content, g, hread, hg, rfl⟩ := Formula.exists_of_ofFile hf
    have hs := hsuits hread
    have hlocked := (accesses_atLock o input w.files).serves hs hserves
    exact ⟨content, hread, (hanswers.leaves hs hlocked hprovider hg).unlock houtside ticket⟩

/-! ### Runs from their parts -/

section Parts

variable {f g : Formula} {made locked fs' : FileSystem} {ticket : Ticket} {path : Path} {d : Dump}
  {e e₁ e₂ : σ}

theorem run_cachedDiagram? (hsource : f.source = some input)
    (huse : (o.useCache && o.useCachedResults) = true)
    (hstays : (Cache.inDirectory o.cacheDirectory).run fs = (.ok o.cache, fs)) :
    (cachedDiagram? o f).run fs =
      (.ok (o.cache.diagram? input o.engine.stub o.reordering fs), fs) := by
  have hattempt : (Cache.inDirectory o.cacheDirectory).attempt.run fs = (.ok (.ok o.cache), fs) := by
    rw [Action.run_attempt, hstays]
  rw [cachedDiagram?, if_pos huse, hsource]
  exact Action.run_bind_of_ok hattempt _

theorem run_answer_of_some (hsource : f.source = some input)
    (huse : (o.useCache && o.useCachedResults) = true)
    (hstays : (Cache.inDirectory o.cacheDirectory).run fs = (.ok o.cache, fs))
    (hfound : o.cache.diagram? input o.engine.stub o.reordering fs = some path)
    (hdump : Dump.ofFile path fs = .ok d) :
    (answer o conditions provider f).run ⟨fs, e⟩ = (.ok (cachedReport path d), ⟨fs, e⟩) := by
  have hcached := run_cachedDiagram? hsource huse hstays
  rw [hfound] at hcached
  have hread : (Action.asking (Dump.ofFile path)).run fs = (.ok d, fs) := congrArg (·, fs) hdump
  refine (Action.run_bind_of_ok (World.run_onFiles hcached) _).trans ?_
  exact (Action.run_bind_of_ok (World.run_onFiles hread) _).trans rfl

theorem run_compileWith {m : Manager σ} {order : VariableOrder} {c : Compilation}
    (hcompiles : Compiles o m f order e c d e₁)
    (hstore : (storeDump o f (described o f c d)).run fs = (.ok path, fs')) :
    (compileWith o m f order).run ⟨fs, e⟩ =
      (.ok (freshReport path order f c), ⟨fs', m.release c.diagram e₁⟩) := by
  cases hcompiles with
  | @compiled _ e₃ _ hprepare hcompile hdump =>
    have hengine : (prepare o m f order >>= fun _ => Compilation.compile m f none).run e =
        (.ok c, e₃) := (Action.run_bind_of_ok hprepare _).trans hcompile
    have hdumped : (dump o m c f).run ⟨fs, e₃⟩ = (.ok path, ⟨fs', e₁⟩) :=
      (Action.run_bind_of_ok (World.run_onEngine hdump) _).trans (World.run_onFiles hstore)
    refine (Action.run_bind_of_ok (World.run_onEngine hengine) _).trans ?_
    refine (Action.run_bind_of_ok ((Action.run_ensuring _ _ _).trans ?_) _).trans rfl
    rw [hdumped]
    rfl

/-- An answer that is compiled, as nothing was found in the cache. -/
theorem run_answer_of_none {m : Manager σ} {order : VariableOrder} {c : Compilation}
    (hsource : g.source = some input) (huse : (o.useCache && o.useCachedResults) = true)
    (hstays : (Cache.inDirectory o.cacheDirectory).run fs = (.ok o.cache, fs))
    (hnone : o.cache.diagram? input o.engine.stub o.reordering fs = none)
    (horder : (orderFor o conditions g).run fs = (.ok (order, f), fs))
    (hacquire : provider.acquire.run e = (.ok m, e₁)) (hcompiles : Compiles o m f order e₁ c d e₂)
    (hstore : (storeDump o f (described o f c d)).run fs = (.ok path, fs')) :
    (answer o conditions provider g).run ⟨fs, e⟩ =
      (.ok (freshReport path order f c), ⟨fs', provider.dispose (m.release c.diagram e₂)⟩) := by
  have hcached := run_cachedDiagram? hsource huse hstays
  rw [hnone] at hcached
  refine (Action.run_bind_of_ok (World.run_onFiles hcached) _).trans ?_
  refine (Action.run_bind_of_ok (World.run_onFiles horder) _).trans ?_
  refine (Action.run_bind_of_ok (World.run_onEngine hacquire) _).trans ?_
  refine (Action.run_ensuring _ _ _).trans ?_
  rw [run_compileWith hcompiles hstore]
  rfl

theorem run_of_answer {result : Except Failure Report} (hf : Formula.ofFile input fs = .ok f)
    (hmake : (Cache.inDirectory o.cacheDirectory).run fs = (.ok o.cache, made))
    (hlock : (o.cache.lock input).run made = (.ok ticket, locked))
    (hanswer : (answer o conditions provider f).run ⟨locked, e⟩ = (result, ⟨fs', e₁⟩)) :
    (run o conditions provider input).run ⟨fs, e⟩ = (result, ⟨fs'.unlock ticket, e₁⟩) := by
  have hread : (Action.asking (Formula.ofFile input)).run fs = (.ok f, fs) := congrArg (·, fs) hf
  have hlocked : (do
      let cache ← Cache.inDirectory o.cacheDirectory
      cache.lock input).run fs = (.ok ticket, locked) := (Action.run_bind_of_ok hmake _).trans hlock
  refine (Action.run_bind_of_ok (World.run_onFiles hread) _).trans ?_
  refine (Action.run_bind_of_ok (World.run_onFiles hlocked) _).trans ?_
  refine (Action.run_ensuring _ _ _).trans ?_
  rw [hanswer]
  rfl

end Parts

end Run
end DiagramCompiler
