import DiagramCompiler.Proofs.AlikeRuns
import DiagramCompiler.Proofs.FoundOrders
import DiagramCompiler.Proofs.ReadBackOrders
import DiagramCompiler.Proofs.StoredOrders
import DiagramCompiler.Proofs.TightestClauses

/-! Runs with working storage.
As long as files can be stored and there is room for a search, an order is found and kept whatever
is in the cache: an entry that cannot be read counts as missing, and one that is outdated gives an
order to start from at most. What is kept as a diagram is not looked at for that, not even if the
search fails. -/
namespace DiagramCompiler

/-- Whether there is room for what a search makes and for what the clauses are sorted by. -/
structure Options.HasSpace (o : Options) (f : Formula) : Prop where
  vars : f.varCount < UInt32.size
  fits : o.Fits f
  clauses : o.FitsClauses f

theorem Options.HasSpace.exists_sorted {o : Options} {f : Formula} (h : o.HasSpace f)
    (order : VariableOrder) : ∃ f', Run.sorted o f order = .ok f' := by
  rw [Run.sorted]
  split
  · exact exists_sortClauses_iff.2 h.clauses
  · exact ⟨_, rfl⟩

namespace Run

variable {o : Options} {input p : Path} {content : Bytes} {fs fs' : FileSystem} {place : Location}
  {fails : FileSystem → FileSystem → Prop}

/-! ### Storage -/

abbrev diagramPath (o : Options) (input : Path) : Path :=
  o.cache.diagramPath input o.engine.stub o.reordering

def writtenPaths (o : Options) (input : Path) : List Path :=
  let orderPath := o.cache.orderPath input o.stage
  [o.cache.lockPath input, orderPath, orderPath.withExtension "tmp", diagramPath o input,
    (diagramPath o input).withExtension "tmp"]

theorem mem_lockPath : o.cache.lockPath input ∈ writtenPaths o input := by simp [writtenPaths]

theorem mem_orderPath : o.cache.orderPath input o.stage ∈ writtenPaths o input := by
  simp [writtenPaths]

theorem mem_diagramPath : diagramPath o input ∈ writtenPaths o input := by simp [writtenPaths]

theorem mem_besideOrderPath :
    (o.cache.orderPath input o.stage).withExtension "tmp" ∈ writtenPaths o input := by
  simp [writtenPaths]

theorem mem_besideDiagramPath :
    (diagramPath o input).withExtension "tmp" ∈ writtenPaths o input := by simp [writtenPaths]

/-- Whether a run on a file can store what it makes: all that it writes is written to its end, the
directory of the cache is there, and where the run writes there is a file or nothing, and not the
input. -/
structure HasStorage (o : Options) (input : Path) (content : Bytes) (fs : FileSystem) : Prop where
  reliable : fs.IsReliable
  read : fs.read input = .ok content
  directory : o.cacheDirectory.text = "" ∨
    ∃ place, fs.locate o.cacheDirectory = .ok place ∧ fs.find? place = some .directory
  written : ∀ p ∈ writtenPaths o input, fs.target p = .ok (fs.placeOf p) ∧
    fs.placeOf p ≠ fs.placeOf input

namespace HasStorage

theorem congr (h : HasStorage o input content fs) (hdirs : fs.SameDirectories fs')
    (hdevice : fs'.device = fs.device)
    (hinput : fs'.find? (fs.placeOf input) = fs.find? (fs.placeOf input)) :
    HasStorage o input content fs' where
  reliable place content :=
    (congrFun (congrFun hdevice place) content).trans (h.reliable place content)
  read := hdirs.read hinput h.read
  directory := h.directory.imp id fun ⟨place, hplace, hfind⟩ =>
    ⟨place, hdirs.locate hplace, (hdirs.find? place).2 hfind⟩
  written p hp := by
    obtain ⟨htarget, hne⟩ := h.written p hp
    rw [FileSystem.placeOf_congr hdirs.working, FileSystem.placeOf_congr hdirs.working]
    exact ⟨hdirs.target htarget, hne⟩

theorem run_inDirectory (h : HasStorage o input content fs) :
    (Cache.inDirectory o.cacheDirectory).run fs = (.ok o.cache, fs) := by
  have hmake : (FileSystem.makeDirectories o.cacheDirectory).run fs = (.ok (), fs) := by
    rcases h.directory with htext | ⟨place, hplace, hfind⟩
    · rw [Action.run, FileSystem.makeDirectories, FileSystem.pathFault?, htext]
      rfl
    · exact FileSystem.run_makeDirectories hplace hfind
  exact Action.run_bind_of_ok hmake _

theorem run_digestOf (h : HasStorage o input content fs) :
    (Cache.digestOf input).run fs = (.ok content.digest, fs) := Cache.run_digestOf_of_read h.read

theorem target (h : HasStorage o input content fs) (hp : p ∈ writtenPaths o input) :
    fs.target p = .ok (fs.placeOf p) := (h.written p hp).1

theorem find?_ne (h : HasStorage o input content fs) (hp : p ∈ writtenPaths o input) :
    fs.find? (fs.placeOf p) ≠ some .directory := (FileSystem.locate_of_target (h.target hp)).2.2

theorem placeOf_ne (h : HasStorage o input content fs) (hp : p ∈ writtenPaths o input) :
    fs.placeOf p ≠ fs.placeOf input := (h.written p hp).2

theorem run_lock (h : HasStorage o input content fs)
    (hfree : fs.isLocked (fs.placeOf (o.cache.lockPath input)) = false) :
    (do
      let cache ← Cache.inDirectory o.cacheDirectory
      cache.lock input).run fs =
        (.ok fs.tickets, fs.locked (fs.placeOf (o.cache.lockPath input))) :=
  (Action.run_bind_of_ok h.run_inDirectory _).trans
    (h.reliable.run_lock (h.target mem_lockPath) hfree)

theorem locked (h : HasStorage o input content fs) :
    HasStorage o input content (fs.locked (fs.placeOf (o.cache.lockPath input))) := by
  have hnot := h.find?_ne mem_lockPath
  refine h.congr (FileSystem.sameDirectories_locked hnot) ?_
    (FileSystem.find?_locked_of_ne hnot (h.placeOf_ne mem_lockPath))
  rw [h.reliable.locked_eq]
  rfl

end HasStorage

/-! ### File systems with other diagrams -/

/-- Whether two file systems in which files can be stored differ at most in the diagram kept for a
file. -/
structure Twins (o : Options) (input : Path) (content : Bytes) (fs fs' : FileSystem) : Prop where
  storage : HasStorage o input content fs
  agrees : FileSystem.AgreesBeyond (fs.placeOf (diagramPath o input)) fs fs'

theorem HasStorage.twins (h : HasStorage o input content fs) : Twins o input content fs fs :=
  ⟨h, .refl (h.find?_ne mem_diagramPath)⟩

namespace Twins

variable (h : Twins o input content fs fs')

include h

theorem storage' : HasStorage o input content fs' :=
  h.storage.congr h.agrees.sameDirectories h.agrees.device
    (h.agrees.find? (h.storage.placeOf_ne mem_diagramPath))

theorem read_eq (hp : p ∈ writtenPaths o input)
    (hne : fs.placeOf p ≠ fs.placeOf (diagramPath o input)) : fs'.read p = fs.read p :=
  h.agrees.read (FileSystem.locate_of_target (h.storage.target hp)).1 hne.symm

theorem digest_eq : fs'.digest input = fs.digest input := by
  rw [FileSystem.digest, FileSystem.digest, h.storage.read, h.storage'.read]

/-- A file that is written keeps the difference, and a diagram takes it away. -/
theorem replace (hp : p ∈ writtenPaths o input)
    (hbeside : p.withExtension "tmp" ∈ writtenPaths o input) (stored : Bytes) :
    (FileSystem.replace p stored).Alike fs fs' fails fun _ t t' =>
      Twins o input content t t' ∧ t.read p = .ok stored ∧ (p = diagramPath o input → t' = t) := by
  have htarget := h.storage.target hp
  have htarget' := h.storage.target hbeside
  have hdirs := h.agrees.sameDirectories
  have hrun := FileSystem.run_replace htarget' htarget (h.storage.reliable _ stored)
  have hrun' := FileSystem.run_replace (hdirs.target htarget') (hdirs.target htarget)
    (h.storage'.reliable _ stored)
  have hreplaced := FileSystem.sameDirectories_replaced (h.storage.find?_ne hbeside)
    (h.storage.find?_ne hp) stored
  have hagrees := h.agrees.replaced (fs.placeOf (p.withExtension "tmp")) (fs.placeOf p) stored
  rw [← FileSystem.placeOf_congr hreplaced.working] at hagrees
  have hinput := FileSystem.find?_replaced_of_ne (h.storage.find?_ne hbeside)
    (h.storage.find?_ne hp) (h.storage.placeOf_ne hbeside) (h.storage.placeOf_ne hp) stored
  refine .ok hrun hrun' ⟨⟨h.storage.congr hreplaced rfl hinput, hagrees⟩,
    FileSystem.read_of_replace hrun, ?_⟩
  rintro rfl
  exact h.agrees.replaced_eq _ stored

theorem locked : Twins o input content (fs.locked (fs.placeOf (o.cache.lockPath input)))
    (fs'.locked (fs.placeOf (o.cache.lockPath input))) := by
  have hdirs := FileSystem.sameDirectories_locked (h.storage.find?_ne mem_lockPath)
  have hagrees := h.agrees.locked (fs.placeOf (o.cache.lockPath input))
  rw [← FileSystem.placeOf_congr hdirs.working] at hagrees
  exact ⟨h.storage.locked, hagrees⟩

theorem unlock (ticket : Ticket) :
    Twins o input content (fs.unlock ticket) (fs'.unlock ticket) :=
  ⟨h.storage.congr ⟨rfl, fun _ => Iff.rfl⟩ rfl rfl, h.agrees.unlock ticket⟩

end Twins

/-! ### Orders -/

section Orders

variable {conditions : Conditions} {f : Formula}

namespace Twins

variable (h : Twins o input content fs fs')

include h

/-- The orders that are kept for a file are read without a look at its diagrams. -/
theorem readText_orderPath : fs'.readText (o.cache.orderPath input o.stage) =
    fs.readText (o.cache.orderPath input o.stage) := by
  have hread := h.read_eq mem_orderPath
    (o.cache.placeOf_orderPath_ne input o.stage o.engine.stub o.reordering fs)
  rw [FileSystem.readText, FileSystem.readText, hread]

theorem order?_eq (n : Nat) :
    o.cache.order? input o.stage n fs' = o.cache.order? input o.stage n fs := by
  unfold Cache.order? Cache.isCurrent
  simp only [h.readText_orderPath, h.digest_eq]

theorem staleOrder?_eq (n : Nat) :
    o.cache.staleOrder? input o.stage n fs' = o.cache.staleOrder? input o.stage n fs := by
  unfold Cache.staleOrder?
  simp only [h.readText_orderPath]

theorem storeOrder (order : VariableOrder) :
    (o.cache.storeOrder input o.stage order).Alike fs fs' fails fun _ t t' =>
      Twins o input content t t' ∧ t.read (o.cache.orderPath input o.stage) =
        .ok (.ofText (Cache.orderText input content.digest order)) := by
  refine .bind_of_ok h.storage.run_digestOf h.storage'.run_digestOf ?_
  exact (h.replace mem_orderPath mem_besideOrderPath _).bind fun _ t t' ⟨h, hread, _⟩ =>
    .pure ⟨h, hread⟩

end Twins

/-- How two file systems are after a search found an order. Where there is space, it is one of the
variables of the formula, and it is found in the cache if orders are kept there. -/
structure Chosen (o : Options) (input : Path) (content : Bytes) (f : Formula)
    (order : VariableOrder) (fs fs' : FileSystem) : Prop where
  twins : Twins o input content fs fs'
  length (h : o.HasSpace f) : order.length = f.varCount
  kept (h : o.HasSpace f) (hcaches : cachesOrders o = true) :
    o.cache.order? input o.stage f.varCount fs = some order

def Crowded (o : Options) (input : Path) (content : Bytes) (f : Formula) (fs fs' : FileSystem) :
    Prop :=
  ¬ o.HasSpace f ∧ Twins o input content fs fs'

theorem findOrder_alike {start : Option VariableOrder}
    (hstart : ∀ order ∈ start, order.length = f.varCount) (h : Twins o input content fs fs') :
    (Action.ofExcept (o.findOrder conditions f start)).Alike fs fs' (Crowded o input content f)
      fun order t t' => Twins o input content t t' ∧
        (o.HasSpace f → order.length = f.varCount) := by
  have hfound (hspace : o.HasSpace f) :=
    hspace.fits.exists_findOrder conditions hspace.vars hstart
  cases hfind : o.findOrder conditions f start with
  | ok order =>
    refine .ok rfl rfl ⟨h, fun hspace => ?_⟩
    obtain ⟨found, hok, hlength⟩ := hfound hspace
    obtain rfl := Except.ok.inj (hok.symm.trans hfind)
    exact hlength
  | error failure =>
    refine .error rfl rfl ⟨fun hspace => ?_, h⟩
    obtain ⟨found, hok, -⟩ := hfound hspace
    exact absurd (hok.symm.trans hfind) (by simp)

theorem searchOrder_alike {start : Option VariableOrder}
    (hstart : ∀ order ∈ start, order.length = f.varCount) (h : Twins o input content fs fs') :
    (searchOrder o conditions f o.cache input start).Alike fs fs' (Crowded o input content f)
      (Chosen o input content f) := by
  refine (findOrder_alike hstart h).bind fun order t t' ⟨h, hlength⟩ => ?_
  refine (h.storeOrder order).bind fun _ u u' ⟨h, hread⟩ =>
    .pure ⟨h, hlength, fun hspace _ => ?_⟩
  have hvars := hspace.vars
  rw [← hlength hspace] at hvars ⊢
  exact Cache.order?_of_read hvars hread h.storage.read

/-- Whatever the entry for an order holds, it is the order, or a search starts from it or without
one. -/
theorem keptOrder_alike (h : Twins o input content fs fs') :
    (keptOrder o conditions f o.cache input).Alike fs fs' (Crowded o input content f)
      (Chosen o input content f) := by
  rw [keptOrder]
  split
  · have hkept : (Action.reading (o.cache.order? input o.stage f.varCount)).Alike fs fs'
        (Crowded o input content f) fun found t t' => Twins o input content t t' ∧
          found = o.cache.order? input o.stage f.varCount t :=
      .reading (h.order?_eq f.varCount) ⟨h, rfl⟩
    refine hkept.bind ?_
    rintro found t t' ⟨h, hfound⟩
    cases found with
    | some order =>
      exact .pure ⟨h, fun _ => Cache.length_of_order? hfound.symm, fun _ _ => hfound.symm⟩
    | none =>
      have hstale : (Action.reading (o.cache.staleOrder? input o.stage f.varCount)).Alike t t'
          (Crowded o input content f) fun stale u u' => Twins o input content u u' ∧
            stale = o.cache.staleOrder? input o.stage f.varCount u :=
        .reading (h.staleOrder?_eq f.varCount) ⟨h, rfl⟩
      refine hstale.bind ?_
      rintro stale u u' ⟨h, hstale⟩
      refine searchOrder_alike ?_ h
      rintro order rfl
      exact Cache.length_of_staleOrder? hstale.symm
  · exact searchOrder_alike (by simp) h

theorem orderCache_alike (hsource : f.source = some input) (h : Twins o input content fs fs') :
    (orderCache o f).Alike fs fs' fails fun found t t' => Twins o input content t t' ∧
      (found = some (o.cache, input) ∨ found = none ∧ cachesOrders o = false) := by
  rw [orderCache, hsource]
  simp only
  split
  · exact .bind_of_ok h.storage.run_inDirectory h.storage'.run_inDirectory (.pure ⟨h, .inl rfl⟩)
  · next hoff => exact .pure ⟨h, .inr ⟨rfl, by simpa using hoff⟩⟩

theorem chooseOrder_alike (hsource : f.source = some input) (h : Twins o input content fs fs') :
    (chooseOrder o conditions f).Alike fs fs' (Crowded o input content f)
      (Chosen o input content f) := by
  refine (orderCache_alike hsource h).bind ?_
  rintro found t t' ⟨h, rfl | ⟨rfl, hoff⟩⟩
  · exact keptOrder_alike h
  · have hstart : ∀ order ∈ (none : Option VariableOrder), order.length = f.varCount := by simp
    refine (findOrder_alike hstart h).mono (fun _ _ => id) fun order u u' ⟨h, hlength⟩ => ?_
    exact ⟨h, hlength, fun _ hon => absurd (hon.symm.trans hoff) (by simp)⟩

/-- An order is found and the clauses are sorted for it, unless there is no space. -/
theorem orderFor_alike (conditions : Conditions) (hsource : f.source = some input)
    (h : Twins o input content fs fs') :
    (orderFor o conditions f).Alike fs fs' (Crowded o input content f) fun found t t' =>
      Chosen o input content f found.1 t t' ∧
        ∃ f', sorted o f found.1 = .ok f' ∧ found.2 = ordered o conditions f' := by
  refine (chooseOrder_alike hsource h).bind fun order t t' h => ?_
  have hsorted : (Action.ofExcept (sorted o f order)).Alike t t' (Crowded o input content f)
      fun f' u u' => Chosen o input content f order u u' ∧ sorted o f order = .ok f' := by
    cases hsorted : sorted o f order with
    | ok f' => exact .ok rfl rfl ⟨h, rfl⟩
    | error failure =>
      refine .error rfl rfl ⟨fun hspace => ?_, h.twins⟩
      obtain ⟨f', hok⟩ := hspace.exists_sorted order
      exact absurd (hok.symm.trans hsorted) (by simp)
  exact hsorted.bind fun f' u u' ⟨h, hsorted⟩ => .pure ⟨h, f', hsorted, rfl⟩

end Orders

theorem Twins.storeDump {g : Formula} (hsource : g.source = some input)
    (h : Twins o input content fs fs') (d : Dump) :
    (Run.storeDump o g d).Alike fs fs' fails fun _ t t' => t' = t := by
  refine .bind_of_ok h.storage.run_inDirectory h.storage'.run_inDirectory ?_
  rw [hsource]
  refine .bind_of_ok h.storage.run_digestOf h.storage'.run_digestOf ?_
  exact (h.replace mem_diagramPath mem_besideDiagramPath _).bind fun _ v v' ⟨_, _, hsame⟩ =>
    .pure (hsame rfl)

end Run
end DiagramCompiler
