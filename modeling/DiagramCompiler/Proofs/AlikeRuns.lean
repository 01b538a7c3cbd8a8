import DiagramCompiler.Proofs.RunOutcomes
import DiagramCompiler.Proofs.WrittenFiles

/-! Runs from two states.
Two file systems that differ in what is at one place are told apart only by what is read there.
Every other action answers the same from both and leaves them with that difference, until a file is
put at the place; then they are the same. -/
namespace DiagramCompiler

namespace Action

variable {σ α β : Type} {a : Action σ α} {s s' : σ}

/-- Whether an action answers the same from two states. A relation holds of the states after it if
it fails, and another one of the value and the states if it does not. -/
inductive Alike (a : Action σ α) (s s' : σ) (fails : σ → σ → Prop) (gives : α → σ → σ → Prop) :
    Prop
  | ok {value : α} {t t' : σ} (hrun : a.run s = (.ok value, t))
      (hrun' : a.run s' = (.ok value, t')) (h : gives value t t') : Alike a s s' fails gives
  | error {failure : Failure} {t t' : σ} (hrun : a.run s = (.error failure, t))
      (hrun' : a.run s' = (.error failure, t')) (h : fails t t') : Alike a s s' fails gives

namespace Alike

variable {fails fails' : σ → σ → Prop} {gives gives' : α → σ → σ → Prop}

theorem mono (h : a.Alike s s' fails gives) (hfails : ∀ t t', fails t t' → fails' t t')
    (hgives : ∀ value t t', gives value t t' → gives' value t t') : a.Alike s s' fails' gives' := by
  cases h with
  | ok hrun hrun' h => exact .ok hrun hrun' (hgives _ _ _ h)
  | error hrun hrun' h => exact .error hrun hrun' (hfails _ _ h)

theorem bind_of_ok {next : α → Action σ β} {ends : β → σ → σ → Prop} {value : α} {t t' : σ}
    (hrun : a.run s = (.ok value, t)) (hrun' : a.run s' = (.ok value, t'))
    (h : (next value).Alike t t' fails ends) : (a >>= next).Alike s s' fails ends := by
  have hfirst := run_bind_of_ok hrun next
  have hfirst' := run_bind_of_ok hrun' next
  cases h with
  | ok hnext hnext' h => exact .ok (hfirst.trans hnext) (hfirst'.trans hnext') h
  | error hnext hnext' h => exact .error (hfirst.trans hnext) (hfirst'.trans hnext') h

theorem bind {next : α → Action σ β} {ends : β → σ → σ → Prop} (h : a.Alike s s' fails gives)
    (hnext : ∀ value t t', gives value t t' → (next value).Alike t t' fails ends) :
    (a >>= next).Alike s s' fails ends := by
  cases h with
  | ok hrun hrun' h => exact .bind_of_ok hrun hrun' (hnext _ _ _ h)
  | error hrun hrun' h =>
    exact .error (run_bind_of_error hrun next) (run_bind_of_error hrun' next) h

theorem pure {value : α} (h : gives value s s') :
    (Pure.pure value : Action σ α).Alike s s' fails gives := .ok rfl rfl h

theorem reading {read : σ → α} (hread : read s' = read s) (h : gives (read s) s s') :
    (Action.reading read).Alike s s' fails gives :=
  .ok rfl (by rw [run_reading, hread]) h

theorem ensuring {after : σ → σ} (h : a.Alike s s' (fun t t' => fails (after t) (after t'))
    fun value t t' => gives value (after t) (after t')) :
    (a.ensuring after).Alike s s' fails gives := by
  cases h with
  | ok hrun hrun' h =>
    exact .ok (by rw [run_ensuring, hrun]) (by rw [run_ensuring, hrun']) h
  | error hrun hrun' h =>
    exact .error (by rw [run_ensuring, hrun]) (by rw [run_ensuring, hrun']) h

/-- An action that does not fail from one state, as from two that are the same. -/
theorem exists_ok (h : a.Alike s s (fun _ _ => False) gives) :
    ∃ value t, a.run s = (.ok value, t) ∧ gives value t t := by
  cases h with
  | ok hrun hrun' h =>
    obtain ⟨-, rfl⟩ := Prod.mk.inj (hrun.symm.trans hrun')
    exact ⟨_, _, hrun, h⟩
  | error _ _ h => exact h.elim

end Alike

end Action

/-! ### Worlds -/

/-- Whether a relation holds of the files of two worlds that have the same engine. -/
structure World.Both {σ : Type} (related : FileSystem → FileSystem → Prop) (w w' : World σ) :
    Prop where
  files : related w.files w'.files
  engine : w'.engine = w.engine

namespace World.Both

variable {σ : Type} {related : FileSystem → FileSystem → Prop} {w w' : World σ}

theorem mapEngine (h : World.Both related w w') (after : σ → σ) :
    World.Both related (w.mapEngine after) (w'.mapEngine after) :=
  ⟨h.files, congrArg after h.engine⟩

end World.Both

namespace Action.Alike

variable {σ α : Type} {w w' : World σ} {fails : FileSystem → FileSystem → Prop}
  {gives : α → FileSystem → FileSystem → Prop}

theorem onFiles {a : Action FileSystem α} (h : a.Alike w.files w'.files fails gives)
    (hengine : w'.engine = w.engine) :
    (World.onFiles a).Alike w w' (World.Both fails) fun value => World.Both (gives value) := by
  cases h with
  | ok hrun hrun' h =>
    exact .ok (World.run_onFiles hrun) (World.run_onFiles hrun') ⟨h, hengine⟩
  | error hrun hrun' h =>
    exact .error (World.run_onFiles hrun) (World.run_onFiles hrun') ⟨h, hengine⟩

theorem onEngine (a : Action σ α) {related : FileSystem → FileSystem → Prop}
    {fails : World σ → World σ → Prop} (h : World.Both related w w')
    (hfails : ∀ v v', World.Both related v v' → fails v v') :
    (World.onEngine a).Alike w w' fails fun value v v' =>
      World.Both related v v' ∧ a.run w.engine = (.ok value, v.engine) := by
  obtain ⟨hfiles, hengine⟩ := h
  cases ha : a.run w.engine with
  | mk answer engine =>
    have ha' : a.run w'.engine = (answer, engine) := hengine ▸ ha
    cases answer with
    | ok value => exact .ok (World.run_onEngine ha) (World.run_onEngine ha') ⟨⟨hfiles, rfl⟩, rfl⟩
    | error failure =>
      exact .error (World.run_onEngine ha) (World.run_onEngine ha') (hfails _ _ ⟨hfiles, rfl⟩)

end Action.Alike

/-! ### Files that differ at a place -/

namespace FileSystem

def without (fs : FileSystem) (place : Location) : FileSystem :=
  { fs with entries := fs.entries.erase place }

/-- Whether two file systems are the same but for what is at a place where neither has a
directory. -/
structure AgreesBeyond (place : Location) (fs fs' : FileSystem) : Prop where
  get? {other : Location} (hother : place ≠ other) : fs'.entries.get? other = fs.entries.get? other
  notDirectory : fs.find? place ≠ some .directory
  notDirectory' : fs'.find? place ≠ some .directory
  locks : fs'.locks = fs.locks
  tickets : fs'.tickets = fs.tickets
  working : fs'.working = fs.working
  device : fs'.device = fs.device
  process : fs'.process = fs.process

variable {fs fs' : FileSystem} {place other : Location} {content : Bytes}

theorem find?_put_file_ne (h : fs.find? place ≠ some .directory) (other : Location)
    (content : Bytes) : (fs.put other (.file content)).find? place ≠ some .directory := by
  have hne : place ≠ [] := ne_nil_of_find?_ne h
  rw [find?, if_neg hne] at h ⊢
  rw [put, Dictionary.get?_insert]
  split
  · simp
  · exact h

theorem find?_vacate_ne (h : fs.find? place ≠ some .directory) (other : Location) :
    (fs.vacate other).find? place ≠ some .directory := by
  have hne : place ≠ [] := ne_nil_of_find?_ne h
  rw [find?, if_neg hne] at h ⊢
  rw [vacate, Dictionary.get?_erase]
  split
  · simp
  · exact h

theorem AgreesBeyond.refl (h : fs.find? place ≠ some .directory) : AgreesBeyond place fs fs :=
  ⟨fun _ => rfl, h, h, rfl, rfl, rfl, rfl, rfl⟩

namespace AgreesBeyond

variable (h : AgreesBeyond place fs fs')

include h

theorem find? (hother : place ≠ other) : fs'.find? other = fs.find? other := by
  rw [FileSystem.find?, FileSystem.find?, h.get? hother]

theorem sameDirectories : fs.SameDirectories fs' := by
  refine ⟨h.working, fun other => ?_⟩
  by_cases hother : place = other
  · subst hother
    exact iff_of_false h.notDirectory' h.notDirectory
  · rw [h.find? hother]

theorem read {p : Path} (hplace : fs.locate p = .ok other) (hother : place ≠ other) :
    fs'.read p = fs.read p := h.sameDirectories.read_eq hplace (h.find? hother)

theorem put (other : Location) (content : Bytes) :
    AgreesBeyond place (fs.put other (.file content)) (fs'.put other (.file content)) where
  get? hne := by rw [FileSystem.put, FileSystem.put, Dictionary.get?_insert,
    Dictionary.get?_insert, h.get? hne]
  notDirectory := find?_put_file_ne h.notDirectory other content
  notDirectory' := find?_put_file_ne h.notDirectory' other content
  locks := h.locks
  tickets := h.tickets
  working := h.working
  device := h.device
  process := h.process

theorem vacate (other : Location) : AgreesBeyond place (fs.vacate other) (fs'.vacate other) where
  get? hne := by rw [FileSystem.vacate, FileSystem.vacate, Dictionary.get?_erase,
    Dictionary.get?_erase, h.get? hne]
  notDirectory := find?_vacate_ne h.notDirectory other
  notDirectory' := find?_vacate_ne h.notDirectory' other
  locks := by simp only [FileSystem.vacate, h.locks]
  tickets := h.tickets
  working := h.working
  device := h.device
  process := h.process

theorem unlock (ticket : Ticket) : AgreesBeyond place (fs.unlock ticket) (fs'.unlock ticket) where
  get? hne := h.get? hne
  notDirectory := h.notDirectory
  notDirectory' := h.notDirectory'
  locks := by simp only [FileSystem.unlock, h.locks]
  tickets := h.tickets
  working := h.working
  device := h.device
  process := h.process

theorem fill (other : Location) (content : Bytes) :
    AgreesBeyond place (fs.fill other content).2 (fs'.fill other content).2 := by
  rw [FileSystem.fill, FileSystem.fill, h.device]
  split
  · exact h.put other _
  · exact h
  · exact h.put other _

theorem hold (other : Location) : AgreesBeyond place (fs.hold other) (fs'.hold other) where
  get? hne := h.get? hne
  notDirectory := h.notDirectory
  notDirectory' := h.notDirectory'
  locks := by simp only [FileSystem.hold, h.locks, h.tickets]
  tickets := by simp only [FileSystem.hold, h.tickets]
  working := h.working
  device := h.device
  process := h.process

theorem locked (other : Location) : AgreesBeyond place (fs.locked other) (fs'.locked other) := by
  rw [FileSystem.locked, FileSystem.locked, h.process]
  exact (h.fill other _).hold other

theorem put_eq (content : Bytes) :
    fs'.put place (.file content) = fs.put place (.file content) := by
  obtain ⟨entries, locks, tickets, working, device, process⟩ := fs
  obtain ⟨entries', locks', tickets', working', device', process'⟩ := fs'
  obtain ⟨hget, -, -, rfl, rfl, rfl, rfl, rfl⟩ := h
  have hentries : entries'.insert place (.file content) = entries.insert place (.file content) := by
    refine Dictionary.ext_get? fun key => ?_
    rw [Dictionary.get?_insert, Dictionary.get?_insert]
    split
    · rfl
    · next hne => exact hget hne
  rw [FileSystem.put, FileSystem.put]
  simp only [hentries]

theorem replaced (beside other : Location) (content : Bytes) :
    AgreesBeyond place (fs.replaced beside other content) (fs'.replaced beside other content) :=
  ((h.put beside content).vacate beside).put other content

theorem replaced_eq (beside : Location) (content : Bytes) :
    fs'.replaced beside place content = fs.replaced beside place content :=
  ((h.put beside content).vacate beside).put_eq content

end AgreesBeyond

end FileSystem
end DiagramCompiler
