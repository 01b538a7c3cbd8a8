import Mathlib.Data.Set.Defs
import DiagramCompiler.Proofs.Actions
import DiagramCompiler.Proofs.FileTrees

/-! Files that were written.
Writing files, moving them and locking them leaves the directories as they are, so that paths lead
where they led before. What was written to a path is read there until something else is put at its
place; directories that are made never take the place of anything. Paths with different endings lead
to different places. -/
namespace DiagramCompiler
namespace FileSystem

variable {fs fs' : FileSystem} {p q : Path} {place here there : Location} {content : Bytes}

/-! ### The same directories -/

/-- Whether two file systems have the same directories and start paths at the same place. -/
structure SameDirectories (fs fs' : FileSystem) : Prop where
  working : fs'.working = fs.working
  find? (place : Location) : fs'.find? place = some .directory ↔ fs.find? place = some .directory

namespace SameDirectories

theorem trans {fs'' : FileSystem} (h : fs.SameDirectories fs') (h' : fs'.SameDirectories fs'') :
    fs.SameDirectories fs'' :=
  ⟨h'.working.trans h.working, fun place => (h'.find? place).trans (h.find? place)⟩

theorem locate (h : fs.SameDirectories fs') (hplace : fs.locate p = .ok place) :
    fs'.locate p = .ok place := locate_mono h.working (fun place => (h.find? place).2) hplace

theorem target (h : fs.SameDirectories fs') (hplace : fs.target p = .ok place) :
    fs'.target p = .ok place := by
  obtain ⟨hlocate, hslash, hnot⟩ := locate_of_target hplace
  have hnot' : ¬ fs'.find? place = some .directory := fun hdirectory =>
    hnot ((h.find? place).1 hdirectory)
  rw [FileSystem.target, h.locate hlocate]
  simp [hslash, hnot']

theorem read_eq (h : fs.SameDirectories fs') (hplace : fs.locate p = .ok place)
    (hsame : fs'.find? place = fs.find? place) : fs'.read p = fs.read p := by
  rw [FileSystem.read, FileSystem.read, hplace, h.locate hplace]
  simp only [hsame]

theorem read (h : fs.SameDirectories fs')
    (hsame : fs'.find? (fs.placeOf p) = fs.find? (fs.placeOf p)) (hread : fs.read p = .ok content) :
    fs'.read p = .ok content :=
  read_mono h.working (fun place => (h.find? place).2) hsame hread

end SameDirectories

theorem sameDirectories_put (hnot : fs.find? place ≠ some .directory) (content : Bytes) :
    fs.SameDirectories (fs.put place (.file content)) := by
  refine ⟨rfl, fun other => ?_⟩
  rw [find?_put (ne_nil_of_find?_ne hnot)]
  split
  · next heq => simp [← heq, hnot]
  · exact Iff.rfl

theorem sameDirectories_vacate (hnot : fs.find? place ≠ some .directory) :
    fs.SameDirectories (fs.vacate place) := by
  refine ⟨rfl, fun other => ?_⟩
  rw [find?_vacate (ne_nil_of_find?_ne hnot)]
  split
  · next heq => simp [← heq, hnot]
  · exact Iff.rfl

/-! ### Writing and moving -/

theorem read_put_target (hplace : fs.target p = .ok place) (content : Bytes) :
    (fs.put place (.file content)).read p = .ok content := by
  obtain ⟨hlocate, hslash, hnot⟩ := locate_of_target hplace
  refine read_of_locate ((sameDirectories_put hnot content).locate hlocate) ?_ hslash
  rw [find?_put (ne_nil_of_find?_ne hnot), if_pos rfl]

theorem read_of_write (h : (FileSystem.write p content).run fs = (.ok (), fs')) :
    fs'.read p = .ok content := by
  obtain ⟨place, hplace, rfl⟩ := eq_put_of_write h
  exact read_put_target hplace content

theorem read_of_move {source : Path} (hsource : fs.read source = .ok content)
    (h : (FileSystem.move source p).run fs = (.ok (), fs')) : fs'.read p = .ok content := by
  rw [Action.run, FileSystem.move] at h
  split at h
  · next hread hhere hthere =>
    obtain rfl := congrArg Prod.snd h
    obtain rfl := Except.ok.inj (hread.symm.trans hsource)
    have hfile := find?_of_read hread hhere
    have hvacated := sameDirectories_vacate (by rw [hfile]; simp)
    exact read_put_target (hvacated.target hthere) _
  · exact absurd (congrArg Prod.fst h) (by simp)
  · exact absurd (congrArg Prod.fst h) (by simp)
  · exact absurd (congrArg Prod.fst h) (by simp)

theorem read_of_replace (h : (FileSystem.replace p content).run fs = (.ok (), fs')) :
    fs'.read p = .ok content := by
  obtain ⟨_, between, hwrite, hmove⟩ := Action.exists_of_run_bind h
  exact read_of_move (read_of_write hwrite) hmove

/-- A file system after a file at `place` was replaced by way of a file beside it. -/
def replaced (fs : FileSystem) (beside place : Location) (content : Bytes) : FileSystem :=
  ((fs.put beside (.file content)).vacate beside).put place (.file content)

theorem sameDirectories_replaced {beside : Location} (hbeside : fs.find? beside ≠ some .directory)
    (hplace : fs.find? place ≠ some .directory) (content : Bytes) :
    fs.SameDirectories (fs.replaced beside place content) := by
  have hput := sameDirectories_put hbeside content
  have hvacate := hput.trans (sameDirectories_vacate fun h => hbeside ((hput.find? beside).1 h))
  exact hvacate.trans (sameDirectories_put (fun h => hplace ((hvacate.find? place).1 h)) content)

theorem find?_replaced_of_ne {beside other : Location}
    (hbeside : fs.find? beside ≠ some .directory) (hplace : fs.find? place ≠ some .directory)
    (hne : beside ≠ other) (hne' : place ≠ other) (content : Bytes) :
    (fs.replaced beside place content).find? other = fs.find? other := by
  rw [replaced, find?_put (ne_nil_of_find?_ne hplace), if_neg hne',
    find?_vacate (ne_nil_of_find?_ne hbeside), if_neg hne,
    find?_put (ne_nil_of_find?_ne hbeside), if_neg hne]

theorem run_replace {beside : Location} (hbeside : fs.target (p.withExtension "tmp") = .ok beside)
    (hplace : fs.target p = .ok place) (hdevice : fs.device beside content = none) :
    (FileSystem.replace p content).run fs = (.ok (), fs.replaced beside place content) := by
  obtain ⟨hlocate, hslash, hnot⟩ := locate_of_target hbeside
  have hput := sameDirectories_put hnot content
  have hfile : (fs.put beside (.file content)).find? beside = some (.file content) := by
    rw [find?_put (ne_nil_of_find?_ne hnot), if_pos rfl]
  refine (Action.run_bind_of_ok (run_write hbeside hdevice) _).trans ?_
  exact run_move (hput.locate hlocate) hfile hslash (hput.target hplace)

def locked (fs : FileSystem) (place : Location) : FileSystem :=
  (fs.fill place (ownerLine fs.process)).2.hold place

theorem fill_ne_unopened (h : ∀ fault, fs.device place content ≠ some (.unopened fault))
    (fault : FileFault) : (fs.fill place content).1 ≠ some (.unopened fault) := by
  rw [fill]
  split
  · simp
  · next hdevice => exact absurd hdevice (h _)
  · simp

theorem run_lock (hplace : fs.target p = .ok place)
    (hopened : ∀ fault, fs.device place (ownerLine fs.process) ≠ some (.unopened fault))
    (hfree : fs.isLocked place = false) :
    (FileSystem.lock p).run fs = (.ok fs.tickets, fs.locked place) := by
  have hstop (fault : FileFault) :
      (fs.fill place (ownerLine fs.process)).1 ≠ some (.unopened fault) :=
    fill_ne_unopened hopened fault
  rw [Action.run, FileSystem.lock, hplace]
  simp only [hfree, Bool.false_eq_true, if_false]
  rfl

theorem find?_locked_of_ne {other : Location} (hnot : fs.find? place ≠ some .directory)
    (hne : place ≠ other) : (fs.locked place).find? other = fs.find? other := by
  rcases fs.fill_cases place (ownerLine fs.process) with ⟨fault, hsame⟩ | ⟨kept, -, hput⟩
  · rw [locked, hsame]
    rfl
  · rw [locked, hput]
    exact (find?_put (ne_nil_of_find?_ne hnot) other).trans (if_neg hne)

theorem sameDirectories_locked (hnot : fs.find? place ≠ some .directory) :
    fs.SameDirectories (fs.locked place) := by
  rcases fs.fill_cases place (ownerLine fs.process) with ⟨fault, hsame⟩ | ⟨kept, -, hput⟩
  · rw [locked, hsame]
    exact ⟨rfl, fun _ => Iff.rfl⟩
  · rw [locked, hput]
    exact ⟨rfl, (sameDirectories_put hnot kept).find?⟩

def IsReliable (fs : FileSystem) : Prop := ∀ place content, fs.device place content = none

theorem IsReliable.locked_eq (h : fs.IsReliable) (place : Location) :
    fs.locked place = (fs.put place (.file (ownerLine fs.process))).hold place := by
  rw [locked, fill_of_device (h place _)]

theorem IsReliable.run_lock (h : fs.IsReliable) (hplace : fs.target p = .ok place)
    (hfree : fs.isLocked place = false) :
    (FileSystem.lock p).run fs = (.ok fs.tickets, fs.locked place) :=
  FileSystem.run_lock hplace (fun fault heq => absurd ((h place _).symm.trans heq) (by simp)) hfree

theorem read_lock (hne : fs.placeOf q ≠ fs.placeOf p) (hread : fs.read p = .ok content) :
    ((FileSystem.lock q).run fs).2.read p = .ok content := by
  rw [Action.run, FileSystem.lock]
  cases hplace : fs.target q with
  | error fault => exact hread
  | ok place =>
    simp only
    split
    · exact hread
    · split
      · exact hread
      · obtain ⟨hlocate, -, hnot⟩ := locate_of_target hplace
        have hother : place ≠ fs.placeOf p := eq_placeOf_of_locate hlocate ▸ hne
        exact (sameDirectories_locked hnot).read (find?_locked_of_ne hnot hother) hread

/-! ### Making directories -/

/-- Whether nothing was changed but where there was nothing. -/
structure Extends (fs fs' : FileSystem) : Prop where
  working : fs'.working = fs.working
  find? {place : Location} {entry : Entry} (h : fs.find? place = some entry) :
    fs'.find? place = some entry

namespace Extends

theorem refl (fs : FileSystem) : fs.Extends fs := ⟨rfl, id⟩

theorem trans {fs'' : FileSystem} (h : fs.Extends fs') (h' : fs'.Extends fs'') :
    fs.Extends fs'' := ⟨h'.working.trans h.working, fun hplace => h'.find? (h.find? hplace)⟩

theorem read (h : fs.Extends fs') (hread : fs.read p = .ok content) : fs'.read p = .ok content := by
  obtain ⟨place, hplace, hfile⟩ := exists_of_read hread
  refine read_mono h.working (fun _ => h.find?) ?_ hread
  rw [← eq_placeOf_of_locate hplace, h.find? hfile, hfile]

end Extends

theorem extends_makeDirectory (here : Location) (steps : List String) (fs : FileSystem) :
    fs.Extends (FileSystem.makeDirectory here steps fs).2 := by
  rw [FileSystem.makeDirectory]
  split
  · exact .refl fs
  · next place _ =>
    split
    · exact .refl fs
    · exact .refl fs
    · next hnone =>
      refine ⟨rfl, fun {other entry} hother => ?_⟩
      rw [find?_put (ne_nil_of_find?_ne (by rw [hnone]; simp)), if_neg, hother]
      rintro rfl
      exact absurd (hnone.symm.trans hother) (by simp)

theorem extends_makeAfter {above : FileSystem → Except FileFault Unit × FileSystem}
    (habove : ∀ fs : FileSystem, fs.Extends (above fs).2) (here : Location) (steps : List String)
    (fs : FileSystem) : fs.Extends (FileSystem.makeAfter above here steps fs).2 := by
  have hfirst := extends_makeDirectory here steps fs
  rw [FileSystem.makeAfter]
  split
  · next fs₁ hmake =>
    rw [hmake] at hfirst
    have hsecond := hfirst.trans (habove fs₁)
    split
    · next fs₂ hmore =>
      rw [hmore] at hsecond
      exact hsecond.trans (extends_makeDirectory here steps fs₂)
    · next fs₂ hmore =>
      rw [hmore] at hsecond
      exact hsecond
  · next hmake =>
    rw [hmake] at hfirst
    exact hfirst

theorem extends_makeUpwards (here : Location) (parts : List String) (fs : FileSystem) :
    fs.Extends (FileSystem.makeUpwards here parts fs).2 := by
  induction parts generalizing fs with
  | nil => exact .refl fs
  | cons part parts ih => exact extends_makeAfter ih here _ fs

theorem extends_makeDirectories (q : Path) (fs : FileSystem) :
    fs.Extends ((FileSystem.makeDirectories q).run fs).2 := by
  rw [Action.run, FileSystem.makeDirectories]
  split
  · exact extends_makeAfter (extends_makeUpwards _ _) _ _ fs
  · exact .refl fs

end FileSystem

/-! ### Endings of names -/

namespace Path

def HasEnding (p : Path) (ending : String) : Prop :=
  ∃ before stem, p.pieces = before ++ [stem ++ ending]

variable {p : Path} {ending : String}

theorem hasEnding_of_text {front : String} (htext : p.text = front ++ ending)
    (hslash : '/' ∉ ending.toList) : p.HasEnding ending := by
  obtain ⟨before, last, hpieces⟩ := Text.exists_splitAll_append front.toList hslash
  refine ⟨before.map String.ofList, String.ofList last, ?_⟩
  rw [pieces, htext, String.toList_append, hpieces]
  simp

theorem hasEnding_join (directory : Path) (front : String) (hslash : '/' ∉ ending.toList) :
    (directory.join (front ++ ending)).HasEnding ending := by
  rw [join]
  split
  · exact hasEnding_of_text rfl hslash
  · split
    · have htext : directory.text ++ (front ++ ending) = directory.text ++ front ++ ending := by
        rw [String.append_assoc]
      exact hasEnding_of_text htext hslash
    · have htext : directory.text ++ "/" ++ (front ++ ending) =
          directory.text ++ "/" ++ front ++ ending := by
        simp only [String.append_assoc]
      exact hasEnding_of_text htext hslash

theorem isName_append (stem : String) {c : Char} (hc : c ∈ ending.toList) (hdot : c ≠ '.') :
    stem ++ ending ≠ "" ∧ isName (stem ++ ending) = true := by
  have hmem : c ∈ (stem ++ ending).toList := by simp [hc]
  refine ⟨fun heq => ?_, isName_of_mem hmem hdot⟩
  exact absurd hmem (by simp [heq])

theorem fileName_of_hasEnding (h : p.HasEnding ending) {c : Char} (hc : c ∈ ending.toList)
    (hdot : c ≠ '.') : ∃ name, p.fileName = some name := by
  obtain ⟨before, stem, hpieces⟩ := h
  obtain ⟨hne, hname⟩ := isName_append stem hc hdot
  exact ⟨_, fileName_of_pieces hpieces hne hname⟩

end Path

namespace FileSystem

variable {p : Path} {place : Location}

def placesEnding (ending : String) : Set Location :=
  {place | ∃ above stem, place = above ++ [stem ++ ending]}

/-- Endings with different last characters are not those of one name. -/
theorem not_mem_placesEnding {ending other : String} {c d : Char}
    (hc : ending.toList.getLast? = some c) (hd : other.toList.getLast? = some d) (hne : c ≠ d)
    (h : place ∈ placesEnding ending) : place ∉ placesEnding other := by
  rintro ⟨above', stem', hplace'⟩
  obtain ⟨above, stem, hplace⟩ := h
  have hname : stem ++ ending = stem' ++ other := by
    simpa using (List.append_inj' (hplace.symm.trans hplace') rfl).2
  have hlast := congrArg (fun name : String => name.toList.getLast?) hname
  simp only [String.toList_append, List.getLast?_append, hc, hd, Option.some_or] at hlast
  exact hne (Option.some.inj hlast)

theorem placeOf_mem_placesEnding {ending : String} {c : Char} (h : p.HasEnding ending)
    (hc : c ∈ ending.toList) (hdot : c ≠ '.') (fs : FileSystem) :
    fs.placeOf p ∈ placesEnding ending := by
  obtain ⟨before, stem, hpieces⟩ := h
  obtain ⟨hne, hname⟩ := Path.isName_append stem hc hdot
  refine ⟨follow (fs.origin p) (before.filter (· ≠ "")), stem, ?_⟩
  have hsteps : p.steps = before.filter (· ≠ "") ++ [stem ++ ending] := by
    rw [Path.steps, hpieces, List.filter_append]
    simp [hne]
  rw [placeOf, hsteps, follow_append, follow_name _ hname]

end FileSystem
end DiagramCompiler
