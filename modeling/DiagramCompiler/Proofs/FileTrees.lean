import DiagramCompiler.Files.FileSystem
import DiagramCompiler.Proofs.Dictionaries
import DiagramCompiler.Proofs.PathSteps

/-! Trees of files.
In a tree every file and every directory lies in a directory. The actions on files keep trees, and
each of them changes what is at a place or two and nothing else. Where a path leads, if it leads
anywhere, is decided by its text and by the working directory alone. -/
namespace DiagramCompiler
namespace FileSystem

variable {fs : FileSystem} {p : Path} {here place : Location}

/-! ### Places of paths -/

/-- The place that some steps lead to from a directory unless something is missing on the way. -/
def follow (here : Location) : List String → Location
  | [] => here
  | step :: steps =>
    if step = "." then follow here steps
    else if step = ".." then follow here.dropLast steps
    else follow (here ++ [step]) steps

def placeOf (fs : FileSystem) (p : Path) : Location := follow (fs.origin p) p.steps

theorem follow_append (here : Location) (front back : List String) :
    follow here (front ++ back) = follow (follow here front) back := by
  induction front generalizing here with
  | nil => rfl
  | cons step front ih =>
    simp only [List.cons_append, follow]
    split
    · exact ih _
    · split <;> exact ih _

theorem follow_name (here : Location) {name : String} (h : Path.isName name = true) :
    follow here [name] = here ++ [name] := by
  obtain ⟨hdot, hdots⟩ : name ≠ "." ∧ name ≠ ".." := by simpa [Path.isName] using h
  simp [follow, hdot, hdots]

theorem eq_of_child_eq_ok {name : String} (h : child here name = .ok place) :
    place = here ++ [name] := by
  rw [child] at h
  split at h
  · exact absurd h (by simp)
  · exact (Except.ok.inj h).symm

theorem eq_follow_of_descend {steps : List String} (h : fs.descend here steps = .ok place) :
    place = follow here steps := by
  induction steps generalizing here with
  | nil => exact (Except.ok.inj h).symm
  | cons step steps ih =>
    rw [descend] at h
    rw [follow]
    split at h
    · next hdot => rw [if_pos hdot, ih h]
    · next hdot =>
      rw [if_neg hdot]
      split at h
      · next hdots => rw [if_pos hdots, ih h]
      · next hdots =>
        rw [if_neg hdots]
        split at h
        · exact absurd h (by simp)
        · next below hchild =>
          split at h
          · rw [← eq_of_child_eq_ok hchild, ih h]
          · exact absurd h (by simp)
          · exact absurd h (by simp)

theorem reach_cases {steps : List String} (h : fs.reach here steps = .ok place) :
    fs.descend here steps = .ok place ∨
      ∃ front name above, steps = front ++ [name] ∧ Path.isName name = true ∧
        fs.descend here front = .ok above ∧ place = above ++ [name] := by
  rw [reach] at h
  split at h
  · next name hlast =>
    obtain ⟨hlast, hname⟩ := Option.filter_eq_some_iff.1 hlast
    obtain ⟨front, rfl⟩ := List.getLast?_eq_some_iff.1 hlast
    rw [List.dropLast_concat] at h
    cases habove : fs.descend here front with
    | error fault =>
      rw [habove] at h
      exact absurd h (by simp [Except.bind])
    | ok above =>
      rw [habove] at h
      exact .inr ⟨front, name, above, rfl, hname, habove, eq_of_child_eq_ok h⟩
  · exact .inl h

theorem exists_of_descend_append {front back : List String}
    (h : fs.descend here (front ++ back) = .ok place) :
    ∃ between, fs.descend here front = .ok between ∧ fs.descend between back = .ok place := by
  induction front generalizing here with
  | nil => exact ⟨here, rfl, h⟩
  | cons step front ih =>
    rw [List.cons_append, descend] at h
    rw [descend]
    split at h
    · next hdot => simpa only [if_pos hdot] using ih h
    · next hdot =>
      simp only [if_neg hdot]
      split at h
      · next hdots => simpa only [if_pos hdots] using ih h
      · next hdots =>
        simp only [if_neg hdots]
        split at h
        · exact absurd h (by simp)
        · next below hchild =>
          split at h
          · next hbelow => simpa only [hbelow] using ih h
          · exact absurd h (by simp)
          · exact absurd h (by simp)

theorem reach_of_descend {steps : List String} (h : fs.descend here steps = .ok place) :
    fs.reach here steps = .ok place := by
  rw [reach]
  split
  · next name hlast =>
    obtain ⟨hlast, hname⟩ := Option.filter_eq_some_iff.1 hlast
    obtain ⟨front, rfl⟩ := List.getLast?_eq_some_iff.1 hlast
    obtain ⟨above, habove, hstep⟩ := exists_of_descend_append h
    obtain ⟨hdot, hdots⟩ : name ≠ "." ∧ name ≠ ".." := by simpa [Path.isName] using hname
    rw [List.dropLast_concat, habove, Except.bind]
    rw [descend, if_neg hdot, if_neg hdots] at hstep
    split at hstep
    · exact absurd hstep (by simp)
    · next below hchild =>
      split at hstep
      · exact hchild.trans hstep
      · exact absurd hstep (by simp)
      · exact absurd hstep (by simp)
  · exact h

theorem reach_of_locate (h : fs.locate p = .ok place) :
    fs.reach (fs.origin p) p.steps = .ok place := by
  rw [locate] at h
  split at h
  · exact absurd h (by simp)
  · exact h

theorem eq_follow_of_reach {steps : List String} (h : fs.reach here steps = .ok place) :
    place = follow here steps := by
  rcases reach_cases h with h | ⟨front, name, above, rfl, hname, hfront, rfl⟩
  · exact eq_follow_of_descend h
  · rw [follow_append, ← eq_follow_of_descend hfront, follow_name _ hname]

theorem eq_placeOf_of_locate (h : fs.locate p = .ok place) : place = fs.placeOf p :=
  eq_follow_of_reach (reach_of_locate h)

theorem placeOf_of_names {directory : Path} {name : String} (h : p.Names directory name) :
    fs.placeOf p = fs.placeOf directory ++ [name] := by
  have horigin : fs.origin p = fs.origin directory := by rw [origin, origin, h.isAbsolute]
  rw [placeOf, h.steps, horigin, follow_append, follow_name _ h.isName, placeOf]

theorem placeOf_congr {fs' : FileSystem} (h : fs'.working = fs.working) (p : Path) :
    fs'.placeOf p = fs.placeOf p := by
  rw [placeOf, placeOf, origin, origin, h]

/-! ### Reading -/

theorem descend_congr {fs' : FileSystem} (h : fs'.find? = fs.find?) (here : Location)
    (steps : List String) : fs'.descend here steps = fs.descend here steps := by
  induction steps generalizing here with
  | nil => rfl
  | cons step steps ih =>
    rw [descend, descend, h]
    simp only [ih]

/-- What can be read depends on the files and on the working directory alone. -/
theorem read_congr {fs' : FileSystem} (h : fs'.find? = fs.find?) (hworking : fs'.working = fs.working)
    (p : Path) : fs'.read p = fs.read p := by
  have hlocate : fs'.locate p = fs.locate p := by
    rw [locate, locate, reach, reach, origin, origin, hworking]
    simp only [descend_congr h]
  rw [read, read, hlocate, h]

theorem read_unlock (fs : FileSystem) (ticket : Ticket) (p : Path) :
    (fs.unlock ticket).read p = fs.read p := by
  have h : (fs.unlock ticket).find? = fs.find? := rfl
  exact read_congr h rfl p

/-! ### More directories -/

section More

variable {fs' : FileSystem}

/-- Where there are the same directories and more, the same steps can be taken. -/
theorem descend_mono (hmore : ∀ place, fs.find? place = some .directory →
    fs'.find? place = some .directory) {steps : List String}
    (h : fs.descend here steps = .ok place) : fs'.descend here steps = .ok place := by
  induction steps generalizing here with
  | nil => exact h
  | cons step steps ih =>
    rw [descend] at h ⊢
    split at h
    · next hdot => simpa only [if_pos hdot] using ih h
    · next hdot =>
      simp only [if_neg hdot]
      split at h
      · next hdots => simpa only [if_pos hdots] using ih h
      · next hdots =>
        simp only [if_neg hdots]
        split at h
        · exact absurd h (by simp)
        · next below hchild =>
          split at h
          · next hbelow => simpa only [hmore below hbelow] using ih h
          · exact absurd h (by simp)
          · exact absurd h (by simp)

theorem reach_mono (hmore : ∀ place, fs.find? place = some .directory →
    fs'.find? place = some .directory) {steps : List String}
    (h : fs.reach here steps = .ok place) : fs'.reach here steps = .ok place := by
  rw [reach] at h ⊢
  split at h
  · next name hlast =>
    cases habove : fs.descend here steps.dropLast with
    | error fault =>
      rw [habove] at h
      exact absurd h (by simp [Except.bind])
    | ok above =>
      rw [habove] at h
      simp only [descend_mono hmore habove]
      exact h
  · exact descend_mono hmore h

theorem locate_mono (hworking : fs'.working = fs.working)
    (hmore : ∀ place, fs.find? place = some .directory → fs'.find? place = some .directory)
    (h : fs.locate p = .ok place) : fs'.locate p = .ok place := by
  have horigin : fs'.origin p = fs.origin p := by rw [origin, origin, hworking]
  rw [locate] at h ⊢
  split at h
  · exact absurd h (by simp)
  · rw [horigin]
    exact reach_mono hmore h

end More

/-! ### Trees -/

structure IsTree (fs : FileSystem) : Prop where
  working : fs.find? fs.working = some .directory
  above {place : Location} {name : String} :
    (fs.find? (place ++ [name])).isSome → fs.find? place = some .directory

theorem find?_root (fs : FileSystem) : fs.find? [] = some .directory := rfl

theorem isTree_empty : FileSystem.empty.IsTree where
  working := rfl
  above {place name} h := by
    rw [find?, if_neg (by simp), empty, Dictionary.get?_insert] at h
    split at h
    · next hwork =>
      have happend : [] ++ ["work"] = place ++ [name] := hwork
      obtain ⟨rfl, -⟩ := List.append_inj' happend rfl
      rfl
    · exact absurd h (by simp)

theorem IsTree.find?_origin (ht : fs.IsTree) (p : Path) :
    fs.find? (fs.origin p) = some .directory := by
  rw [origin]
  split
  · rfl
  · exact ht.working

theorem IsTree.find?_of_descend (ht : fs.IsTree) {steps : List String}
    (hhere : fs.find? here = some .directory) (h : fs.descend here steps = .ok place) :
    fs.find? place = some .directory := by
  induction steps generalizing here with
  | nil =>
    obtain rfl := Except.ok.inj h
    exact hhere
  | cons step steps ih =>
    rw [descend] at h
    split at h
    · exact ih hhere h
    · split at h
      · -- the directory above a directory
        refine ih ?_ h
        rcases List.eq_nil_or_concat here with rfl | ⟨above, name, rfl⟩
        · exact hhere
        · rw [List.concat_eq_append] at hhere ⊢
          rw [List.dropLast_concat]
          exact ht.above (by rw [hhere]; rfl)
      · split at h
        · exact absurd h (by simp)
        · next below hchild =>
          split at h
          · next hbelow => exact ih hbelow h
          · exact absurd h (by simp)
          · exact absurd h (by simp)

theorem IsTree.find?_of_reach (ht : fs.IsTree) {steps : List String}
    (hhere : fs.find? here = some .directory) (h : fs.reach here steps = .ok place) :
    fs.find? place = some .directory ∨
      ∃ above name, place = above ++ [name] ∧ fs.find? above = some .directory := by
  rcases reach_cases h with hall | ⟨front, name, above, -, -, hfront, rfl⟩
  · exact .inl (ht.find?_of_descend hhere hall)
  · exact .inr ⟨above, name, rfl, ht.find?_of_descend hhere hfront⟩

theorem exists_of_read {content : Bytes} (h : fs.read p = .ok content) :
    ∃ place, fs.locate p = .ok place ∧ fs.find? place = some (.file content) := by
  rw [read] at h
  split at h
  · exact absurd h (by simp)
  · next place hplace =>
    split at h
    · exact absurd h (by simp)
    · exact absurd h (by simp)
    · next hfile =>
      split at h
      · exact absurd h (by simp)
      · exact ⟨place, hplace, by rw [hfile, Except.ok.inj h]⟩

theorem read_of_locate {content : Bytes} (hplace : fs.locate p = .ok place)
    (hfile : fs.find? place = some (.file content)) (hslash : p.endsInSlash = false) :
    fs.read p = .ok content := by
  rw [read, hplace]
  simp [hfile, hslash]

/-- A file that stays at its place below directories that stay can be read as before. -/
theorem read_mono {fs' : FileSystem} {content : Bytes} (hworking : fs'.working = fs.working)
    (hmore : ∀ place, fs.find? place = some .directory → fs'.find? place = some .directory)
    (hsame : fs'.find? (fs.placeOf p) = fs.find? (fs.placeOf p)) (h : fs.read p = .ok content) :
    fs'.read p = .ok content := by
  rw [read] at h ⊢
  split at h
  · exact absurd h (by simp)
  · next place hplace =>
    rw [← eq_placeOf_of_locate hplace] at hsame
    rw [locate_mono hworking hmore hplace]
    simpa only [hsame] using h

theorem find?_of_read {content : Bytes} (h : fs.read p = .ok content)
    (hplace : fs.locate p = .ok place) : fs.find? place = some (.file content) := by
  obtain ⟨place', hplace', hfile⟩ := exists_of_read h
  obtain rfl := Except.ok.inj (hplace.symm.trans hplace')
  exact hfile

/-- What can be read has a name, and its place ends with that. -/
theorem IsTree.exists_placeOf_eq (ht : fs.IsTree) {content : Bytes} (h : fs.read p = .ok content) :
    ∃ above name, p.fileName = some name ∧ fs.placeOf p = above ++ [name] := by
  obtain ⟨place, hplace, hfile⟩ := exists_of_read h
  rcases reach_cases (reach_of_locate hplace) with
    hdescend | ⟨front, name, above, hsteps, hname, -, heq⟩
  · rw [ht.find?_of_descend (ht.find?_origin p) hdescend] at hfile
    exact absurd hfile (by simp)
  · obtain ⟨hdot, hdots⟩ : name ≠ "." ∧ name ≠ ".." := by simpa [Path.isName] using hname
    have hparts : p.parts.getLast? = some name := by
      rw [Path.parts, hsteps]
      simp [hdot]
    exact ⟨above, name, by rw [Path.fileName, hparts]; simp [hdots],
      (eq_placeOf_of_locate hplace).symm.trans heq⟩

theorem IsTree.exists_fileName (ht : fs.IsTree) {content : Bytes} (h : fs.read p = .ok content) :
    ∃ name, p.fileName = some name :=
  have ⟨_, name, hname, _⟩ := ht.exists_placeOf_eq h
  ⟨name, hname⟩

/-! ### Changes at a place -/

theorem find?_put {entry : Entry} (hne : place ≠ []) (other : Location) :
    (fs.put place entry).find? other = if place = other then some entry else fs.find? other := by
  rw [find?, find?, put]
  by_cases hother : other = []
  · simp [hother, hne]
  · simp [hother]

theorem find?_vacate (hne : place ≠ []) (other : Location) :
    (fs.vacate place).find? other = if place = other then none else fs.find? other := by
  rw [find?, find?, vacate]
  by_cases hother : other = []
  · simp [hother, hne]
  · simp [hother]

theorem ne_nil_of_find?_ne (h : fs.find? place ≠ some .directory) : place ≠ [] := by
  rintro rfl
  exact h fs.find?_root

/-- What lies in a directory can be put there, but no file in the place of a directory. -/
theorem IsTree.put (ht : fs.IsTree) {above : Location} {name : String} {entry : Entry}
    (habove : fs.find? above = some .directory)
    (hentry : fs.find? (above ++ [name]) = some .directory → entry = .directory) :
    (fs.put (above ++ [name]) entry).IsTree := by
  have hput (other : Location) : (fs.put (above ++ [name]) entry).find? other =
      if above ++ [name] = other then some entry else fs.find? other := find?_put (by simp) other
  have hkept {place : Location} (h : fs.find? place = some .directory) :
      (fs.put (above ++ [name]) entry).find? place = some .directory := by
    rw [hput]
    split
    · next heq => rw [hentry (heq ▸ h)]
    · exact h
  refine ⟨hkept ht.working, fun {place other} h => ?_⟩
  rw [hput] at h
  split at h
  · next heq =>
    obtain ⟨rfl, -⟩ := List.append_inj' heq rfl
    exact hkept habove
  · exact hkept (ht.above h)

theorem IsTree.vacate (ht : fs.IsTree) {content : Bytes}
    (h : fs.find? place = some (.file content)) : (fs.vacate place).IsTree := by
  have hne : place ≠ [] := ne_nil_of_find?_ne (by rw [h]; simp)
  have hkept {other : Location} (hother : fs.find? other = some .directory) :
      (fs.vacate place).find? other = some .directory := by
    rw [find?_vacate hne, if_neg, hother]
    rintro rfl
    rw [h] at hother
    exact absurd hother (by simp)
  refine ⟨hkept ht.working, fun {above name} hbelow => hkept (@IsTree.above _ ht _ name ?_)⟩
  rw [find?_vacate hne] at hbelow
  split at hbelow
  · exact absurd hbelow (by simp)
  · exact hbelow

theorem locate_of_target (h : fs.target p = .ok place) :
    fs.locate p = .ok place ∧ p.endsInSlash = false ∧ fs.find? place ≠ some .directory := by
  rw [target] at h
  split at h
  · exact absurd h (by simp)
  · next hlocate =>
    split at h
    · exact absurd h (by simp)
    · next hfree =>
      obtain rfl := Except.ok.inj h
      obtain ⟨hslash, hnot⟩ := not_or.1 hfree
      exact ⟨hlocate, by simpa using hslash, hnot⟩

theorem IsTree.parent_of_target (ht : fs.IsTree) (h : fs.target p = .ok place) :
    fs.find? place ≠ some .directory ∧
      ∃ above name, place = above ++ [name] ∧ fs.find? above = some .directory := by
  obtain ⟨hlocate, -, hnot⟩ := locate_of_target h
  exact ⟨hnot, (ht.find?_of_reach (ht.find?_origin p) (reach_of_locate hlocate)).resolve_left hnot⟩

/-- Whether a file system is another one with some content at a place. -/
structure Stores (fs : FileSystem) (place : Location) (content : Bytes) (fs' : FileSystem) :
    Prop where
  tree : fs'.IsTree
  working : fs'.working = fs.working
  find? (other : Location) :
    fs'.find? other = if place = other then some (.file content) else fs.find? other

theorem Stores.find?_directory {content : Bytes} {fs' : FileSystem}
    (h : fs.Stores place content fs') (hfree : fs.find? place ≠ some .directory)
    {other : Location} (hother : fs.find? other = some .directory) :
    fs'.find? other = some .directory := by
  rw [h.find?, if_neg, hother]
  rintro rfl
  exact hfree hother

theorem IsTree.put_target (ht : fs.IsTree) (h : fs.target p = .ok place) (content : Bytes) :
    fs.Stores place content (fs.put place (.file content)) := by
  obtain ⟨hnot, above, name, rfl, habove⟩ := ht.parent_of_target h
  exact ⟨ht.put habove fun hdirectory => absurd hdirectory hnot, rfl,
    find?_put (ne_nil_of_find?_ne hnot)⟩

/-- A file that is opened has the content afterwards or the first part of it. -/
theorem fill_cases (fs : FileSystem) (place : Location) (content : Bytes) :
    (∃ fault, fs.fill place content = (some (.unopened fault), fs)) ∨
      ∃ kept, kept <+: content ∧ (fs.fill place content).2 = fs.put place (.file kept) := by
  rw [fill]
  split
  · exact .inr ⟨content, List.prefix_refl content, rfl⟩
  · next fault _ => exact .inl ⟨fault, rfl⟩
  · exact .inr ⟨_, List.take_prefix _ _, rfl⟩

theorem fill_of_device (hdevice : fs.device place content = none) :
    fs.fill place content = (none, fs.put place (.file content)) := by
  rw [fill, hdevice]

theorem run_write_eq (hplace : fs.target p = .ok place) (content : Bytes) :
    ((FileSystem.write p content).run fs).2 = (fs.fill place content).2 := by
  rw [Action.run, FileSystem.write, hplace]
  simp only
  split <;> rfl

/-- A path is written with its content or with the first part of it, unless nothing changes. -/
theorem IsTree.write (ht : fs.IsTree) (h : fs.target p = .ok place) (content : Bytes) :
    ((FileSystem.write p content).run fs).2 = fs ∨
      ∃ kept, kept <+: content ∧
        fs.Stores place kept ((FileSystem.write p content).run fs).2 := by
  rw [run_write_eq h]
  rcases fs.fill_cases place content with ⟨fault, hsame⟩ | ⟨kept, hkept, hput⟩
  · exact .inl (congrArg Prod.snd hsame)
  · exact .inr ⟨kept, hkept, hput ▸ ht.put_target h kept⟩

theorem eq_put_of_write {content : Bytes} {fs' : FileSystem}
    (h : (FileSystem.write p content).run fs = (.ok (), fs')) :
    ∃ place, fs.target p = .ok place ∧ fs' = fs.put place (.file content) := by
  rw [Action.run, FileSystem.write] at h
  split at h
  · exact absurd (congrArg Prod.fst h) (by simp)
  · next place hplace =>
    cases hdevice : fs.device place content with
    | none =>
      rw [fill_of_device hdevice] at h
      exact ⟨place, hplace, (congrArg Prod.snd h).symm⟩
    | some stop =>
      rw [fill, hdevice] at h
      cases stop <;> exact absurd (congrArg Prod.fst h) (by simp)

theorem IsTree.stores_of_write (ht : fs.IsTree) {content : Bytes} {fs' : FileSystem}
    (h : (FileSystem.write p content).run fs = (.ok (), fs')) :
    ∃ place, fs.target p = .ok place ∧ fs.Stores place content fs' := by
  obtain ⟨place, hplace, rfl⟩ := eq_put_of_write h
  exact ⟨place, hplace, ht.put_target hplace content⟩

theorem run_write (hplace : fs.target p = .ok place) {content : Bytes}
    (hdevice : fs.device place content = none) :
    (FileSystem.write p content).run fs = (.ok (), fs.put place (.file content)) := by
  rw [Action.run, FileSystem.write, hplace]
  simp only [fill_of_device hdevice]

theorem run_write_of_stop (hplace : fs.target p = .ok place) {content : Bytes} {stop : Stop}
    (hdevice : fs.device place content = some stop) :
    (FileSystem.write p content).run fs =
      (.error (.file p stop.fault), (fs.fill place content).2) := by
  have hstop : (fs.fill place content).1 = some stop := by
    rw [fill, hdevice]
    cases stop <;> rfl
  rw [Action.run, FileSystem.write, hplace]
  simp only [hstop]

theorem write_of_target_error {fault : FileFault} (h : fs.target p = .error fault)
    (content : Bytes) : ((FileSystem.write p content).run fs).2 = fs := by
  rw [Action.run, FileSystem.write, h]

/-- A path that is locked has the number of the process or the first part of it. -/
theorem IsTree.lock (ht : fs.IsTree) (p : Path) :
    ((FileSystem.lock p).run fs).2 = fs ∨
      ∃ place kept, fs.target p = .ok place ∧ kept <+: ownerLine fs.process ∧
        fs.Stores place kept ((FileSystem.lock p).run fs).2 := by
  rw [Action.run, FileSystem.lock]
  cases h : fs.target p with
  | error fault => exact .inl rfl
  | ok place =>
    simp only
    rcases fs.fill_cases place (ownerLine fs.process) with ⟨fault, hsame⟩ | ⟨kept, hkept, hput⟩
    · rw [hsame]
      exact .inl rfl
    · split
      · exact .inl rfl
      · split
        · exact .inl rfl
        · have hstores := ht.put_target h kept
          rw [hput]
          exact .inr ⟨place, kept, rfl, hkept,
            ⟨hstores.tree.working, hstores.tree.above⟩, rfl, hstores.find?⟩

theorem run_move {source destination : Path} {content : Bytes} {here there : Location}
    (hhere : fs.locate source = .ok here) (hfile : fs.find? here = some (.file content))
    (hslash : source.endsInSlash = false) (hthere : fs.target destination = .ok there) :
    (FileSystem.move source destination).run fs =
      (.ok (), (fs.vacate here).put there (.file content)) := by
  rw [Action.run, FileSystem.move, read_of_locate hhere hfile hslash, hhere, hthere]

/-- Whether a file system is another one with a file at another place. -/
structure Moves (fs : FileSystem) (here there : Location) (content : Bytes) (fs' : FileSystem) :
    Prop where
  found : fs.find? here = some (.file content)
  tree : fs'.IsTree
  working : fs'.working = fs.working
  find? (other : Location) :
    fs'.find? other = if there = other then some (.file content)
      else if here = other then none else fs.find? other

theorem Moves.find?_directory {here there : Location} {content : Bytes} {fs' : FileSystem}
    (h : fs.Moves here there content fs') (hfree : fs.find? there ≠ some .directory)
    {other : Location} (hother : fs.find? other = some .directory) :
    fs'.find? other = some .directory := by
  rw [h.find?, if_neg, if_neg, hother]
  · rintro rfl
    exact absurd (h.found.symm.trans hother) (by simp)
  · rintro rfl
    exact hfree hother

theorem IsTree.move (ht : fs.IsTree) {source destination : Path} {fs' : FileSystem}
    (h : (FileSystem.move source destination).run fs = (.ok (), fs')) :
    ∃ content here there, fs.locate source = .ok here ∧ fs.target destination = .ok there ∧
      fs.Moves here there content fs' := by
  rw [Action.run, FileSystem.move] at h
  split at h
  · next content here there hread hhere hthere =>
    obtain ⟨-, rfl⟩ := Prod.mk.inj h
    have hfile := find?_of_read hread hhere
    have hne : here ≠ [] := ne_nil_of_find?_ne (by rw [hfile]; simp)
    obtain ⟨hnot, above, name, rfl, habove⟩ := ht.parent_of_target hthere
    have hvacated (other : Location) : (fs.vacate here).find? other =
        if here = other then none else fs.find? other := find?_vacate hne other
    refine ⟨content, here, _, hhere, hthere, hfile, (ht.vacate hfile).put ?_ ?_, rfl,
      fun other => ?_⟩
    · rw [hvacated, if_neg, habove]
      rintro rfl
      rw [hfile] at habove
      exact absurd habove (by simp)
    · intro hdirectory
      rw [hvacated] at hdirectory
      split at hdirectory
      · exact absurd hdirectory (by simp)
      · exact absurd hdirectory hnot
    · rw [find?_put (ne_nil_of_find?_ne hnot), hvacated]
  · exact absurd (congrArg Prod.fst h) (by simp)
  · exact absurd (congrArg Prod.fst h) (by simp)
  · exact absurd (congrArg Prod.fst h) (by simp)

theorem places_of_move {source destination : Path} {fs' : FileSystem}
    (h : (FileSystem.move source destination).run fs = (.ok (), fs')) :
    ∃ here there, fs.locate source = .ok here ∧ fs.target destination = .ok there := by
  rw [Action.run, FileSystem.move] at h
  split at h
  · next hhere hthere => exact ⟨_, _, hhere, hthere⟩
  · exact absurd (congrArg Prod.fst h) (by simp)
  · exact absurd (congrArg Prod.fst h) (by simp)
  · exact absurd (congrArg Prod.fst h) (by simp)

theorem move_of_error {source destination : Path} {fs' : FileSystem} {failure : Failure}
    (h : (FileSystem.move source destination).run fs = (.error failure, fs')) : fs' = fs := by
  rw [Action.run, FileSystem.move] at h
  split at h <;> simp_all

/-! ### Making directories -/

/-- Whether a file system is another one with some more directories. -/
structure Widens (fs fs' : FileSystem) : Prop where
  tree : fs'.IsTree
  working : fs'.working = fs.working
  find? (place : Location) :
    fs'.find? place = fs.find? place ∨
      fs.find? place = none ∧ fs'.find? place = some .directory

namespace Widens

theorem refl (ht : fs.IsTree) : fs.Widens fs := ⟨ht, rfl, fun _ => .inl rfl⟩

theorem trans {fs' fs'' : FileSystem} (h : fs.Widens fs') (h' : fs'.Widens fs'') :
    fs.Widens fs'' where
  tree := h'.tree
  working := h'.working.trans h.working
  find? place := by
    rcases h.find? place with heq | ⟨hnone, hmade⟩
    · exact (h'.find? place).imp (·.trans heq) (And.imp_left (heq ▸ ·))
    · refine .inr ⟨hnone, ?_⟩
      rcases h'.find? place with heq | ⟨hmissing, -⟩
      · exact heq.trans hmade
      · rw [hmissing] at hmade
        exact absurd hmade (by simp)

theorem find?_directory {fs' : FileSystem} (h : fs.Widens fs')
    (hplace : fs.find? place = some .directory) : fs'.find? place = some .directory := by
  rcases h.find? place with heq | ⟨-, hmade⟩
  · exact heq.trans hplace
  · exact hmade

theorem find?_file {fs' : FileSystem} (h : fs.Widens fs') {content : Bytes}
    (hplace : fs'.find? place = some (.file content)) :
    fs.find? place = some (.file content) := by
  rcases h.find? place with heq | ⟨-, hmade⟩
  · exact heq.symm.trans hplace
  · rw [hmade] at hplace
    exact absurd hplace (by simp)

end Widens

theorem IsTree.makeDirectory (ht : fs.IsTree) (hhere : fs.find? here = some .directory)
    (steps : List String) : fs.Widens (FileSystem.makeDirectory here steps fs).2 := by
  rw [FileSystem.makeDirectory]
  split
  · exact .refl ht
  · next place hreach =>
    split
    · exact .refl ht
    · exact .refl ht
    · next hnone =>
      obtain hdirectory | ⟨above, name, rfl, habove⟩ := ht.find?_of_reach hhere hreach
      · rw [hnone] at hdirectory
        exact absurd hdirectory (by simp)
      · refine ⟨ht.put habove fun _ => rfl, rfl, fun other => ?_⟩
        rw [find?_put (by simp)]
        split
        · next heq => exact .inr ⟨heq ▸ hnone, rfl⟩
        · exact .inl rfl

theorem IsTree.makeAfter {above : FileSystem → Except FileFault Unit × FileSystem}
    (habove : ∀ fs : FileSystem, fs.IsTree → fs.find? here = some .directory →
      fs.Widens (above fs).2)
    (ht : fs.IsTree) (hhere : fs.find? here = some .directory) (steps : List String) :
    fs.Widens (FileSystem.makeAfter above here steps fs).2 := by
  have hfirst := ht.makeDirectory hhere steps
  rw [FileSystem.makeAfter]
  split
  · next fs₁ hmake =>
    rw [hmake] at hfirst
    have hsecond := habove fs₁ hfirst.tree (hfirst.find?_directory hhere)
    split
    · next fs₂ hmore =>
      rw [hmore] at hsecond
      have hboth := hfirst.trans hsecond
      exact hboth.trans (hboth.tree.makeDirectory (hboth.find?_directory hhere) steps)
    · next fs₂ hmore =>
      rw [hmore] at hsecond
      exact hfirst.trans hsecond
  · next hmake =>
    rw [hmake] at hfirst
    exact hfirst

theorem IsTree.makeUpwards (parts : List String) (ht : fs.IsTree)
    (hhere : fs.find? here = some .directory) :
    fs.Widens (FileSystem.makeUpwards here parts fs).2 := by
  induction parts generalizing fs with
  | nil => exact .refl ht
  | cons part parts ih => exact ht.makeAfter (fun _ => ih) hhere _

/-- A directory and those above it are made, and nothing else changes. -/
theorem IsTree.makeDirectories (ht : fs.IsTree) (p : Path) :
    fs.Widens ((FileSystem.makeDirectories p).run fs).2 := by
  rw [Action.run, FileSystem.makeDirectories]
  split
  · exact ht.makeAfter (fun _ ht hhere => ht.makeUpwards _ hhere) (ht.find?_origin p) _
  · exact .refl ht

theorem run_makeDirectories (hplace : fs.locate p = .ok place)
    (hdirectory : fs.find? place = some .directory) :
    (FileSystem.makeDirectories p).run fs = (.ok (), fs) := by
  have hfault : pathFault? p = none := by
    cases h : pathFault? p with
    | none => rfl
    | some fault =>
      rw [locate, h] at hplace
      exact absurd hplace (by simp)
  have hmake : FileSystem.makeDirectory (fs.origin p) p.steps fs = (.ok (), fs) := by
    rw [FileSystem.makeDirectory, reach_of_locate hplace]
    simp only [hdirectory]
  rw [Action.run, FileSystem.makeDirectories, hfault]
  simp only [FileSystem.makeAfter, hmake]
  rfl

theorem pathFault?_of_join {directory : Path} {name : String} (hne : directory.text ≠ "")
    (hhead : name.toList.head? ≠ some '/') (h : pathFault? (directory.join name) = none) :
    pathFault? directory = none := by
  obtain ⟨rest, hrest⟩ : ∃ rest, (directory.join name).text = directory.text ++ rest := by
    rw [Path.join, if_neg hhead]
    split
    · exact ⟨name, rfl⟩
    · exact ⟨"/" ++ name, String.append_assoc⟩
  rw [pathFault?, hrest] at h
  rw [pathFault?]
  split at h
  · exact absurd h (by simp)
  · next hzero =>
    split at h
    · exact absurd h (by simp)
    · split at h
      · exact absurd h (by simp)
      · next hlong =>
        rw [String.utf8ByteSize_append] at hlong
        have hzero' : '\x00' ∉ directory.text.toList := fun hmem => hzero (by simp [hmem])
        rw [if_neg hzero', if_neg hne, if_neg (by omega)]

theorem IsTree.run_makeDirectories_of_join (ht : fs.IsTree) {directory : Path} {name : String}
    (h : (directory.join name).Names directory name)
    (hplace : fs.locate (directory.join name) = .ok place) :
    (FileSystem.makeDirectories directory).run fs = (.ok (), fs) := by
  have hhead : name.toList.head? ≠ some '/' := by
    intro hhead
    have hstep : name ∈ (directory.join name).steps := by simp [h.steps]
    exact Path.not_mem_of_mem_pieces (List.mem_filter.1 hstep).1 (List.mem_of_head? hhead)
  by_cases hne : directory.text = ""
  · rw [Action.run, FileSystem.makeDirectories, pathFault?, hne]
    rfl
  have hfault : pathFault? directory = none := by
    cases hjoin : pathFault? (directory.join name) with
    | none => exact pathFault?_of_join hne hhead hjoin
    | some fault =>
      rw [locate, hjoin] at hplace
      exact absurd hplace (by simp)
  have horigin : fs.origin (directory.join name) = fs.origin directory := by
    rw [origin, origin, h.isAbsolute]
  have hreach := reach_of_locate hplace
  have hlast : (directory.steps ++ [name]).getLast?.filter Path.isName = some name := by
    simp [h.isName]
  rw [h.steps, horigin, reach, hlast] at hreach
  simp only [List.dropLast_concat] at hreach
  cases habove : fs.descend (fs.origin directory) directory.steps with
  | error fault =>
    rw [habove] at hreach
    exact absurd hreach (by simp [Except.bind])
  | ok above =>
    have hlocate : fs.locate directory = .ok above := by
      rw [locate, hfault]
      exact reach_of_descend habove
    exact run_makeDirectories hlocate (ht.find?_of_descend (ht.find?_origin directory) habove)

end FileSystem
end DiagramCompiler
