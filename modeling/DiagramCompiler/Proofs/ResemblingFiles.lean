import DiagramCompiler.Proofs.AlikeRuns

/-! Files that are not looked at.
Two file systems that have the same directories, the same locks and the same file at the place of an
input may hold anything else in their other files. Locking, writing and moving names in a directory
answer the same from both, since a target has to be no directory and what was in it is lost. Only
how a path comes to nothing depends on the files on its way. A directory that is there has no file
on its way; if it is yet to be made, the same places have to be free in both. -/
namespace DiagramCompiler

namespace Action.Alike

variable {σ α : Type} {s s' : σ} {fails : σ → σ → Prop} {gives : α → σ → σ → Prop}

theorem asking {ask : σ → Except Failure α} (h : ask s' = ask s) (hfails : fails s s')
    (hgives : ∀ value, ask s = .ok value → gives value s s') :
    (Action.asking ask).Alike s s' fails gives := by
  cases hask : ask s with
  | ok value =>
    exact .ok (congrArg (·, s) hask) (congrArg (·, s') (h.trans hask)) (hgives value hask)
  | error failure =>
    exact .error (congrArg (·, s) hask) (congrArg (·, s') (h.trans hask)) hfails

theorem ofExcept {answer : Except Failure α} (hfails : fails s s')
    (hgives : ∀ value, answer = .ok value → gives value s s') :
    (Action.ofExcept answer).Alike s s' fails gives := by
  cases answer with
  | ok value => exact .ok rfl rfl (hgives value rfl)
  | error failure => exact .error rfl rfl hfails

theorem of_same {a : Action σ α} {related : σ → σ → Prop} (hanswer : (a.run s').1 = (a.run s).1)
    (h : related (a.run s).2 (a.run s').2) :
    a.Alike s s' (fun _ _ => True) fun _ => related := by
  cases hrun : a.run s with
  | mk answer t =>
    cases hrun' : a.run s' with
    | mk answer' t' =>
      rw [hrun, hrun'] at hanswer h
      obtain rfl : answer' = answer := hanswer
      cases answer' with
      | ok value => exact .ok hrun hrun' h
      | error failure => exact .error hrun hrun' trivial

end Action.Alike

namespace FileSystem

variable {fs fs' t t' : FileSystem} {p input directory : Path} {here above place other : Location}
  {name : String} {content : Bytes}

/-! ### The same ways -/

def SameFree (fs fs' : FileSystem) : Prop :=
  ∀ place, fs'.find? place = none ↔ fs.find? place = none

/-- Whether a path leads to a directory, or is the empty one of the working directory. -/
def HasDirectory (fs : FileSystem) (p : Path) : Prop :=
  p.text = "" ∨ ∃ place, fs.locate p = .ok place ∧ fs.find? place = some .directory

theorem SameDirectories.symm (h : fs.SameDirectories fs') : fs'.SameDirectories fs :=
  ⟨h.working.symm, fun place => (h.find? place).symm⟩

theorem HasDirectory.congr (h : fs.HasDirectory p) (hdirs : fs.SameDirectories fs') :
    fs'.HasDirectory p :=
  h.imp id fun ⟨place, hplace, hfind⟩ => ⟨place, hdirs.locate hplace, (hdirs.find? place).2 hfind⟩

theorem HasDirectory.run_makeDirectories (h : fs.HasDirectory p) :
    (FileSystem.makeDirectories p).run fs = (.ok (), fs) := by
  rcases h with htext | ⟨place, hplace, hfind⟩
  · rw [Action.run, FileSystem.makeDirectories, FileSystem.pathFault?, htext]
    rfl
  · exact FileSystem.run_makeDirectories hplace hfind

theorem find?_cases (hdirs : fs.SameDirectories fs') (hfree : fs.SameFree fs') (place : Location) :
    (fs.find? place = some .directory ∧ fs'.find? place = some .directory) ∨
      (∃ content content', fs.find? place = some (.file content) ∧
        fs'.find? place = some (.file content')) ∨
      fs.find? place = none ∧ fs'.find? place = none := by
  have hdirectory := hdirs.find? place
  have hnone := hfree place
  rcases hfind : fs.find? place with _ | _ | content <;>
    rcases hfind' : fs'.find? place with _ | _ | content' <;> simp_all

/-- Where the same places are free and hold directories, all ways end the same. -/
theorem descend_eq (hdirs : fs.SameDirectories fs') (hfree : fs.SameFree fs') (here : Location)
    (steps : List String) : fs'.descend here steps = fs.descend here steps := by
  induction steps generalizing here with
  | nil => rfl
  | cons step steps ih =>
    rw [descend, descend]
    simp only [ih]
    cases child here step with
    | error fault => rfl
    | ok place =>
      rcases find?_cases hdirs hfree place with ⟨h, h'⟩ | ⟨_, _, h, h'⟩ | ⟨h, h'⟩ <;>
        simp only [h, h']

theorem reach_eq (hdirs : fs.SameDirectories fs') (hfree : fs.SameFree fs') (here : Location)
    (steps : List String) : fs'.reach here steps = fs.reach here steps := by
  rw [reach, reach]
  simp only [descend_eq hdirs hfree]

theorem origin_eq (hdirs : fs.SameDirectories fs') (p : Path) : fs'.origin p = fs.origin p := by
  rw [origin, origin, hdirs.working]

theorem descend_append {front : List String} (h : fs.descend here front = .ok above)
    (back : List String) : fs.descend here (front ++ back) = fs.descend above back := by
  induction front generalizing here with
  | nil =>
    obtain rfl := Except.ok.inj h
    rfl
  | cons step front ih =>
    rw [descend] at h
    rw [List.cons_append, descend]
    split at h
    · next hdot => rw [if_pos hdot, ih h]
    · next hdot =>
      rw [if_neg hdot]
      split at h
      · next hdots => rw [if_pos hdots, ih h]
      · next hdots =>
        rw [if_neg hdots]
        split at h
        · exact absurd h (by simp)
        · next below hchild =>
          split at h
          · simp only [ih h]
          · exact absurd h (by simp)
          · exact absurd h (by simp)

theorem descend_of_reach {steps : List String} (h : fs.reach here steps = .ok place)
    (hdirectory : fs.find? place = some .directory) : fs.descend here steps = .ok place := by
  rw [reach] at h
  split at h
  · next name hlast =>
    obtain ⟨hlast, hname⟩ := Option.filter_eq_some_iff.1 hlast
    obtain ⟨hdot, hdots⟩ : name ≠ "." ∧ name ≠ ".." := by simpa [Path.isName] using hname
    obtain ⟨front, rfl⟩ := List.getLast?_eq_some_iff.1 hlast
    rw [List.dropLast_concat] at h
    cases habove : fs.descend here front with
    | error fault =>
      rw [habove] at h
      exact absurd h (by simp [Except.bind])
    | ok above =>
      rw [habove] at h
      have hchild : child above name = .ok place := h
      rw [descend_append habove, descend, if_neg hdot, if_neg hdots, hchild]
      simp only [hdirectory, descend]
  · exact h

theorem HasDirectory.exists_descend (h : fs.HasDirectory directory) :
    ∃ above, fs.descend (fs.origin directory) directory.steps = .ok above := by
  rcases h with htext | ⟨place, hplace, hfind⟩
  · have hempty : String.ofList [] = "" := by decide
    have hsteps : directory.steps = [] := by
      simp [Path.steps, Path.pieces, htext, Text.splitAll, hempty]
    exact ⟨_, by rw [hsteps, descend]⟩
  · exact ⟨place, descend_of_reach (reach_of_locate hplace) hfind⟩

/-- A name in a directory that is there leads to its place, unless it is too long. -/
theorem locate_of_names (hp : p.Names directory name) (hfault : pathFault? p = none)
    (habove : fs.descend (fs.origin directory) directory.steps = .ok above) :
    fs.locate p = child above name := by
  have horigin : fs.origin p = fs.origin directory := by rw [origin, origin, hp.isAbsolute]
  have hlast : p.steps.getLast?.filter Path.isName = some name := by simp [hp.steps, hp.isName]
  have hreach : fs.locate p = fs.reach (fs.origin p) p.steps := by rw [locate, hfault]
  rw [hreach, reach, hlast]
  simp only [hp.steps, List.dropLast_concat, horigin, habove, Except.bind]

/-- Whether the ways to a directory and to names in it end the same in two file systems: it is
there, or the same places are free. -/
def SameWays (directory : Path) (fs fs' : FileSystem) : Prop :=
  fs.HasDirectory directory ∨ fs.SameFree fs'

theorem locate_eq (hdirs : fs.SameDirectories fs') (hways : SameWays directory fs fs')
    (hp : p.Names directory name) : fs'.locate p = fs.locate p := by
  rcases hways with hdirectory | hfree
  · obtain ⟨above, habove⟩ := hdirectory.exists_descend
    have habove' : fs'.descend (fs'.origin directory) directory.steps = .ok above := by
      rw [origin_eq hdirs]
      exact descend_mono (fun place => (hdirs.find? place).2) habove
    cases hfault : pathFault? p with
    | some fault => rw [locate, locate, hfault]
    | none => rw [locate_of_names hp hfault habove, locate_of_names hp hfault habove']
  · rw [locate, locate, origin_eq hdirs, reach_eq hdirs hfree]

theorem target_eq (hdirs : fs.SameDirectories fs') (hways : SameWays directory fs fs')
    (hp : p.Names directory name) : fs'.target p = fs.target p := by
  rw [target, target, locate_eq hdirs hways hp]
  simp only [hdirs.find?]

/-! ### Actions that fail -/

variable {fault : FileFault}

theorem run_write_of_fault (h : fs.target p = .error fault) (content : Bytes) :
    (FileSystem.write p content).run fs = (.error (.file p fault), fs) := by
  rw [Action.run, FileSystem.write, h]

theorem run_move_of_fault {source : Path} (hread : fs.read source = .ok content)
    (h : fs.target p = .error fault) :
    (FileSystem.move source p).run fs = (.error (.file p fault), fs) := by
  obtain ⟨here, hhere, -⟩ := exists_of_read hread
  rw [Action.run, FileSystem.move, hread, hhere, h]

theorem run_lock_of_fault (h : fs.target p = .error fault) :
    (FileSystem.lock p).run fs = (.error (.file p fault), fs) := by
  rw [Action.run, FileSystem.lock, h]

theorem run_lock_of_unopened (h : fs.target p = .ok place)
    (hunopened : fs.device place (ownerLine fs.process) = some (.unopened fault)) :
    (FileSystem.lock p).run fs = (.error (.file p fault), fs) := by
  have hstop : (fs.fill place (ownerLine fs.process)).1 = some (.unopened fault) := by
    rw [fill, hunopened]
  rw [Action.run, FileSystem.lock, h]
  simp only [hstop]

theorem run_lock_of_held (h : fs.target p = .ok place)
    (hopened : ∀ fault, fs.device place (ownerLine fs.process) ≠ some (.unopened fault))
    (hheld : fs.isLocked place = true) :
    (FileSystem.lock p).run fs = (.error (.file p .wouldBlock), fs) := by
  have hstop (fault : FileFault) :
      (fs.fill place (ownerLine fs.process)).1 ≠ some (.unopened fault) :=
    fill_ne_unopened hopened fault
  rw [Action.run, FileSystem.lock, h]
  simp only [hheld, if_true]

/-! ### The same but for files -/

/-- Whether two file systems have the same directories and locks, and the same at the place of an
input, and whether a directory is there in both or both can make it in the same way. The device is
the same; it may be that of two processes, if it takes alike what these write into locks. -/
structure Resembles (directory input : Path) (place : Location) (fs fs' : FileSystem) : Prop where
  directories : fs.SameDirectories fs'
  ways : SameWays directory fs fs'
  located : fs.locate input = .ok place
  entry : fs'.find? place = fs.find? place
  locks : fs'.locks = fs.locks
  tickets : fs'.tickets = fs.tickets
  device : fs'.device = fs.device
  owner (other : Location) :
    fs.device other (ownerLine fs'.process) = fs.device other (ownerLine fs.process)

namespace Resembles

variable (h : Resembles directory input place fs fs')

include h

theorem read_eq : fs'.read input = fs.read input := h.directories.read_eq h.located h.entry

/-- Changes of files that leave every place as it was or make it the same in both. -/
theorem step (hdirs : fs.SameDirectories t) (hdirs' : fs'.SameDirectories t')
    (hfind : ∀ q, t'.find? q = t.find? q ∨ t.find? q = fs.find? q ∧ t'.find? q = fs'.find? q)
    (hlocks : t'.locks = t.locks) (htickets : t'.tickets = t.tickets)
    (hdevice : t'.device = t.device)
    (howner : ∀ q, t.device q (ownerLine t'.process) = t.device q (ownerLine t.process)) :
    Resembles directory input place t t' where
  directories := hdirs.symm.trans (h.directories.trans hdirs')
  ways := h.ways.imp (fun hdirectory => hdirectory.congr hdirs) fun hfree q => by
    rcases hfind q with hsame | ⟨hkept, hkept'⟩
    · rw [hsame]
    · rw [hkept, hkept', hfree q]
  located := hdirs.locate h.located
  entry := by
    rcases hfind place with hsame | ⟨hkept, hkept'⟩
    · exact hsame
    · rw [hkept, hkept', h.entry]
  locks := hlocks
  tickets := htickets
  device := hdevice
  owner := howner

theorem put (hnot : fs.find? other ≠ some .directory) (content : Bytes) :
    Resembles directory input place (fs.put other (.file content))
      (fs'.put other (.file content)) := by
  have hnot' : fs'.find? other ≠ some .directory := mt (h.directories.find? other).1 hnot
  have hne := ne_nil_of_find?_ne hnot
  refine h.step (sameDirectories_put hnot content) (sameDirectories_put hnot' content) (fun q => ?_)
    h.locks h.tickets h.device h.owner
  rw [find?_put hne, find?_put hne]
  split
  · exact .inl rfl
  · exact .inr ⟨rfl, rfl⟩

theorem vacate (hnot : fs.find? other ≠ some .directory) :
    Resembles directory input place (fs.vacate other) (fs'.vacate other) := by
  have hnot' : fs'.find? other ≠ some .directory := mt (h.directories.find? other).1 hnot
  have hne := ne_nil_of_find?_ne hnot
  refine h.step (sameDirectories_vacate hnot) (sameDirectories_vacate hnot') (fun q => ?_)
    (by simp only [FileSystem.vacate, h.locks]) h.tickets h.device h.owner
  rw [find?_vacate hne, find?_vacate hne]
  split
  · exact .inl rfl
  · exact .inr ⟨rfl, rfl⟩

theorem put_beside (hnot : fs.find? other ≠ some .directory) (hne : other ≠ place)
    (content content' : Bytes) :
    Resembles directory input place (fs.put other (.file content))
      (fs'.put other (.file content')) where
  directories := by
    have hnot' : fs'.find? other ≠ some .directory := mt (h.directories.find? other).1 hnot
    exact (sameDirectories_put hnot content).symm.trans
      (h.directories.trans (sameDirectories_put hnot' content'))
  ways := h.ways.imp (fun hdirectory => hdirectory.congr (sameDirectories_put hnot content))
    fun hfree q => by
      rw [find?_put (ne_nil_of_find?_ne hnot), find?_put (ne_nil_of_find?_ne hnot)]
      split
      · simp
      · exact hfree q
  located := (sameDirectories_put hnot content).locate h.located
  entry := by
    rw [find?_put (ne_nil_of_find?_ne hnot), find?_put (ne_nil_of_find?_ne hnot), if_neg hne,
      if_neg hne, h.entry]
  locks := h.locks
  tickets := h.tickets
  device := h.device
  owner := h.owner

theorem fill (hnot : fs.find? other ≠ some .directory) (hne : other ≠ place) :
    Resembles directory input place (fs.fill other (ownerLine fs.process)).2
      (fs'.fill other (ownerLine fs'.process)).2 := by
  rw [FileSystem.fill, FileSystem.fill, h.device, h.owner]
  split
  · exact h.put_beside hnot hne _ _
  · exact h
  · exact h.put_beside hnot hne _ _

theorem hold (other : Location) :
    Resembles directory input place (fs.hold other) (fs'.hold other) :=
  h.step ⟨rfl, fun _ => Iff.rfl⟩ ⟨rfl, fun _ => Iff.rfl⟩ (fun _ => .inr ⟨rfl, rfl⟩)
    (by simp only [FileSystem.hold, h.locks, h.tickets])
    (by simp only [FileSystem.hold, h.tickets]) h.device h.owner

theorem locked (hnot : fs.find? other ≠ some .directory) (hne : other ≠ place) :
    Resembles directory input place (fs.locked other) (fs'.locked other) :=
  (h.fill hnot hne).hold other

/-! ### Names in the directory -/

theorem write (hp : p.Names directory name) (content : Bytes) :
    (FileSystem.write p content).Alike fs fs' (fun _ _ => True) fun _ t t' =>
      Resembles directory input place t t' ∧ t.read p = .ok content ∧ t'.read p = .ok content := by
  have hsame := target_eq h.directories h.ways hp
  cases htarget : fs.target p with
  | error fault =>
    exact .error (run_write_of_fault htarget content)
      (run_write_of_fault (hsame.trans htarget) content) trivial
  | ok other =>
    have htarget' := hsame.trans htarget
    obtain ⟨-, -, hnot⟩ := locate_of_target htarget
    cases hdevice : fs.device other content with
    | none =>
      have hdevice' : fs'.device other content = none := by rw [h.device, hdevice]
      have hrun := run_write htarget hdevice
      have hrun' := run_write htarget' hdevice'
      exact .ok hrun hrun' ⟨h.put hnot content, read_of_write hrun, read_of_write hrun'⟩
    | some stop =>
      have hdevice' : fs'.device other content = some stop := by rw [h.device, hdevice]
      exact .error (run_write_of_stop htarget hdevice) (run_write_of_stop htarget' hdevice') trivial

theorem move {source : Path} (hread : fs.read source = .ok content)
    (hread' : fs'.read source = .ok content) (hp : p.Names directory name) :
    (FileSystem.move source p).Alike fs fs' (fun _ _ => True) fun _ t t' =>
      Resembles directory input place t t' ∧ t.read p = .ok content ∧ t'.read p = .ok content := by
  have hsame := target_eq h.directories h.ways hp
  cases htarget : fs.target p with
  | error fault =>
    exact .error (run_move_of_fault hread htarget)
      (run_move_of_fault hread' (hsame.trans htarget)) trivial
  | ok there =>
    obtain ⟨here, hhere, hfile⟩ := exists_of_read hread
    have hnot : fs.find? here ≠ some .directory := by rw [hfile]; simp
    obtain ⟨-, -, hthere⟩ := locate_of_target ((sameDirectories_vacate hnot).target htarget)
    have hrun : (FileSystem.move source p).run fs =
        (.ok (), (fs.vacate here).put there (.file content)) := by
      rw [Action.run, FileSystem.move, hread, hhere, htarget]
    have hrun' : (FileSystem.move source p).run fs' =
        (.ok (), (fs'.vacate here).put there (.file content)) := by
      rw [Action.run, FileSystem.move, hread', h.directories.locate hhere, hsame, htarget]
    exact .ok hrun hrun' ⟨(h.vacate hnot).put hthere content, read_of_move hread hrun,
      read_of_move hread' hrun'⟩

theorem replace {beside : String} (hp : p.Names directory name)
    (hbeside : (p.withExtension "tmp").Names directory beside) (content : Bytes) :
    (FileSystem.replace p content).Alike fs fs' (fun _ _ => True) fun _ t t' =>
      Resembles directory input place t t' ∧ t.read p = .ok content ∧ t'.read p = .ok content :=
  (h.write hbeside content).bind fun _ _ _ ⟨h, hread, hread'⟩ => h.move hread hread' hp

theorem lock (hp : p.Names directory name) (hne : fs.placeOf p ≠ place) :
    (FileSystem.lock p).Alike fs fs' (fun _ _ => True) fun _ =>
      Resembles directory input place := by
  have hsame := target_eq h.directories h.ways hp
  cases htarget : fs.target p with
  | error fault =>
    exact .error (run_lock_of_fault htarget) (run_lock_of_fault (hsame.trans htarget)) trivial
  | ok other =>
    have htarget' := hsame.trans htarget
    have hlocked : fs'.isLocked other = fs.isLocked other := by
      rw [FileSystem.isLocked, FileSystem.isLocked, h.locks]
    obtain ⟨hlocate, -, hnot⟩ := locate_of_target htarget
    rw [← eq_placeOf_of_locate hlocate] at hne
    have hsameDevice : fs'.device other (ownerLine fs'.process) =
        fs.device other (ownerLine fs.process) := by rw [h.device, h.owner]
    by_cases hopened : ∀ fault, fs.device other (ownerLine fs.process) ≠ some (.unopened fault)
    · have hopened' : ∀ fault, fs'.device other (ownerLine fs'.process) ≠ some (.unopened fault) :=
        fun fault => hsameDevice ▸ hopened fault
      cases hheld : fs.isLocked other with
      | true =>
        exact .error (run_lock_of_held htarget hopened hheld)
          (run_lock_of_held htarget' hopened' (hlocked.trans hheld)) trivial
      | false =>
        have hrun' := run_lock htarget' hopened' (hlocked.trans hheld)
        rw [h.tickets] at hrun'
        exact .ok (run_lock htarget hopened hheld) hrun' (h.locked hnot hne)
    · obtain ⟨fault, hunopened⟩ := not_forall_not.1 hopened
      exact .error (run_lock_of_unopened htarget hunopened)
        (run_lock_of_unopened htarget' (hsameDevice.trans hunopened)) trivial

/-! ### Making the directory -/

omit h

/-- Whether a way to make directories does the same in two file systems with the same free places,
which they keep. -/
def Agrees (directory input : Path) (place : Location)
    (make : FileSystem → Except FileFault Unit × FileSystem) : Prop :=
  ∀ fs fs', Resembles directory input place fs fs' → fs.SameFree fs' →
    (make fs').1 = (make fs).1 ∧ Resembles directory input place (make fs).2 (make fs').2 ∧
      (make fs).2.SameFree (make fs').2

theorem putDirectory (h : Resembles directory input place fs fs') (hfree : fs.SameFree fs')
    (hne : other ≠ []) :
    Resembles directory input place (fs.put other .directory) (fs'.put other .directory) ∧
      (fs.put other .directory).SameFree (fs'.put other .directory) := by
  have hmade : (fs.put other .directory).SameFree (fs'.put other .directory) := fun q => by
    rw [find?_put hne, find?_put hne]
    split
    · exact Iff.rfl
    · exact hfree q
  have hworking : (fs.put other .directory).working = fs.working := rfl
  have hmore : ∀ q, fs.find? q = some .directory →
      (fs.put other .directory).find? q = some .directory := fun q hq => by
    rw [find?_put hne]
    split
    · rfl
    · exact hq
  refine ⟨⟨⟨h.directories.working, fun q => ?_⟩, .inr hmade, locate_mono hworking hmore h.located,
    ?_, h.locks, h.tickets, h.device, h.owner⟩, hmade⟩
  · rw [find?_put hne, find?_put hne]
    split
    · exact Iff.rfl
    · exact h.directories.find? q
  · rw [find?_put hne, find?_put hne, h.entry]

theorem agrees_makeDirectory (here : Location) (steps : List String) :
    Agrees directory input place (FileSystem.makeDirectory here steps) := by
  intro fs fs' h hfree
  rw [FileSystem.makeDirectory, FileSystem.makeDirectory, reach_eq h.directories hfree]
  cases fs.reach here steps with
  | error fault => exact ⟨rfl, h, hfree⟩
  | ok other =>
    rcases find?_cases h.directories hfree other with
      ⟨hfind, hfind'⟩ | ⟨_, _, hfind, hfind'⟩ | ⟨hfind, hfind'⟩
    · simp only [hfind, hfind']
      exact ⟨trivial, h, hfree⟩
    · simp only [hfind, hfind']
      exact ⟨trivial, h, hfree⟩
    · simp only [hfind, hfind']
      exact ⟨trivial, h.putDirectory hfree (ne_nil_of_find?_ne (by rw [hfind]; simp))⟩

theorem agrees_makeAfter {above : FileSystem → Except FileFault Unit × FileSystem}
    (habove : Agrees directory input place above) (here : Location) (steps : List String) :
    Agrees directory input place (FileSystem.makeAfter above here steps) := by
  intro fs fs' h hfree
  have hfirst := agrees_makeDirectory here steps fs fs' h hfree
  rw [FileSystem.makeAfter, FileSystem.makeAfter]
  -- the first try answers the same in both, and so do what is done above and the second try
  revert hfirst
  rcases FileSystem.makeDirectory here steps fs with ⟨answer, t⟩
  rcases FileSystem.makeDirectory here steps fs' with ⟨answer', t'⟩
  rintro ⟨(rfl : answer' = answer), h₁, hfree₁⟩
  rcases answer' with fault | _
  · cases fault with
    | notFound =>
      have hsecond := habove t t' h₁ hfree₁
      revert hsecond
      simp only
      rcases above t with ⟨answer, u⟩
      rcases above t' with ⟨answer', u'⟩
      rintro ⟨(rfl : answer' = answer), h₂, hfree₂⟩
      cases answer' with
      | error fault => exact ⟨rfl, h₂, hfree₂⟩
      | ok _ => exact agrees_makeDirectory here steps u u' h₂ hfree₂
    | _ => exact ⟨rfl, h₁, hfree₁⟩
  · exact ⟨rfl, h₁, hfree₁⟩

theorem agrees_makeUpwards (here : Location) (parts : List String) :
    Agrees directory input place (FileSystem.makeUpwards here parts) := by
  induction parts with
  | nil => exact fun fs fs' h hfree => ⟨rfl, h, hfree⟩
  | cons part parts ih => exact agrees_makeAfter ih here _

theorem makeDirectories (h : Resembles directory input place fs fs') :
    (FileSystem.makeDirectories directory).Alike fs fs' (fun _ _ => True) fun _ =>
      Resembles directory input place := by
  rcases h.ways with hdirectory | hfree
  · exact .ok hdirectory.run_makeDirectories
      (hdirectory.congr h.directories).run_makeDirectories h
  · have hmake := agrees_makeAfter
      (agrees_makeUpwards (fs.origin directory) directory.parts.reverse.tail)
      (fs.origin directory) directory.steps fs fs' h hfree
    cases hfault : pathFault? directory with
    | some fault =>
      refine .of_same ?_ ?_ <;> simp only [Action.run, FileSystem.makeDirectories, hfault]
      exact h
    | none =>
      refine .of_same ?_ ?_ <;>
        simp only [Action.run, FileSystem.makeDirectories, hfault, origin_eq h.directories]
      · exact congrArg (failing directory) hmake.1
      · exact hmake.2.1

end Resembles
end FileSystem
end DiagramCompiler
