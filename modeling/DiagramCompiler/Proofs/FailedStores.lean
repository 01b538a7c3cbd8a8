import DiagramCompiler.Proofs.ResemblingFiles
import DiagramCompiler.Proofs.RunSequences
import DiagramCompiler.Proofs.TouchedFiles

/-! Stores that fail.
An entry of a cache is written to a file beside it, which takes its place in the end. Whatever the
device does to that, if it stops before, then the file beside is all that can have changed, and its
name ends as that of no entry does. Nothing else that a run does touches a file with the name of a
diagram. -/
namespace DiagramCompiler

/-! ### Other extensions -/

namespace Path

variable {p : Path}

theorem mem_of_mem_stem {name : List Char} {c : Char} (h : c ∈ stem name) : c ∈ name := by
  rw [stem] at h
  split at h
  · next extension before hsplit =>
    split at h
    · exact h
    · have hname := (Text.eq_append_of_splitFirst hsplit).1
      exact List.mem_reverse.1 (hname ▸ by simp [List.mem_reverse.1 h])
  · exact h

/-- A name with another extension has that extension, unless only a double dot is left of it. -/
theorem renamed_cases (name extension : String) :
    renamed name extension = ".." ∨
      ∃ stem, renamed name extension = stem ++ ("." ++ extension) := by
  rw [renamed]
  split
  · exact .inl rfl
  · exact .inr ⟨_, String.append_assoc⟩

/-- The last step of a path with another extension is the renamed file name. -/
theorem getLast?_steps_withExtension {name extension : String} (h : p.fileName = some name)
    (hslash : '/' ∉ extension.toList) :
    (p.withExtension extension).steps.getLast? = some (renamed name extension) := by
  have hdots : ("..": String).toList = ['.', '.'] := by decide
  have hdot : (".": String).toList = ['.'] := by decide
  have hnew : renamed name extension ≠ "" ∧ '/' ∉ (renamed name extension).toList := by
    rw [renamed]
    split
    · exact ⟨by decide, by decide⟩
    · refine ⟨by simp, ?_⟩
      have hstem : '/' ∉ stem name.toList := fun hmem =>
        (isName_of_fileName h).2.2 (mem_of_mem_stem hmem)
      simp [hdot, hslash, hstem]
  have hpieces : (p.withExtension extension).pieces =
      (trimmed p.pieces).dropLast ++ [renamed name extension] := by
    rw [withExtension, h]
    refine pieces_joined (by simp) fun piece hpiece => ?_
    rcases List.mem_append.1 hpiece with hold | hlast
    · have hmem := List.dropWhile_subset _ (List.mem_reverse.1 (List.dropLast_subset _ hold))
      exact not_mem_of_mem_pieces (List.mem_reverse.1 hmem)
    · rw [List.mem_singleton.1 hlast]
      exact hnew.2
  rw [steps, hpieces, List.filter_append]
  simp [hnew.1]

end Path

namespace FileSystem

variable {fs fs' : FileSystem} {p q : Path} {place : Location} {content : Bytes}

/-- A file can be written at the place of its path, unless that is a directory. -/
theorem placeOf_of_target (h : fs.target p = .ok place) :
    place = fs.placeOf p ∧ fs.find? place ≠ some .directory :=
  ⟨eq_placeOf_of_locate (locate_of_target h).1, (locate_of_target h).2.2⟩

/-- What can be written beside a path has the extension of such files. A double dot leads to a
directory. -/
theorem IsTree.mem_placesEnding_of_target (ht : fs.IsTree) {name extension : String}
    (hname : p.fileName = some name) (hslash : '/' ∉ extension.toList)
    (h : fs.target (p.withExtension extension) = .ok place) :
    place ∈ placesEnding ("." ++ extension) := by
  obtain ⟨hlocate, -, hnot⟩ := locate_of_target h
  have hlast := Path.getLast?_steps_withExtension hname hslash
  rcases reach_cases (reach_of_locate hlocate) with
    hdescend | ⟨front, last, above, hsteps, hislast, habove, rfl⟩
  · exact absurd (ht.find?_of_descend (ht.find?_origin _) hdescend) hnot
  · rw [hsteps, List.getLast?_concat] at hlast
    obtain rfl := Option.some.inj hlast
    rcases Path.renamed_cases name extension with hdots | ⟨stem, hstem⟩
    · exact absurd hislast (by rw [hdots]; decide)
    · exact ⟨above, stem, by rw [hstem]⟩

/-! ### Replacing that stops -/

/-- Whether two file systems have the same directories, and the same files but for some places. -/
structure SameBut (fs : FileSystem) (places : Set Location) (fs' : FileSystem) : Prop where
  directories : fs.SameDirectories fs'
  find? {place : Location} (h : place ∉ places) : fs'.find? place = fs.find? place

theorem SameBut.read_iff {places : Set Location} (h : fs.SameBut places fs')
    (hq : fs.placeOf q ∉ places) (content : Bytes) :
    fs'.read q = .ok content ↔ fs.read q = .ok content := by
  have hplace : fs'.placeOf q = fs.placeOf q := placeOf_congr h.directories.working q
  refine ⟨h.directories.symm.read ?_, h.directories.read (h.find? hq)⟩
  rw [hplace]
  exact (h.find? hq).symm

/-- What is left when replacing the content of a file fails: nothing has changed, or the file beside
it has the first bytes of the content. -/
inductive Leftover (fs : FileSystem) (p : Path) (content : Bytes) : FileSystem → Prop
  | before : Leftover fs p content fs
  | beside {place : Location} {kept : Bytes}
      (hplace : fs.target (p.withExtension "tmp") = .ok place) (hkept : kept <+: content) :
      Leftover fs p content (fs.put place (.file kept))

def onDevice (fs : FileSystem) (device : Location → Bytes → Option Stop) : FileSystem :=
  { fs with device }

/-- Whether replacing the content of a file can stop with some files: it fails on some device and
leaves them. -/
def Stops (fs : FileSystem) (p : Path) (content : Bytes) (fs' : FileSystem) : Prop :=
  ∃ device failure,
    (FileSystem.replace p content).run (fs.onDevice device) = (.error failure, fs'.onDevice device)

theorem Leftover.sameBut (h : fs.Leftover p content fs') :
    fs.SameBut {fs.placeOf (p.withExtension "tmp")} fs' := by
  cases h with
  | before => exact ⟨⟨rfl, fun _ => Iff.rfl⟩, fun _ => rfl⟩
  | beside hplace hkept =>
    obtain ⟨hbeside, hnot⟩ := placeOf_of_target hplace
    rw [← hbeside]
    refine ⟨sameDirectories_put hnot _, fun {other} hne => ?_⟩
    rw [find?_put (ne_nil_of_find?_ne hnot), if_neg fun heq => hne heq.symm]

section Devices

variable {device : Location → Bytes → Option Stop}

theorem sameDirectories_onDevice (fs : FileSystem) (device : Location → Bytes → Option Stop) :
    fs.SameDirectories (fs.onDevice device) := ⟨rfl, fun _ => Iff.rfl⟩

theorem IsTree.onDevice (ht : fs.IsTree) : (fs.onDevice device).IsTree := ⟨ht.working, ht.above⟩

theorem target_onDevice (fs : FileSystem) (device : Location → Bytes → Option Stop) (p : Path) :
    (fs.onDevice device).target p = fs.target p := by
  have hsame := fs.sameDirectories_onDevice device
  have hfree : fs.SameFree (fs.onDevice device) := fun _ => Iff.rfl
  rw [target, target, locate, locate, origin_eq hsame, reach_eq hsame hfree]
  rfl

theorem Leftover.stops (h : fs.Leftover p content fs') : fs.Stops p content fs' := by
  cases h with
  | before =>
    let device : Location → Bytes → Option Stop := fun _ _ => some (.unopened .notFound)
    refine ⟨device, ?_⟩
    have hsame := fs.target_onDevice device (p.withExtension "tmp")
    cases hplace : fs.target (p.withExtension "tmp") with
    | error fault =>
      rw [hplace] at hsame
      exact ⟨_, Action.run_bind_of_error (run_write_of_fault hsame content) _⟩
    | ok place =>
      rw [hplace] at hsame
      exact ⟨_, Action.run_bind_of_error (run_write_of_stop hsame rfl) _⟩
  | @beside place kept hplace hkept =>
    let device : Location → Bytes → Option Stop := fun _ _ => some (.cut kept.length .noSpace)
    have htarget := (fs.target_onDevice device (p.withExtension "tmp")).trans hplace
    have hwrite : (FileSystem.write (p.withExtension "tmp") content).run (fs.onDevice device) =
        (.error (.file (p.withExtension "tmp") .noSpace),
          ((fs.onDevice device).fill place content).2) := run_write_of_stop htarget rfl
    have hfill : ((fs.onDevice device).fill place content).2 =
        (fs.put place (.file kept)).onDevice device := by
      have htake : content.take kept.length = kept := (List.prefix_iff_eq_take.1 hkept).symm
      rw [fill]
      simp only [onDevice, device, htake]
      rfl
    rw [hfill] at hwrite
    exact ⟨device, _, Action.run_bind_of_error hwrite _⟩

end Devices

def Replaces (fs : FileSystem) (p : Path) (content : Bytes) (fs' : FileSystem) : Prop :=
  ∃ beside place, fs.target (p.withExtension "tmp") = .ok beside ∧ fs.target p = .ok place ∧
    fs' = fs.replaced beside place content

/-- Replacing the content of a file does so or fails, and leaves what was written beside it. -/
theorem ends_replace (fs : FileSystem) (p : Path) (content : Bytes) :
    (FileSystem.replace p content).Ends fs (fs.Leftover p content)
      fun _ => fs.Replaces p content := by
  cases hbeside : fs.target (p.withExtension "tmp") with
  | error fault =>
    exact .of_error (Action.run_bind_of_error (run_write_of_fault hbeside content) _) .before
  | ok beside =>
    cases hdevice : fs.device beside content with
    | some stop =>
      refine .of_error (Action.run_bind_of_error (run_write_of_stop hbeside hdevice) _) ?_
      rcases fs.fill_cases beside content with ⟨fault, hsame⟩ | ⟨kept, hkept, hput⟩
      · rw [hsame]
        exact .before
      · rw [hput]
        exact .beside hbeside hkept
    | none =>
      cases hplace : fs.target p with
      | ok place =>
        exact .of_ok (run_replace hbeside hplace hdevice) ⟨beside, place, hbeside, hplace, rfl⟩
      | error fault =>
        -- the file beside it is written and left, as it cannot be moved
        have hput := sameDirectories_put (locate_of_target hbeside).2.2 content
        have hfault : ∃ fault, (fs.put beside (.file content)).target p = .error fault := by
          cases h : (fs.put beside (.file content)).target p with
          | error fault => exact ⟨fault, rfl⟩
          | ok place => exact absurd ((hput.symm.target h).symm.trans hplace) (by simp)
        obtain ⟨fault', hfault'⟩ := hfault
        have hmove := run_move_of_fault (read_put_target hbeside content) hfault'
        have hleft : fs.Leftover p content (fs.put beside (.file content)) :=
          .beside hbeside (List.prefix_refl content)
        exact .of_error ((Action.run_bind_of_ok (run_write hbeside hdevice) _).trans hmove) hleft

namespace Replaces

variable (h : fs.Replaces p content fs')

include h

theorem read : fs'.read p = .ok content := by
  obtain ⟨beside, place, hbeside, hplace, rfl⟩ := h
  have hput := sameDirectories_put (locate_of_target hbeside).2.2 content
  have hvacate := hput.trans (sameDirectories_vacate fun hdirectory =>
    (locate_of_target hbeside).2.2 ((hput.find? beside).1 hdirectory))
  exact read_put_target (hvacate.target hplace) content

theorem sameBut : fs.SameBut {fs.placeOf (p.withExtension "tmp"), fs.placeOf p} fs' := by
  obtain ⟨beside, place, hbeside, hplace, rfl⟩ := h
  obtain ⟨htmp, hnot⟩ := placeOf_of_target hbeside
  obtain ⟨hentry, hnot'⟩ := placeOf_of_target hplace
  rw [← htmp, ← hentry]
  refine ⟨sameDirectories_replaced hnot hnot' content, fun {other} hother => ?_⟩
  obtain ⟨hne, hne'⟩ : beside ≠ other ∧ place ≠ other := by simpa [eq_comm] using hother
  exact find?_replaced_of_ne hnot hnot' hne hne' content

theorem find?_beside (hne : fs.placeOf p ∉ placesEnding ".tmp") (ht : fs.IsTree) {name : String}
    (hname : p.fileName = some name) : fs'.find? (fs'.placeOf (p.withExtension "tmp")) = none := by
  have hworking := h.sameBut.directories.working
  obtain ⟨beside, place, hbeside, hplace, rfl⟩ := h
  have hmem := ht.mem_placesEnding_of_target hname (by decide) hbeside
  obtain ⟨htmp, hnot⟩ := placeOf_of_target hbeside
  obtain ⟨hentry, hnot'⟩ := placeOf_of_target hplace
  have hother : place ≠ beside := by
    intro heq
    rw [← hentry, heq] at hne
    exact hne hmem
  rw [placeOf_congr hworking, ← htmp, replaced, find?_put (ne_nil_of_find?_ne hnot'),
    if_neg hother, find?_vacate (ne_nil_of_find?_ne hnot), if_pos rfl]

end Replaces

end FileSystem

/-! ### Entries -/

namespace Cache

variable {c : Cache} {fs fs' : FileSystem} {p q : Path} {content : Bytes}

def IsDiagram (c : Cache) (p : Path) : Prop :=
  ∃ input engine reordering, p = c.diagramPath input engine reordering

/-- Whether an order or a diagram of some file is kept at a path. -/
def IsEntry (c : Cache) (p : Path) : Prop :=
  (∃ input stage, p = c.orderPath input stage) ∨ c.IsDiagram p

/-- Whether only the file beside an entry has changed, and no entry of a cache has. -/
structure Spares (c : Cache) (p : Path) (fs fs' : FileSystem) : Prop where
  elsewhere : fs.SameBut {fs.placeOf (p.withExtension "tmp")} fs'
  entries {q : Path} (hq : c.IsEntry q) (content : Bytes) :
    fs'.read q = .ok content ↔ fs.read q = .ok content

/-- Whether an entry has some content now, the file beside it is gone and the other entries of a
cache are the same. -/
structure Fills (c : Cache) (p : Path) (content : Bytes) (fs fs' : FileSystem) : Prop where
  entry : fs'.read p = .ok content
  beside : fs'.find? (fs'.placeOf (p.withExtension "tmp")) = none
  elsewhere : fs.SameBut {fs.placeOf (p.withExtension "tmp"), fs.placeOf p} fs'
  entries {q : Path} (hq : c.IsEntry q) (hne : fs.placeOf q ≠ fs.placeOf p) (content : Bytes) :
    fs'.read q = .ok content ↔ fs.read q = .ok content

theorem IsDiagram.hasEnding (h : c.IsDiagram p) : p.HasEnding ".dd" := by
  obtain ⟨input, engine, reordering, hpath⟩ := h
  rw [hpath]
  exact c.hasEnding_diagramPath input engine reordering

theorem IsDiagram.placeOf_mem (h : c.IsDiagram p) (fs : FileSystem) :
    fs.placeOf p ∈ FileSystem.placesEnding ".dd" :=
  FileSystem.placeOf_mem_placesEnding h.hasEnding (c := 'd') (by decide) (by decide) fs

namespace IsEntry

theorem exists_fileName (h : c.IsEntry p) : ∃ name, p.fileName = some name := by
  rcases h with ⟨input, stage, hpath⟩ | hdiagram
  · rw [hpath]
    exact Path.fileName_of_hasEnding (c.hasEnding_orderPath input stage) (c := 'r') (by decide)
      (by decide)
  · exact Path.fileName_of_hasEnding hdiagram.hasEnding (c := 'd') (by decide) (by decide)

theorem placeOf_not_mem (h : c.IsEntry p) (fs : FileSystem) :
    fs.placeOf p ∉ FileSystem.placesEnding ".tmp" := by
  rcases h with ⟨input, stage, hpath⟩ | hdiagram
  · rw [hpath]
    exact FileSystem.not_mem_placesEnding (c := 'r') (d := 'p') (by decide) (by decide) (by decide)
      (c.placeOf_orderPath_mem input stage fs)
  · exact FileSystem.not_mem_placesEnding (c := 'd') (d := 'p') (by decide) (by decide) (by decide)
      (hdiagram.placeOf_mem fs)

theorem placeOf_ne (h : c.IsEntry p) (hq : c.IsEntry q) (ht : fs.IsTree) {place : Location}
    (hplace : fs.target (p.withExtension "tmp") = .ok place) :
    fs.placeOf q ≠ fs.placeOf (p.withExtension "tmp") := by
  obtain ⟨name, hname⟩ := h.exists_fileName
  have htmp := ht.mem_placesEnding_of_target hname (by decide) hplace
  rw [(FileSystem.placeOf_of_target hplace).1] at htmp
  intro heq
  rw [← heq] at htmp
  exact hq.placeOf_not_mem fs htmp

theorem spares (h : c.IsEntry p) (ht : fs.IsTree) (hleft : fs.Leftover p content fs') :
    c.Spares p fs fs' where
  elsewhere := hleft.sameBut
  entries {q} hq found := by
    have hsame := hleft.sameBut
    cases hleft with
    | before => exact Iff.rfl
    | beside hplace hkept => exact hsame.read_iff (h.placeOf_ne hq ht hplace) found

theorem spares_of_stops (h : c.IsEntry p) (ht : fs.IsTree) (hstops : fs.Stops p content fs') :
    c.Spares p fs fs' := by
  obtain ⟨device, failure, hrun⟩ := hstops
  have hspares := h.spares ht.onDevice ((FileSystem.ends_replace _ p content).error hrun)
  refine ⟨⟨⟨hspares.elsewhere.directories.working, hspares.elsewhere.directories.find?⟩,
    hspares.elsewhere.find?⟩, fun {q} hq found => ?_⟩
  have hread (fs : FileSystem) : (fs.onDevice device).read q = fs.read q := by
    have hfind : (fs.onDevice device).find? = fs.find? := rfl
    exact FileSystem.read_congr hfind rfl q
  have hentries := hspares.entries hq found
  rwa [hread, hread] at hentries

theorem fills (h : c.IsEntry p) (ht : fs.IsTree) (hreplaces : fs.Replaces p content fs') :
    c.Fills p content fs fs' where
  entry := hreplaces.read
  beside := by
    obtain ⟨name, hname⟩ := h.exists_fileName
    exact hreplaces.find?_beside (h.placeOf_not_mem fs) ht hname
  elsewhere := hreplaces.sameBut
  entries {q} hq hne found := by
    obtain ⟨beside, -, hbeside, -, -⟩ := id hreplaces
    refine hreplaces.sameBut.read_iff ?_ found
    simpa [hne] using h.placeOf_ne hq ht hbeside

end IsEntry

/-- An entry with the digest of a file is put under a path, or that stops. -/
theorem ends_keep_leftover (fs : FileSystem) (input path : Path) (entry : String → Bytes) :
    (do
      let digest ← digestOf input
      FileSystem.replace path (entry digest)
      return path : Action FileSystem Path).Ends fs
      (fun fs' => ∃ content, fs.Leftover path content fs') fun found fs' => found = path ∧
        ∃ content, fs.read input = .ok content ∧
          fs.Replaces path (entry content.digest) fs' := by
  have hdigest : (digestOf input).Ends fs (fun fs' => ∃ content, fs.Leftover path content fs')
      fun digest fs' => fs' = fs ∧ ∃ content, fs.read input = .ok content ∧
        digest = content.digest := by
    cases hread : fs.read input with
    | error fault => exact .of_error (run_digestOf_of_error hread) ⟨[], .before⟩
    | ok content => exact .of_ok (run_digestOf_of_read hread) ⟨rfl, content, rfl, rfl⟩
  refine hdigest.bind ?_
  rintro _ _ ⟨rfl, content, hread, rfl⟩
  refine ((FileSystem.ends_replace _ path _).mono (fun _ hleft => ⟨_, hleft⟩) fun _ _ => id).bind
    fun _ fs' hreplaces => ?_
  exact .pure ⟨rfl, content, hread, hreplaces⟩

end Cache

/-! ### Runs -/

namespace Run

variable {σ : Type} {o : Options} {conditions : Conditions} {f : Formula} {c : Cache}
  {fs fs' : FileSystem} {p : Path}

def otherPlaces : Set Location := (FileSystem.placesEnding ".dd")ᶜ

theorem subset_otherPlaces {ending : String} {l : Char}
    (hlast : ending.toList.getLast? = some l) (hne : l ≠ 'd') :
    FileSystem.placesEnding ending ⊆ otherPlaces := fun _ hplace =>
  FileSystem.not_mem_placesEnding hlast (d := 'd') (by decide) hne hplace

theorem touches_lock (ht : fs.IsTree) (c : Cache) (input : Path) :
    fs.Touches otherPlaces ((c.lock input).run fs).2 := by
  rw [Cache.lock]
  rcases ht.lock (c.lockPath input) with hsame | ⟨place, kept, hplace, -, hstores⟩
  · rw [hsame]
    exact .refl ht _
  · obtain ⟨hlock, hnot⟩ := FileSystem.placeOf_of_target hplace
    have hmem : place ∈ FileSystem.placesEnding ".lock" := hlock ▸ c.placeOf_lockPath_mem input fs
    exact (hstores.touches hnot).mono (Set.singleton_subset_iff.2
      (subset_otherPlaces (l := 'k') (by decide) (by decide) hmem))

theorem touches_of_leftover (ht : fs.IsTree) (hp : c.IsEntry p) {content : Bytes}
    (h : fs.Leftover p content fs') : fs.Touches otherPlaces fs' := by
  cases h with
  | before => exact .refl ht _
  | @beside place kept hplace =>
    obtain ⟨name, hname⟩ := hp.exists_fileName
    have hbeside := ht.mem_placesEnding_of_target hname (by decide) hplace
    have hstores := ht.put_target hplace kept
    exact (hstores.touches (FileSystem.locate_of_target hplace).2.2).mono
      (Set.singleton_subset_iff.2 (subset_otherPlaces (l := 'p') (by decide) (by decide) hbeside))

theorem touches_storeOrder (ht : fs.IsTree) (c : Cache) (input : Path) (stage : String)
    (order : VariableOrder) :
    (c.storeOrder input stage order).Ends fs (fs.Touches otherPlaces)
      fun _ => fs.Touches otherPlaces := by
  have hentry : c.IsEntry (c.orderPath input stage) := .inl ⟨input, stage, rfl⟩
  let entry := fun digest => Bytes.ofText (Cache.orderText input digest order)
  have hleft := Cache.ends_keep_leftover fs input (c.orderPath input stage) entry
  refine ⟨fun hrun => ?_, fun hrun => ?_⟩
  · obtain ⟨-, htouch, -⟩ := (Cache.ends_keep ht input (c.orderPath input stage) entry).ok hrun
    obtain ⟨-, content, -, beside, place, hbeside, -⟩ := hleft.ok hrun
    obtain ⟨name, hname⟩ := hentry.exists_fileName
    have htmp := ht.mem_placesEnding_of_target hname (by decide) hbeside
    rw [(FileSystem.placeOf_of_target hbeside).1] at htmp
    exact htouch.mono (Set.insert_subset
      (subset_otherPlaces (l := 'p') (by decide) (by decide) htmp)
      (Set.singleton_subset_iff.2 (subset_otherPlaces (l := 'r') (by decide) (by decide)
        (c.placeOf_orderPath_mem input stage fs))))
  · obtain ⟨content, hleftover⟩ := hleft.error hrun
    exact touches_of_leftover ht hentry hleftover

theorem Access.touches (ht : fs.IsTree) {input : Path} (h : Access o input fs fs') :
    fs.Touches otherPlaces fs' := by
  cases h with
  | make => exact (ht.makeDirectories o.cacheDirectory).touches _
  | lock => exact touches_lock ht o.cache input
  | keep order =>
    rcases (touches_storeOrder ht o.cache input o.stage order).cases with
      ⟨failure, fs', hrun, h⟩ | ⟨path, fs', hrun, h⟩ <;> rwa [hrun]

theorem Accesses.touches (ht : fs.IsTree) {input : Path} (h : Accesses o input fs fs') :
    fs.Touches otherPlaces fs' := by
  induction h with
  | refl => exact .refl ht _
  | tail _ haccess ih => exact ih.trans (haccess.touches ih.tree)

theorem touches_of_storeDump (ht : fs.IsTree) {input : Path} (hsource : f.source = some input)
    {d : Dump} {failure : Failure} (h : (storeDump o f d).run fs = (.error failure, fs')) :
    fs.Touches otherPlaces fs' := by
  have hmake := (ht.makeDirectories o.cacheDirectory).touches otherPlaces
  have hstore : (storeDump o f d).Ends fs (fs.Touches otherPlaces) fun _ _ => True := by
    refine ((ends_inDirectory o fs).mono (fun _ heq => heq ▸ hmake) fun _ _ => id).bind ?_
    rintro cache _ ⟨rfl, rfl⟩
    rw [hsource]
    refine (Cache.ends_keep_leftover _ input
      (o.cache.diagramPath input o.engine.stub o.reordering)
      fun digest => (Cache.tagged input digest d).bytes).mono ?_ fun _ _ _ => trivial
    rintro fs' ⟨content, hleft⟩
    exact hmake.trans (touches_of_leftover hmake.tree (.inr ⟨input, _, _, rfl⟩) hleft)
  exact hstore.error h

theorem touches_unlock {before : FileSystem} (h : before.Touches otherPlaces fs) (ticket : Ticket) :
    before.Touches otherPlaces (fs.unlock ticket) :=
  ⟨⟨h.tree.working, h.tree.above⟩, h.working, h.find?_file, h.find?_directory⟩

theorem Fails.touches {provider : Provider σ} {input : Path} {e : σ} {v : World σ} (ht : fs.IsTree)
    (hsource : f.source = some input) (h : Fails o conditions provider input f fs e v) :
    fs.Touches otherPlaces v.files := by
  cases h with
  | before haccesses => exact haccesses.touches ht
  | storing haccesses hobtains hstore =>
    have hbefore := haccesses.touches ht
    have hstored := hobtains.source_eq.trans hsource
    exact hbefore.trans (touches_of_storeDump hbefore.tree hstored hstore)

theorem touches_of_run {provider : Provider σ} {input : Path} {w w' : World σ}
    (ht : w.files.IsTree) {failure : Failure}
    (h : (run o conditions provider input).run w = (.error failure, w')) :
    w.files.Touches otherPlaces w'.files := by
  rcases (ends_run o conditions provider input w).error h with
    hsame | ⟨f, hf, haccesses | ⟨ticket, v, hfails, rfl⟩⟩
  · rw [hsame]
    exact .refl ht _
  · exact haccesses.touches ht
  · have hlock := (accesses_atLock o input w.files).touches ht
    have hrest := hfails.touches hlock.tree (Formula.source_of_ofFile hf)
    exact touches_unlock (hlock.trans hrest) ticket

end Run

/-! ### Failures -/

namespace Cache

/-- Keeping an order or a diagram fills its entry, or it fails and leaves all entries as they are,
wherever the entry stops being written; besides the entry, at most the file beside it changes. A run
that fails leaves the diagrams of its cache as they are. -/
theorem failures_spare_entries (c : Cache) {fs : FileSystem} (ht : fs.IsTree) :
    (∀ input stage order, (c.storeOrder input stage order).Ends fs
      (c.Spares (c.orderPath input stage) fs) fun path fs' => path = c.orderPath input stage ∧
        ∃ content, fs.read input = .ok content ∧
          c.Fills path (.ofText (orderText input content.digest order)) fs fs') ∧
    (∀ input engine reordering dump, (c.storeDiagram input engine reordering dump).Ends fs
      (c.Spares (c.diagramPath input engine reordering) fs) fun path fs' =>
        path = c.diagramPath input engine reordering ∧ ∃ content, fs.read input = .ok content ∧
          c.Fills path (tagged input content.digest dump).bytes fs fs') ∧
    (∀ p content fs', c.IsEntry p → fs.Stops p content fs' → c.Spares p fs fs') ∧
    ∀ {σ : Type} (o : Options) (conditions : Conditions) (provider : Provider σ) (input : Path)
      (e : σ) (failure : Failure) (w' : World σ),
      (Run.run o conditions provider input).run ⟨fs, e⟩ = (.error failure, w') →
      ∀ p, o.cache.IsDiagram p → fs.SameAt p w'.files ∧
        ∀ content, fs.read p = .ok content → w'.files.read p = .ok content := by
  have hkeep (input path : Path) (entry : String → Bytes) (hpath : c.IsEntry path) :
      (do
        let digest ← digestOf input
        FileSystem.replace path (entry digest)
        return path : Action FileSystem Path).Ends fs (c.Spares path fs) fun found fs' =>
          found = path ∧ ∃ content, fs.read input = .ok content ∧
            c.Fills found (entry content.digest) fs fs' := by
    refine (ends_keep_leftover fs input path entry).mono
      (fun fs' ⟨_, hleft⟩ => hpath.spares ht hleft) ?_
    rintro _ fs' ⟨rfl, content, hread, hreplaces⟩
    exact ⟨rfl, content, hread, hpath.fills ht hreplaces⟩
  refine ⟨fun input stage order => ?_, fun input engine reordering dump => ?_,
    fun p content fs' hp hstops => hp.spares_of_stops ht hstops, ?_⟩
  · exact hkeep input _ (fun digest => .ofText (orderText input digest order))
      (.inl ⟨input, stage, rfl⟩)
  · exact hkeep input _ (fun digest => (tagged input digest dump).bytes)
      (.inr ⟨input, engine, reordering, rfl⟩)
  · intro σ o conditions provider input e failure w' hrun p hp
    have htouch := Run.touches_of_run (w := ⟨fs, e⟩) ht hrun
    have hplace : fs.placeOf p ∉ Run.otherPlaces := fun hother => hother (hp.placeOf_mem fs)
    exact ⟨htouch.sameAt hplace, fun content => htouch.read hplace⟩

/-! #### A directory in the place of an order -/

namespace Failing

open Sequence.GivenUp (input cache content read ofFile_input)

def options : Options := { reordering := "sift-conv" }

/-- A diagram that was kept, and a directory where an order is to be kept. -/
def files : FileSystem :=
  (Sequence.GivenUp.files.put ["work", "_cache", "f-buddy-sift-conv.dd"] (.file [0xFF])).put
    ["work", "_cache", "f-dbo.order"] .directory

theorem isTree_files : files.IsTree := by
  have hentry := @FileSystem.IsTree.put _ Sequence.GivenUp.isTree_files ["work", "_cache"]
    "f-buddy-sift-conv.dd" (.file [0xFF]) rfl fun h => absurd h (by decide)
  exact @FileSystem.IsTree.put _ hentry ["work", "_cache"] "f-dbo.order" .directory rfl fun _ => rfl

def failure : Failure := .unsupportedReordering Reference.engine.name "sift-conv"

theorem run_fails : ∃ w', (Run.run options (.unhurried 0) (.reference options) input).run
    ⟨files, .fresh none .zero⟩ = (.error failure, w') := by
  have hmake : (inDirectory options.cacheDirectory).run files = (.ok options.cache, files) := rfl
  have hlock : (options.cache.lock input).run files = (.ok 0, Sequence.GivenUp.locked files) :=
    Sequence.GivenUp.run_lock (fun _ _ => rfl) (by decide) (by decide)
  have hanswer : ∃ w', (Run.answer options (.unhurried 0) (.reference options) read).run
      ⟨Sequence.GivenUp.locked files, .fresh none .zero⟩ = (.error failure, w') := ⟨_, rfl⟩
  obtain ⟨w', hanswer⟩ := hanswer
  exact ⟨_, Run.run_of_answer (ofFile_input (by decide)) hmake hlock hanswer⟩

theorem failures_spare_kept_diagram :
    files.IsTree ∧
      (∃ stored fs', (cache.storeOrder input "dbo" (.identity 1)).run files =
          (.error (.file ⟨"_cache/f-dbo.order"⟩ .isDirectory), fs') ∧
        fs'.find? ["work", "_cache", "f-dbo.tmp"] = some (.file stored) ∧
        cache.Spares (cache.orderPath input "dbo") files fs') ∧
      (∃ fs', (cache.storeOrder input "force" (.identity 1)).run files =
          (.ok ⟨"_cache/f-force.order"⟩, fs') ∧
        cache.Fills ⟨"_cache/f-force.order"⟩
          (.ofText (orderText input content.digest (.identity 1))) files fs') ∧
      cache.Spares (cache.orderPath input "force") files
        (files.put ["work", "_cache", "f-force.tmp"] (.file (content.take 3))) ∧
      ∃ w', (Run.run options (.unhurried 0) (.reference options) input).run
          ⟨files, .fresh none .zero⟩ = (.error failure, w') ∧
        w'.files.read ⟨"_cache/f-buddy-sift-conv.dd"⟩ = .ok [0xFF] := by
  obtain ⟨horder, -, hstops, hrun⟩ := failures_spare_entries cache isTree_files
  have hplace : files.target ((cache.orderPath input "force").withExtension "tmp") =
      .ok ["work", "_cache", "f-force.tmp"] := by decide
  have hcut := hstops _ content _ (.inl ⟨input, "force", rfl⟩)
    (FileSystem.Leftover.beside hplace (List.take_prefix 3 content)).stops
  obtain ⟨w', hfails⟩ := run_fails
  have hdbo : ∃ stored fs', (cache.storeOrder input "dbo" (.identity 1)).run files =
      (.error (.file ⟨"_cache/f-dbo.order"⟩ .isDirectory), fs') ∧
        fs'.find? ["work", "_cache", "f-dbo.tmp"] = some (.file stored) := ⟨_, _, rfl, rfl⟩
  have hforce : ∃ fs', (cache.storeOrder input "force" (.identity 1)).run files =
      (.ok ⟨"_cache/f-force.order"⟩, fs') := ⟨_, rfl⟩
  obtain ⟨stored, fs', hdbo, hstored⟩ := hdbo
  obtain ⟨fs'', hforce⟩ := hforce
  obtain ⟨-, found, hfound, hfills⟩ := (horder input "force" (.identity 1)).ok hforce
  have hread : files.read input = .ok content := by decide
  obtain rfl := Except.ok.inj (hfound.symm.trans hread)
  have hdiagram : options.cache.IsDiagram ⟨"_cache/f-buddy-sift-conv.dd"⟩ :=
    ⟨input, options.engine.stub, options.reordering, by decide⟩
  have hkept := (hrun options (.unhurried 0) (.reference options) input _ failure w' hfails _
    hdiagram).2
  exact ⟨isTree_files, ⟨stored, fs', hdbo, hstored, (horder input "dbo" (.identity 1)).error hdbo⟩,
    ⟨fs'', hforce, hfills⟩, hcut, w', hfails, hkept [0xFF] (by decide)⟩

end Failing
end Cache
end DiagramCompiler
