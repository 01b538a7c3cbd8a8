import DiagramCompiler.Proofs.Actions
import DiagramCompiler.Proofs.MadeDumps
import DiagramCompiler.Proofs.WrittenFiles

/-! Caches that hold nothing but entries.
A condition on names and contents says which files may lie directly in a cache. The actions of a run
on files put files into the cache and make directories; the working directory and the files outside
stay as they are. So all that a run reads outside the cache it could have read before. -/
namespace DiagramCompiler

namespace Text

theorem eq_of_lower_eq {b c : Char} (hc : c.toNat < 65) (h : lower b = c) : b = c := by
  rw [lower] at h
  split at h
  · next hletter =>
    have hlow : 65 ≤ b.toNat ∧ b.toNat ≤ 90 := by
      simpa [Char.le_def, UInt32.le_iff_toNat_le] using hletter
    have hvalid : (b.toNat + 32).isValidChar := .inl (by omega)
    have hvalue : (Char.ofNat (b.toNat + 32)).toNat = b.toNat + 32 := by
      rw [Char.ofNat, dif_pos hvalid]
      rfl
    rw [h] at hvalue
    omega
  · exact h

/-- Texts that differ only in the case of letters have the same characters before the letters. -/
theorem not_mem_of_sameLetters {as bs : List Char} (h : sameLetters as bs = true) {c : Char}
    (hc : c.toNat < 65) (hbs : c ∉ bs) : c ∉ as := by
  intro has
  have hmap : as.map lower = bs.map lower := by simpa [sameLetters] using h
  have hlower : lower c = c := by
    rw [lower, if_neg]
    rintro ⟨hle, -⟩
    have hlow : 65 ≤ c.toNat := by simpa [Char.le_def, UInt32.le_iff_toNat_le] using hle
    omega
  have hmem : lower c ∈ bs.map lower := hmap ▸ List.mem_map_of_mem has
  obtain ⟨b, hb, heq⟩ := List.mem_map.1 hmem
  rw [eq_of_lower_eq hc (heq.trans hlower)] at hb
  exact hbs hb

end Text

theorem not_mem_of_isNoReordering {stub : String} (h : isNoReordering stub = true) {c : Char}
    (hc : c.toNat < 65) : c ∉ stub.toList := by
  refine Text.not_mem_of_sameLetters h hc fun hmem => ?_
  have hoff : "off".toList = ['o', 'f', 'f'] := by decide
  rw [hoff] at hmem
  simp only [List.mem_cons, List.not_mem_nil, or_false] at hmem
  rcases hmem with rfl | rfl | rfl <;> exact absurd hc (by decide)

namespace Cache

variable {c : Cache} {P P' : String → Bytes → Prop} {input path : Path} {name : String}
  {before fs fs' : FileSystem} {content : Bytes}

/-- Whether all files that lie directly in a cache may be there. -/
structure Holds (c : Cache) (P : String → Bytes → Prop) (fs : FileSystem) : Prop where
  tree : fs.IsTree
  files {name : String} {content : Bytes} :
    fs.find? (fs.placeOf c.directory ++ [name]) = some (.file content) → P name content

def IsOutside (c : Cache) (fs : FileSystem) (p : Path) : Prop :=
  ∀ name, fs.placeOf p ≠ fs.placeOf c.directory ++ [name]

/-- What a run on an input does to files: the cache holds nothing but what may be there, and the
input is as it was. -/
structure Serves (c : Cache) (P : String → Bytes → Prop) (input : Path)
    (before after : FileSystem) : Prop where
  holds : c.Holds P after
  working : after.working = before.working
  read {content : Bytes} : before.read input = .ok content → after.read input = .ok content

theorem Holds.mono (h : c.Holds P fs) (hP : ∀ name content, P name content → P' name content) :
    c.Holds P' fs :=
  ⟨h.tree, fun hfile => hP _ _ (h.files hfile)⟩

theorem IsOutside.congr (h : c.IsOutside before path) (hworking : fs.working = before.working) :
    c.IsOutside fs path := by
  intro name
  rw [FileSystem.placeOf_congr hworking, FileSystem.placeOf_congr hworking]
  exact h name

theorem Holds.serves (h : c.Holds P fs) (input : Path) : c.Serves P input fs fs := ⟨h, rfl, id⟩

/-! ### Steps -/

/-- Some steps may put other files into the cache that may be there, and make directories. -/
theorem Serves.step (h : c.Serves P input before fs) (hinput : c.IsOutside before input)
    (htree : fs'.IsTree) (hworking : fs'.working = fs.working)
    (hinside : ∀ name content,
      fs'.find? (fs.placeOf c.directory ++ [name]) = some (.file content) → P' name content)
    (hmore : ∀ place, fs.find? place = some .directory → fs'.find? place = some .directory)
    (hbeyond : ∀ place content, (∀ name, place ≠ fs.placeOf c.directory ++ [name]) →
      fs.find? place = some (.file content) → fs'.find? place = some (.file content)) :
    c.Serves P' input before fs' where
  holds := ⟨htree, fun {name content} hfile => hinside name content
    (by rwa [FileSystem.placeOf_congr hworking] at hfile)⟩
  working := hworking.trans h.working
  read {content} hread := by
    have hplace := h.read hread
    obtain ⟨place, hlocate, hfile⟩ := FileSystem.exists_of_read hplace
    obtain rfl := FileSystem.eq_placeOf_of_locate hlocate
    have hsame : fs'.find? (fs.placeOf input) = fs.find? (fs.placeOf input) :=
      (hbeyond _ content (hinput.congr h.working) hfile).trans hfile.symm
    exact FileSystem.read_mono hworking hmore hsame hplace

theorem Serves.unlock (h : c.Serves P input before fs) (hinput : c.IsOutside before input)
    (ticket : Ticket) : c.Serves P input before (fs.unlock ticket) :=
  h.step hinput ⟨h.holds.tree.working, h.holds.tree.above⟩ rfl (fun _ _ => h.holds.files)
    (fun _ => id) fun _ _ _ => id

theorem Serves.makeDirectories (h : c.Serves P input before fs) (hinput : c.IsOutside before input)
    (p : Path) : c.Serves P input before ((FileSystem.makeDirectories p).run fs).2 := by
  have hwidens := h.holds.tree.makeDirectories p
  refine h.step hinput hwidens.tree hwidens.working
    (fun name content hfile => h.holds.files (hwidens.find?_file hfile))
    (fun place => hwidens.find?_directory) fun place content _ hfile => ?_
  rcases hwidens.find? place with hsame | ⟨hnone, -⟩
  · exact hsame.trans hfile
  · rw [hnone] at hfile
    exact absurd hfile (by simp)

/-- A file may be put into the cache, where there is no directory. -/
theorem Serves.stores (h : c.Serves P input before fs) (hinput : c.IsOutside before input)
    (hfree : fs.find? (fs.placeOf c.directory ++ [name]) ≠ some .directory)
    (hstores : fs.Stores (fs.placeOf c.directory ++ [name]) content fs')
    (hP : ∀ name content, P name content → P' name content) (hcontent : P' name content) :
    c.Serves P' input before fs' := by
  refine h.step hinput hstores.tree hstores.working (fun other found hfile => ?_)
    (fun _ => hstores.find?_directory hfree) fun place found hplace hfile => ?_
  · rw [hstores.find?] at hfile
    split at hfile
    · next heq =>
      obtain rfl : name = other := by simpa using heq
      obtain rfl : content = found := by simpa using hfile
      exact hcontent
    · exact hP _ _ (h.holds.files hfile)
  · rw [hstores.find?, if_neg (hplace name).symm, hfile]

/-- Where a name in the cache can be written, there is no directory. -/
theorem eq_of_target {place : Location} (hname : path.Names c.directory name)
    (h : fs.target path = .ok place) :
    place = fs.placeOf c.directory ++ [name] ∧ fs.find? place ≠ some .directory := by
  obtain ⟨hlocate, -, hfree⟩ := FileSystem.locate_of_target h
  exact ⟨(FileSystem.eq_placeOf_of_locate hlocate).trans (FileSystem.placeOf_of_names hname), hfree⟩

theorem Serves.lock (h : c.Serves P input before fs) (hinput : c.IsOutside before input)
    (hname : path.Names c.directory name) (hany : ∀ content, P name content) :
    c.Serves P input before ((FileSystem.lock path).run fs).2 := by
  rcases h.holds.tree.lock path with hsame | ⟨place, kept, hplace, -, hstores⟩
  · rwa [hsame]
  · obtain ⟨rfl, hfree⟩ := eq_of_target hname hplace
    exact h.stores hinput hfree hstores (fun _ _ => id) (hany kept)

theorem Serves.write (h : c.Serves P input before fs) (hinput : c.IsOutside before input)
    (hname : path.Names c.directory name) (hany : ∀ content, P name content) (content : Bytes) :
    c.Serves P input before ((FileSystem.write path content).run fs).2 := by
  cases hplace : fs.target path with
  | error fault => rwa [FileSystem.write_of_target_error hplace]
  | ok place =>
    rcases h.holds.tree.write hplace content with hsame | ⟨kept, -, hstores⟩
    · rwa [hsame]
    · obtain ⟨rfl, hfree⟩ := eq_of_target hname hplace
      exact h.stores hinput hfree hstores (fun _ _ => id) (hany kept)

/-- What was written beside a file takes its place, or all stays as it was. -/
theorem Serves.ends_move {source : Path} {beside : String} (h : c.Serves P input before fs)
    (hinput : c.IsOutside before input) (hbeside : source.Names c.directory beside)
    (hname : path.Names c.directory name)
    (hwritten : fs.find? (fs.placeOf c.directory ++ [beside]) = some (.file content))
    (hP : ∀ name content, P name content → P' name content) (hcontent : P' name content) :
    (FileSystem.move source path).Ends fs (c.Serves P input before) fun _ fs' =>
      c.Serves P' input before fs' ∧ fs'.read path = .ok content := by
  cases hrun : (FileSystem.move source path).run fs with
  | mk answer fs' =>
    cases answer with
    | error failure => exact .of_error hrun (FileSystem.move_of_error hrun ▸ h)
    | ok =>
      obtain ⟨moved, here, there, hhere, hthere, hmoves⟩ := h.holds.tree.move hrun
      obtain ⟨hlocate, hslash, -⟩ := FileSystem.locate_of_target hthere
      obtain rfl : here = fs.placeOf c.directory ++ [beside] :=
        (FileSystem.eq_placeOf_of_locate hhere).trans (FileSystem.placeOf_of_names hbeside)
      obtain ⟨rfl, hfree⟩ := eq_of_target hname hthere
      obtain rfl : moved = content := by simpa using hmoves.found.symm.trans hwritten
      have hmore (place : Location) : fs.find? place = some .directory →
          fs'.find? place = some .directory := hmoves.find?_directory hfree
      refine .of_ok hrun ⟨h.step hinput hmoves.tree hmoves.working (fun other found hother => ?_)
        hmore fun place found hplace hfile => ?_, ?_⟩
      · rw [hmoves.find?] at hother
        split at hother
        · next heq =>
          obtain rfl : name = other := by simpa using heq
          obtain rfl : moved = found := by simpa using hother
          exact hcontent
        · split at hother
          · exact absurd hother (by simp)
          · exact hP _ _ (h.holds.files hother)
      · rw [hmoves.find?, if_neg (hplace name).symm, if_neg (hplace beside).symm, hfile]
      · have hplace := FileSystem.locate_mono hmoves.working hmore hlocate
        exact FileSystem.read_of_locate hplace ((hmoves.find? _).trans (if_pos rfl)) hslash

/-- A file in the cache is replaced at once, or only what is beside it changes. -/
theorem Serves.ends_replace {beside : String} (h : c.Serves P input before fs)
    (hinput : c.IsOutside before input) (hname : path.Names c.directory name)
    (hbeside : (path.withExtension "tmp").Names c.directory beside)
    (hany : ∀ content, P beside content)
    (hP : ∀ name content, P name content → P' name content) (hcontent : P' name content) :
    (FileSystem.replace path content).Ends fs (c.Serves P input before) fun _ fs' =>
      c.Serves P' input before fs' ∧ fs'.read path = .ok content := by
  simp only [FileSystem.replace]
  generalize path.withExtension "tmp" = source at hbeside ⊢
  have hwrite : (FileSystem.write source content).Ends fs (c.Serves P input before) fun _ fs' =>
      c.Serves P input before fs' ∧
        fs'.find? (fs'.placeOf c.directory ++ [beside]) = some (.file content) := by
    have hserves := h.write hinput hbeside hany content
    cases hrun : (FileSystem.write source content).run fs with
    | mk answer fs' =>
      rw [hrun] at hserves
      cases answer with
      | error failure => exact .of_error hrun hserves
      | ok =>
        obtain ⟨place, hplace, hstores⟩ := h.holds.tree.stores_of_write hrun
        refine .of_ok hrun ⟨hserves, ?_⟩
        rw [FileSystem.placeOf_congr hstores.working, hstores.find?,
          if_pos (eq_of_target hbeside hplace).1]
  exact hwrite.bind fun _ fs' ⟨hserves, hwritten⟩ =>
    hserves.ends_move hinput hbeside hname hwritten hP hcontent

/-! ### Names of entries -/

theorem hasEnding_orderPath (c : Cache) (input : Path) (stage : String) :
    (c.orderPath input stage).HasEnding ".order" :=
  c.directory.hasEnding_join _ (by decide)

theorem hasEnding_diagramPath (c : Cache) (input : Path) (engine reordering : String) :
    (c.diagramPath input engine reordering).HasEnding ".dd" :=
  c.directory.hasEnding_join _ (by decide)

theorem placeOf_orderPath_mem (c : Cache) (input : Path) (stage : String) (fs : FileSystem) :
    fs.placeOf (c.orderPath input stage) ∈ FileSystem.placesEnding ".order" :=
  FileSystem.placeOf_mem_placesEnding (c.hasEnding_orderPath input stage) (c := 'r') (by decide)
    (by decide) fs

theorem placeOf_diagramPath_mem (c : Cache) (input : Path) (engine reordering : String)
    (fs : FileSystem) :
    fs.placeOf (c.diagramPath input engine reordering) ∈ FileSystem.placesEnding ".dd" :=
  FileSystem.placeOf_mem_placesEnding (c.hasEnding_diagramPath input engine reordering) (c := 'd')
    (by decide) (by decide) fs

theorem placeOf_lockPath_mem (c : Cache) (input : Path) (fs : FileSystem) :
    fs.placeOf (c.lockPath input) ∈ FileSystem.placesEnding ".lock" :=
  FileSystem.placeOf_mem_placesEnding (c.directory.hasEnding_join _ (by decide)) (c := 'k')
    (by decide) (by decide) fs

theorem placeOf_lockPath_ne (c : Cache) (input : Path) (engine reordering : String)
    (fs : FileSystem) :
    fs.placeOf (c.lockPath input) ≠ fs.placeOf (c.diagramPath input engine reordering) := by
  intro heq
  have hlock := heq ▸ c.placeOf_lockPath_mem input fs
  exact FileSystem.not_mem_placesEnding (c := 'k') (d := 'd') (by decide) (by decide) (by decide)
    hlock (c.placeOf_diagramPath_mem input engine reordering fs)

theorem placeOf_orderPath_ne (c : Cache) (input : Path) (stage engine reordering : String)
    (fs : FileSystem) :
    fs.placeOf (c.orderPath input stage) ≠ fs.placeOf (c.diagramPath input engine reordering) := by
  intro heq
  have horder := heq ▸ c.placeOf_orderPath_mem input stage fs
  exact FileSystem.not_mem_placesEnding (c := 'r') (d := 'd') (by decide) (by decide) (by decide)
    horder (c.placeOf_diagramPath_mem input engine reordering fs)

/-- What follows the name of a file in that of an order, but for the extension. -/
def orderTail (stage : String) : String := "-" ++ stage

/-- What follows the name of a file in that of a diagram, but for the extension. -/
def diagramTail (engine reordering : String) : String :=
  "-" ++ engine ++ if isNoReordering reordering then "" else "-" ++ reordering

theorem orderPath_eq (c : Cache) (input : Path) (stage : String) :
    c.orderPath input stage =
      c.directory.join (input.baseName ++ orderTail stage ++ "." ++ "order") := by
  have hext : ".order" = "." ++ "order" := by decide
  rw [orderPath, orderTail, hext]
  simp only [← String.append_assoc]

theorem diagramPath_eq (c : Cache) (input : Path) (engine reordering : String) :
    c.diagramPath input engine reordering =
      c.directory.join (input.baseName ++ diagramTail engine reordering ++ "." ++ "dd") := by
  have hext : ".dd" = "." ++ "dd" := by decide
  rw [diagramPath, diagramTail, hext]
  simp only [← String.append_assoc]

/-- What is kept for a file is named after it, and so is the file that is written first. -/
theorem names_kept (c : Cache) (hname : input.fileName = some name) {tail ext : String}
    (hdash : '-' ∈ tail.toList) (hslash : '/' ∉ tail.toList) (hext : '.' ∉ ext.toList)
    (hext' : '/' ∉ ext.toList) :
    (c.directory.join (input.baseName ++ tail ++ "." ++ ext)).Names c.directory
        (name ++ tail ++ "." ++ ext) ∧
      ((c.directory.join (input.baseName ++ tail ++ "." ++ ext)).withExtension "tmp").Names
        c.directory (name ++ tail ++ "." ++ "tmp") := by
  rw [Path.baseName, hname, Option.getD_some]
  exact c.directory.names_entry (by simp [hdash])
    (by simp [hslash, (Path.isName_of_fileName hname).2.2]) hext hext' (by decide)

theorem names_order (c : Cache) (hname : input.fileName = some name) {stage : String}
    (hstage : '/' ∉ stage.toList) :
    (c.orderPath input stage).Names c.directory (name ++ orderTail stage ++ "." ++ "order") ∧
      ((c.orderPath input stage).withExtension "tmp").Names c.directory
        (name ++ orderTail stage ++ "." ++ "tmp") := by
  have hdash : ("-" : String).toList = ['-'] := by decide
  rw [orderPath_eq]
  exact c.names_kept hname (by simp [orderTail, hdash]) (by simp [orderTail, hdash, hstage])
    (by decide) (by decide)

theorem names_diagram (c : Cache) (hname : input.fileName = some name) (engine : EngineKind)
    {reordering : String} (hreordering : '/' ∉ reordering.toList) :
    (c.diagramPath input engine.stub reordering).Names c.directory
        (name ++ diagramTail engine.stub reordering ++ "." ++ "dd") ∧
      ((c.diagramPath input engine.stub reordering).withExtension "tmp").Names c.directory
        (name ++ diagramTail engine.stub reordering ++ "." ++ "tmp") := by
  have hdash : ("-" : String).toList = ['-'] := by decide
  have hengine : '/' ∉ engine.stub.toList := by cases engine <;> decide
  have htail : '/' ∉ (diagramTail engine.stub reordering).toList := by
    rw [diagramTail]
    split <;> simp [hdash, hengine, hreordering]
  rw [diagramPath_eq]
  exact c.names_kept hname (by simp [diagramTail, hdash]) htail (by decide) (by decide)

theorem names_orderPath (c : Cache) (hname : input.fileName = some name) (o : Options) :
    ∃ front, (c.orderPath input o.stage).Names c.directory (front ++ ".order") ∧
      ((c.orderPath input o.stage).withExtension "tmp").Names c.directory (front ++ ".tmp") := by
  have hext : ".order" = "." ++ "order" := by decide
  have htmp : ".tmp" = "." ++ "tmp" := by decide
  refine ⟨name ++ orderTail o.stage, ?_⟩
  rw [hext, htmp, ← String.append_assoc, ← String.append_assoc]
  exact c.names_order hname o.not_mem_stage.2

theorem names_diagramPath (c : Cache) (hname : input.fileName = some name) (engine : EngineKind)
    {reordering : String} (hreordering : '/' ∉ reordering.toList) :
    ∃ front, (c.diagramPath input engine.stub reordering).Names c.directory (front ++ ".dd") ∧
      ((c.diagramPath input engine.stub reordering).withExtension "tmp").Names c.directory
        (front ++ ".tmp") := by
  have hext : ".dd" = "." ++ "dd" := by decide
  have htmp : ".tmp" = "." ++ "tmp" := by decide
  refine ⟨name ++ diagramTail engine.stub reordering, ?_⟩
  rw [hext, htmp, ← String.append_assoc, ← String.append_assoc]
  exact c.names_diagram hname engine hreordering

theorem names_lockPath (c : Cache) (hname : input.fileName = some name) :
    (c.lockPath input).Names c.directory (name ++ ".lock") := by
  have hext : (".lock" : String).toList = ['.', 'l', 'o', 'c', 'k'] := by decide
  rw [lockPath, Path.baseName, hname, Option.getD_some]
  refine c.directory.names_join (by simp) ?_ (by simp [hext, (Path.isName_of_fileName hname).2.2])
  exact Path.isName_of_mem (c := 'k') (by simp [hext]) (by decide)

end Cache
end DiagramCompiler
