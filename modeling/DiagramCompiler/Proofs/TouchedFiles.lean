import Mathlib.Data.Set.Insert
import DiagramCompiler.Cache
import DiagramCompiler.Proofs.WrittenFiles

/-! Files that actions touch.
An action on files touches some places: elsewhere no file comes, goes or changes, and no directory
goes anywhere. What is read at other places is read as before. A file that is replaced is touched
together with the one beside it, and if that fails, only the latter is. -/
namespace DiagramCompiler
namespace FileSystem

variable {fs fs' fs'' : FileSystem} {places others : Set Location} {place : Location}
  {p q : Path} {content : Bytes}

/-- Whether files have changed at most at some places, and all directories are still there. -/
structure Touches (fs : FileSystem) (places : Set Location) (fs' : FileSystem) : Prop where
  tree : fs'.IsTree
  working : fs'.working = fs.working
  find?_file {place : Location} (h : place ∉ places) (content : Bytes) :
    fs'.find? place = some (.file content) ↔ fs.find? place = some (.file content)
  find?_directory {place : Location} (h : fs.find? place = some .directory) :
    fs'.find? place = some .directory

/-- Whether the same file is where a path leads, or none. -/
def SameAt (fs : FileSystem) (p : Path) (fs' : FileSystem) : Prop :=
  ∀ content, fs'.find? (fs'.placeOf p) = some (.file content) ↔
    fs.find? (fs.placeOf p) = some (.file content)

namespace Touches

theorem refl (ht : fs.IsTree) (places : Set Location) : fs.Touches places fs :=
  ⟨ht, rfl, fun _ _ => Iff.rfl, id⟩

theorem trans (h : fs.Touches places fs') (h' : fs'.Touches places fs'') :
    fs.Touches places fs'' where
  tree := h'.tree
  working := h'.working.trans h.working
  find?_file hplace content := (h'.find?_file hplace content).trans (h.find?_file hplace content)
  find?_directory hplace := h'.find?_directory (h.find?_directory hplace)

theorem mono (h : fs.Touches places fs') (hsub : places ⊆ others) : fs.Touches others fs' :=
  ⟨h.tree, h.working, fun hplace => h.find?_file fun hmem => hplace (hsub hmem), h.find?_directory⟩

theorem placeOf (h : fs.Touches places fs') (p : Path) : fs'.placeOf p = fs.placeOf p :=
  placeOf_congr h.working p

theorem sameAt (h : fs.Touches places fs') (hp : fs.placeOf p ∉ places) : fs.SameAt p fs' :=
  fun content => h.placeOf p ▸ h.find?_file hp content

theorem read (h : fs.Touches places fs') (hq : fs.placeOf q ∉ places)
    (hread : fs.read q = .ok content) : fs'.read q = .ok content := by
  obtain ⟨place, hplace, hfile⟩ := exists_of_read hread
  rw [eq_placeOf_of_locate hplace] at hfile
  refine read_mono h.working (fun _ => h.find?_directory) ?_ hread
  rw [hfile, h.find?_file hq]
  exact hfile

end Touches

/-! ### Actions -/

theorem Widens.touches (h : fs.Widens fs') (places : Set Location) : fs.Touches places fs' where
  tree := h.tree
  working := h.working
  find?_file {place} _ content := by
    refine ⟨h.find?_file, fun hfile => ?_⟩
    rcases h.find? place with hsame | ⟨hnone, -⟩
    · exact hsame.trans hfile
    · exact absurd (hnone.symm.trans hfile) (by simp)
  find?_directory := h.find?_directory

theorem Stores.touches (h : fs.Stores place content fs')
    (hfree : fs.find? place ≠ some .directory) : fs.Touches {place} fs' where
  tree := h.tree
  working := h.working
  find?_file {other} hother found := by
    rw [h.find?, if_neg fun heq => hother heq.symm]
  find?_directory := h.find?_directory hfree

theorem IsTree.touches_write (ht : fs.IsTree) (p : Path) (content : Bytes) :
    fs.Touches {fs.placeOf p} ((FileSystem.write p content).run fs).2 := by
  cases hplace : fs.target p with
  | error fault =>
    rw [write_of_target_error hplace]
    exact .refl ht _
  | ok place =>
    rcases ht.write hplace content with hsame | ⟨kept, -, hstores⟩
    · rw [hsame]
      exact .refl ht _
    · obtain ⟨hlocate, -, hfree⟩ := locate_of_target hplace
      obtain rfl := eq_placeOf_of_locate hlocate
      exact hstores.touches hfree

theorem IsTree.touches_move (ht : fs.IsTree) (p q : Path) :
    fs.Touches {fs.placeOf p, fs.placeOf q} ((FileSystem.move p q).run fs).2 := by
  cases hrun : (FileSystem.move p q).run fs with
  | mk answer fs' =>
    cases answer with
    | error failure => exact move_of_error hrun ▸ .refl ht _
    | ok =>
      obtain ⟨moved, here, there, hhere, hthere, hmoves⟩ := ht.move hrun
      obtain ⟨hlocate, -, hfree⟩ := locate_of_target hthere
      obtain rfl := eq_placeOf_of_locate hhere
      obtain rfl := eq_placeOf_of_locate hlocate
      refine ⟨hmoves.tree, hmoves.working, fun {place} hplace content => ?_,
        hmoves.find?_directory hfree⟩
      have hne : fs.placeOf p ≠ place ∧ fs.placeOf q ≠ place := by
        simpa [eq_comm] using hplace
      rw [hmoves.find?, if_neg hne.2, if_neg hne.1]

theorem IsTree.ends_replace (ht : fs.IsTree) (p : Path) (content : Bytes) :
    (FileSystem.replace p content).Ends fs (fs.Touches {fs.placeOf (p.withExtension "tmp")})
      fun _ fs' => fs.Touches {fs.placeOf (p.withExtension "tmp"), fs.placeOf p} fs' ∧
        fs'.read p = .ok content := by
  have htouch := ht.touches_write (p.withExtension "tmp") content
  have hwrite : (FileSystem.write (p.withExtension "tmp") content).Ends fs
      (fs.Touches {fs.placeOf (p.withExtension "tmp")}) fun _ fs' =>
        fs.Touches {fs.placeOf (p.withExtension "tmp")} fs' ∧
          fs'.read (p.withExtension "tmp") = .ok content := by
    refine ⟨fun h => ?_, fun h => ?_⟩
    · rw [h] at htouch
      exact ⟨htouch, read_of_write h⟩
    · rwa [h] at htouch
  refine hwrite.bind fun _ between ⟨hwritten, hread⟩ => ⟨fun h => ?_, fun h => ?_⟩
  · have hmove := hwritten.tree.touches_move (p.withExtension "tmp") p
    rw [h, hwritten.placeOf, hwritten.placeOf] at hmove
    exact ⟨(hwritten.mono (by simp)).trans hmove, read_of_move hread h⟩
  · exact move_of_error h ▸ hwritten

end FileSystem

/-! ### Entries of caches -/

namespace Cache

variable {fs : FileSystem}

theorem ends_keep (ht : fs.IsTree) (input path : Path) (entry : String → Bytes) :
    (do
      let digest ← digestOf input
      FileSystem.replace path (entry digest)
      return path : Action FileSystem Path).Ends fs
      (fs.Touches {fs.placeOf (path.withExtension "tmp")}) fun found fs' => found = path ∧
        fs.Touches {fs.placeOf (path.withExtension "tmp"), fs.placeOf path} fs' ∧
        ∃ content, fs.read input = .ok content ∧ fs'.read path = .ok (entry content.digest) := by
  have hdigest : (digestOf input).Ends fs
      (fs.Touches {fs.placeOf (path.withExtension "tmp")}) fun digest fs' => fs' = fs ∧
        ∃ content, fs.read input = .ok content ∧ digest = content.digest := by
    cases hread : fs.read input with
    | error fault => exact .of_error (run_digestOf_of_error hread) (.refl ht _)
    | ok content => exact .of_ok (run_digestOf_of_read hread) ⟨rfl, content, rfl, rfl⟩
  refine hdigest.bind ?_
  rintro _ _ ⟨rfl, content, hread, rfl⟩
  exact (ht.ends_replace path _).bind fun _ fs' ⟨htouch, hkept⟩ =>
    .pure ⟨rfl, htouch, content, hread, hkept⟩

end Cache
end DiagramCompiler
