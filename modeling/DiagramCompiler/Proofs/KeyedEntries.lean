import Mathlib.Data.Set.Insert
import DiagramCompiler.Library.Buddy
import DiagramCompiler.Library.Cudd
import DiagramCompiler.Proofs.KeptCaches

/-! Keys of entries.
An entry of a cache is kept under a key: the name of its file, and the heuristic that found an order
or the engine and the reordering that made a diagram. The parts of a key are joined with dashes,
which names of files and of reorderings may have as well. Still no two keys share a name: what
follows the name of the file is one of a few texts, and none of these ends with another. -/
namespace DiagramCompiler

def EngineKind.reorderings : EngineKind → List String
  | .buddy => Library.Buddy.capabilities.reorderings.map Prod.fst
  | .cudd => Library.Cudd.capabilities.reorderings.map Prod.fst

namespace Cache

/-- The names of the heuristics that orders are kept for. -/
def stages : List String := ["force", "force-triage", "dbo", "dbo-star"]

def IsReordering (engine : EngineKind) (reordering : String) : Prop :=
  isNoReordering reordering = true ∨
    ∃ name ∈ engine.reorderings, Text.sameLetters reordering.toList name.toList = true

/-- What an entry is kept under. -/
inductive Key where
  | order (baseName stage : String)
  /-- A diagram, and the dynamic reordering if there was one. -/
  | diagram (baseName : String) (engine : EngineKind) (reordering : Option String)
  deriving DecidableEq

namespace Key

def baseName : Key → String
  | order baseName _ => baseName
  | diagram baseName _ _ => baseName

def suffix : Option String → String
  | none => ""
  | some reordering => "-" ++ reordering

/-- What follows the name of the file in the name of an entry, but for the extension. -/
def tail : Key → String
  | order _ stage => "-" ++ stage
  | diagram _ engine reordering => "-" ++ engine.stub ++ suffix reordering

def extension : Key → String
  | order _ _ => "order"
  | diagram _ _ _ => "dd"

def name (k : Key) : String := k.baseName ++ k.tail ++ "." ++ k.extension

def besideName (k : Key) : String := k.baseName ++ k.tail ++ "." ++ "tmp"

def path (k : Key) (c : Cache) : Path := c.directory.join k.name

/-- Whether there are entries of the kind, whatever the file is called. -/
def IsKnown : Key → Prop
  | order _ stage => stage ∈ stages
  | diagram _ engine reordering => ∀ r ∈ reordering,
    ∃ name ∈ engine.reorderings, Text.sameLetters r.toList name.toList = true

def ofOrder (input : Path) (stage : String) : Key := order input.baseName stage

def ofDiagram (input : Path) (engine : EngineKind) (reordering : String) : Key :=
  diagram input.baseName engine (if isNoReordering reordering then none else some reordering)

theorem path_ofOrder (c : Cache) (input : Path) (stage : String) :
    (ofOrder input stage).path c = c.orderPath input stage := (c.orderPath_eq input stage).symm

theorem path_ofDiagram (c : Cache) (input : Path) (engine : EngineKind) (reordering : String) :
    (ofDiagram input engine reordering).path c = c.diagramPath input engine.stub reordering := by
  rw [diagramPath_eq, path, name, ofDiagram, diagramTail]
  split <;> simp [baseName, tail, suffix, extension, String.append_assoc]

theorem isKnown_ofDiagram {input : Path} {engine : EngineKind} {reordering : String}
    (h : IsReordering engine reordering) : (ofDiagram input engine reordering).IsKnown := by
  intro r hr
  split at hr
  · exact absurd hr (by simp)
  · next hsome =>
    obtain rfl : reordering = r := by simpa using hr
    exact h.resolve_left hsome

/-! ### Tails -/

def tails : List (List Char) :=
  stages.map (fun stage => ("-" ++ stage).toList) ++
    EngineKind.all.flatMap fun engine => ("-" ++ engine.stub).toList ::
      engine.reorderings.map fun r => ("-" ++ engine.stub ++ suffix (some r)).toList

theorem eq_of_suffix : ∀ a ∈ tails, ∀ b ∈ tails, a <:+ b → a = b := by decide +kernel

/-- The names of heuristics, engines and reorderings are in small letters and have no slashes. -/
theorem map_lower_of_mem_tails : ∀ a ∈ tails, a.map Text.lower = a ∧ '/' ∉ a := by decide +kernel

variable {k k' : Key}

theorem map_lower_tail_mem (hk : k.IsKnown) : k.tail.toList.map Text.lower ∈ tails := by
  cases k with
  | order baseName stage =>
    have hmem : ("-" ++ stage).toList ∈ tails :=
      List.mem_append_left _ (List.mem_map_of_mem (f := fun stage => ("-" ++ stage).toList) hk)
    rw [tail, (map_lower_of_mem_tails _ hmem).1]
    exact hmem
  | diagram baseName engine reordering =>
    have hengine : engine ∈ EngineKind.all := by cases engine <;> decide
    cases reordering with
    | none =>
      have hmem : ("-" ++ engine.stub).toList ∈ tails :=
        List.mem_append_right _ (List.mem_flatMap.2 ⟨engine, hengine, List.mem_cons_self⟩)
      rw [tail, suffix, String.append_empty, (map_lower_of_mem_tails _ hmem).1]
      exact hmem
    | some r =>
      obtain ⟨name, hname, hsame⟩ := hk r rfl
      have hmem : ("-" ++ engine.stub ++ suffix (some name)).toList ∈ tails :=
        List.mem_append_right _ (List.mem_flatMap.2 ⟨engine, hengine, List.mem_cons_of_mem _
          (List.mem_map_of_mem (f := fun r => ("-" ++ engine.stub ++ suffix (some r)).toList)
            hname)⟩)
      have hletters : r.toList.map Text.lower = name.toList.map Text.lower := by
        simpa [Text.sameLetters] using hsame
      have htail : (tail (diagram baseName engine (some r))).toList.map Text.lower =
          ("-" ++ engine.stub ++ suffix (some name)).toList.map Text.lower := by
        simp [tail, suffix, hletters]
      rw [htail, (map_lower_of_mem_tails _ hmem).1]
      exact hmem

theorem append_tail_inj (hk : k.IsKnown) (hk' : k'.IsKnown)
    (h : k.baseName ++ k.tail = k'.baseName ++ k'.tail) :
    k.baseName = k'.baseName ∧ k.tail = k'.tail := by
  have hchars : k.baseName.toList ++ k.tail.toList = k'.baseName.toList ++ k'.tail.toList := by
    rw [← String.toList_append, h, String.toList_append]
  have hlower : k.baseName.toList.map Text.lower ++ k.tail.toList.map Text.lower =
      k'.baseName.toList.map Text.lower ++ k'.tail.toList.map Text.lower := by
    rw [← List.map_append, hchars, List.map_append]
  have htail : k.tail.toList.map Text.lower = k'.tail.toList.map Text.lower := by
    have hmem := map_lower_tail_mem hk
    have hmem' := map_lower_tail_mem hk'
    have hends : k.tail.toList.map Text.lower <:+
        k'.baseName.toList.map Text.lower ++ k'.tail.toList.map Text.lower :=
      hlower ▸ List.suffix_append _ _
    rcases List.suffix_or_suffix_of_suffix hends (List.suffix_append _ _) with hends | hends
    · exact eq_of_suffix _ hmem _ hmem' hends
    · exact (eq_of_suffix _ hmem' _ hmem hends).symm
  have hlength : k.tail.toList.length = k'.tail.toList.length := by
    simpa using congrArg List.length htail
  obtain ⟨hbase, htail⟩ := List.append_inj' hchars hlength
  exact ⟨String.toList_inj.1 hbase, String.toList_inj.1 htail⟩

theorem getElem?_tail_order (baseName : String) {stage : String} (h : stage ∈ stages) :
    (tail (order baseName stage)).toList[1]? = some 'f' ∨
      (tail (order baseName stage)).toList[1]? = some 'd' := by
  revert stage
  simp only [tail]
  decide

theorem getElem?_tail_diagram (baseName : String) (engine : EngineKind) (r : Option String) :
    (tail (diagram baseName engine r)).toList[1]? = engine.stub.toList.head? := by
  have hbuddy : ("buddy" : String).toList = ['b', 'u', 'd', 'd', 'y'] := by decide
  have hcudd : ("cudd" : String).toList = ['c', 'u', 'd', 'd'] := by decide
  cases engine <;> simp [tail, hbuddy, hcudd, EngineKind.stub]

theorem tail_order_ne (baseName baseName' : String) {stage : String} (h : stage ∈ stages)
    (engine : EngineKind) (r : Option String) :
    tail (order baseName stage) ≠ tail (diagram baseName' engine r) := by
  intro heq
  have hfirst := getElem?_tail_order baseName h
  rw [heq, getElem?_tail_diagram] at hfirst
  revert hfirst
  cases engine <;> decide

theorem suffix_inj {r r' : Option String} (h : suffix r = suffix r') : r = r' := by
  cases r <;> cases r' <;> simp_all [suffix]

theorem eq_of_tail_eq (hk : k.IsKnown) (hk' : k'.IsKnown) (hbase : k.baseName = k'.baseName)
    (htail : k.tail = k'.tail) : k = k' := by
  cases k with
  | order baseName stage =>
    cases k' with
    | order baseName' stage' =>
      obtain rfl : baseName = baseName' := hbase
      obtain rfl : stage = stage' := by simpa [tail] using htail
      rfl
    | diagram baseName' engine r => exact absurd htail (tail_order_ne _ _ hk _ _)
  | diagram baseName engine r =>
    cases k' with
    | order baseName' stage => exact absurd htail.symm (tail_order_ne _ _ hk' _ _)
    | diagram baseName' engine' r' =>
      obtain rfl : baseName = baseName' := hbase
      obtain rfl : engine = engine' := by
        have hfirst := getElem?_tail_diagram baseName engine r
        rw [htail, getElem?_tail_diagram] at hfirst
        revert hfirst
        cases engine <;> cases engine' <;> decide
      obtain rfl : r = r' := suffix_inj (by simpa [tail] using htail)
      rfl

theorem eq_of_append_tail_eq (hk : k.IsKnown) (hk' : k'.IsKnown)
    (h : k.baseName ++ k.tail = k'.baseName ++ k'.tail) : k = k' :=
  have ⟨hbase, htail⟩ := append_tail_inj hk hk' h
  eq_of_tail_eq hk hk' hbase htail

/-! ### Names -/

theorem extension_eq (k : Key) : k.extension = "order" ∨ k.extension = "dd" := by
  cases k
  · exact .inl rfl
  · exact .inr rfl

theorem getLast?_name (k : Key) : k.name.toList.getLast? = k.extension.toList.getLast? := by
  have horder : ("order" : String).toList = ['o', 'r', 'd', 'e', 'r'] := by decide
  have hdiagram : ("dd" : String).toList = ['d', 'd'] := by decide
  cases k <;> simp [name, extension, horder, hdiagram]

theorem eq_of_name_eq (hk : k.IsKnown) (hk' : k'.IsKnown) (h : k.name = k'.name) : k = k' := by
  have hext : k.extension = k'.extension := by
    have hlast := getLast?_name k
    rw [h, getLast?_name] at hlast
    revert hlast
    rcases k.extension_eq with heq | heq <;> rcases k'.extension_eq with heq' | heq' <;>
      rw [heq, heq'] <;> decide
  rw [name, name, hext] at h
  exact eq_of_append_tail_eq hk hk' (by simpa using h)

theorem eq_of_besideName_eq (hk : k.IsKnown) (hk' : k'.IsKnown) (h : k.besideName = k'.besideName) :
    k = k' :=
  eq_of_append_tail_eq hk hk' (by simpa [besideName] using h)

theorem name_ne_besideName (k k' : Key) : k.name ≠ k'.besideName := by
  intro h
  have htmp : ("tmp" : String).toList = ['t', 'm', 'p'] := by decide
  have hbeside : k'.besideName.toList.getLast? = some 'p' := by simp [besideName, htmp]
  rw [← h, getLast?_name] at hbeside
  revert hbeside
  rcases k.extension_eq with heq | heq <;> rw [heq] <;> decide

/-- The paths at which an entry is written, for a file with a name. -/
theorem names_path (hk : k.IsKnown) (hbase : '/' ∉ k.baseName.toList) (c : Cache) :
    (k.path c).Names c.directory k.name ∧
      ((k.path c).withExtension "tmp").Names c.directory k.besideName := by
  have hdash : '-' ∈ k.tail.toList := by
    have hdash : ("-" : String).toList = ['-'] := by decide
    cases k <;> simp [tail, hdash]
  have hslash : '/' ∉ k.tail.toList := fun hmem => by
    have hlower : Text.lower '/' = '/' := by decide
    exact (map_lower_of_mem_tails _ (map_lower_tail_mem hk)).2
      (hlower ▸ List.mem_map_of_mem (f := Text.lower) hmem)
  have hext : '.' ∉ k.extension.toList ∧ '/' ∉ k.extension.toList := by
    rcases k.extension_eq with heq | heq <;> rw [heq] <;> decide
  exact c.directory.names_entry (by simp [hdash]) (by simp [hbase, hslash]) hext.1 hext.2 (by decide)

/-! ### Places -/

def besidePath (k : Key) (c : Cache) : Path := (k.path c).withExtension "tmp"

/-- Whether something can be kept under a key: there are such entries, and a file can be called
so. -/
structure CanHold (k : Key) : Prop where
  isKnown : k.IsKnown
  noSlash : '/' ∉ k.baseName.toList

variable {c : Cache} {fs : FileSystem}

theorem canHold_of_read (ht : fs.IsTree) (hk : k.IsKnown) {input : Path}
    (hbase : k.baseName = input.baseName) {content : Bytes} (hread : fs.read input = .ok content) :
    k.CanHold := by
  obtain ⟨name, hname⟩ := ht.exists_fileName hread
  refine ⟨hk, ?_⟩
  rw [hbase, Path.baseName, hname]
  exact (Path.isName_of_fileName hname).2.2

theorem CanHold.placeOf_path (hk : k.CanHold) (c : Cache) (fs : FileSystem) :
    fs.placeOf (k.path c) = fs.placeOf c.directory ++ [k.name] :=
  FileSystem.placeOf_of_names (names_path hk.isKnown hk.noSlash c).1

theorem CanHold.placeOf_besidePath (hk : k.CanHold) (c : Cache) (fs : FileSystem) :
    fs.placeOf (k.besidePath c) = fs.placeOf c.directory ++ [k.besideName] :=
  FileSystem.placeOf_of_names (names_path hk.isKnown hk.noSlash c).2

theorem CanHold.placeOf_path_ne (hk : k.CanHold) (hk' : k'.CanHold) (hne : k ≠ k') :
    fs.placeOf (k.path c) ≠ fs.placeOf (k'.path c) := by
  rw [hk.placeOf_path, hk'.placeOf_path]
  simpa using fun h => hne (eq_of_name_eq hk.isKnown hk'.isKnown h)

theorem CanHold.placeOf_besidePath_ne (hk : k.CanHold) (hk' : k'.CanHold) (hne : k ≠ k') :
    fs.placeOf (k.besidePath c) ≠ fs.placeOf (k'.besidePath c) := by
  rw [hk.placeOf_besidePath, hk'.placeOf_besidePath]
  simpa using fun h => hne (eq_of_besideName_eq hk.isKnown hk'.isKnown h)

theorem CanHold.placeOf_path_ne_besidePath (hk : k.CanHold) (hk' : k'.CanHold) :
    fs.placeOf (k.path c) ≠ fs.placeOf (k'.besidePath c) := by
  rw [hk.placeOf_path, hk'.placeOf_besidePath]
  simpa using name_ne_besideName k k'

def places (k : Key) (c : Cache) (fs : FileSystem) : Set Location :=
  {fs.placeOf (k.besidePath c), fs.placeOf (k.path c)}

theorem CanHold.placeOf_path_notMem (hk : k.CanHold) (hk' : k'.CanHold) (hne : k ≠ k') :
    fs.placeOf (k.path c) ∉ k'.places c fs := by
  simp [places, hk.placeOf_path_ne_besidePath hk', hk.placeOf_path_ne hk' hne]

theorem CanHold.placeOf_besidePath_notMem (hk : k.CanHold) (hk' : k'.CanHold) (hne : k ≠ k') :
    fs.placeOf (k.besidePath c) ∉ k'.places c fs := by
  simp [places, hk.placeOf_besidePath_ne hk' hne, (hk'.placeOf_path_ne_besidePath hk).symm]

end Key
end Cache
end DiagramCompiler
