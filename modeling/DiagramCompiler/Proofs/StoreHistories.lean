import DiagramCompiler.Proofs.CachedDiagrams
import DiagramCompiler.Proofs.KeyedEntries
import DiagramCompiler.Proofs.StoredOrders
import DiagramCompiler.Proofs.TouchedFiles

/-! Histories of caches.
Orders and diagrams are kept for files, again and again and sometimes in vain, and meanwhile what is
outside the cache is edited. Each time the entry under a key is what was last kept under it, with the
digest of what the file held then. So an order is found exactly if it was the last one under its key
and the file still holds, or holds again, what it was kept for. -/
namespace DiagramCompiler
namespace Cache

/-! ### Requests -/

/-- An order or a diagram that is to be kept for a file. -/
inductive Request where
  | order (input : Path) (stage : String) (order : VariableOrder)
  | diagram (input : Path) (engine : EngineKind) (reordering : String) (dump : Dump)

namespace Request

def input : Request → Path
  | order input _ _ => input
  | diagram input _ _ _ => input

def key : Request → Key
  | order input stage _ => .ofOrder input stage
  | diagram input engine reordering _ => .ofDiagram input engine reordering

def run (c : Cache) : Request → Action FileSystem Path
  | order input stage found => c.storeOrder input stage found
  | diagram input engine reordering dump => c.storeDiagram input engine.stub reordering dump

def entry (digest : String) : Request → Bytes
  | order input _ found => .ofText (orderText input digest found)
  | diagram input _ _ dump => (tagged input digest dump).bytes

/-- Whether the heuristic or the reordering is a known one. An order has fewer variables than there
are numbers of 32 bits. -/
def IsKnown : Request → Prop
  | order _ stage found => stage ∈ stages ∧ found.length < UInt32.size
  | diagram _ engine reordering _ => IsReordering engine reordering

variable {r : Request} {c : Cache} {fs : FileSystem}

theorem isKnown_key (hr : r.IsKnown) : r.key.IsKnown := by
  cases r with
  | order input stage order => exact hr.1
  | diagram input engine reordering dump => exact Key.isKnown_ofDiagram hr

theorem baseName_key (r : Request) : r.key.baseName = r.input.baseName := by
  cases r <;> rfl

theorem run_eq (r : Request) (c : Cache) : r.run c = (do
    let digest ← digestOf r.input
    FileSystem.replace (r.key.path c) (r.entry digest)
    return r.key.path c) := by
  cases r with
  | order input stage order => rw [key, Key.path_ofOrder]; rfl
  | diagram input engine reordering dump => rw [key, Key.path_ofDiagram]; rfl

theorem run_of_read_error {fault : FileFault} (h : fs.read r.input = .error fault) :
    (r.run c).run fs = (.error (.file r.input fault), fs) := by
  rw [run_eq]
  exact Action.run_bind_of_error (run_digestOf_of_error h) _

/-- A request fills the entry under its key, or at most touches the file beside it. -/
theorem ends_run (ht : fs.IsTree) (hr : r.IsKnown) (c : Cache) : (r.run c).Ends fs
    (fun fs' => fs.Touches {place | r.key.CanHold ∧ place = fs.placeOf (r.key.besidePath c)} fs')
    fun path fs' => path = r.key.path c ∧ r.key.CanHold ∧
      fs.Touches (r.key.places c fs) fs' ∧
      ∃ content, fs.read r.input = .ok content ∧
        fs'.read (r.key.path c) = .ok (r.entry content.digest) := by
  cases hread : fs.read r.input with
  | error fault => exact .of_error (run_of_read_error hread) (.refl ht _)
  | ok content =>
    have hkey := Key.canHold_of_read ht (isKnown_key hr) (baseName_key r) hread
    rw [run_eq]
    refine (ends_keep ht r.input (r.key.path c) fun digest => r.entry digest).mono
      (fun fs' htouch => htouch.mono fun place hplace => ⟨hkey, hplace⟩) ?_
    rintro path fs' ⟨hpath, htouch, found, hfound, hkept⟩
    obtain rfl := Except.ok.inj (hread.symm.trans hfound)
    exact ⟨hpath, hkey, htouch, content, rfl, hkept⟩

end Request

/-! ### Histories -/

/-- What was kept for a file, and what the file held then. -/
structure Kept where
  request : Request
  hashed : Bytes

def Kept.entry (d : Kept) : Bytes := d.request.entry d.hashed.digest

structure History where
  files : FileSystem
  /-- What was last kept under each key. -/
  latest : Key → Option Kept

namespace History

def start (files : FileSystem) : History := ⟨files, fun _ => none⟩

/-- Whether no file holds something else with the digest that something was kept with. -/
def IsCollisionFree (s : History) : Prop :=
  ∀ k d, s.latest k = some d → ∀ input content, s.files.read input = .ok content →
    content.digest = d.hashed.digest → content = d.hashed

end History

def outside (c : Cache) (fs : FileSystem) : Set Location :=
  {place | ∀ name, place ≠ fs.placeOf c.directory ++ [name]}

/-- A request that is carried out or fails, or an edit outside the cache. -/
inductive Step (c : Cache) : History → History → Prop where
  | keeps {s : History} {r : Request} {hashed : Bytes} {path : Path} {files : FileSystem}
      (hr : r.IsKnown) (hread : s.files.read r.input = .ok hashed)
      (hrun : (r.run c).run s.files = (.ok path, files)) :
      Step c s ⟨files, Function.update s.latest r.key (some ⟨r, hashed⟩)⟩
  | fails {s : History} {r : Request} {failure : Failure} {files : FileSystem} (hr : r.IsKnown)
      (hrun : (r.run c).run s.files = (.error failure, files)) : Step c s { s with files }
  | edits {s : History} {files : FileSystem} (h : s.files.Touches (c.outside s.files) files) :
      Step c s { s with files }

/-- Whether some requests and edits lead from one history to another. -/
def Reaches (c : Cache) : History → History → Prop := Relation.ReflTransGen (Step c)

/-! ### What a cache holds -/

/-- Whether the entries of a cache are those that were last kept under their keys. -/
structure History.IsFaithful (c : Cache) (s : History) : Prop where
  tree : s.files.IsTree
  known {k : Key} {d : Kept} (h : s.latest k = some d) :
    k.CanHold ∧ d.request.key = k ∧ d.request.IsKnown
  kept {k : Key} {d : Kept} (h : s.latest k = some d) : s.files.read (k.path c) = .ok d.entry
  missing {k : Key} (hk : k.CanHold) (h : s.latest k = none) (content : Bytes) :
    s.files.find? (s.files.placeOf (k.path c)) ≠ some (.file content)

variable {c : Cache} {s s' : History} {k : Key}

theorem History.isFaithful_start {files : FileSystem} (htree : files.IsTree)
    (hfresh : Interleaving.IsFresh c files) : (start files).IsFaithful c where
  tree := htree
  known h := absurd h (by simp [start])
  kept h := absurd h (by simp [start])
  missing hk _ content := by
    rw [hk.placeOf_path]
    exact hfresh _ content

theorem History.IsFaithful.of_touches (hs : s.IsFaithful c) {places : Set Location}
    {files : FileSystem} (h : s.files.Touches places files)
    (hplaces : ∀ k : Key, k.CanHold → s.files.placeOf (k.path c) ∉ places) :
    History.IsFaithful c { s with files } where
  tree := h.tree
  known := hs.known
  kept hlatest := h.read (hplaces _ (hs.known hlatest).1) (hs.kept hlatest)
  missing hk hlatest content := by
    rw [h.placeOf]
    exact mt (h.find?_file (hplaces _ hk) content).1 (hs.missing hk hlatest content)

theorem Step.isFaithful (h : Step c s s') (hs : s.IsFaithful c) : s'.IsFaithful c := by
  cases h with
  | @keeps r hashed path files hr hread hrun =>
    obtain ⟨-, hkey, htouch, content, hcontent, hkept⟩ := (r.ends_run hs.tree hr c).ok hrun
    obtain rfl := Except.ok.inj (hcontent.symm.trans hread)
    -- under the key there is what was just kept, and under others what was kept there before
    refine ⟨htouch.tree, fun {k d} hlatest => ?_, fun {k d} hlatest => ?_, fun {k} hk hlatest => ?_⟩
    · simp only [Function.update_apply] at hlatest
      split at hlatest
      · next heq =>
        obtain rfl := Option.some.inj hlatest
        subst heq
        exact ⟨hkey, rfl, hr⟩
      · exact hs.known hlatest
    · simp only [Function.update_apply] at hlatest
      split at hlatest
      · next heq =>
        obtain rfl := Option.some.inj hlatest
        subst heq
        exact hkept
      · next hne =>
        have hk := (hs.known hlatest).1
        exact htouch.read (hk.placeOf_path_notMem hkey hne) (hs.kept hlatest)
    · simp only [Function.update_apply] at hlatest
      split at hlatest
      · exact absurd hlatest (by simp)
      · next hne =>
        intro content hfile
        rw [htouch.placeOf, htouch.find?_file (hk.placeOf_path_notMem hkey hne)] at hfile
        exact hs.missing hk hlatest content hfile
  | @fails r failure files hr hrun =>
    refine hs.of_touches ((r.ends_run hs.tree hr c).error hrun) fun k hk => ?_
    rintro ⟨hkey, heq⟩
    exact hk.placeOf_path_ne_besidePath hkey heq
  | edits h =>
    refine hs.of_touches h fun k hk hplace => ?_
    exact hplace k.name (hk.placeOf_path c s.files)

theorem Reaches.isFaithful (h : Reaches c s s') (hs : s.IsFaithful c) : s'.IsFaithful c := by
  induction h with
  | refl => exact hs
  | tail _ hstep ih => exact hstep.isFaithful ih

namespace History.IsFaithful

/-- What is read where an entry can be is what was last kept there. -/
theorem read_eq (hs : s.IsFaithful c) (hk : k.CanHold) :
    (s.files.read (k.path c)).toOption = (s.latest k).map Kept.entry := by
  cases hlatest : s.latest k with
  | some d => rw [hs.kept hlatest]; rfl
  | none =>
    cases hread : s.files.read (k.path c) with
    | error fault => rfl
    | ok content =>
      obtain ⟨place, hplace, hfile⟩ := FileSystem.exists_of_read hread
      rw [FileSystem.eq_placeOf_of_locate hplace] at hfile
      exact absurd hfile (hs.missing hk hlatest content)

theorem exists_latest (hs : s.IsFaithful c) (hk : k.CanHold) {content : Bytes}
    (hread : s.files.read (k.path c) = .ok content) : ∃ d, s.latest k = some d := by
  have heq := hs.read_eq hk
  rw [hread] at heq
  obtain ⟨d, hlatest, -⟩ := Option.map_eq_some_iff.1 heq.symm
  exact ⟨d, hlatest⟩

/-- An order is found if it was the last one and the input holds what it was kept for. -/
theorem order?_eq_some_iff (hs : s.IsFaithful c) (hfree : s.IsCollisionFree) (input : Path)
    {stage : String} (hstage : stage ∈ stages) (n : Nat) (order : VariableOrder) :
    c.order? input stage n s.files = some order ↔ ∃ source hashed,
      s.latest (.ofOrder input stage) = some ⟨.order source stage order, hashed⟩ ∧
        order.length = n ∧ s.files.read input = .ok hashed := by
  constructor
  · intro h
    obtain ⟨⟨content, hentry⟩, current, hinput⟩ := exists_read_of_order? h
    have hkey : (Key.ofOrder input stage).CanHold := Key.canHold_of_read hs.tree hstage rfl hinput
    rw [← Key.path_ofOrder] at hentry
    obtain ⟨⟨r, hashed⟩, hlatest⟩ := hs.exists_latest hkey hentry
    obtain ⟨-, hrequest, hknown⟩ := hs.known hlatest
    have hkept := hs.kept hlatest
    cases r with
    | diagram source engine reordering dump =>
      exact absurd hrequest (by simp [Request.key, Key.ofOrder, Key.ofDiagram])
    | order source stage' stored =>
      obtain ⟨-, rfl⟩ : source.baseName = input.baseName ∧ stage' = stage := by
        simpa [Request.key, Key.ofOrder] using hrequest
      rw [Key.path_ofOrder] at hkept
      obtain ⟨rfl, hlength, found, hfound, hdigest⟩ :=
        (order?_eq_some_iff_of_read hknown.2 hkept).1 h
      obtain rfl := hfree _ _ hlatest input found hfound hdigest.symm
      exact ⟨source, found, hlatest, hlength, hfound⟩
  · rintro ⟨source, hashed, hlatest, hlength, hinput⟩
    have hkept := hs.kept hlatest
    rw [Key.path_ofOrder] at hkept
    exact (order?_eq_some_iff_of_read (hs.known hlatest).2.2.2 hkept).2
      ⟨rfl, hlength, hashed, hinput, rfl⟩

/-- A request leaves all other entries as they are, and the files beside them. -/
theorem ends_run (hs : s.IsFaithful c) {r : Request} (hr : r.IsKnown) : (r.run c).Ends s.files
    (fun files => ∀ k : Key, k.CanHold → s.files.SameAt (k.path c) files ∧
      (k ≠ r.key → s.files.SameAt (k.besidePath c) files))
    fun path files => path = r.key.path c ∧ ∀ k : Key, k.CanHold → k ≠ r.key →
      s.files.SameAt (k.path c) files ∧ s.files.SameAt (k.besidePath c) files := by
  refine (r.ends_run hs.tree hr c).mono (fun files htouch k hk => ⟨?_, fun hne => ?_⟩)
    fun path files ⟨hpath, hkey, htouch, _⟩ => ⟨hpath, fun k hk hne => ⟨?_, ?_⟩⟩
  · exact htouch.sameAt fun ⟨hkey, heq⟩ => hk.placeOf_path_ne_besidePath hkey heq
  · exact htouch.sameAt fun ⟨hkey, heq⟩ => hk.placeOf_besidePath_ne hkey hne heq
  · exact htouch.sameAt (hk.placeOf_path_notMem hkey hne)
  · exact htouch.sameAt (hk.placeOf_besidePath_notMem hkey hne)

end History.IsFaithful

/-- At every time of a history that starts with a fresh cache, an order is found exactly if it was
kept last under the name of the input and its heuristic, it has the number of variables, and the
input has the content that was hashed for it. Each entry holds what was last kept under its key, and
whatever is kept next leaves the entries under other keys as they are and the files beside them. If
it is not kept, it leaves its own entry as it is as well. -/
theorem entries_are_latest {files : FileSystem} (htree : files.IsTree)
    (hfresh : Interleaving.IsFresh c files) (hreaches : Reaches c (.start files) s)
    (hfree : s.IsCollisionFree) :
    (∀ (input : Path), ∀ stage ∈ stages, ∀ (n : Nat) (order : VariableOrder),
      c.order? input stage n s.files = some order ↔ ∃ source hashed,
        s.latest (.ofOrder input stage) = some ⟨.order source stage order, hashed⟩ ∧
          order.length = n ∧ s.files.read input = .ok hashed) ∧
    (∀ k : Key, k.CanHold → (s.files.read (k.path c)).toOption = (s.latest k).map Kept.entry) ∧
    ∀ r : Request, r.IsKnown → (r.run c).Ends s.files
      (fun files => ∀ k : Key, k.CanHold → s.files.SameAt (k.path c) files ∧
        (k ≠ r.key → s.files.SameAt (k.besidePath c) files))
      fun path files => path = r.key.path c ∧ ∀ k : Key, k.CanHold → k ≠ r.key →
        s.files.SameAt (k.path c) files ∧ s.files.SameAt (k.besidePath c) files := by
  have hs := hreaches.isFaithful (History.isFaithful_start htree hfresh)
  exact ⟨fun input _ hstage n order => hs.order?_eq_some_iff hfree input hstage n order,
    fun _ hk => hs.read_eq hk, fun _ hr => hs.ends_run hr⟩

/-! ### An order of a file that is edited afterwards -/

namespace KeptOrder

open Interleaving.EditedFormula (input cache before after files isTree_files isFresh_files
  read_input_files)

def request : Request := .order input "force" (VariableOrder.identity 2)

def path : Path := ⟨"_cache/f-force.order"⟩

def place : Location := ["work", "_cache", "f-force.order"]

def besidePlace : Location := ["work", "_cache", "f-force.tmp"]

def kept : FileSystem := files.replaced besidePlace place (request.entry before.digest)

def edited : FileSystem := kept.put ["work", "f"] (.file after)

/-- The history with some files once the order is kept. -/
def history (files : FileSystem) : History :=
  ⟨files, Function.update (fun _ => none) request.key (some ⟨request, before⟩)⟩

theorem isKnown_request : request.IsKnown := ⟨by decide, by decide⟩

theorem path_key : request.key.path cache = path := by decide

theorem run_request : (request.run cache).run files = (.ok path, kept) := by
  have hread : files.read request.input = .ok before := read_input_files
  have hbeside : files.target (path.withExtension "tmp") = .ok besidePlace := by decide
  have hplace : files.target path = .ok place := by decide
  have hreplace : (FileSystem.replace path (request.entry before.digest)).run files = (.ok (), kept) :=
    FileSystem.run_replace hbeside hplace rfl
  rw [Request.run_eq, path_key, Action.run_bind_of_ok (run_digestOf_of_read hread),
    Action.run_bind_of_ok hreplace]
  rfl

theorem reaches_kept : Reaches cache (.start files) (history kept) :=
  .single (.keeps isKnown_request read_input_files run_request)

theorem touches_edited : kept.Touches (cache.outside kept) edited := by
  have htree := (Step.keeps isKnown_request read_input_files run_request).isFaithful
    (History.isFaithful_start isTree_files isFresh_files) |>.tree
  have htarget : kept.target input = .ok ["work", "f"] := by decide
  have htouch := htree.touches_write input after
  rw [FileSystem.run_write htarget rfl] at htouch
  refine htouch.mono fun other hother name => ?_
  have hinput : kept.placeOf input = ["work", "f"] := by decide
  have hcache : kept.placeOf cache.directory = ["work", "_cache"] := by decide
  rw [Set.mem_singleton_iff.1 hother, hinput, hcache]
  simp

theorem reaches_edited : Reaches cache (.start files) (history edited) :=
  reaches_kept.tail (.edits touches_edited)

theorem latest_history (fs : FileSystem) :
    (history fs).latest request.key = some ⟨request, before⟩ := by
  simp only [history, Function.update_self]

theorem eq_before_of_find?_files {other : Location} {content : Bytes}
    (h : files.find? other = some (.file content)) : content = before := by
  rw [files, FileSystem.find?_put (by simp), FileSystem.find?_put (by simp)] at h
  simp only [FileSystem.find?, FileSystem.empty, Dictionary.get?_insert] at h
  split_ifs at h <;> simp_all

theorem eq_before_of_find?_kept {other : Location} {content : Bytes}
    (h : kept.find? other = some (.file content)) (hdigest : content.digest = before.digest) :
    content = before := by
  have hentry : (request.entry before.digest).digest ≠ before.digest := by decide +kernel
  rw [kept, FileSystem.replaced, FileSystem.find?_put (by simp [place])] at h
  split at h
  · obtain rfl : request.entry before.digest = content := by simpa using h
    exact absurd hdigest hentry
  · rw [FileSystem.find?_vacate (by simp [besidePlace])] at h
    split at h
    · exact absurd h (by simp)
    · next hne =>
      rw [FileSystem.find?_put (by simp [besidePlace]), if_neg hne] at h
      exact eq_before_of_find?_files h

theorem eq_before_of_find?_edited {other : Location} {content : Bytes}
    (h : edited.find? other = some (.file content)) (hdigest : content.digest = before.digest) :
    content = before := by
  have hafter : after.digest ≠ before.digest := by decide +kernel
  rw [edited, FileSystem.find?_put (by simp)] at h
  split at h
  · obtain rfl : after = content := by simpa using h
    exact absurd hdigest hafter
  · exact eq_before_of_find?_kept h hdigest

theorem isCollisionFree_history {fs : FileSystem}
    (h : ∀ {other : Location} {content : Bytes}, fs.find? other = some (.file content) →
      content.digest = before.digest → content = before) : (history fs).IsCollisionFree := by
  intro k d hlatest p content hread hdigest
  simp only [history, Function.update_apply] at hlatest
  split at hlatest
  · obtain rfl := Option.some.inj hlatest
    obtain ⟨place, -, hfile⟩ := FileSystem.exists_of_read hread
    exact h hfile hdigest
  · exact absurd hlatest (by simp)

/-- The order is found until the input is edited. -/
theorem entries_are_latest_until_edited :
    files.IsTree ∧ Interleaving.IsFresh cache files ∧
      Reaches cache (.start files) (history kept) ∧ (history kept).IsCollisionFree ∧
      Reaches cache (.start files) (history edited) ∧ (history edited).IsCollisionFree ∧
      cache.order? input "force" 2 kept = some (VariableOrder.identity 2) ∧
      cache.order? input "force" 2 edited = none ∧
      (edited.read path).toOption = some (request.entry before.digest) := by
  have hfree := isCollisionFree_history eq_before_of_find?_kept
  have hfree' := isCollisionFree_history eq_before_of_find?_edited
  obtain ⟨horder, -, -⟩ := entries_are_latest isTree_files isFresh_files reaches_kept hfree
  obtain ⟨horder', hentry, -⟩ :=
    entries_are_latest isTree_files isFresh_files reaches_edited hfree'
  have hread : kept.read input = .ok before := by decide
  have hread' : edited.read input = .ok after := by decide
  refine ⟨isTree_files, isFresh_files, reaches_kept, hfree, reaches_edited, hfree', ?_, ?_, ?_⟩
  · exact (horder input "force" (by decide) 2 _).2 ⟨input, before, latest_history kept, rfl, hread⟩
  · refine Option.eq_none_iff_forall_ne_some.2 fun order hfound => ?_
    obtain ⟨source, hashed, hsame, -, hhashed⟩ := (horder' input "force" (by decide) 2 _).1 hfound
    obtain ⟨-, rfl⟩ := Kept.mk.inj (Option.some.inj ((latest_history edited).symm.trans hsame))
    exact absurd (Except.ok.inj (hread'.symm.trans hhashed)) (by decide)
  · have hkept := hentry request.key ⟨Request.isKnown_key isKnown_request, by decide⟩
    rw [path_key, latest_history] at hkept
    exact hkept

end KeptOrder
end Cache
end DiagramCompiler
