import Mathlib
import DiagramCompiler.Proofs.EditedInputs
import DiagramCompiler.Proofs.HandleDumps
import DiagramCompiler.Proofs.KeptCaches

/-! What diagrams in a cache were made of.
However runs and edits are interleaved, an entry has the digest of what its file held when the
digest was taken for it, so that a diagram is found exactly for such a content. It was made of that
content only if the file had not been edited since its clauses were read. What is left of an entry
that was not written to its end is never in the place of the entry. -/
namespace DiagramCompiler

namespace Cache

/-- Whether a path and the one that its content is written to first are names in the cache. -/
def Keeps (c : Cache) (path : Path) : Prop :=
  (∃ name, path.Names c.directory name) ∧
    ∃ front, (path.withExtension "tmp").Names c.directory (front ++ ".tmp")

theorem keeps_orderPath (c : Cache) {input : Path} {name : String}
    (hname : input.fileName = some name) (o : Options) : c.Keeps (c.orderPath input o.stage) :=
  have ⟨_, horder, htmp⟩ := c.names_orderPath hname o
  ⟨⟨_, horder⟩, ⟨_, htmp⟩⟩

theorem keeps_diagramPath (c : Cache) {input : Path} {name : String}
    (hname : input.fileName = some name) {o : Options} (ho : '/' ∉ o.reordering.toList) :
    c.Keeps (c.diagramPath input o.engine.stub o.reordering) :=
  have ⟨_, hdiagram, htmp⟩ := c.names_diagramPath hname o.engine ho
  ⟨⟨_, hdiagram⟩, ⟨_, htmp⟩⟩

end Cache

namespace Interleaving

def Traced (s : State) (d : Dump) (digest : String) (origin : Option Origin) : Prop :=
  ∃ o, origin = some o ∧ o.IsGenuine ∧ Dump.parse o.text = .ok d ∧ digest = o.digested.digest ∧
    ∃ path content, Item.entry path content (some o) ∈ s.held

/-- Whether some content has a digest only if it is a dump that its origin accounts for. -/
def Trusted (s : State) (content : Bytes) (origin : Option Origin) : Prop :=
  ∀ text d digest, content.text? = some text → Dump.parse text = .ok d →
    d.metadata.get? Formula.digestKey = some digest → Traced s d digest origin

def Item.IsSound (c : Cache) (s : State) : Item → Prop
  | .clauses input parsed f => '\n' ∉ input.text.toList ∧ Dimacs.read parsed = .ok f
  | .formula input parsed f => '\n' ∉ input.text.toList ∧ f.IsReadFrom input parsed
  | .dump o input parsed d =>
    '\n' ∉ input.text.toList ∧ o.IsPlain ∧ ∃ f, Formula.IsReadFrom input parsed f ∧ Run.Makes o f d
  | .entry path content origin => c.Keeps path ∧ Trusted s content origin
  | .seen input _ d origin => (∃ name, input.fileName = some name) →
    ∀ digest, d.metadata.get? Formula.digestKey = some digest → Traced s d digest origin
  | .found _ _ d origin current => Traced s d current.digest origin

def State.whole (s : State) : Set Location := (s.torn ∪ FileSystem.placesEnding ".lock")ᶜ

/-- The invariant: everything held is sound, only files beside entries are torn, and the other files
in the cache are trusted. -/
structure State.IsSound (c : Cache) (s : State) : Prop where
  tree : s.files.IsTree
  held : ∀ item ∈ s.held, item.IsSound c s
  torn : s.torn ⊆ FileSystem.placesEnding ".tmp"
  cached (name : String) {content : Bytes} (hwhole : s.files.placeOf c.directory ++ [name] ∈ s.whole)
    (h : s.files.find? (s.files.placeOf c.directory ++ [name]) = some (.file content)) :
    Trusted s content (s.origins (s.files.placeOf c.directory ++ [name]))

variable {c : Cache} {s s' : State}

theorem Traced.mono {d : Dump} {digest : String} {origin : Option Origin}
    (h : Traced s d digest origin) (hheld : s.held ⊆ s'.held) : Traced s' d digest origin := by
  obtain ⟨o, horigin, hgenuine, hparse, hdigest, path, content, hentry⟩ := h
  exact ⟨o, horigin, hgenuine, hparse, hdigest, path, content, hheld hentry⟩

theorem Trusted.mono {content : Bytes} {origin : Option Origin} (h : Trusted s content origin)
    (hheld : s.held ⊆ s'.held) : Trusted s' content origin :=
  fun text d digest htext hparse hdigest => (h text d digest htext hparse hdigest).mono hheld

theorem Item.IsSound.mono {item : Item} (h : item.IsSound c s) (hheld : s.held ⊆ s'.held) :
    item.IsSound c s' := by
  cases item with
  | clauses => exact h
  | formula => exact h
  | dump => exact h
  | entry => exact ⟨h.1, h.2.mono hheld⟩
  | seen => exact fun hname digest hdigest => (h hname digest hdigest).mono hheld
  | found => exact Traced.mono h hheld

/-! ### Learning -/

theorem State.IsSound.trusted (hs : s.IsSound c) {path : Path} {name : String}
    (hname : path.Names c.directory name) {place : Location}
    (hplace : s.files.locate path = .ok place) (hwhole : place ∈ s.whole) {content : Bytes}
    (hread : s.files.find? place = some (.file content)) : Trusted s content (s.origins place) := by
  obtain rfl : place = s.files.placeOf c.directory ++ [name] :=
    (FileSystem.eq_placeOf_of_locate hplace).trans (FileSystem.placeOf_of_names hname)
  exact hs.cached name hwhole hread

theorem State.IsSound.mem_whole (hs : s.IsSound c) {place : Location}
    (hplace : place ∈ FileSystem.placesEnding ".dd") : place ∈ s.whole := by
  have htmp : place ∉ FileSystem.placesEnding ".tmp" :=
    FileSystem.not_mem_placesEnding (c := 'd') (d := 'p') (by decide) (by decide) (by decide) hplace
  have hlock : place ∉ FileSystem.placesEnding ".lock" :=
    FileSystem.not_mem_placesEnding (c := 'd') (d := 'k') (by decide) (by decide) (by decide) hplace
  rintro (htorn | hlocked)
  · exact htmp (hs.torn htorn)
  · exact hlock hlocked

theorem Learns.isSound {item : Item} (h : Learns c s item) (hs : s.IsSound c) :
    item.IsSound c (s.hold item) := by
  have hmore : s.held ⊆ (s.hold item).held := List.subset_cons_self item s.held
  cases h with
  | clauses hinput hread hf => exact ⟨hinput, hf⟩
  | formula hheld hread =>
    obtain ⟨hinput, hf⟩ := hs.held _ hheld
    exact ⟨hinput, .read hf _⟩
  | ordered o conditions hheld hsorted =>
    obtain ⟨hinput, hf⟩ := hs.held _ hheld
    exact ⟨hinput, .ordered o conditions hf hsorted⟩
  | dump hheld ho hmakes =>
    obtain ⟨hinput, hf⟩ := hs.held _ hheld
    exact ⟨hinput, ho, _, hf, hmakes⟩
  | @orderEntry input parsed digested f o order hheld hread =>
    obtain ⟨hinput, -⟩ := hs.held _ hheld
    obtain ⟨name, hname⟩ := hs.tree.exists_fileName hread
    refine ⟨c.keeps_orderPath hname o, fun text d digest htext hparse => ?_⟩
    obtain rfl := Option.some.inj ((Bytes.text?_ofText _).symm.trans htext)
    rw [Cache.parse_orderText hinput digested order] at hparse
    exact absurd hparse (by simp)
  | @dumpEntry o input parsed digested d hheld hread =>
    obtain ⟨hinput, ho, f, hf, hmakes⟩ := hs.held _ hheld
    obtain ⟨name, hname⟩ := hs.tree.exists_fileName hread
    refine ⟨c.keeps_diagramPath hname ho.2, fun text d' digest htext hparse hdigest => ?_⟩
    obtain rfl := Option.some.inj ((Bytes.text?_ofText _).symm.trans htext)
    have hplain := hmakes.plain ho (hf.oneLine hinput)
    rw [Cache.digest_of_parse_tagged hplain hinput hparse] at hdigest
    exact ⟨_, rfl, ⟨o, f, hf, hmakes⟩, hparse, (Option.some.inj hdigest).symm, _, _,
      List.mem_cons_self⟩
  | @seen o input d place ho hdump hplace =>
    rintro ⟨name, hname⟩ digest hdigest
    obtain ⟨content, text, hread, htext, hparse⟩ := Dump.ofFile_eq_ok_iff.1 hdump
    obtain ⟨⟨_, hnames⟩, -⟩ := c.keeps_diagramPath hname ho
    have hdiagram : place ∈ FileSystem.placesEnding ".dd" :=
      FileSystem.eq_placeOf_of_locate hplace ▸ c.placeOf_diagramPath_mem _ _ _ _
    have htrusted := hs.trusted hnames hplace (hs.mem_whole hdiagram)
      (FileSystem.find?_of_read hread hplace)
    exact (htrusted text d digest htext hparse hdigest).mono hmore
  | found hheld hcurrent hread =>
    have hdigest := Cache.get?_of_isCurrent hcurrent hread
    exact Traced.mono (hs.held _ hheld (hs.tree.exists_fileName hread) _ hdigest) hmore

/-! ### Steps -/

/-- Files and what is known of them may change as long as what the cache then has is trusted. -/
theorem State.IsSound.of_trusted (hs : s.IsSound c) {files : FileSystem}
    {origins : Location → Option Origin} {torn : Set Location} (htree : files.IsTree)
    (hworking : files.working = s.files.working) (htorn : torn ⊆ FileSystem.placesEnding ".tmp")
    (hcached : ∀ name content,
      s.files.placeOf c.directory ++ [name] ∈ State.whole { s with files, origins, torn } →
      files.find? (s.files.placeOf c.directory ++ [name]) = some (.file content) →
        Trusted s content (origins (s.files.placeOf c.directory ++ [name]))) :
    State.IsSound c { s with files, origins, torn } where
  tree := htree
  held item hitem := (hs.held item hitem).mono fun _ => id
  torn := htorn
  cached name content hwhole h := by
    simp only [FileSystem.placeOf_congr hworking] at hwhole h ⊢
    exact (hcached name content hwhole h).mono fun _ => id

/-- Files may change as long as the cache gets no content from elsewhere. -/
theorem State.IsSound.of_files (hs : s.IsSound c) {files : FileSystem} (htree : files.IsTree)
    (hworking : files.working = s.files.working)
    (hcached : ∀ name content, s.files.placeOf c.directory ++ [name] ∈ s.whole →
      files.find? (s.files.placeOf c.directory ++ [name]) = some (.file content) →
        s.files.find? (s.files.placeOf c.directory ++ [name]) = some (.file content)) :
    State.IsSound c { s with files } :=
  hs.of_trusted htree hworking hs.torn fun name content hwhole h =>
    hs.cached name hwhole (hcached name content hwhole h)

theorem State.IsSound.edit (hs : s.IsSound c) {files : FileSystem} (h : Edits c s.files files) :
    State.IsSound c { s with files } :=
  hs.of_files h.tree h.working fun name _ _ hafter => (h.find? name).symm.trans hafter

theorem State.IsSound.hold (hs : s.IsSound c) {item : Item} (h : Learns c s item) :
    (s.hold item).IsSound c := by
  have hmore : s.held ⊆ (s.hold item).held := List.subset_cons_self item s.held
  refine ⟨hs.tree, fun other hother => ?_, hs.torn, fun name content hwhole hcontent =>
    (hs.cached name hwhole hcontent).mono hmore⟩
  rcases List.mem_cons.1 hother with rfl | hother
  · exact h.isSound hs
  · exact (hs.held other hother).mono hmore

theorem State.IsSound.lock (hs : s.IsSound c) (input : Path) :
    State.IsSound c { s with files := ((c.lock input).run s.files).2 } := by
  rw [Cache.lock]
  rcases hs.tree.lock (c.lockPath input) with hsame | ⟨place, kept, hplace, -, h⟩
  · rw [hsame]
    exact hs
  · refine hs.of_files h.tree h.working fun name content hwhole hafter => ?_
    have hlock : place ∈ FileSystem.placesEnding ".lock" :=
      FileSystem.eq_placeOf_of_locate (FileSystem.locate_of_target hplace).1 ▸
        c.placeOf_lockPath_mem input s.files
    have hne : place ≠ s.files.placeOf c.directory ++ [name] := fun heq =>
      hwhole (.inr (heq ▸ hlock))
    rwa [h.find?, if_neg hne] at hafter

theorem State.IsSound.write (hs : s.IsSound c) {path beside : Path} {content : Bytes}
    {origin : Option Origin} {files : FileSystem} {place : Location}
    (hheld : .entry path content origin ∈ s.held)
    (hwrite : (FileSystem.write beside content).run s.files = (.ok (), files))
    (hplace : s.files.target beside = .ok place) :
    State.IsSound c { s with
      files, origins := Function.update s.origins place origin, torn := s.torn \ {place} } := by
  obtain ⟨place', hplace', h⟩ := hs.tree.stores_of_write hwrite
  obtain rfl := Except.ok.inj (hplace.symm.trans hplace')
  refine hs.of_trusted h.tree h.working (Set.sdiff_subset.trans hs.torn)
    fun name found hwhole hfound => ?_
  rw [h.find?] at hfound
  rw [Function.update_apply]
  by_cases hhere : place = s.files.placeOf c.directory ++ [name]
  · rw [if_pos hhere] at hfound
    rw [if_pos hhere.symm]
    obtain rfl : content = found := by simpa using hfound
    exact (hs.held _ hheld).2
  · rw [if_neg hhere] at hfound
    rw [if_neg (Ne.symm hhere)]
    refine hs.cached name (fun hmem => hwhole (hmem.imp_left fun htorn => ⟨htorn, ?_⟩)) hfound
    exact Ne.symm hhere

theorem State.IsSound.stop (hs : s.IsSound c) {beside : Path} {front : String} {content : Bytes}
    (hname : beside.Names c.directory (front ++ ".tmp")) {files : FileSystem} {place : Location}
    {failure : Failure} (hplace : s.files.target beside = .ok place)
    (hwrite : (FileSystem.write beside content).run s.files = (.error failure, files)) :
    State.IsSound c { s with files, torn := insert place s.torn } := by
  have hbeside : place ∈ FileSystem.placesEnding ".tmp" := by
    rw [FileSystem.eq_placeOf_of_locate (FileSystem.locate_of_target hplace).1,
      FileSystem.placeOf_of_names hname]
    exact ⟨_, front, rfl⟩
  have hsub : insert place s.torn ⊆ FileSystem.placesEnding ".tmp" :=
    Set.insert_subset hbeside hs.torn
  have hwhole (other : Location)
      (h : other ∈ State.whole { s with files, torn := insert place s.torn }) :
      place ≠ other ∧ other ∈ s.whole :=
    ⟨fun heq => h (.inl (.inl heq.symm)), fun hmem => h (hmem.imp_left .inr)⟩
  obtain rfl : ((FileSystem.write beside content).run s.files).2 = files := congrArg Prod.snd hwrite
  rcases hs.tree.write hplace content with hsame | ⟨kept, -, h⟩
  · rw [hsame]
    exact hs.of_trusted hs.tree rfl hsub fun name found hname' hfound =>
      hs.cached name (hwhole _ hname').2 hfound
  · refine hs.of_trusted h.tree h.working hsub fun name found hname' hfound => ?_
    obtain ⟨hne, hother⟩ := hwhole _ hname'
    rw [h.find?, if_neg hne] at hfound
    exact hs.cached name hother hfound

theorem State.IsSound.move (hs : s.IsSound c) {source destination : Path} {front : String}
    (hname : source.Names c.directory (front ++ ".tmp")) {files : FileSystem} {here there : Location}
    (hmove : (FileSystem.move source destination).run s.files = (.ok (), files))
    (hhere : s.files.locate source = .ok here) (hwhole : here ∉ s.torn)
    (hthere : s.files.target destination = .ok there) :
    State.IsSound c { s with
      files
      origins := Function.update (Function.update s.origins here none) there
        (s.origins here) } := by
  obtain ⟨moved, here', there', hhere', hthere', hmoves⟩ := hs.tree.move hmove
  obtain rfl := Except.ok.inj (hhere.symm.trans hhere')
  obtain rfl := Except.ok.inj (hthere.symm.trans hthere')
  obtain rfl : here = s.files.placeOf c.directory ++ [front ++ ".tmp"] :=
    (FileSystem.eq_placeOf_of_locate hhere).trans (FileSystem.placeOf_of_names hname)
  have hsource : s.files.placeOf c.directory ++ [front ++ ".tmp"] ∈ s.whole := by
    rintro (htorn | hlock)
    · exact hwhole htorn
    · exact FileSystem.not_mem_placesEnding (c := 'p') (d := 'k') (by decide) (by decide)
        (by decide) ⟨_, front, rfl⟩ hlock
  refine hs.of_trusted hmoves.tree hmoves.working hs.torn fun other found hother hfound => ?_
  rw [hmoves.find?] at hfound
  rw [Function.update_apply]
  by_cases hdestination : there = s.files.placeOf c.directory ++ [other]
  · rw [if_pos hdestination] at hfound
    rw [if_pos hdestination.symm]
    obtain rfl : moved = found := by simpa using hfound
    exact hs.cached _ hsource hmoves.found
  · rw [if_neg hdestination] at hfound
    rw [if_neg (Ne.symm hdestination)]
    by_cases hvacated : s.files.placeOf c.directory ++ [front ++ ".tmp"] =
        s.files.placeOf c.directory ++ [other]
    · rw [if_pos hvacated] at hfound
      exact absurd hfound (by simp)
    · rw [if_neg hvacated] at hfound
      rw [Function.update_apply, if_neg (Ne.symm hvacated)]
      exact hs.cached other hother hfound

theorem Step.isSound (h : Step c s s') (hs : s.IsSound c) : s'.IsSound c := by
  cases h with
  | edit h => exact hs.edit h
  | learn h => exact hs.hold h
  | makeDirectories =>
    have h := hs.tree.makeDirectories c.directory
    exact hs.of_files h.tree h.working fun name content _ hafter => h.find?_file hafter
  | lock input => exact hs.lock input
  | unlock ticket =>
    exact hs.of_files ⟨hs.tree.working, hs.tree.above⟩ rfl fun name content _ hafter => hafter
  | write hheld hwrite hplace => exact hs.write hheld hwrite hplace
  | stop hheld hwrite hplace =>
    obtain ⟨-, front, hname⟩ := (hs.held _ hheld).1
    exact hs.stop hname hplace hwrite
  | move hheld hmove hhere hwhole hthere =>
    obtain ⟨-, front, hname⟩ := (hs.held _ hheld).1
    exact hs.move hname hmove hhere hwhole hthere

theorem Reaches.isSound (h : Reaches c s s') (hs : s.IsSound c) : s'.IsSound c := by
  induction h with
  | refl => exact hs
  | tail _ hstep ih => exact hstep.isSound ih

def IsFresh (c : Cache) (files : FileSystem) : Prop :=
  ∀ name content, files.find? (files.placeOf c.directory ++ [name]) ≠ some (.file content)

theorem State.isSound_start {files : FileSystem} (htree : files.IsTree) (hfresh : IsFresh c files) :
    (State.start files).IsSound c where
  tree := htree
  held item hitem := absurd hitem (by simp [State.start])
  torn := Set.empty_subset _
  cached name content _ h := absurd h (hfresh name content)

/-! ### What is found -/

/-- A diagram that is found for a file, as `covers_run` says of runs that answer from their cache,
was stored when the file held what it holds now, and it was made of that content exactly if the file
had not been edited between its reading and its storing. -/
theorem found_made_of_current_iff {files : FileSystem} (htree : files.IsTree)
    (hfresh : IsFresh c files) (hreaches : Reaches c (.start files) s) (hfree : s.IsCollisionFree)
    {input path : Path} {d : Dump} {origin : Option Origin} {current : Bytes}
    (hfound : .found input path d origin current ∈ s.held) :
    ∃ o, origin = some o ∧ o.IsGenuine ∧ Dump.parse o.text = .ok d ∧ o.digested = current ∧
      (o.parsed = current ↔ ¬ o.IsStale) := by
  have hs := hreaches.isSound (State.isSound_start htree hfresh)
  obtain ⟨o, rfl, hgenuine, hparse, hdigest, entry, content, hentry⟩ := hs.held _ hfound
  have hsame : o.digested = current :=
    hfree _ hentry _ hfound _ rfl _ rfl hdigest.symm
  exact ⟨o, rfl, hgenuine, hparse, hsame, by rw [Origin.IsStale, hsame, not_not]⟩

theorem State.IsCollisionFree.of_forall_eq (content : Bytes)
    (h : ∀ i ∈ s.held, ∀ a ∈ i.digested, a = content) : s.IsCollisionFree :=
  fun i hi j hj a ha b hb _ => (h i hi a ha).trans (h j hj b hb).symm

/-! ### A file that is edited before its diagram is stored -/

namespace EditedFormula

def input : Path := ⟨"f"⟩

def cache : Cache := ⟨⟨"_cache"⟩⟩

def before : Bytes := .ofText "p cnf 0 0\n"

/-- A formula that never holds. -/
def after : Bytes := .ofText "p cnf 0 1\n0\n"

def files : FileSystem :=
  (FileSystem.empty.put ["work", "_cache"] .directory).put ["work", "f"] (.file before)

def edited : FileSystem := files.put ["work", "f"] (.file after)

def formula : Formula := Formula.ofClauses 0 []

def compilation : Compilation where
  diagram := ⟨1⟩
  metadata := (Dictionary.empty : Metadata).insertAll
    [(Compilation.runtimeKey, Duration.zero.secondsText), (Compilation.skippedKey, "0"),
      (Compilation.clausesKey, "0")]
  skipped := 0

theorem holds_one : Reference.Table.empty.Holds 1 := Nat.lt_succ_self 1

def dump : Dump :=
  Run.described {} (formula.readFrom input before) compilation
    (.ofDiagram Reference.name Reference.stub (Reference.Table.sound_empty.diagram holds_one))

def origin : Origin := ⟨input, before, after, dump⟩

theorem read_before : Dimacs.read before = .ok formula := by
  let r : Dimacs.Reader := ⟨[], 1, .empty, some ⟨0, 0⟩, [], false⟩
  have hpreamble : (Dimacs.Reader.ofBytes before).readPreamble = (.ok ⟨0, 0⟩, r) := by cbv
  have hrefill : (r.withTokens []).refill = (.ok false, r.finish) := rfl
  exact Dimacs.read_of_no_clause hpreamble (Dimacs.Reader.gather_of_end rfl hrefill) rfl

theorem makes_dump : Run.Makes {} (formula.readFrom input before) dump := by
  have hcompile : (Compilation.compile (Reference.manager none) (formula.readFrom input before)
      none).run (.fresh none .zero) = (.ok compilation, ⟨.empty, 1, .zero, 0, none, false, .zero⟩) :=
    rfl
  have hanswer := (Reference.answers_dumpOf none Reference.Table.sound_empty holds_one).eq_ok
    ⟨fun h => absurd h (by decide), by decide⟩
  have hdump : ((Reference.manager none).dump compilation.diagram).run (.fresh none .zero) =
      (.ok (.ofDiagram Reference.name Reference.stub
        (Reference.Table.sound_empty.diagram holds_one)), .fresh none .zero) := by
    rw [Reference.run_dump]
    exact congrArg (·, _) hanswer
  exact .compiled ⟨by decide, by decide⟩ hcompile hdump

theorem exists_parse : ∃ d, Dump.parse origin.text = .ok d := by
  have hsome : (Dump.parse origin.text).toOption.isSome = true := by
    -- the characters of the text come first, since a string is not taken apart again
    rw [Dump.parse, Origin.text, Dump.text, String.toList_ofList]
    decide +kernel
  exact Dump.exists_of_isSome hsome

/-! #### Places -/

def path : Path := ⟨"_cache/f-buddy-lib-default.dd"⟩

def beside : Path := ⟨"_cache/f-buddy-lib-default.tmp"⟩

def place : Location := ["work", "_cache", "f-buddy-lib-default.dd"]

def besidePlace : Location := ["work", "_cache", "f-buddy-lib-default.tmp"]

theorem diagramPath_input : cache.diagramPath input ({} : Options).engine.stub
    ({} : Options).reordering = path := by
  decide

theorem withExtension_path : path.withExtension "tmp" = beside := by decide

theorem placeOf_cache : files.placeOf cache.directory = ["work", "_cache"] := by decide

/-! #### Files -/

def written : FileSystem := edited.put besidePlace (.file (.ofText origin.text))

def moved : FileSystem := (written.vacate besidePlace).put place (.file (.ofText origin.text))

theorem isTree_files : files.IsTree := by
  have hcache : (FileSystem.empty.put ["work", "_cache"] .directory).IsTree :=
    @FileSystem.IsTree.put _ FileSystem.isTree_empty ["work"] "_cache" _ rfl fun _ => rfl
  exact @FileSystem.IsTree.put _ hcache ["work"] "f" _ rfl fun h => absurd h (by decide)

theorem isFresh_files : IsFresh cache files := by
  intro name content
  rw [placeOf_cache, files, FileSystem.find?_put (by simp), FileSystem.find?_put (by simp)]
  simp [FileSystem.empty, FileSystem.find?]

theorem edits_files : Edits cache files edited where
  tree := @FileSystem.IsTree.put _ isTree_files ["work"] "f" _ rfl fun h => absurd h (by decide)
  working := rfl
  find? name := by
    rw [placeOf_cache, edited, FileSystem.find?_put (by simp)]
    simp

theorem read_input_files : files.read input = .ok before := by decide

theorem read_input_edited : edited.read input = .ok after := by decide

theorem read_input_moved : moved.read input = .ok after := by
  have hplace : moved.locate input = .ok ["work", "f"] := by decide
  rw [FileSystem.read, hplace]
  rfl

theorem target_beside : edited.target beside = .ok besidePlace := by decide

theorem locate_beside : written.locate beside = .ok besidePlace := by decide

theorem target_path : written.target path = .ok place := by decide

theorem locate_path : moved.locate path = .ok place := by decide

theorem write_beside :
    (FileSystem.write beside (.ofText origin.text)).run edited = (.ok (), written) := by
  rw [Action.run, FileSystem.write, target_beside]
  rfl

theorem read_beside : written.read beside = .ok (.ofText origin.text) := by
  have hslash : beside.endsInSlash = false := by decide
  rw [FileSystem.read, locate_beside]
  simp [written, FileSystem.find?_put, besidePlace, hslash]

theorem move_beside : (FileSystem.move beside path).run written = (.ok (), moved) := by
  rw [Action.run, FileSystem.move, read_beside, locate_beside, target_path]
  rfl

theorem read_path : moved.read path = .ok (.ofText origin.text) := by
  have hslash : path.endsInSlash = false := by decide
  rw [FileSystem.read, locate_path]
  simp [moved, FileSystem.find?_put, place, hslash]

theorem isCurrent_moved {d : Dump} (hparse : Dump.parse origin.text = .ok d) :
    Cache.isCurrent moved input d.metadata = true := by
  have hinput : '\n' ∉ input.text.toList := by decide
  have hplain := makes_dump.plain ⟨by decide, by decide⟩
    ((Formula.IsReadFrom.read read_before before).oneLine hinput)
  have hdigest := Cache.digest_of_parse_tagged hplain hinput hparse
  have hsame : origin.digested.digest = after.digest := rfl
  rw [Cache.isCurrent, hdigest, FileSystem.digest, read_input_moved]
  simp [hsame]

/-! #### The steps -/

theorem learns_entry (hfiles : s.files = edited) (h : .dump {} input before dump ∈ s.held) :
    Learns cache s (.entry path (.ofText origin.text) (some origin)) := by
  have hread : s.files.read input = .ok after := by
    rw [hfiles]
    exact read_input_edited
  have hentry := Learns.dumpEntry (c := cache) h hread
  rw [diagramPath_input] at hentry
  exact hentry

theorem step_write (hfiles : s.files = edited)
    (h : .entry path (.ofText origin.text) (some origin) ∈ s.held) :
    Step cache s { s with
      files := written
      origins := Function.update s.origins besidePlace (some origin)
      torn := s.torn \ {besidePlace} } := by
  have htarget : s.files.target (path.withExtension "tmp") = .ok besidePlace := by
    rw [withExtension_path, hfiles]
    exact target_beside
  have hwrite : (FileSystem.write (path.withExtension "tmp") (.ofText origin.text)).run s.files =
      (.ok (), written) := by
    rw [withExtension_path, hfiles]
    exact write_beside
  exact .write h hwrite htarget

theorem step_move (hfiles : s.files = written) (hwhole : besidePlace ∉ s.torn)
    (h : .entry path (.ofText origin.text) (some origin) ∈ s.held) :
    Step cache s { s with
      files := moved
      origins := Function.update (Function.update s.origins besidePlace none) place
        (s.origins besidePlace) } := by
  have hmove : (FileSystem.move (path.withExtension "tmp") path).run s.files = (.ok (), moved) := by
    rw [withExtension_path, hfiles]
    exact move_beside
  have hhere : s.files.locate (path.withExtension "tmp") = .ok besidePlace := by
    rw [withExtension_path, hfiles]
    exact locate_beside
  exact .move h hmove hhere hwhole (hfiles ▸ target_path)

theorem learns_seen {d : Dump} (hfiles : s.files = moved) (horigin : s.origins place = some origin)
    (hparse : Dump.parse origin.text = .ok d) :
    Learns cache s (.seen input path d (some origin)) := by
  have hread : s.files.read path = .ok (.ofText origin.text) := by
    rw [hfiles]
    exact read_path
  have hdump := Dump.ofFile_eq_ok_iff.2 ⟨_, _, hread, Bytes.text?_ofText _, hparse⟩
  have hplace : s.files.locate path = .ok place := by
    rw [hfiles]
    exact locate_path
  rw [← diagramPath_input] at hdump hplace
  have hseen := Learns.seen (c := cache) (o := {}) (by decide) hdump hplace
  rw [diagramPath_input, horigin] at hseen
  exact hseen

/-- The first formula is read and compiled, then the file is edited, then the dump is stored and
found. -/
theorem exists_reaches : ∃ s d, Reaches cache (.start files) s ∧ s.IsCollisionFree ∧
    .found input path d (some origin) after ∈ s.held := by
  obtain ⟨d, hparse⟩ := exists_parse
  let s₀ : State := .start files
  let s₁ := s₀.hold (.clauses input before formula)
  let s₂ := s₁.hold (.formula input before (formula.readFrom input before))
  let s₃ := s₂.hold (.dump {} input before dump)
  let s₄ : State := { s₃ with files := edited }
  let s₅ := s₄.hold (.entry path (.ofText origin.text) (some origin))
  let s₆ : State := { s₅ with
    files := written
    origins := Function.update s₅.origins besidePlace (some origin)
    torn := s₅.torn \ {besidePlace} }
  let s₇ : State := { s₆ with
    files := moved
    origins := Function.update (Function.update s₆.origins besidePlace none) place
      (s₆.origins besidePlace) }
  let s₈ := s₇.hold (.seen input path d (some origin))
  let s₉ := s₈.hold (.found input path d (some origin) after)
  have hfree : s₉.IsCollisionFree := by
    refine .of_forall_eq after fun item hitem content hcontent => ?_
    simp [s₉, s₈, s₇, s₆, s₅, s₄, s₃, s₂, s₁, s₀, State.hold, State.start] at hitem
    rcases hitem with rfl | rfl | rfl | rfl | rfl | rfl <;> simp_all [Item.digested, origin]
  refine ⟨s₉, d, ?_, hfree, List.mem_cons_self⟩
  have h₁ : Step cache s₀ s₁ := .learn (.clauses (by decide) read_input_files read_before)
  have h₂ : Step cache s₁ s₂ := .learn (.formula List.mem_cons_self read_input_files)
  have h₃ : Step cache s₂ s₃ :=
    .learn (.dump List.mem_cons_self ⟨by decide, by decide⟩ makes_dump)
  have h₄ : Step cache s₃ s₄ := .edit edits_files
  have h₅ : Step cache s₄ s₅ := .learn (learns_entry rfl List.mem_cons_self)
  have h₆ : Step cache s₅ s₆ := step_write rfl List.mem_cons_self
  have hwhole : besidePlace ∉ s₆.torn := fun h => h.2 rfl
  have h₇ : Step cache s₆ s₇ := step_move rfl hwhole List.mem_cons_self
  have h₈ : Step cache s₇ s₈ := .learn (learns_seen rfl (by simp [s₇, s₆]) hparse)
  have h₉ : Step cache s₈ s₉ := .learn (.found List.mem_cons_self (isCurrent_moved hparse)
    read_input_moved)
  exact ((((((((Relation.ReflTransGen.single h₁).tail h₂).tail h₃).tail h₄).tail h₅).tail h₆).tail
    h₇).tail h₈).tail h₉

/-- The first formula's diagram is found for the second one. -/
theorem found_made_of_edited_formula :
    files.IsTree ∧ IsFresh cache files ∧ ∃ s d, Reaches cache (.start files) s ∧
      s.IsCollisionFree ∧ .found input path d (some origin) after ∈ s.held ∧
      ∃ o, some origin = some o ∧ o.IsGenuine ∧ Dump.parse o.text = .ok d ∧ o.digested = after ∧
        (o.parsed = after ↔ ¬ o.IsStale) := by
  obtain ⟨s, d, hreaches, hfree, hfound⟩ := exists_reaches
  exact ⟨isTree_files, isFresh_files, s, d, hreaches, hfree, hfound,
    found_made_of_current_iff isTree_files isFresh_files hreaches hfree hfound⟩

/-- What is found need not be made of what the file holds. -/
theorem not_found_made_of_current :
    ¬ ∀ (c : Cache) (files : FileSystem) (s : State), files.IsTree → IsFresh c files →
      Reaches c (.start files) s → s.IsCollisionFree → ∀ input path d origin current,
        .found input path d origin current ∈ s.held →
          ∃ o, origin = some o ∧ o.IsGenuine ∧ o.parsed = current := by
  intro h
  obtain ⟨s, d, hreaches, hfree, hfound⟩ := exists_reaches
  obtain ⟨o, horigin, -, hparsed⟩ :=
    h cache files s isTree_files isFresh_files hreaches hfree input path d _ after hfound
  obtain rfl := Option.some.inj horigin
  exact absurd hparsed (by decide)

end EditedFormula

end Interleaving
end DiagramCompiler
