import Mathlib.Data.Finset.Card
import Mathlib.Data.Finset.Dedup
import DiagramCompiler.Proofs.NativeTranslation
import DiagramCompiler.Proofs.RelabelledTables

/-! Texts whose lines are rearranged.
What a text is translated to depends on the shape of its table alone, and the shape neither on the
numbers of the nodes nor on the order of their lines: only the line of the root has its place, and of
the lines that give the same number the last one counts. -/
namespace DiagramCompiler
namespace Native

/-! ### Lines and where they stand -/

def Cudd.Line.relabel (rename : Nat → Nat) : Cudd.Line → Cudd.Line
  | .constant root => .constant (root.relabel rename)
  | .node id number native => .node (id.relabel rename) (rename number) (native.relabel rename)

/-- What the last of the lines that give a number to a node says about that node. -/
def Cudd.Line.lastOf (ls : List Cudd.Line) (id : Nat) : Option NativeNode :=
  ((ls.filterMap Cudd.Line.node?).reverse.find? fun e => e.1 = id).map Prod.snd

/-- The line that gives a number to a node, as a root without a mark of complementation. -/
def Buddy.line (e : Nat × NativeNode) : Cudd.Line := .node (edge e.1) e.1 e.2

namespace Format

/-- Reads the line of a node. The lines of a BuDDy text describe nodes only. -/
def readLine : Format → List Char → Except Fault Cudd.Line
  | .buddy, line => (Buddy.parseNode line).map Buddy.line
  | .cudd, line => Cudd.parseLine line

/-- How many lines come before the lines of the nodes: a header or a summary, and in a BuDDy text
with variables the line with their levels. -/
def headLength : Format → List (List Char) → Nat
  | .buddy, header :: _ =>
    match Text.words header with
    | [_, vars] =>
      match Numeral.word64 vars with
      | .ok 0 => 1
      | _ => 2
    | _ => 1
  | _, _ => 1

def head (format : Format) (text : String) : List (List Char) :=
  (contentLines text).take (format.headLength (contentLines text))

def nodeLines (format : Format) (text : String) : List (List Char) :=
  (contentLines text).drop (format.headLength (contentLines text))

def Reads (format : Format) (text : String) (ls : List Cudd.Line) : Prop :=
  (format.nodeLines text).mapM format.readLine = .ok ls

def rootLine : Format → List Cudd.Line → Option Cudd.Line
  | .buddy, ls => ls.getLast?
  | .cudd, ls => ls.head?

/-- Whether lines are others with each number replaced, in another order. The line of the root keeps
its place, and of the lines that give the same number the last one stays the last. -/
structure Permutes (format : Format) (rename : Nat → Nat) (ls ls' : List Cudd.Line) : Prop where
  perm : ls'.Perm (ls.map (Cudd.Line.relabel rename))
  root : format.rootLine ls' = (format.rootLine ls).map (Cudd.Line.relabel rename)
  last (id : Nat) : Cudd.Line.lastOf ls' (rename id) =
    (Cudd.Line.lastOf ls id).map (NativeNode.relabel rename)

/-- Whether a text has the head of another one and then its lines, rearranged, under other
numbers. -/
structure Rearranges (format : Format) (rename : Nat → Nat) (text text' : String) : Prop where
  injective : Function.Injective rename
  head : format.head text' = format.head text
  lines : ∃ ls ls', format.Reads text ls ∧ format.Reads text' ls' ∧ format.Permutes rename ls ls'

theorem contentLines_eq (format : Format) (text : String) :
    contentLines text = format.head text ++ format.nodeLines text :=
  (List.take_append_drop _ _).symm

end Format

def Cudd.nodeKeys : List String := ["ID", "value", "index", "E", "T"]

/-- Whether two lines are made up of fields and differ at most in fields that nobody asks for, such as
counts of references. -/
def Cudd.AddsFields (line line' : List Char) : Prop :=
  ∃ fs ∈ fields (Text.words line), ∃ fs' ∈ fields (Text.words line'), ∀ key ∈ nodeKeys,
    fs'.filter (fun f => f.1 = key.toList) = fs.filter fun f => f.1 = key.toList

instance : DecidableRel Cudd.AddsFields := fun _ _ => inferInstanceAs (Decidable (∃ _ ∈ _, ∃ _ ∈ _, _))

/-- Whether a CUDD text has the lines of another one with other such fields. -/
structure Cudd.Annotates (text text' : String) : Prop where
  head : Format.cudd.head text' = Format.cudd.head text
  lines : List.Forall₂ AddsFields (Format.cudd.nodeLines text) (Format.cudd.nodeLines text')

/-! ### Dictionaries of rearranged lines -/

theorem get?_ofList (es : List (Nat × NativeNode)) (key : Nat) :
    (Dictionary.ofList es).get? key = (es.reverse.find? fun e => e.1 = key).map Prod.snd := by
  suffices h : ∀ d : Dictionary Nat NativeNode, (d.insertAll es).get? key =
      ((es.reverse.find? fun e => e.1 = key).map Prod.snd).or (d.get? key) by
    simpa [Dictionary.ofList] using h .empty
  induction es with
  | nil => exact fun d => rfl
  | cons e es ih =>
    intro d
    have hstep : d.insertAll (e :: es) = (d.insert e.1 e.2).insertAll es := rfl
    rw [hstep, ih, Dictionary.get?_insert, List.reverse_cons, List.find?_append]
    by_cases hkey : e.1 = key
    · cases es.reverse.find? (fun e => e.1 = key) <;> simp [hkey]
    · cases es.reverse.find? (fun e => e.1 = key) <;> simp [hkey]

theorem get?_ofLines (ls : List Cudd.Line) (id : Nat) :
    (Dictionary.ofList (ls.filterMap Cudd.Line.node?)).get? id = Cudd.Line.lastOf ls id :=
  get?_ofList _ _

theorem length_ofList (es : List (Nat × NativeNode)) :
    (Dictionary.ofList es).entries.length = (es.map Prod.fst).toFinset.card := by
  have hnodup : ((Dictionary.ofList es).entries.map Prod.fst).Nodup :=
    List.pairwise_map.2 ((Dictionary.ofList es).ascending.imp Nat.ne_of_lt)
  rw [← List.length_map Prod.fst, ← List.toFinset_card_of_nodup hnodup]
  congr 1
  ext key
  simp only [List.mem_toFinset, List.mem_map, Dictionary.mem_entries_iff]
  constructor
  · rintro ⟨e, he, rfl⟩
    exact ⟨e, mem_of_get?_ofList he, rfl⟩
  · rintro ⟨e, he, rfl⟩
    cases hfind : es.reverse.find? (fun x => x.1 = e.1) with
    | none => exact absurd (List.find?_eq_none.1 hfind e (List.mem_reverse.2 he)) (by simp)
    | some x => exact ⟨(e.1, x.2), by rw [get?_ofList, hfind]; rfl, rfl⟩

theorem filterMap_node?_relabel (rename : Nat → Nat) (ls : List Cudd.Line) :
    (ls.map (Cudd.Line.relabel rename)).filterMap Cudd.Line.node? =
      (ls.filterMap Cudd.Line.node?).map fun e => (rename e.1, e.2.relabel rename) := by
  induction ls with
  | nil => rfl
  | cons l ls ih =>
    cases l with
    | constant root => exact ih
    | node id number node => exact congrArg (List.cons _) ih

namespace Format.Permutes

variable {format : Format} {rename : Nat → Nat} {ls ls' : List Cudd.Line}

theorem nodes_perm (h : format.Permutes rename ls ls') :
    (ls'.filterMap Cudd.Line.node?).Perm
      ((ls.filterMap Cudd.Line.node?).map fun e => (rename e.1, e.2.relabel rename)) :=
  filterMap_node?_relabel rename ls ▸ h.perm.filterMap _

theorem length_eq (h : format.Permutes rename ls ls') (hinj : Function.Injective rename) :
    (Dictionary.ofList (ls'.filterMap Cudd.Line.node?)).entries.length =
      (Dictionary.ofList (ls.filterMap Cudd.Line.node?)).entries.length := by
  rw [length_ofList, length_ofList, List.toFinset_eq_of_perm _ _ (h.nodes_perm.map Prod.fst)]
  rw [← Finset.card_image_of_injective ((ls.filterMap Cudd.Line.node?).map Prod.fst).toFinset hinj]
  congr 1
  ext key
  simp

end Format.Permutes

/-- Lines that give different numbers may stand in any order but for the line of the root. -/
theorem Format.permutes_of_nodup {format : Format} {rename : Nat → Nat}
    (hinj : Function.Injective rename) {ls ls' : List Cudd.Line}
    (hperm : ls'.Perm (ls.map (Cudd.Line.relabel rename)))
    (hroot : format.rootLine ls' = (format.rootLine ls).map (Cudd.Line.relabel rename))
    (hnodup : ((ls.filterMap Cudd.Line.node?).map Prod.fst).Nodup) :
    format.Permutes rename ls ls' := by
  refine ⟨hperm, hroot, fun id => ?_⟩
  have hnodes := hperm.filterMap Cudd.Line.node?
  rw [filterMap_node?_relabel] at hnodes
  have hnodup' : ((ls'.filterMap Cudd.Line.node?).map Prod.fst).Nodup := by
    have hkeys := hnodup.map hinj
    rw [List.map_map] at hkeys
    rw [(hnodes.map Prod.fst).nodup_iff, List.map_map]
    exact hkeys
  rw [← get?_ofLines, ← get?_ofLines]
  cases hid : (Dictionary.ofList (ls.filterMap Cudd.Line.node?)).get? id with
  | some native =>
    have hmem := List.mem_map_of_mem (f := fun e => (rename e.1, e.2.relabel rename))
      (mem_of_get?_ofList hid)
    exact Dictionary.get?_insertAll_of_mem .empty hnodup' (hnodes.mem_iff.2 hmem)
  | none =>
    refine Dictionary.get?_insertAll_of_not_mem .empty fun hmem => ?_
    obtain ⟨e', he', hkey⟩ := List.mem_map.1 hmem
    obtain ⟨e, he, rfl⟩ := List.mem_map.1 (hnodes.mem_iff.1 he')
    obtain rfl : e.1 = id := hinj hkey
    exact absurd (hid.symm.trans (Dictionary.get?_insertAll_of_mem .empty hnodup he)) (by simp)

namespace Table

variable {t t' : Table} {rename : Nat → Nat}

/-- Tables have the same shape if one says of each replaced number what the other one says. -/
theorem relabels_of_get? (hinj : Function.Injective rename)
    (hroot : t'.root = t.root.relabel rename)
    (hnodes : ∀ id, t'.nodes.get? (rename id) =
      (t.nodes.get? id).map (NativeNode.relabel rename)) : t.Relabels t' rename := by
  have hchild (parent child : Nat) :
      t'.Child (rename parent) child ↔ ∃ c, t.Child parent c ∧ rename c = child := by
    constructor
    · rintro ⟨node', hnode', htarget⟩
      obtain ⟨node, hnode, rfl⟩ := Option.map_eq_some_iff.1 (hnodes parent ▸ hnode')
      rcases htarget with hlow | hhigh
      · obtain ⟨c, hc, rfl⟩ := Target.relabel_eq_node_iff.1 hlow
        exact ⟨c, ⟨node, hnode, .inl hc⟩, rfl⟩
      · obtain ⟨c, hc, rfl⟩ := Target.relabel_eq_node_iff.1 hhigh
        exact ⟨c, ⟨node, hnode, .inr hc⟩, rfl⟩
    · rintro ⟨c, ⟨node, hnode, htarget⟩, rfl⟩
      refine ⟨node.relabel rename, by rw [hnodes, hnode]; rfl, ?_⟩
      exact htarget.imp (fun h => Target.relabel_eq_node_iff.2 ⟨c, h, rfl⟩)
        fun h => Target.relabel_eq_node_iff.2 ⟨c, h, rfl⟩
  have hroot' (id : Nat) : t'.root.target = .node id ↔
      ∃ first, t.root.target = .node first ∧ rename first = id := by
    rw [hroot]
    exact Target.relabel_eq_node_iff
  refine ⟨⟨fun id hid => ?_, hinj.injOn, fun id hid => ?_⟩, hroot, fun _ hnode => by
    rw [hnodes, hnode]; rfl⟩
  · obtain ⟨first, hfirst, hpath⟩ := hid
    refine ⟨rename first, (hroot' _).2 ⟨first, hfirst, rfl⟩, ?_⟩
    exact hpath.lift rename fun parent child h => (hchild parent _).2 ⟨child, h, rfl⟩
  · obtain ⟨first', hfirst, hpath⟩ := hid
    induction hpath with
    | refl =>
      obtain ⟨first, hfirst', rfl⟩ := (hroot' _).1 hfirst
      exact ⟨first, ⟨first, hfirst', .refl⟩, rfl⟩
    | tail _ hstep ih =>
      obtain ⟨parent, hparent, rfl⟩ := ih
      obtain ⟨c, hc, rfl⟩ := (hchild _ _).1 hstep
      exact ⟨c, hparent.child hc, rfl⟩

end Table

/-! ### Texts that are read as the same shape -/

theorem mapM_eq_of_forall₂ {ε α β : Type} {read : α → Except ε β} {related : α → α → Prop}
    {xs xs' : List α} (h : List.Forall₂ related xs xs')
    (hread : ∀ {x x'}, related x x' → ∀ {y}, read x = .ok y → read x' = .ok y) {ys : List β}
    (hys : xs.mapM read = .ok ys) : xs'.mapM read = .ok ys := by
  induction h generalizing ys with
  | nil => exact hys
  | cons hx _ ih =>
    simp only [List.mapM_cons, bind_eq_ok_iff] at hys ⊢
    obtain ⟨y, hy, rest, hrest, hys⟩ := hys
    exact ⟨y, hread hx hy, rest, ih hrest, hys⟩

theorem mapM_map_comp {ε α β γ : Type} (read : α → Except ε β) (f : β → γ) (xs : List α) :
    xs.mapM (fun x => (read x).map f) = (xs.mapM read).map (List.map f) := by
  induction xs with
  | nil => rfl
  | cons x xs ih =>
    rw [List.mapM_cons, List.mapM_cons, ih]
    cases read x with
    | error fault => rfl
    | ok y => cases xs.mapM read <;> rfl

namespace Buddy

theorem reads_iff {text : String} {ls : List Cudd.Line} :
    Format.buddy.Reads text ls ↔
      ∃ nodes, (Format.buddy.nodeLines text).mapM parseNode = .ok nodes ∧ nodes.map line = ls := by
  have hread : Format.buddy.readLine = fun l => (parseNode l).map line := rfl
  rw [Format.Reads, hread, mapM_map_comp]
  cases (Format.buddy.nodeLines text).mapM parseNode <;> simp [Except.map]

theorem filterMap_node?_line (nodes : List (Nat × NativeNode)) :
    (nodes.map line).filterMap Cudd.Line.node? = nodes := by
  rw [List.filterMap_map]
  exact List.filterMap_some

/-- Of the lines after the header at most one is passed over, whatever comes after it. -/
theorem exists_levels {vars : Nat} {lines rest : List (List Char)}
    (h : skipLevels vars lines = .ok rest) :
    ∃ levels, lines = levels ++ rest ∧ levels.length = (if vars = 0 then 0 else 1) ∧
      ∀ others, skipLevels vars (levels ++ others) = .ok others := by
  unfold skipLevels at h
  split at h
  · next hvars =>
    obtain rfl := Except.ok.inj h
    refine ⟨[], rfl, by rw [if_pos hvars]; rfl, fun others => ?_⟩
    unfold skipLevels
    exact if_pos hvars
  · next hvars =>
    split at h
    · exact absurd h (by simp)
    · next levels rest' =>
      split at h
      · next hlength =>
        obtain rfl := Except.ok.inj h
        refine ⟨[levels], rfl, by rw [if_neg hvars]; rfl, fun others => ?_⟩
        unfold skipLevels
        rw [if_neg hvars]
        exact if_pos hlength
      · exact absurd h (by simp)

theorem headLength_eq {header count vars : List Char} {m : Nat}
    (hwords : Text.words header = [count, vars]) (hm : Numeral.word64 vars = .ok m)
    (lines : List (List Char)) :
    Format.buddy.headLength (header :: lines) = (if m = 0 then 0 else 1) + 1 := by
  simp only [Format.headLength, hwords, hm]
  cases m <;> rfl

/-- The root of rearranged lines is that of the lines, under its new number. -/
theorem exists_last {rename : Nat → Nat} {nodes nodes' : List (Nat × NativeNode)}
    (hroot : Format.buddy.rootLine (nodes'.map line) =
      (Format.buddy.rootLine (nodes.map line)).map (Cudd.Line.relabel rename))
    {last : Nat × NativeNode} (hlast : nodes.getLast? = some last) :
    ∃ last', nodes'.getLast? = some last' ∧ edge last'.1 = (edge last.1).relabel rename := by
  simp only [Format.rootLine, List.getLast?_map, hlast] at hroot
  obtain ⟨last', hlast', heq⟩ := Option.map_eq_some_iff.1 hroot
  exact ⟨last', hlast', (Cudd.Line.node.inj heq).1⟩

theorem contentLines_of_rearranges {rename : Nat → Nat} {text text' : String}
    (h : Format.buddy.Rearranges rename text text') {header count vars : List Char}
    {levels rest : List (List Char)} {m : Nat} (hheader : Text.words header = [count, vars])
    (hvars : Numeral.word64 vars = .ok m) (hlevels : levels.length = if m = 0 then 0 else 1)
    (hcontent : contentLines text = header :: (levels ++ rest)) :
    Format.buddy.nodeLines text = rest ∧
      contentLines text' = header :: (levels ++ Format.buddy.nodeLines text') := by
  have hhead := headLength_eq hheader hvars (levels ++ rest)
  rw [← hlevels] at hhead
  constructor
  · rw [Format.nodeLines, hcontent, hhead]
    exact List.drop_left
  · rw [Format.buddy.contentLines_eq text', h.head, Format.head, hcontent, hhead,
      List.take_succ_cons, List.take_left, List.cons_append]

theorem relabels_of_parse {rename : Nat → Nat} {text text' : String} {t : Table}
    (h : Format.buddy.Rearranges rename text text') (hparse : parse text = .ok t) :
    ∃ t', parse text' = .ok t' ∧ t.Relabels t' rename := by
  obtain ⟨ls, ls', hls, hls', hpermutes⟩ := h.lines
  have hencodes := parse_eq_ok_iff.1 hparse
  generalize hcontent : contentLines text = content at hencodes
  cases hencodes with
  | nodes hheader hcount hvars htable =>
    obtain ⟨rest, nodes, last, hrest, hnodes, hlength, hlast, rfl⟩ := tableOf_eq_ok_iff.1 htable
    obtain ⟨levels, rfl, hlevels, hskip⟩ := exists_levels hrest
    obtain ⟨hlines, hcontent'⟩ := contentLines_of_rearranges h hheader hvars hlevels hcontent
    obtain ⟨nodes₀, hnodes₀, rfl⟩ := reads_iff.1 hls
    obtain rfl := Except.ok.inj (hnodes₀.symm.trans (hlines ▸ hnodes))
    obtain ⟨nodes', hnodes', rfl⟩ := reads_iff.1 hls'
    obtain ⟨last', hlast', hroot⟩ := exists_last hpermutes.root hlast
    have hlength' := hpermutes.length_eq h.injective
    have hget := hpermutes.last
    simp only [← get?_ofLines, filterMap_node?_line] at hlength' hget
    have htable' := tableOf_eq_ok_iff.2
      ⟨_, nodes', last', hskip _, hnodes', hlength'.trans hlength, hlast', rfl⟩
    refine ⟨⟨edge last'.1, .ofList nodes'⟩, parse_eq_ok_iff.2 ?_,
      Table.relabels_of_get? h.injective hroot hget⟩
    rw [hcontent']
    exact .nodes hheader hcount hvars htable'
  | @constant header value lines n hheader hvalue hle =>
    have hhead : Format.buddy.headLength (header :: lines) = 1 := by
      simp only [Format.headLength, hheader]
    have hcontent' := Format.buddy.contentLines_eq text'
    rw [h.head, Format.head, hcontent, hhead] at hcontent'
    refine ⟨⟨edge n, .empty⟩, parse_eq_ok_iff.2 ?_,
      Table.relabels_of_get? h.injective ?_ fun _ => rfl⟩
    · rw [hcontent']
      exact .constant hheader hvalue hle
    · rcases Nat.le_one_iff_eq_zero_or_eq_one.1 hle with rfl | rfl <;> rfl

end Buddy

namespace Cudd

theorem Line.root_relabel (rename : Nat → Nat) (l : Line) :
    (l.relabel rename).root = l.root.relabel rename := by
  cases l <;> rfl

theorem head_of_content {text : String} {summary : List Char} {lines : List (List Char)}
    (h : contentLines text = summary :: lines) :
    Format.cudd.head text = [summary] ∧ Format.cudd.nodeLines text = lines := by
  rw [Format.head, Format.nodeLines, h]
  exact ⟨rfl, rfl⟩

theorem relabels_of_parse {rename : Nat → Nat} {text text' : String} {t : Table}
    (h : Format.cudd.Rearranges rename text text') (hparse : parse text = .ok t) :
    ∃ t', parse text' = .ok t' ∧ t.Relabels t' rename := by
  obtain ⟨ls, ls', hls, hls', hpermutes⟩ := h.lines
  have hcontent' := Format.cudd.contentLines_eq text'
  have hencodes := parse_eq_ok_iff.1 hparse
  generalize hcontent : contentLines text = content at hencodes
  cases hencodes with
  | zero hsummary =>
    rw [h.head, (head_of_content hcontent).1] at hcontent'
    refine ⟨⟨⟨false, .terminal false⟩, .empty⟩, parse_eq_ok_iff.2 ?_,
      Table.relabels_of_get? h.injective rfl fun _ => rfl⟩
    rw [hcontent']
    exact .zero hsummary
  | @nodes summary lines count first others hsummary hcount hlines =>
    obtain ⟨hhead, hnodeLines⟩ := head_of_content hcontent
    rw [h.head, hhead, List.singleton_append] at hcontent'
    obtain rfl := Except.ok.inj (hls.symm.trans (hnodeLines ▸ hlines))
    obtain ⟨others', rfl⟩ := List.head?_eq_some_iff.1 hpermutes.root
    have hget := hpermutes.last
    simp only [← get?_ofLines] at hget
    refine ⟨⟨(first.relabel rename).root,
      .ofList ((first.relabel rename :: others').filterMap Line.node?)⟩, parse_eq_ok_iff.2 ?_,
      Table.relabels_of_get? h.injective (first.root_relabel rename) hget⟩
    rw [hcontent']
    exact .nodes hsummary hcount hls'

theorem field?_eq_of_filter {fs fs' : List (List Char × List Char)} {key : String}
    (h : fs'.filter (fun f => f.1 = key.toList) = fs.filter fun f => f.1 = key.toList) :
    field? fs' key = field? fs key := by
  have hfind (xs : List (List Char × List Char)) :
      xs.reverse.find? (fun f => f.1 = key.toList) =
        (xs.filter fun f => f.1 = key.toList).reverse.head? := by
    rw [← List.filter_reverse, List.head?_filter]
  rw [field?, field?, hfind, hfind, h]

theorem AddsFields.parseLine_eq {line line' : List Char} (h : AddsFields line line') {l : Line}
    (hl : parseLine line = .ok l) : parseLine line' = .ok l := by
  obtain ⟨fs, hfs, fs', hfs', hfilter⟩ := h
  have hfield (key : String) (hkey : key ∈ nodeKeys) : field? fs' key = field? fs key :=
    field?_eq_of_filter (hfilter key hkey)
  have hget {key : String} {value : List Char} (hkey : key ∈ nodeKeys)
      (hvalue : get line fs key = .ok value) : get line' fs' key = .ok value := by
    rw [get_eq_ok_iff, hfield key hkey]
    exact get_eq_ok_iff.1 hvalue
  rw [parseLine, hfs] at hl
  rw [parseLine, hfs']
  simp only [bind_eq_ok_iff] at hl ⊢
  obtain ⟨id, hid, e, he, hl⟩ := hl
  refine ⟨id, hget (by decide) hid, e, he, ?_⟩
  rw [hfield "value" (by decide)]
  split at hl
  · exact hl
  · split at hl
    · exact absurd hl (by simp)
    · simp only [bind_eq_ok_iff] at hl ⊢
      obtain ⟨index, hindex, var, hvar, low, hlow, lowEdge, hlowEdge, high, hhigh, highEdge, hhighEdge,
        hl⟩ := hl
      exact ⟨index, hget (by decide) hindex, var, hvar, low, hget (by decide) hlow, lowEdge,
        hlowEdge, high, hget (by decide) hhigh, highEdge, hhighEdge, hl⟩

theorem Annotates.parse_eq {text text' : String} {t : Table} (h : Annotates text text')
    (hparse : parse text = .ok t) : parse text' = .ok t := by
  have hcontent' := Format.cudd.contentLines_eq text'
  have hencodes := parse_eq_ok_iff.1 hparse
  generalize hcontent : contentLines text = content at hencodes
  refine parse_eq_ok_iff.2 ?_
  cases hencodes with
  | zero hsummary =>
    rw [hcontent', h.head, (head_of_content hcontent).1]
    exact .zero hsummary
  | nodes hsummary hcount hlines =>
    obtain ⟨hhead, hnodeLines⟩ := head_of_content hcontent
    rw [hcontent', h.head, hhead]
    exact .nodes hsummary hcount
      (mapM_eq_of_forall₂ (hnodeLines ▸ h.lines) (fun h => h.parseLine_eq) hlines)

end Cudd

theorem Format.Rearranges.translate_eq {format : Format} {rename : Nat → Nat} {text text' : String}
    {num : Numbered} (h : format.Rearranges rename text text')
    (hnum : format.translate text = .ok num) : format.translate text' = .ok num := by
  obtain ⟨t, hparse, hnumber⟩ := bind_eq_ok_iff.1 hnum
  have hrelabels : ∃ t', format.parse text' = .ok t' ∧ t.Relabels t' rename := by
    cases format with
    | buddy => exact Buddy.relabels_of_parse h hparse
    | cudd => exact Cudd.relabels_of_parse h hparse
  obtain ⟨t', hparse', hrelabels⟩ := hrelabels
  exact bind_eq_ok_iff.2 ⟨t', hparse', hrelabels.number hnumber⟩

/-- Two texts that are translated are translated to the same exactly if their tables have the same
shape. So the translation of a text does not change if its nodes get other numbers and its lines
another order, in which that of the root keeps its place and of the lines that give the same number the
last one stays the last; nor if further fields are added to its lines, such as counts of
references. -/
theorem translation_depends_on_shape :
    (∀ (format format' : Format) (text text' : String) (num num' : Numbered),
      format.translate text = .ok num → format'.translate text' = .ok num' →
      ∃ t t', format.parse text = .ok t ∧ format'.parse text' = .ok t' ∧
        (num = num' ↔ t.SameShape t')) ∧
    (∀ (format : Format) (rename : Nat → Nat) (text text' : String) (num : Numbered),
      format.Rearranges rename text text' → format.translate text = .ok num →
      format.translate text' = .ok num) ∧
    ∀ (text text' : String) (num : Numbered), Cudd.Annotates text text' →
      Format.cudd.translate text = .ok num → Format.cudd.translate text' = .ok num := by
  refine ⟨fun format format' text text' num num' hnum hnum' => ?_, fun _ _ _ _ _ => ?_,
    fun text text' num h hnum => ?_⟩
  · obtain ⟨t, hparse, hnumber⟩ := bind_eq_ok_iff.1 hnum
    obtain ⟨t', hparse', hnumber'⟩ := bind_eq_ok_iff.1 hnum'
    exact ⟨t, t', hparse, hparse', Table.number_eq_iff hnumber hnumber'⟩
  · exact Format.Rearranges.translate_eq
  · obtain ⟨t, hparse, hnumber⟩ := bind_eq_ok_iff.1 hnum
    exact bind_eq_ok_iff.2 ⟨t, h.parse_eq hparse, hnumber⟩

/-- A text with three nodes, the root last. -/
def plainText : String := "3 3\n0 1 2\n4 2 0 1\n5 1 4 1\n6 0 4 5\n"

/-- The same text with greater numbers and the lines before that of the root in another order. -/
def movedText : String := "3 3\n0 1 2\n6 1 5 1\n5 2 0 1\n7 0 5 6\n"

def plainLines : List Cudd.Line :=
  [(4, ⟨2, Buddy.edge 0, Buddy.edge 1⟩), (5, ⟨1, Buddy.edge 4, Buddy.edge 1⟩),
    (6, ⟨0, Buddy.edge 4, Buddy.edge 5⟩)].map Buddy.line

def movedLines : List Cudd.Line :=
  [(6, ⟨1, Buddy.edge 5, Buddy.edge 1⟩), (5, ⟨2, Buddy.edge 0, Buddy.edge 1⟩),
    (7, ⟨0, Buddy.edge 5, Buddy.edge 6⟩)].map Buddy.line

def plainTable : Table := ⟨Buddy.edge 6, .ofList (plainLines.filterMap Cudd.Line.node?)⟩

def plainNumbered : Numbered where
  root := ⟨false, 4⟩
  nodes := [⟨2, 2, ⟨false, 0⟩, ⟨false, 1⟩⟩, ⟨3, 1, ⟨false, 2⟩, ⟨false, 1⟩⟩, ⟨4, 0, ⟨false, 2⟩, ⟨false, 3⟩⟩]

def shortText : String := ": 2\nID = 0x2 index = 0 T = 1 E = !1\n"

def countedText : String := ": 2\nID = 0x2 index = 0 r = 1 T = 1 E = !1\n"

theorem translation_of_rearranged_text :
    Format.buddy.Rearranges Nat.succ plainText movedText ∧
      Cudd.Annotates shortText countedText ∧
      Format.buddy.translate plainText = .ok plainNumbered ∧
      Format.buddy.translate movedText = .ok plainNumbered ∧
      Format.cudd.translate countedText = .ok ⟨⟨false, 2⟩, [⟨2, 0, ⟨true, 1⟩, ⟨false, 1⟩⟩]⟩ ∧
      ∃ t t', Format.buddy.parse plainText = .ok t ∧ Format.buddy.parse movedText = .ok t' ∧
        (plainNumbered = plainNumbered ↔ t.SameShape t') := by
  obtain ⟨hshape, hrearranged, hannotated⟩ := translation_depends_on_shape
  have hparse : Format.buddy.parse plainText = .ok plainTable := by decide +kernel
  have hplain : Format.buddy.translate plainText = .ok plainNumbered := by
    rw [Format.translate, hparse]
    cbv
  have hreads : Format.buddy.Reads plainText plainLines := by
    unfold Format.Reads
    decide +kernel
  have hreads' : Format.buddy.Reads movedText movedLines := by
    unfold Format.Reads
    decide +kernel
  have hmoved : Format.buddy.Rearranges Nat.succ plainText movedText :=
    ⟨Nat.succ_injective, by decide +kernel, plainLines, movedLines, hreads, hreads',
      Format.permutes_of_nodup Nat.succ_injective (by decide) rfl (by decide)⟩
  have hparse' : Format.cudd.parse shortText = .ok ⟨⟨false, .node 2⟩,
      .ofList [(2, ⟨0, ⟨true, .terminal true⟩, ⟨false, .terminal true⟩⟩)]⟩ := by decide +kernel
  have hshort : Format.cudd.translate shortText =
      .ok ⟨⟨false, 2⟩, [⟨2, 0, ⟨true, 1⟩, ⟨false, 1⟩⟩]⟩ := by
    rw [Format.translate, hparse']
    cbv
  have hcounted : Cudd.Annotates shortText countedText := ⟨by decide +kernel, by decide +kernel⟩
  have hmoved' := hrearranged _ _ _ _ _ hmoved hplain
  exact ⟨hmoved, hcounted, hplain, hmoved', hannotated _ _ _ hcounted hshort,
    hshape _ _ _ _ _ _ hplain hmoved'⟩

/-- A text with two lines for the node 2. The later one counts, so that the order of the two tells. -/
def repeatedText : String := "2 2\n0 1\n2 1 1 0\n2 1 0 1\n3 0 0 2\n"

def swappedText : String := "2 2\n0 1\n2 1 0 1\n2 1 1 0\n3 0 0 2\n"

theorem translation_of_repeated_number :
    ¬ ∀ text text' num num', Format.buddy.head text' = Format.buddy.head text →
      (Format.buddy.nodeLines text').Perm (Format.buddy.nodeLines text) →
      (Format.buddy.nodeLines text').getLast? = (Format.buddy.nodeLines text).getLast? →
      Format.buddy.translate text = .ok num → Format.buddy.translate text' = .ok num' →
      num' = num := by
  intro h
  have hrepeated : Format.buddy.parse repeatedText =
      .ok ⟨⟨false, .node 3⟩, .ofList [(2, ⟨1, ⟨false, .terminal false⟩, ⟨false, .terminal true⟩⟩),
        (3, ⟨0, ⟨false, .terminal false⟩, ⟨false, .node 2⟩⟩)]⟩ := by decide +kernel
  have hswapped : Format.buddy.parse swappedText =
      .ok ⟨⟨false, .node 3⟩, .ofList [(2, ⟨1, ⟨false, .terminal true⟩, ⟨false, .terminal false⟩⟩),
        (3, ⟨0, ⟨false, .terminal false⟩, ⟨false, .node 2⟩⟩)]⟩ := by decide +kernel
  have hnum : Format.buddy.translate repeatedText =
      .ok ⟨⟨false, 3⟩, [⟨2, 1, ⟨false, 0⟩, ⟨false, 1⟩⟩, ⟨3, 0, ⟨false, 0⟩, ⟨false, 2⟩⟩]⟩ := by
    rw [Format.translate, hrepeated]
    cbv
  have hnum' : Format.buddy.translate swappedText =
      .ok ⟨⟨false, 3⟩, [⟨2, 1, ⟨false, 1⟩, ⟨false, 0⟩⟩, ⟨3, 0, ⟨false, 0⟩, ⟨false, 2⟩⟩]⟩ := by
    rw [Format.translate, hswapped]
    cbv
  have hsame := h repeatedText swappedText _ _ (by decide +kernel) (by decide +kernel)
    (by decide +kernel) hnum hnum'
  exact absurd hsame (by decide)

end Native
end DiagramCompiler
