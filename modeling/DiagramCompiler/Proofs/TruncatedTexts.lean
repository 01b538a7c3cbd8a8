import DiagramCompiler.Manager
import DiagramCompiler.Proofs.RearrangedTexts

/-! Texts that are cut off.
A BuDDy text announces how many nodes follow. The count in a CUDD text is passed over, so that only
an edge tells that nodes are gone: the root comes first and leads to each of them, and the path to a
node that is gone leaves the nodes that are left somewhere. -/
namespace DiagramCompiler
namespace Native

/-! ### Parts of a table -/

/-- Whether a table has the root of another one and some of its nodes. -/
structure Table.Part (t' t : Table) : Prop where
  root : t'.root = t.root
  nodes {id : Nat} {node : NativeNode} :
    t'.nodes.get? id = some node → t.nodes.get? id = some node

namespace Table.Part

variable {t t' : Table} {id : Nat}

theorem child (h : t'.Part t) {parent child : Nat} (hchild : t'.Child parent child) :
    t.Child parent child := by
  obtain ⟨node, hnode, htarget⟩ := hchild
  exact ⟨node, h.nodes hnode, htarget⟩

theorem reachable (h : t'.Part t) (hid : t'.Reachable id) : t.Reachable id := by
  obtain ⟨first, hroot, hpath⟩ := hid
  exact ⟨first, h.root ▸ hroot, Relation.ReflTransGen.mono (fun _ _ => h.child) _ _ hpath⟩

theorem reachable_of_isClosed (h : t'.Part t) (hclosed : t'.IsClosed) (hid : t.Reachable id) :
    t'.Reachable id := by
  obtain ⟨first, hroot, hpath⟩ := hid
  induction hpath with
  | refl => exact ⟨first, h.root.symm ▸ hroot, .refl⟩
  | tail _ hchild ih =>
    obtain ⟨node, hnode, htarget⟩ := hchild
    obtain ⟨node', hnode'⟩ := hclosed _ ih
    obtain rfl := Option.some.inj (hnode.symm.trans (h.nodes hnode'))
    exact ih.child ⟨node, hnode', htarget⟩

/-- A part without a node that the root led to is not numbered. No cycle can be to blame. -/
theorem exists_missing (h : t'.Part t) (hclosed : t.IsClosed) (hacyclic : t.IsAcyclic)
    (hid : t.Reachable id) (hgone : t'.nodes.get? id = none) :
    ∃ gap, t'.number = .error (.missing gap) ∧ (∃ node, t.nodes.get? gap = some node) ∧
      t'.nodes.get? gap = none := by
  have hopen : ¬ t'.IsClosed := fun hclosed' => by
    obtain ⟨node, hnode⟩ := hclosed' id (h.reachable_of_isClosed hclosed' hid)
    exact absurd (hnode.symm.trans hgone) (by simp)
  rcases t'.number_cases with ⟨fault, hnumber, hblames⟩ | ⟨n, root, hn, -⟩
  · cases fault with
    | missing gap => exact ⟨gap, hnumber, hclosed gap (h.reachable hblames.1), hblames.2⟩
    | cycle gap =>
      have hcycle : Relation.TransGen t.Child gap gap :=
        Relation.TransGen.mono (fun _ _ => h.child) _ _ hblames.2
      exact absurd hcycle (hacyclic gap (h.reachable hblames.1))
    | _ => exact hblames.elim
  · exact absurd hn.isClosed hopen

end Table.Part

/-! ### Lines that are gone -/

/-- Whether a text has the first lines of another one, but not all of them. Blank lines do not
count. -/
def Cuts (text' text : String) : Prop :=
  contentLines text' <+: contentLines text ∧ contentLines text' ≠ contentLines text

/-- Whether the lines after the head of a text describe these nodes, at least one, each under a
number of its own, and the root leads to each of them. -/
structure Format.Lists (format : Format) (text : String) (t : Table)
    (nodes : List (Nat × NativeNode)) : Prop where
  lines : ∃ ls, format.Reads text ls ∧ ls.map Cudd.Line.node? = nodes.map some
  nonempty : nodes ≠ []
  distinct : (nodes.map Prod.fst).Nodup
  reached {e : Nat × NativeNode} : e ∈ nodes → t.Reachable e.1

/-- The faults by which a text shows that it was cut off. Of the lines of the head and the lines of
the nodes some are kept. -/
inductive Format.TellsCut (head : Nat) (nodes : List (Nat × NativeNode)) :
    Format → Nat → Fault → Prop
  | empty (format : Format) : TellsCut head nodes format 0 .empty
  | levels {kept : Nat} (hheader : 0 < kept) (hkept : kept < head) :
      TellsCut head nodes .buddy kept .noLevels
  | count {kept : Nat} (hhead : head ≤ kept) (hkept : kept < head + nodes.length) :
      TellsCut head nodes .buddy kept (.nodeCount nodes.length (kept - head))
  | ids : TellsCut head nodes .cudd head .noIds
  | missing {kept id : Nat} (hhead : head < kept)
      (hid : id ∈ (nodes.drop (kept - head)).map Prod.fst) :
      TellsCut head nodes .cudd kept (.missing id)

theorem mapM_take {ε α β : Type} {read : α → Except ε β} {xs : List α} {ys : List β}
    (h : xs.mapM read = .ok ys) (count : Nat) :
    (xs.take count).mapM read = .ok (ys.take count) := by
  induction xs generalizing ys count with
  | nil =>
    obtain rfl := Except.ok.inj h
    rw [List.take_nil]
    exact congrArg Except.ok List.take_nil.symm
  | cons x xs ih =>
    simp only [List.mapM_cons, bind_eq_ok_iff] at h
    obtain ⟨y, hy, rest, hrest, h⟩ := h
    obtain rfl := Except.ok.inj h
    cases count with
    | zero => rfl
    | succ count =>
      rw [List.take_succ_cons, List.mapM_cons]
      simp only [bind_eq_ok_iff]
      exact ⟨y, hy, _, ih hrest count, rfl⟩

theorem Cudd.filterMap_node?_eq {ls : List Line} {nodes : List (Nat × NativeNode)}
    (h : ls.map Line.node? = nodes.map some) : ls.filterMap Line.node? = nodes := by
  have hsplit : ls.filterMap Line.node? = (ls.map Line.node?).filterMap id := by
    rw [List.filterMap_map]
    rfl
  rw [hsplit, h, List.filterMap_map]
  exact List.filterMap_some

theorem length_ofList_of_nodup {nodes : List (Nat × NativeNode)}
    (h : (nodes.map Prod.fst).Nodup) : (Dictionary.ofList nodes).entries.length = nodes.length :=
  (Dictionary.length_insertAll h fun _ _ => rfl).trans (Nat.zero_add _)

/-- Cutting a text leaves nothing of it, or the first line and some of the others. -/
theorem Cuts.cases {text text' : String} (h : Cuts text' text) :
    contentLines text' = [] ∨ ∃ first lines, contentLines text = first :: lines ∧
      ∃ kept < lines.length, contentLines text' = first :: lines.take kept := by
  obtain ⟨hfirst, hne⟩ := h
  cases hcontent' : contentLines text' with
  | nil => exact .inl rfl
  | cons first lines' =>
    rw [hcontent'] at hfirst hne
    obtain ⟨lost, hlost⟩ := hfirst
    refine .inr ⟨first, lines' ++ lost, hlost.symm, lines'.length, ?_, ?_⟩
    · have hlost' : lost ≠ [] := by
        rintro rfl
        exact hne (by rw [← hlost, List.append_nil])
      have hpos := List.length_pos_of_ne_nil hlost'
      rw [List.length_append]
      omega
    · rw [List.take_left]

namespace Buddy

/-- After the header, a line with levels is missing or the nodes are fewer than announced. -/
theorem tableOf_take {count vars : Nat} {lines : List (List Char)} {t : Table}
    {nodes : List (Nat × NativeNode)} (h : tableOf count vars lines = .ok t)
    (hnodes : (lines.drop (if vars = 0 then 0 else 1)).mapM parseNode = .ok nodes)
    (hdistinct : (nodes.map Prod.fst).Nodup) {kept : Nat} (hkept : kept < lines.length) :
    ∃ fault, tableOf count vars (lines.take kept) = .error fault ∧
      Format.TellsCut ((if vars = 0 then 0 else 1) + 1) nodes .buddy (kept + 1) fault := by
  obtain ⟨rest, nodes', -, hrest, hnodes', hcount, -⟩ := tableOf_eq_ok_iff.1 h
  obtain ⟨levels, rfl, hlevels, hskip⟩ := exists_levels hrest
  rw [← hlevels, List.drop_left] at hnodes
  obtain rfl := Except.ok.inj (hnodes'.symm.trans hnodes)
  obtain rfl : nodes'.length = count := length_ofList_of_nodup hdistinct ▸ hcount
  have hlength : nodes'.length = rest.length := (forall₂_of_mapM hnodes').length_eq.symm
  rw [← hlevels]
  rcases Nat.lt_or_ge kept levels.length with hless | hge
  · -- Only a text with variables has a line before those of the nodes.
    have hvars : vars ≠ 0 := by
      rintro rfl
      exact absurd hless (by rw [hlevels]; exact Nat.not_lt_zero kept)
    obtain rfl : kept = 0 := by
      rw [hlevels, if_neg hvars] at hless
      omega
    refine ⟨.noLevels, ?_, .levels (Nat.succ_pos 0) (by omega)⟩
    rw [List.take_zero, tableOf, skipLevels, if_neg hvars]
    rfl
  · obtain ⟨left, rfl⟩ := Nat.exists_eq_add_of_le hge
    rw [List.length_append] at hkept
    have hleft : ((nodes'.take left).map Prod.fst).Nodup :=
      hdistinct.sublist ((List.take_sublist left nodes').map Prod.fst)
    have hfewer : (Dictionary.ofList (nodes'.take left)).entries.length = left := by
      rw [length_ofList_of_nodup hleft, List.length_take]
      omega
    have hne : (Dictionary.ofList (nodes'.take left)).entries.length ≠ nodes'.length := by
      omega
    refine ⟨.nodeCount nodes'.length left, ?_, ?_⟩
    · rw [List.take_length_add_append, tableOf, hskip]
      simp only [bind, Except.bind, mapM_take hnodes' left]
      rw [if_pos hne, hfewer]
    · have hfound : levels.length + left + 1 - (levels.length + 1) = left := by omega
      have htold : Format.TellsCut (levels.length + 1) nodes' .buddy (levels.length + left + 1)
          (.nodeCount nodes'.length (levels.length + left + 1 - (levels.length + 1))) :=
        .count (by omega) (by omega)
      rwa [hfound] at htold

theorem parse_of_cut {text text' : String} {t : Table} {nodes : List (Nat × NativeNode)}
    (hparse : parse text = .ok t) (hlists : Format.buddy.Lists text t nodes)
    (hcut : Cuts text' text) : ∃ fault, parse text' = .error fault ∧
      Format.TellsCut (Format.buddy.headLength (contentLines text)) nodes .buddy
        (contentLines text').length fault := by
  rcases hcut.cases with hnone | ⟨header, lines, hcontent, kept, hkept, hcontent'⟩
  · refine ⟨.empty, by rw [parse, hnone], ?_⟩
    rw [hnone]
    exact .empty .buddy
  obtain ⟨ls, hls, hnodes⟩ := hlists.lines
  obtain ⟨nodes', hnodes', rfl⟩ := reads_iff.1 hls
  obtain rfl : nodes' = nodes :=
    (filterMap_node?_line nodes').symm.trans (Cudd.filterMap_node?_eq hnodes)
  have hencodes := parse_eq_ok_iff.1 hparse
  rw [hcontent] at hencodes
  rw [hcontent, hcontent', List.length_cons, List.length_take_of_le hkept.le]
  cases hencodes with
  | nodes hheader hcount hvars htable =>
    have hhead := headLength_eq hheader hvars lines
    rw [Format.nodeLines, hcontent, hhead, List.drop_succ_cons] at hnodes'
    rw [parse_of_header hcontent' hheader hcount hvars, hhead]
    exact tableOf_take htable hnodes' hlists.distinct hkept
  | constant _ _ hle =>
    -- the root of a constant leads to no node
    obtain ⟨e, he⟩ := List.exists_mem_of_ne_nil _ hlists.nonempty
    obtain ⟨first, hfirst, -⟩ := hlists.reached he
    rcases Nat.le_one_iff_eq_zero_or_eq_one.1 hle with rfl | rfl
    · exact absurd hfirst (by simp [edge])
    · exact absurd hfirst (by simp [edge])

end Buddy

namespace Cudd

section Parts

variable {nodes : List (Nat × NativeNode)} {root : NativeEdge}

theorem part_of_take (hdistinct : (nodes.map Prod.fst).Nodup) (kept : Nat) :
    Table.Part ⟨root, .ofList (nodes.take kept)⟩ ⟨root, .ofList nodes⟩ where
  root := rfl
  nodes hnode := Dictionary.get?_insertAll_of_mem .empty hdistinct
    (List.mem_of_mem_take (mem_of_get?_ofList hnode))

theorem get?_take_eq_none_iff (hdistinct : (nodes.map Prod.fst).Nodup) {kept : Nat}
    {e : Nat × NativeNode} (he : e ∈ nodes) :
    (Dictionary.ofList (nodes.take kept)).get? e.1 = none ↔ e ∈ nodes.drop kept := by
  rw [← nodes.take_append_drop kept, List.map_append] at hdistinct
  obtain ⟨htake, -, hdisjoint⟩ := List.nodup_append.1 hdistinct
  constructor
  · intro hnone
    rw [← nodes.take_append_drop kept] at he
    refine (List.mem_append.1 he).resolve_left fun hmem => ?_
    exact absurd (hnone.symm.trans (Dictionary.get?_insertAll_of_mem .empty htake hmem)) (by simp)
  · intro hdrop
    refine Dictionary.get?_insertAll_of_not_mem .empty fun hmem => ?_
    exact hdisjoint _ hmem _ (List.mem_map_of_mem hdrop) rfl

/-- The walk through the first nodes comes to the number of one that is gone. -/
theorem number_of_take (hclosed : Table.IsClosed ⟨root, .ofList nodes⟩)
    (hacyclic : Table.IsAcyclic ⟨root, .ofList nodes⟩) (hdistinct : (nodes.map Prod.fst).Nodup)
    (hreached : ∀ e ∈ nodes, Table.Reachable ⟨root, .ofList nodes⟩ e.1) {kept : Nat}
    (hkept : kept < nodes.length) :
    ∃ gap ∈ (nodes.drop kept).map Prod.fst,
      Table.number ⟨root, .ofList (nodes.take kept)⟩ = .error (.missing gap) := by
  have hlast : nodes[kept] ∈ nodes.drop kept := by
    rw [List.drop_eq_getElem_cons hkept]
    exact List.mem_cons_self
  have hmem := List.mem_of_mem_drop hlast
  obtain ⟨gap, hnumber, ⟨node, hnode⟩, hgone⟩ :=
    (part_of_take hdistinct kept).exists_missing hclosed hacyclic (hreached _ hmem)
      ((get?_take_eq_none_iff hdistinct hmem).2 hlast)
  have hlost := (get?_take_eq_none_iff hdistinct (mem_of_get?_ofList hnode)).1 hgone
  exact ⟨gap, List.mem_map.2 ⟨_, hlost, rfl⟩, hnumber⟩

end Parts

/-- Without the lines of the nodes there is no root; with some of them it is that of the whole
text. -/
theorem parse_of_cut {text text' : String} {t : Table} {nodes : List (Nat × NativeNode)}
    (hparse : parse text = .ok t) (hlists : Format.cudd.Lists text t nodes)
    {header : List Char} {lines : List (List Char)} (hcontent : contentLines text = header :: lines)
    {kept : Nat} (hcontent' : contentLines text' = header :: lines.take kept) :
    t.nodes = .ofList nodes ∧ lines.length = nodes.length ∧
      parse text' =
        if kept = 0 then .error .noIds else .ok ⟨t.root, .ofList (nodes.take kept)⟩ := by
  obtain ⟨ls, hls, hnodes⟩ := hlists.lines
  rw [Format.Reads, (head_of_content hcontent).2] at hls
  have hlength : lines.length = nodes.length := by
    rw [(forall₂_of_mapM hls).length_eq, ← List.length_map Line.node?, hnodes, List.length_map]
  have hencodes := parse_eq_ok_iff.1 hparse
  rw [hcontent] at hencodes
  cases hencodes with
  | zero =>
    -- the root of a constant leads to no node
    obtain ⟨e, he⟩ := List.exists_mem_of_ne_nil _ hlists.nonempty
    obtain ⟨first, hfirst, -⟩ := hlists.reached he
    exact absurd hfirst (by simp)
  | @nodes summary lines count first others hsummary hcount hlines =>
    obtain rfl := Except.ok.inj (hlines.symm.trans hls)
    refine ⟨congrArg Dictionary.ofList (filterMap_node?_eq hnodes), hlength, ?_⟩
    rw [parse, hcontent']
    simp only [if_neg hsummary, number_eq_ok_iff.2 hcount, mapM_take hlines kept, bind, Except.bind]
    cases kept with
    | zero => rfl
    | succ kept =>
      have htake : ((first :: others).take (kept + 1)).map Line.node? =
          (nodes.take (kept + 1)).map some := by
        rw [List.map_take, hnodes, List.map_take]
      rw [if_neg (Nat.succ_ne_zero kept), ← filterMap_node?_eq htake]
      rfl

theorem translate_of_cut {text text' : String} {t : Table} {nodes : List (Nat × NativeNode)}
    (hparse : parse text = .ok t) (hclosed : t.IsClosed) (hacyclic : t.IsAcyclic)
    (hlists : Format.cudd.Lists text t nodes) (hcut : Cuts text' text) :
    ∃ fault, Format.cudd.translate text' = .error fault ∧
      Format.TellsCut (Format.cudd.headLength (contentLines text)) nodes .cudd
        (contentLines text').length fault := by
  rw [Format.translate, Format.parse]
  rcases hcut.cases with hnone | ⟨header, lines, hcontent, kept, hkept, hcontent'⟩
  · refine ⟨.empty, by rw [parse, hnone]; rfl, ?_⟩
    rw [hnone]
    exact .empty .cudd
  obtain ⟨hnodes, hlength, hparse'⟩ := parse_of_cut hparse hlists hcontent hcontent'
  rw [hparse', hcontent', List.length_cons, List.length_take_of_le hkept.le]
  split
  · next hkept₀ =>
    obtain rfl := hkept₀
    exact ⟨.noIds, rfl, .ids⟩
  · next hkept₀ =>
    obtain ⟨root, table⟩ := t
    obtain rfl : table = .ofList nodes := hnodes
    obtain ⟨gap, hgap, hnumber⟩ := number_of_take hclosed hacyclic hlists.distinct
      (fun _ => hlists.reached) (hlength ▸ hkept)
    refine ⟨.missing gap, hnumber, .missing (Nat.succ_lt_succ (Nat.pos_of_ne_zero hkept₀)) ?_⟩
    exact hgap

end Cudd

/-- A text is not accepted with some of its last lines gone, whatever the blank lines, if its lines
are those of the head and then, under different numbers, those of nodes that the root leads to. A
BuDDy text then has fewer nodes than it announces; in a CUDD text the number of a node that is gone
is missing. -/
theorem cut_text_malformed {format : Format} {text text' : String} {t : Table}
    {nodes : List (Nat × NativeNode)} {num : Numbered} (hparse : format.parse text = .ok t)
    (hnum : format.translate text = .ok num) (hlists : format.Lists text t nodes)
    (hcut : Cuts text' text) :
    ∃ fault, format.translate text' = .error fault ∧
      Format.TellsCut (format.headLength (contentLines text)) nodes format
        (contentLines text').length fault ∧
      ∀ {σ : Type} (m : Manager σ) (order : List Nat),
        m.dumpOf ⟨format, text', order⟩ = .error (.malformedDump (format.message fault)) := by
  obtain ⟨hclosed, hacyclic⟩ := (translation_exact hparse).2.1.1 ⟨num, hnum⟩
  have htold : ∃ fault, format.translate text' = .error fault ∧
      Format.TellsCut (format.headLength (contentLines text)) nodes format
        (contentLines text').length fault := by
    cases format with
    | buddy =>
      obtain ⟨fault, hfault, htold⟩ := Buddy.parse_of_cut hparse hlists hcut
      exact ⟨fault, by rw [Format.translate, Format.parse, hfault]; rfl, htold⟩
    | cudd => exact Cudd.translate_of_cut hparse hclosed hacyclic hlists hcut
  obtain ⟨fault, hfault, htold⟩ := htold
  refine ⟨fault, hfault, htold, fun m order => ?_⟩
  rw [Manager.dumpOf, hfault]

def sharedLines : List Cudd.Line :=
  [.node ⟨true, .node 32⟩ 32 ⟨0, ⟨true, .node 48⟩, ⟨false, .node 48⟩⟩,
    .node ⟨false, .node 48⟩ 48 ⟨1, ⟨true, .terminal true⟩, ⟨false, .terminal true⟩⟩]

/-- The text with a shared node without the line of that node. -/
def cutSharedText : String :=
  ": 3 nodes 1 leaves 4 minterms\n\nID = !0x20\tindex = 0\tT =  0x30\tE = !0x30\n"

/-- The text with three nodes without the line of the root. -/
def cutPlainText : String := "3 3\n0 1 2\n4 2 0 1\n5 1 4 1\n"

theorem sharedText_lists :
    Format.cudd.Lists sharedText sharedTable (sharedLines.filterMap Cudd.Line.node?) where
  lines := ⟨sharedLines, by unfold Format.Reads; decide +kernel, rfl⟩
  nonempty := by decide
  distinct := by decide
  reached {e} he := by
    have hroot : sharedTable.Reachable 32 := ⟨32, rfl, .refl⟩
    rcases List.mem_pair.1 he with rfl | rfl
    · exact hroot
    · exact hroot.child ⟨_, rfl, .inl rfl⟩

theorem plainText_lists :
    Format.buddy.Lists plainText plainTable (plainLines.filterMap Cudd.Line.node?) where
  lines := ⟨plainLines, by unfold Format.Reads; decide +kernel, rfl⟩
  nonempty := by decide
  distinct := by decide
  reached {e} he := by
    have hroot : plainTable.Reachable 6 := ⟨6, rfl, .refl⟩
    rcases List.mem_cons.1 he with rfl | he
    · exact hroot.child ⟨_, rfl, .inl rfl⟩
    rcases List.mem_pair.1 he with rfl | rfl
    · exact hroot.child ⟨_, rfl, .inr rfl⟩
    · exact hroot

theorem cut_texts_of_three_nodes :
    Format.cudd.translate sharedText = .ok sharedNumbered ∧ Cuts cutSharedText sharedText ∧
      Format.cudd.translate cutSharedText = .error (.missing 48) ∧
      Format.buddy.translate plainText = .ok plainNumbered ∧ Cuts cutPlainText plainText ∧
      Format.buddy.translate cutPlainText = .error (.nodeCount 3 2) := by
  have hparse : Format.cudd.parse sharedText = .ok sharedTable := by decide +kernel
  have hnum : Format.cudd.translate sharedText = .ok sharedNumbered := by
    rw [Format.translate, hparse]
    cbv
  have hparse' : Format.buddy.parse plainText = .ok plainTable := by decide +kernel
  have hnum' : Format.buddy.translate plainText = .ok plainNumbered := by
    rw [Format.translate, hparse']
    cbv
  have hcut : Cuts cutSharedText sharedText := ⟨by decide +kernel, by decide +kernel⟩
  have hcut' : Cuts cutPlainText plainText := ⟨by decide +kernel, by decide +kernel⟩
  obtain ⟨fault, hfault, htold, -⟩ := cut_text_malformed hparse hnum sharedText_lists hcut
  obtain ⟨fault', hfault', htold', -⟩ := cut_text_malformed hparse' hnum' plainText_lists hcut'
  refine ⟨hnum, hcut, ?_, hnum', hcut', ?_⟩
  · have hhead : Format.cudd.headLength (contentLines sharedText) = 1 := rfl
    have hkept : (contentLines cutSharedText).length = 2 := by decide +kernel
    rw [hhead, hkept] at htold
    cases htold with
    | missing _ hid =>
      obtain rfl := List.mem_singleton.1 hid
      exact hfault
  · have hhead : Format.buddy.headLength (contentLines plainText) = 2 := by decide +kernel
    have hkept : (contentLines cutPlainText).length = 4 := by decide +kernel
    rw [hhead, hkept] at htold'
    cases htold' with
    | levels _ hless => exact absurd hless (by decide)
    | count => exact hfault'

end Native
end DiagramCompiler
