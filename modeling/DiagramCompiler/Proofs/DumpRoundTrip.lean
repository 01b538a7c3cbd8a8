import DiagramCompiler.Proofs.PathSteps
import DiagramCompiler.Proofs.WrittenDumps

/-! Dumps that are written and read back.
The text of a well-formed dump is read as that dump: each part of it is read back from its own
text, no part contains what separates it from the next one, and a value that does not end in a blank
is not trimmed. -/
namespace DiagramCompiler

theorem mapM_map_eq_ok {ε α β : Type} {read : β → Except ε α} {write : α → β} {xs : List α}
    (h : ∀ x ∈ xs, read (write x) = .ok x) : (xs.map write).mapM read = .ok xs := by
  induction xs with
  | nil => rfl
  | cons x xs ih =>
    rw [List.map_cons, List.mapM_cons, h x List.mem_cons_self,
      ih fun y hy => h y (List.mem_cons_of_mem x hy)]
    rfl

theorem Numeral.word64_decimal {n : Nat} (h : n < UInt64.size) : word64 (decimal n) = .ok n :=
  (answers_unsigned (by decide) n).eq_ok h

theorem Numeral.word32_decimal {n : Nat} (h : n < UInt32.size) : word32 (decimal n) = .ok n :=
  (answers_unsigned (by decide) n).eq_ok h

/-! ### Edges, nodes and orders -/

namespace Edge

theorem parse_text {e : Edge} (h : e.id < UInt64.size) : parse e.text.toList = .ok e := by
  obtain ⟨complemented, id⟩ := e
  rw [toList_text, parse]
  cases complemented <;> simp [mark, Text.splitFirst, Numeral.word64_decimal h]

end Edge

namespace Node

theorem toList_text (n : Node) :
    n.text.toList = Text.joinWith [' ']
      [Numeral.decimal n.id, Numeral.decimal n.var, n.low.text.toList, n.high.text.toList] := by
  simp [text, Text.joined, Numeral.text]

theorem isWord_of_mem {n : Node} {w : List Char}
    (h : w ∈ [Numeral.decimal n.id, Numeral.decimal n.var, n.low.text.toList, n.high.text.toList]) :
    Text.IsWord w := by
  simp only [List.mem_cons, List.not_mem_nil, or_false] at h
  rcases h with rfl | rfl | rfl | rfl
  · exact Numeral.isWord_decimal _
  · exact Numeral.isWord_decimal _
  · exact n.low.isWord_text
  · exact n.high.isWord_text

def Fits (n : Node) : Prop :=
  n.id < UInt64.size ∧ n.var < UInt32.size ∧ n.low.id < UInt64.size ∧ n.high.id < UInt64.size

theorem parse_text {n : Node} (h : n.Fits) : parse n.text.toList = .ok n := by
  obtain ⟨hid, hvar, hlow, hhigh⟩ := h
  rw [parse, toList_text, Text.words_joinWith fun _ => isWord_of_mem]
  simp only [Numeral.word64_decimal hid, Numeral.word32_decimal hvar, Edge.parse_text hlow,
    Edge.parse_text hhigh]
  rfl

theorem not_mem_text (n : Node) {c : Char} (hc : Text.isBlank c = true) (hspace : c ≠ ' ') :
    c ∉ n.text.toList := by
  rw [toList_text]
  intro h
  rcases Text.mem_joinWith h with hsep | ⟨w, hw, hmem⟩
  · exact hspace (by simpa using hsep)
  · rw [(isWord_of_mem hw).2 c hmem] at hc
    exact absurd hc (by decide)

end Node

theorem VariableOrder.parse_text_eq (o : VariableOrder) :
    parse o.text = ((o.toList.map Numeral.decimal).mapM parseVar).bind ofList? := by
  have htrim : Text.trim o.text.toList = o.text.toList :=
    Text.trim_eq_self (fun c hc => isBlank_of_mem_text (List.mem_of_head? hc)) fun c hc =>
      isBlank_of_mem_text (List.mem_of_getLast? hc)
  by_cases hnil : o.toList = []
  · have htext : o.text.toList = [] := by simp [toList_text, hnil, Text.joinWith]
    rw [parse, htrim, htext, hnil]
    rfl
  · have hne : o.toList.map Numeral.decimal ≠ [] := by simpa using hnil
    have hword : ∀ w ∈ o.toList.map Numeral.decimal, Text.IsWord w := by
      intro w hw
      obtain ⟨n, -, rfl⟩ := List.mem_map.1 hw
      exact Numeral.isWord_decimal n
    have htext : o.text.toList ≠ [] := by
      rw [toList_text]
      exact Text.joinWith_ne_nil hne fun w hw => (hword w hw).1
    have hsplit : Text.splitAll ',' o.text.toList = o.toList.map Numeral.decimal := by
      rw [toList_text]
      refine Text.splitAll_joinWith hne fun w hw hcomma => ?_
      obtain ⟨n, -, rfl⟩ := List.mem_map.1 hw
      exact absurd (Numeral.isDigit_decimal hcomma) (by decide)
    rw [parse, htrim]
    split
    · next heq => exact absurd heq htext
    · rw [hsplit]

theorem VariableOrder.parse_text {o : VariableOrder} (h : o.length < UInt32.size) :
    parse o.text = .ok o := by
  have hvars : ∀ n ∈ o.toList, n < UInt32.size := fun n hn =>
    Nat.lt_of_le_of_lt (o.inRange n hn).2 h
  have hread : (o.toList.map Numeral.decimal).mapM parseVar = .ok o.toList :=
    mapM_map_eq_ok fun n hn => by
      rw [parseVar, (Numeral.isWord_decimal n).trim_eq, Numeral.word32_decimal (hvars n hn)]
  rw [parse_text_eq, hread]
  exact o.ofList?_toList

theorem VariableOrder.eq_of_parse_text {o o' : VariableOrder} (h : parse o.text = .ok o') :
    o' = o := by
  rw [parse_text_eq] at h
  obtain ⟨vars, hvars, hlist⟩ := bind_eq_ok_iff.1 h
  have hentries := List.forall₂_map_left_iff.1 (forall₂_of_mapM hvars)
  have hsame : o.toList = vars := List.forall₂_eq_eq_eq ▸ hentries.imp fun n var hread => by
    rw [parseVar, (Numeral.isWord_decimal n).trim_eq] at hread
    split at hread
    · next found hword =>
      have hn := ((Numeral.answers_unsigned (by decide) n) found).1 hword
      exact hn.2.symm.trans (Except.ok.inj hread)
    · exact absurd hread (by simp)
  rw [← hsame, o.ofList?_toList] at hlist
  exact (Except.ok.inj hlist).symm

namespace Dump

/-! ### Lines of nodes -/

theorem readNodes_text {nodes : List Node} (h : ∀ n ∈ nodes, n.Fits) :
    readNodes (Text.lines ((nodes.map Node.text).flatMap fun l => l.toList ++ ['\n'])) =
      .ok nodes := by
  have hmem {l : List Char} (hl : l ∈ nodes.map fun n => n.text.toList) :
      ∃ n : Node, n.text.toList = l := by
    obtain ⟨n, -, hn⟩ := List.mem_map.1 hl
    exact ⟨n, hn⟩
  have hlines : Text.lines ((nodes.map fun n => n.text.toList).flatMap fun l => l ++ ['\n']) =
      nodes.map fun n => n.text.toList := by
    refine Text.lines_flatMap (fun l hl => ?_) fun l hl => ?_
    · obtain ⟨n, rfl⟩ := hmem hl
      exact n.not_mem_text (by decide) (by decide)
    · obtain ⟨n, rfl⟩ := hmem hl
      exact n.not_mem_text (by decide) (by decide)
  rw [List.flatMap_map] at hlines
  have htrim : (nodes.map fun n => n.text.toList).map Text.trim =
      nodes.map fun n => n.text.toList := by
    refine (List.map_congr_left fun l hl => ?_).trans (List.map_id _)
    obtain ⟨n, rfl⟩ := hmem hl
    rw [Node.toList_text, Text.trim_joinWith fun _ => Node.isWord_of_mem, id]
  have hfilter : (nodes.map fun n => n.text.toList).filter (· ≠ []) =
      nodes.map fun n => n.text.toList := by
    refine List.filter_eq_self.2 fun l hl => ?_
    obtain ⟨n, rfl⟩ := hmem hl
    rw [Node.toList_text]
    exact decide_eq_true (Text.joinWith_ne_nil (by simp) fun w hw => (Node.isWord_of_mem hw).1)
  rw [readNodes, List.flatMap_map, hlines, htrim, hfilter]
  exact mapM_map_eq_ok fun n hn => Node.parse_text (h n hn)

/-! ### Values of headers -/

theorem IsValue.trimmedEnd_eq {s : String} (h : IsValue s) : trimmedEnd s = s := by
  rw [trimmedEnd, Text.trimEnd_eq_self h.2, String.ofList_toList]

theorem isValue_of_isBlank {s : String} (h : ∀ c ∈ s.toList, Text.isBlank c = false) : IsValue s :=
  ⟨Text.not_mem_of_isBlank h, fun c hc => h c (List.mem_of_getLast? hc)⟩

namespace WellFormed

variable {d : Dump}

theorem header (h : d.WellFormed) : ∀ e ∈ d.header.entries, IsKey e.1 ∧ IsValue e.2 :=
  forall_mem_header (fun _ => isValue_of_isBlank) (fun e he => ⟨h.keys e he, h.values e he⟩)
    h.toolVersion h.engineName h.engineStub

theorem oneLine_header (h : d.WellFormed) : ∀ e ∈ d.header.entries, OneLine e := fun e he =>
  have ⟨hkey, hvalue⟩ := h.header e he
  ⟨hkey.2, hkey.1, hvalue.1⟩

theorem ofList_header (h : d.WellFormed) :
    Dictionary.ofList (d.header.entries.map fun e => (e.1, trimmedEnd e.2)) = d.header := by
  refine Dictionary.ext_get? fun key => ?_
  rw [Metadata.get?_ofList_map]
  cases hget : d.header.get? key with
  | none => rfl
  | some value =>
    have hvalue := (h.header (key, value) (Dictionary.mem_entries_iff.2 hget)).2
    rw [Option.map_some, hvalue.trimmedEnd_eq]

theorem metadata_eq (h : d.WellFormed) :
    reservedKeys.foldl Dictionary.erase d.header = d.metadata := by
  refine Dictionary.ext_get? fun key => ?_
  rw [get?_foldl_erase]
  split
  · next hkey =>
    cases hget : d.metadata.get? key with
    | none => rfl
    | some value =>
      have hreserved := h.unreserved (key, value) (Dictionary.mem_entries_iff.2 hget)
      exact absurd hkey (of_decide_eq_false hreserved)
  · next hkey => exact Dictionary.get?_insertAll_of_not_mem _ (by simpa [reservedKeys] using hkey)

/-! ### Numbers of diagrams -/

theorem id_lt_of_resolves (h : d.WellFormed) {e : Edge}
    (he : Diagram.Resolves d.diagram.nodes e) : e.id < UInt64.size := by
  rcases he with hterminal | ⟨n, hn, heq⟩
  · exact Nat.lt_trans (Edge.isTerminal_iff.1 hterminal) (by decide)
  · exact heq ▸ h.id_lt n hn

theorem fits (h : d.WellFormed) {n : Node} (hn : n ∈ d.diagram.nodes) : n.Fits :=
  ⟨h.id_lt n hn, Nat.lt_trans (h.diagram.var_lt n hn) h.length_lt,
    h.id_lt_of_resolves (h.diagram.low_resolves n hn),
    h.id_lt_of_resolves (h.diagram.high_resolves n hn)⟩

theorem nodeCount_lt (h : d.WellFormed) : d.diagram.nodeCount < UInt64.size := by
  have hnodup : (d.diagram.nodes.map Node.id).Nodup :=
    List.pairwise_map.2 (h.diagram.ascending.imp Nat.ne_of_lt)
  have hsub : d.diagram.nodes.map Node.id ⊆ List.range' 2 (UInt64.size - 2) := by
    intro id hid
    obtain ⟨n, hn, rfl⟩ := List.mem_map.1 hid
    have hfirst : 2 ≤ n.id := h.diagram.notTerminal n hn
    have hlast := h.id_lt n hn
    rw [List.mem_range'_1]
    omega
  have hlength := (hnodup.subperm hsub).length_le
  rw [List.length_map, List.length_range'] at hlength
  exact Nat.lt_of_le_of_lt hlength (by decide)

end WellFormed

/-! ### Dumps -/

theorem WellFormed.readFrom {d : Dump} (h : d.WellFormed) :
    ReadFrom d.header
      (Text.lines ((d.diagram.nodes.map Node.text).flatMap fun l => l.toList ++ ['\n'])) d := by
  have hget {key value : String} (hmem : (key, value) ∈
      [(toolVersionKey, d.toolVersion), (engineNameKey, d.engineName),
        (engineStubKey, d.engineStub), (nodeCountKey, Numeral.text d.diagram.nodeCount),
        (rootKey, d.diagram.root.text), (orderKey, d.diagram.order.text)]) :
      d.header.get? key = some value := by
    have hkeys : reservedKeys.Nodup := by decide
    refine Dictionary.get?_insertAll_of_mem d.metadata ?_ hmem
    exact hkeys
  exact {
    toolVersion := hget (by simp)
    engineName := hget (by simp)
    engineStub := hget (by simp)
    root := ⟨_, hget (by simp), Edge.parse_text (h.id_lt_of_resolves h.diagram.root_resolves)⟩
    order := ⟨_, hget (by simp), VariableOrder.parse_text h.length_lt⟩
    nodes := by
      refine ⟨d.diagram.nodes, readNodes_text fun _ => h.fits, h.diagram.ofNodes_eq,
        Numeral.text d.diagram.nodeCount, hget (by simp), ?_⟩
      rw [Numeral.text, String.toList_ofList]
      exact Numeral.word64_decimal h.nodeCount_lt
    metadata := h.metadata_eq.symm }

theorem WellFormed.parse_text {d : Dump} (h : d.WellFormed) : parse d.text = .ok d := by
  refine parse_eq_ok_iff.2 ⟨d.header, _, ?_, h.readFrom⟩
  rw [readHeader_text h.oneLine_header, h.ofList_header]

/-- What is read is well formed, and what is well formed is read back from its text; so writing what
was read and reading it again changes nothing. No path leads back to where it started in what is
read, and no edge leads nowhere. A root and nodes in any order are accepted exactly if they fit
together once they are sorted. -/
theorem round_trip :
    (∀ text d, parse text = .ok d → d.WellFormed) ∧
    (∀ d : Dump, d.WellFormed → parse d.text = .ok d) ∧
    (∀ text, (parse text >>= fun d => parse d.text) = parse text) ∧
    (∀ text d, parse text = .ok d →
      (∀ id, ¬ Relation.TransGen (Diagram.Leads d.diagram.nodes) id id) ∧
        Diagram.Resolves d.diagram.nodes d.diagram.root ∧
        ∀ n ∈ d.diagram.nodes,
          Diagram.Resolves d.diagram.nodes n.low ∧ Diagram.Resolves d.diagram.nodes n.high) ∧
    ∀ order root nodes, (∃ d, Diagram.ofNodes order root nodes = .ok d) ↔
      Diagram.WellFormed order root (Diagram.sortNodes nodes) := by
  refine ⟨fun _ _ => wellFormed_of_parse, fun _ h => h.parse_text, fun text => ?_,
    fun _ d _ => ?_, fun _ _ _ => Diagram.exists_ofNodes_iff⟩
  · cases h : parse text with
    | error fault => rfl
    | ok d => exact bind_eq_ok_iff.2 ⟨d, rfl, (wellFormed_of_parse h).parse_text⟩
  · have hfits := d.diagram.wellFormed
    exact ⟨d.diagram.not_leads_back, hfits.root_resolves, fun n hn =>
      ⟨hfits.low_resolves n hn, hfits.high_resolves n hn⟩⟩

/-- A text with signs, blank lines and blanks at the ends of lines. -/
def untidyText : String :=
  "tool-version:1 \nengine-name:e\r\nengine-stub:s\n\nnode-count:+1\nroot:1:3\norder: 1\n" ++
  ":a:b\n----\n 3 +0 0:0  1:0"

def tidied : Dump where
  toolVersion := "1"
  engineName := "e"
  engineStub := "s"
  diagram :=
    { order := ⟨[1], by decide, by decide⟩
      root := ⟨true, 3⟩
      nodes := [⟨3, 0, ⟨false, 0⟩, ⟨true, 0⟩⟩]
      wellFormed := by constructor <;> decide }
  metadata := .ofList [("", "a:b")]

theorem parse_untidyText : parse untidyText = .ok tidied := by
  let header : Metadata := .ofList [(toolVersionKey, "1"), (engineNameKey, "e"),
    (engineStubKey, "s"), (nodeCountKey, "+1"), (rootKey, "1:3"), (orderKey, " 1"), ("", "a:b")]
  let rest : List (List Char) := [" 3 +0 0:0  1:0".toList]
  have hheader : readHeader .empty (Text.lines untidyText.toList) = .ok (header, rest) := by
    decide +kernel
  have hdiagram := tidied.diagram.wellFormed.ofNodes_eq
  exact parse_eq_ok_iff.2 ⟨header, rest, hheader, {
    toolVersion := by decide +kernel
    engineName := by decide +kernel
    engineStub := by decide +kernel
    root := ⟨"1:3", by decide +kernel, by decide +kernel⟩
    order := ⟨" 1", by decide +kernel, by decide +kernel⟩
    nodes := ⟨_, by decide +kernel, hdiagram, "+1", by decide +kernel, by decide +kernel⟩
    metadata := by decide +kernel }⟩

theorem round_trip_of_untidy_text :
    parse untidyText = .ok tidied ∧ tidied.WellFormed ∧ parse tidied.text = .ok tidied ∧
      ¬ Relation.TransGen (Diagram.Leads tidied.diagram.nodes) 3 3 := by
  obtain ⟨hform, hback, -, hpaths, -⟩ := round_trip
  have hread := parse_untidyText
  have htidy := hform untidyText tidied hread
  exact ⟨hread, htidy, hback tidied htidy, (hpaths untidyText tidied hread).1 3⟩

end Dump
end DiagramCompiler
