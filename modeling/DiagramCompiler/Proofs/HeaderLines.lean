import DiagramCompiler.Proofs.DescribedDumps

/-! Lines of headers that follow others.
What a dump says of its engine and of its input may hold line feeds, so that it stands on several
lines of the header, which need not be lines of keys. If the text is read as a dump all the same,
none of these lines was taken for the separator, since the true separator would be read as a node
then, and the keys on later lines have their own values. -/
namespace DiagramCompiler

theorem exists_of_mapM_of_mem {ε α β : Type} {read : α → Except ε β} {xs : List α} {ys : List β}
    (h : xs.mapM read = .ok ys) {x : α} (hx : x ∈ xs) : ∃ y, read x = .ok y := by
  have hall := forall₂_of_mapM h
  clear h
  induction hall with
  | nil => exact absurd hx (by simp)
  | @cons first y xs _ hread _ ih =>
    rcases List.mem_cons.1 hx with rfl | hx
    · exact ⟨y, hread⟩
    · exact ih hx

namespace Text

theorem flatMap_splitAll {α : Type} [DecidableEq α] (sep : α) (cs : List α) :
    ((splitAll sep cs).flatMap fun piece => piece ++ [sep]) = cs ++ [sep] := by
  induction cs with
  | nil => simp [splitAll]
  | cons c cs ih =>
    rw [splitAll]
    split
    · next heq => simp [ih, heq]
    · cases hpieces : splitAll sep cs with
      | nil => exact absurd hpieces (splitAll_ne_nil sep cs)
      | cons piece pieces =>
        rw [hpieces] at ih
        simp only [List.flatMap_cons, List.cons_append] at ih ⊢
        rw [ih]

/-- Texts that each end a line are read line by line, whatever line feeds they hold. -/
theorem lines_flatMap_splitAll (ls : List (List Char)) (rest : List Char) :
    lines ((ls.flatMap fun l => l ++ ['\n']) ++ rest) =
      (ls.flatMap (splitAll '\n')).map dropReturn ++ lines rest := by
  have hpieces : ∀ piece ∈ ls.flatMap (splitAll '\n'), '\n' ∉ piece := by
    intro piece hpiece
    obtain ⟨l, -, hl⟩ := List.mem_flatMap.1 hpiece
    exact not_mem_of_mem_splitAll hl
  have hlines := lines_flatMap_append hpieces rest
  rw [List.flatMap_assoc] at hlines
  simpa only [flatMap_splitAll] using hlines

end Text

namespace Dump

variable {d d' : Dump} {known header : Metadata} {before after rest : List (List Char)}

/-- The lines before others are read as a part of the header, unless one of them ends it. -/
theorem readHeader_append_cases (h : readHeader known (before ++ after) = .ok (header, rest)) :
    (∃ known', readHeader known' after = .ok (header, rest)) ∨
      ∃ before', rest = before' ++ after := by
  induction before generalizing known with
  | nil => exact .inl ⟨known, h⟩
  | cons raw before ih =>
    rw [List.cons_append, readHeader] at h
    split at h
    · exact .inr ⟨before, (Prod.mk.inj (Except.ok.inj h)).2.symm⟩
    · split at h
      · exact ih h
      · split at h
        · exact absurd h (by simp)
        · exact ih h

theorem not_mem_of_readNodes {nodes : List Node} (h : readNodes rest = .ok nodes) :
    separator.toList ∉ rest := by
  intro hmem
  have hnode : (Node.parse (Text.trim separator.toList)).toOption = none := by decide
  have hline : Text.trim separator.toList ∈ (rest.map Text.trim).filter (· ≠ []) :=
    List.mem_filter.2 ⟨List.mem_map_of_mem hmem, by decide⟩
  obtain ⟨n, hn⟩ := exists_of_mapM_of_mem h hline
  rw [hn] at hnode
  exact absurd hnode (by simp [Except.toOption])

def EndsPlain (d : Dump) : Prop := ∀ e ∈ d.header.entries, ¬ e.1 < nodeCountKey → OneLine e

theorem exists_append_of_ascending {es : List (String × String)}
    (h : es.Pairwise fun a b => a.1 < b.1) (key : String) : ∃ front back, es = front ++ back ∧
      (∀ e ∈ front, e.1 < key) ∧ ∀ e ∈ back, ¬ e.1 < key := by
  induction es with
  | nil => exact ⟨[], [], rfl, by simp, by simp⟩
  | cons e es ih =>
    obtain ⟨hfirst, hrest⟩ := List.pairwise_cons.1 h
    by_cases he : e.1 < key
    · obtain ⟨front, back, rfl, hfront, hback⟩ := ih hrest
      exact ⟨e :: front, back, rfl, List.forall_mem_cons.2 ⟨he, hfront⟩, hback⟩
    · refine ⟨[], e :: es, rfl, by simp, fun other hother => ?_⟩
      rcases List.mem_cons.1 hother with rfl | hother
      · exact he
      · exact fun hlt => he (Dictionary.Ordered.trans (hfirst other hother) hlt)

/-- Early entries of a header may take up several lines, the later ones have one each. -/
theorem lines_text {front back : List (String × String)}
    (hentries : d.header.entries = front ++ back) (hplain : ∀ e ∈ back, OneLine e) :
    Text.lines d.text.toList =
      ((front.map line).flatMap (Text.splitAll '\n')).map Text.dropReturn ++
        ((back.map line).map Text.dropReturn ++ separator.toList ::
          Text.lines ((d.diagram.nodes.map Node.text).flatMap fun l => l.toList ++ ['\n'])) := by
  have hsep : Text.dropReturn separator.toList = separator.toList := by decide
  have hlines : ∀ l ∈ back.map line ++ [separator.toList], '\n' ∉ l := by
    intro l hl
    rcases List.mem_append.1 hl with hl | hl
    · obtain ⟨e, he, rfl⟩ := List.mem_map.1 hl
      exact (hplain e he).not_mem_line
    · rw [List.mem_singleton.1 hl]
      decide
  have hcut : d.text.toList = ((front.map line).flatMap fun l => l ++ ['\n']) ++
      (((back.map line ++ [separator.toList]).flatMap fun l => l ++ ['\n']) ++
        (d.diagram.nodes.map Node.text).flatMap fun l => l.toList ++ ['\n']) := by
    simp [text, lines, line, List.flatMap_map, hentries]
  rw [hcut, Text.lines_flatMap_splitAll, Text.lines_flatMap_append hlines, List.map_append,
    List.map_singleton, hsep, List.append_assoc, List.singleton_append]

/-- What a text with plain lines at the end of its header is read from has the values on these. -/
theorem exists_readFrom (hd : d.EndsPlain) (h : parse d.text = .ok d') :
    ∃ header rest, ReadFrom header rest d' ∧ ∀ {key value : String},
      d.header.get? key = some value → ¬ key < nodeCountKey →
        header.get? key = some (trimmedEnd value) := by
  obtain ⟨header, rest, hheader, hread⟩ := parse_eq_ok_iff.1 h
  refine ⟨header, rest, hread, fun {key value} hget hkey => ?_⟩
  obtain ⟨front, back, hentries, hfront, hback⟩ :=
    exists_append_of_ascending d.header.ascending nodeCountKey
  have hplain : ∀ e ∈ back, OneLine e := fun e he =>
    hd e (hentries ▸ List.mem_append_right _ he) (hback e he)
  have hsep : Text.trimEnd separator.toList = separator.toList := by decide
  rw [lines_text hentries hplain] at hheader
  rcases readHeader_append_cases hheader with ⟨known, hback'⟩ | ⟨before', rfl⟩
  · rw [readHeader_append hplain, readHeader] at hback'
    simp only [hsep, if_true] at hback'
    obtain ⟨rfl, -⟩ := Prod.mk.inj (Except.ok.inj hback')
    have hmem : (key, value) ∈ back := by
      have hall : (key, value) ∈ d.header.entries := Dictionary.mem_entries_iff.2 hget
      rw [hentries] at hall
      exact (List.mem_append.1 hall).resolve_left fun hearly => hkey (hfront _ hearly)
    refine Dictionary.get?_insertAll_of_mem known ?_
      (List.mem_map_of_mem (f := fun e => (e.1, trimmedEnd e.2)) hmem)
    have hasc := d.header.ascending
    rw [hentries] at hasc
    have hlate := (List.pairwise_append.1 hasc).2.1
    rw [List.map_map]
    exact List.pairwise_map.2 (hlate.imp fun {a b} hlt (heq : a.1 = b.1) =>
      String.lt_irrefl b.1 (heq ▸ hlt))
  · obtain ⟨found, hnodes, -⟩ := hread.nodes
    refine absurd ?_ (not_mem_of_readNodes hnodes)
    simp

theorem order_of_parse_text (hd : d.EndsPlain) (h : parse d.text = .ok d') :
    d'.diagram.order = d.diagram.order := by
  obtain ⟨header, rest, hread, hget⟩ := exists_readFrom hd h
  obtain ⟨text, htext, horder⟩ := hread.order
  have hvalue : d.header.get? orderKey = some d.diagram.order.text := get?_header (by simp)
  have hlate : ¬ orderKey < nodeCountKey := by decide
  rw [hget hvalue hlate, (isValue_of_isBlank fun _ =>
    VariableOrder.isBlank_of_mem_text).trimmedEnd_eq] at htext
  exact VariableOrder.eq_of_parse_text (Option.some.inj htext ▸ horder)

theorem get?_of_parse_text_of_endsPlain (hd : d.EndsPlain) (h : parse d.text = .ok d')
    {key value : String} (hkey : key ∉ reservedKeys) (hlate : ¬ key < nodeCountKey)
    (hvalue : d.metadata.get? key = some value) :
    d'.metadata.get? key = some (trimmedEnd value) := by
  obtain ⟨header, rest, hread, hget⟩ := exists_readFrom hd h
  have hreserved : d.header.get? key = d.metadata.get? key :=
    Dictionary.get?_insertAll_of_not_mem _ (by simpa [reservedKeys] using hkey)
  rw [hread.metadata, get?_foldl_erase, if_neg hkey, hget (hreserved.trans hvalue) hlate]

end Dump
end DiagramCompiler
