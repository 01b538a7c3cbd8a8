import Mathlib.Data.List.Forall2
import DiagramCompiler.Dump
import DiagramCompiler.Failure
import DiagramCompiler.Proofs.WellFormedDiagrams

/-! Dumps that are read.
A text is read as a dump in two steps: its header is read as a dictionary, and the values of the
reserved keys and the lines after the header are read as the parts of a diagram. What comes out fits
together, its numbers are words, and each of its other keys and values takes exactly one line and
ends where it was trimmed. -/
namespace DiagramCompiler

theorem guard_eq_ok_iff {ε α : Type} {p : Prop} [Decidable p] {fault : ε} {a : Except ε α} {x : α} :
    (if p then (Except.error fault : Except ε PUnit) >>= fun _ => a else a) = .ok x ↔
      ¬ p ∧ a = .ok x := by
  by_cases hp : p
  · simp [hp, bind, Except.bind]
  · simp [hp]

theorem toOption_eq_some_iff {ε α : Type} {a : Except ε α} {x : α} :
    a.toOption = some x ↔ a = .ok x := by
  cases a <;> simp [Except.toOption]

theorem forall₂_of_mapM {ε α β : Type} {read : α → Except ε β} {xs : List α} {ys : List β}
    (h : xs.mapM read = .ok ys) : List.Forall₂ (fun x y => read x = .ok y) xs ys := by
  induction xs generalizing ys with
  | nil =>
    obtain rfl := Except.ok.inj h
    exact .nil
  | cons x xs ih =>
    rw [List.mapM_cons] at h
    obtain ⟨first, hfirst, h⟩ := bind_eq_ok_iff.1 h
    obtain ⟨rest, hrest, h⟩ := bind_eq_ok_iff.1 h
    obtain rfl := Except.ok.inj h
    exact .cons hfirst (ih hrest)

theorem exists_of_mem_mapM {ε α β : Type} {read : α → Except ε β} {xs : List α} {ys : List β}
    (h : xs.mapM read = .ok ys) {y : β} (hy : y ∈ ys) : ∃ x ∈ xs, read x = .ok y := by
  have hall := forall₂_of_mapM h
  clear h
  induction hall with
  | nil => exact absurd hy (by simp)
  | @cons x _ xs _ hread _ ih =>
    rcases List.mem_cons.1 hy with rfl | hy
    · exact ⟨x, List.mem_cons_self, hread⟩
    · obtain ⟨z, hz, hread'⟩ := ih hy
      exact ⟨z, List.mem_cons_of_mem x hz, hread'⟩

namespace Text

variable {α : Type} [DecidableEq α] {sep : α}

theorem not_mem_of_mem_splitEnded {cs run : List α} (h : run ∈ splitEnded sep cs) : sep ∉ run := by
  induction cs generalizing run with
  | nil => exact absurd h (by simp [splitEnded])
  | cons c cs ih =>
    rw [splitEnded.eq_def] at h
    simp only at h
    split at h
    · rcases List.mem_cons.1 h with rfl | h
      · simp
      · exact ih h
    · next hc =>
      have hsingle : sep ∉ [c] := by simpa using Ne.symm hc
      split at h
      · exact List.mem_singleton.1 h ▸ hsingle
      · exact List.mem_singleton.1 h ▸ hsingle
      · next p ps hcons =>
        rw [hcons] at ih
        rcases List.mem_cons.1 h with rfl | h
        · rw [List.mem_cons, not_or]
          exact ⟨Ne.symm hc, ih List.mem_cons_self⟩
        · exact ih (List.mem_cons_of_mem p h)

theorem mem_of_mem_dropReturn {cs : List Char} {c : Char} (h : c ∈ dropReturn cs) : c ∈ cs := by
  rw [dropReturn] at h
  split at h
  · exact List.dropLast_subset cs h
  · exact h

theorem not_mem_of_mem_lines {cs l : List Char} (h : l ∈ lines cs) : '\n' ∉ l := by
  have hrun : ∀ run ∈ splitEnded '\n' cs, '\n' ∉ run := fun _ => not_mem_of_mem_splitEnded
  have hdrop {run : List Char} (hmem : run ∈ splitEnded '\n' cs) : '\n' ∉ dropReturn run :=
    fun hc => hrun run hmem (mem_of_mem_dropReturn hc)
  rw [lines] at h
  split at h
  · obtain ⟨run, hmem, rfl⟩ := List.mem_map.1 h
    exact hdrop hmem
  · rcases List.mem_append.1 h with h | h
    · obtain ⟨run, hmem, rfl⟩ := List.mem_map.1 h
      exact hdrop (List.dropLast_subset _ hmem)
    · exact hrun l (List.mem_of_getLast? (by simpa using h))

theorem eq_append_of_splitFirst {cs front back : List α}
    (h : splitFirst sep cs = some (front, back)) : cs = front ++ sep :: back ∧ sep ∉ front := by
  induction cs generalizing front with
  | nil => exact absurd h (by simp [splitFirst])
  | cons c cs ih =>
    rw [splitFirst] at h
    split at h
    · next hc =>
      obtain ⟨rfl, rfl⟩ := Prod.mk.inj (Option.some.inj h)
      exact ⟨by rw [hc, List.nil_append], by simp⟩
    · next hc =>
      obtain ⟨⟨front', back'⟩, hrest, heq⟩ := Option.map_eq_some_iff.1 h
      obtain ⟨rfl, rfl⟩ := Prod.mk.inj heq
      obtain ⟨rfl, hfront⟩ := ih hrest
      refine ⟨rfl, ?_⟩
      rw [List.mem_cons, not_or]
      exact ⟨Ne.symm hc, hfront⟩

theorem mem_of_mem_trimEnd {cs : List Char} {c : Char} (h : c ∈ trimEnd cs) : c ∈ cs :=
  List.mem_reverse.1 ((List.dropWhile_suffix _).subset (List.mem_reverse.1 h))

theorem isBlank_of_getLast?_trimEnd {cs : List Char} {c : Char}
    (h : (trimEnd cs).getLast? = some c) : isBlank c = false := by
  rw [trimEnd, List.getLast?_reverse] at h
  have hhead := List.head?_dropWhile_not isBlank cs.reverse
  rwa [h] at hhead

end Text

namespace Numeral

theorem lt_of_accumulate {radix bound : Nat} {outside : Fault} {cs : List Char} {sum n : Nat}
    (h : accumulate radix bound outside sum cs = .ok n) (hsum : sum < bound) : n < bound := by
  induction cs generalizing sum with
  | nil => exact Except.ok.inj h ▸ hsum
  | cons c cs ih =>
    rw [accumulate] at h
    split at h
    · exact absurd h (by simp)
    · simp only at h
      split at h
      · next hnext => exact ih h hnext
      · exact absurd h (by simp)

theorem lt_of_unsigned {radix bound : Nat} (hbound : 0 < bound) {cs : List Char} {n : Nat}
    (h : unsigned radix bound cs = .ok n) : n < bound := by
  match cs with
  | [] => exact absurd h (by simp [unsigned])
  | [c] =>
    rw [unsigned] at h
    split at h
    · exact absurd h (by simp)
    · exact lt_of_accumulate h hbound
  | c :: c' :: cs => exact lt_of_accumulate h hbound

end Numeral

/-! ### Parts of dumps -/

theorem Node.id_lt_of_parse {line : List Char} {n : Node} (h : Node.parse line = .ok n) :
    n.id < UInt64.size := by
  rw [Node.parse] at h
  split at h
  · split at h
    · exact absurd h (by simp)
    · next id hid =>
      split at h
      · exact absurd h (by simp)
      · obtain ⟨low, -, h⟩ := bind_eq_ok_iff.1 h
        obtain ⟨high, -, h⟩ := bind_eq_ok_iff.1 h
        rw [← Except.ok.inj h]
        exact Numeral.lt_of_unsigned (by decide) hid
  · exact absurd h (by simp)

theorem VariableOrder.length_lt_of_parse {text : String} {o : VariableOrder}
    (h : parse text = .ok o) : o.length < UInt32.size := by
  rw [parse] at h
  split at h
  · rw [length, toList_ofList? h]
    decide
  · obtain ⟨vars, hvars, h⟩ := bind_eq_ok_iff.1 h
    rcases Nat.eq_zero_or_pos o.length with hzero | hpos
    · rw [hzero]
      decide
    · have hlast : o.length ∈ o.toList := o.mem_toList_iff.2 ⟨hpos, Nat.le_refl _⟩
      rw [toList_ofList? h] at hlast
      obtain ⟨entry, -, hread⟩ := exists_of_mem_mapM hvars hlast
      rw [parseVar] at hread
      split at hread
      · next hword => exact Numeral.lt_of_unsigned (by decide) (Except.ok.inj hread ▸ hword)
      · exact absurd hread (by simp)

namespace Dump

theorem value_eq_ok_iff {header : Metadata} {key found : String} :
    value header key = .ok found ↔ header.get? key = some found := by
  rw [value]
  cases header.get? key <;> simp

theorem within_eq_ok_iff {ε α : Type} {wrap : ε → Fault} {a : Except ε α} {x : α} :
    within wrap a = .ok x ↔ a = .ok x := by
  cases a <;> simp [within]

/-- Whether a dump is what a header and the lines after it say. -/
structure ReadFrom (header : Metadata) (rest : List (List Char)) (d : Dump) : Prop where
  toolVersion : header.get? toolVersionKey = some d.toolVersion
  engineName : header.get? engineNameKey = some d.engineName
  engineStub : header.get? engineStubKey = some d.engineStub
  root : ∃ text, header.get? rootKey = some text ∧ Edge.parse text.toList = .ok d.diagram.root
  order : ∃ text, header.get? orderKey = some text ∧ VariableOrder.parse text = .ok d.diagram.order
  nodes : ∃ nodes, readNodes rest = .ok nodes ∧
    Diagram.ofNodes d.diagram.order d.diagram.root nodes = .ok d.diagram ∧
    ∃ text, header.get? nodeCountKey = some text ∧ Numeral.word64 text.toList = .ok nodes.length
  metadata : d.metadata = reservedKeys.foldl Dictionary.erase header

theorem parse_eq_ok_iff {text : String} {d : Dump} :
    parse text = .ok d ↔
      ∃ header rest, readHeader .empty (Text.lines text.toList) = .ok (header, rest) ∧
        ReadFrom header rest d := by
  constructor
  · intro h
    simp only [parse, bind_eq_ok_iff, value_eq_ok_iff, within_eq_ok_iff] at h
    obtain ⟨⟨header, rest⟩, hheader, toolVersion, hversion, engineName, hname, engineStub, hstub,
      count, hcount, rootText, hrootText, root, hroot, orderText, horderText, order, horder, nodes,
      hnodes, h⟩ := h
    obtain ⟨hlength, h⟩ := guard_eq_ok_iff.1 h
    obtain ⟨diagram, hdiagram, hd⟩ := bind_eq_ok_iff.1 h
    rw [within_eq_ok_iff] at hdiagram
    obtain ⟨rfl, rfl, -⟩ := Diagram.parts_of_ofNodes hdiagram
    obtain rfl := Except.ok.inj hd
    exact ⟨header, rest, hheader, {
      toolVersion := hversion
      engineName := hname
      engineStub := hstub
      root := ⟨rootText, hrootText, hroot⟩
      order := ⟨orderText, horderText, horder⟩
      nodes := ⟨nodes, hnodes, hdiagram, count, hcount,
        toOption_eq_some_iff.1 (Decidable.not_not.1 hlength)⟩
      metadata := rfl }⟩
  · rintro ⟨header, rest, hheader, h⟩
    obtain ⟨rootText, hrootText, hroot⟩ := h.root
    obtain ⟨orderText, horderText, horder⟩ := h.order
    obtain ⟨nodes, hnodes, hdiagram, count, hcount, hlength⟩ := h.nodes
    simp only [parse, bind_eq_ok_iff, value_eq_ok_iff, within_eq_ok_iff]
    refine ⟨(header, rest), hheader, d.toolVersion, h.toolVersion, d.engineName, h.engineName,
      d.engineStub, h.engineStub, count, hcount, rootText, hrootText, d.diagram.root, hroot,
      orderText, horderText, d.diagram.order, horder, nodes, hnodes, ?_⟩
    refine guard_eq_ok_iff.2 ⟨Decidable.not_not.2 (toOption_eq_some_iff.2 hlength),
      bind_eq_ok_iff.2 ⟨d.diagram, within_eq_ok_iff.2 hdiagram, ?_⟩⟩
    rw [← h.metadata]
    rfl

/-! ### What is read -/

/-- Whether a text can be a key: the first colon of its line ends it. -/
def IsKey (s : String) : Prop := ':' ∉ s.toList ∧ '\n' ∉ s.toList

/-- Whether a text can be a value: it takes up its line to the end and does not end in a blank. -/
def IsValue (s : String) : Prop :=
  '\n' ∉ s.toList ∧ ∀ c, s.toList.getLast? = some c → Text.isBlank c = false

/-- Whether a dump is one that its text tells completely. -/
structure WellFormed (d : Dump) : Prop where
  diagram : Diagram.WellFormed d.diagram.order d.diagram.root d.diagram.nodes
  /-- The number of a node is a word of 64 bits. -/
  id_lt : ∀ n ∈ d.diagram.nodes, n.id < UInt64.size
  /-- A variable is a word of 32 bits. -/
  length_lt : d.diagram.order.length < UInt32.size
  unreserved : ∀ e ∈ d.metadata.entries, isReserved e.1 = false
  keys : ∀ e ∈ d.metadata.entries, IsKey e.1
  values : ∀ e ∈ d.metadata.entries, IsValue e.2
  toolVersion : IsValue d.toolVersion
  engineName : IsValue d.engineName
  engineStub : IsValue d.engineStub

theorem isKey_isValue_of_split {line key value : List Char}
    (hsplit : Text.splitFirst ':' (Text.trimEnd line) = some (key, value)) (hline : '\n' ∉ line) :
    IsKey (String.ofList key) ∧ IsValue (String.ofList value) := by
  obtain ⟨htrim, hcolon⟩ := Text.eq_append_of_splitFirst hsplit
  have hfeed : '\n' ∉ key ++ ':' :: value := fun hmem =>
    hline (Text.mem_of_mem_trimEnd (htrim ▸ hmem))
  simp only [List.mem_append, List.mem_cons, not_or] at hfeed
  simp only [IsKey, IsValue, String.toList_ofList]
  refine ⟨⟨hcolon, hfeed.1⟩, hfeed.2.2, fun c hc => ?_⟩
  have hne : value ≠ [] := by
    rintro rfl
    exact absurd hc (by simp)
  obtain ⟨first, others, rfl⟩ := List.exists_cons_of_ne_nil hne
  have hlast : (Text.trimEnd line).getLast? = some c := by
    rw [htrim, List.getLast?_append, List.getLast?_cons_cons, hc]
    rfl
  exact Text.isBlank_of_getLast?_trimEnd hlast

theorem forall_of_readHeader {known header : Metadata} {ls rest : List (List Char)}
    (h : readHeader known ls = .ok (header, rest)) (hls : ∀ l ∈ ls, '\n' ∉ l)
    (hknown : ∀ e ∈ known.entries, IsKey e.1 ∧ IsValue e.2) :
    ∀ e ∈ header.entries, IsKey e.1 ∧ IsValue e.2 := by
  induction ls generalizing known with
  | nil => exact absurd h (by simp [readHeader])
  | cons l ls ih =>
    have hrest : ∀ l' ∈ ls, '\n' ∉ l' := fun l' hl => hls l' (List.mem_cons_of_mem l hl)
    rw [readHeader] at h
    split at h
    · obtain ⟨rfl, -⟩ := Prod.mk.inj (Except.ok.inj h)
      exact hknown
    · split at h
      · exact ih h hrest hknown
      · split at h
        · exact absurd h (by simp)
        · next key value hsplit =>
          refine ih h hrest fun e he => ?_
          rcases Dictionary.mem_insertEntry he with rfl | he
          · exact isKey_isValue_of_split hsplit (hls l List.mem_cons_self)
          · exact hknown e he

theorem mem_foldl_erase {keys : List String} {header : Metadata} {e : String × String}
    (h : e ∈ (keys.foldl Dictionary.erase header).entries) : e ∈ header.entries ∧ e.1 ∉ keys := by
  induction keys generalizing header with
  | nil => exact ⟨h, by simp⟩
  | cons key keys ih =>
    obtain ⟨hmem, hrest⟩ := ih h
    obtain ⟨hmem, hne⟩ := List.mem_filter.1 hmem
    refine ⟨hmem, ?_⟩
    rw [List.mem_cons, not_or]
    exact ⟨by simpa using hne, hrest⟩

theorem wellFormed_of_parse {text : String} {d : Dump} (h : parse text = .ok d) : d.WellFormed := by
  obtain ⟨header, rest, hheader, hd⟩ := parse_eq_ok_iff.1 h
  have hall := forall_of_readHeader hheader (fun _ => Text.not_mem_of_mem_lines)
    (by simp [Dictionary.empty])
  have hvalue {key value : String} (hget : header.get? key = some value) : IsValue value := by
    obtain ⟨e, he, rfl⟩ := Option.map_eq_some_iff.1 hget
    exact (hall e (List.mem_of_find?_eq_some he)).2
  obtain ⟨nodes, hnodes, hdiagram, -⟩ := hd.nodes
  obtain ⟨orderText, -, horder⟩ := hd.order
  have hmetadata {e : String × String} (he : e ∈ d.metadata.entries) :
      e ∈ header.entries ∧ e.1 ∉ reservedKeys := mem_foldl_erase (hd.metadata ▸ he)
  exact {
    diagram := d.diagram.wellFormed
    id_lt n hn := by
      rw [(Diagram.parts_of_ofNodes hdiagram).2.2, Diagram.sortNodes, List.mem_mergeSort] at hn
      obtain ⟨line, -, hline⟩ := exists_of_mem_mapM hnodes hn
      exact Node.id_lt_of_parse hline
    length_lt := VariableOrder.length_lt_of_parse horder
    unreserved e he := by simpa [isReserved] using (hmetadata he).2
    keys e he := (hall e (hmetadata he).1).1
    values e he := (hall e (hmetadata he).1).2
    toolVersion := hvalue hd.toolVersion
    engineName := hvalue hd.engineName
    engineStub := hvalue hd.engineStub }

end Dump
end DiagramCompiler
