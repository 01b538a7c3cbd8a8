import DiagramCompiler.Cache
import DiagramCompiler.Proofs.Dictionaries
import DiagramCompiler.Proofs.ReadDumps
import DiagramCompiler.Proofs.WrittenText

/-! Headers of dumps that are written and read back.
A header is read back key by key, up to blanks at the end of a value, if no key has a colon and
nothing in it has a line feed. An entry for an order is never read as a dump, and neither is an
empty file. -/
namespace DiagramCompiler

theorem Bytes.text?_ofText (s : String) : Bytes.text? (Bytes.ofText s) = some s := by
  have hbytes : (⟨(Bytes.ofText s).toArray⟩ : ByteArray) = s.toUTF8 := by simp [Bytes.ofText]
  rw [Bytes.text?, hbytes, String.fromUTF8?, dif_pos]
  rfl

namespace Text

theorem trimEnd_append_cons (front : List Char) {c : Char} (hc : isBlank c = false)
    (back : List Char) : trimEnd (front ++ c :: back) = front ++ c :: trimEnd back := by
  have hdrop : (back.reverse ++ c :: front.reverse).dropWhile isBlank =
      back.reverse.dropWhile isBlank ++ c :: front.reverse := by
    rw [List.dropWhile_append]
    split
    · next h =>
      rw [List.isEmpty_iff.1 h, List.dropWhile_cons_of_neg (by simp [hc])]
      rfl
    · rfl
  simp [trimEnd, hdrop]

theorem trimEnd_dropReturn (cs : List Char) : trimEnd (dropReturn cs) = trimEnd cs := by
  rw [dropReturn]
  split
  · next h =>
    obtain ⟨front, rfl⟩ := List.getLast?_eq_some_iff.1 h
    have hblank : isBlank '\r' = true := by decide
    simp [trimEnd, hblank]
  · rfl

end Text

def trimmedEnd (s : String) : String := String.ofList (Text.trimEnd s.toList)

/-- What is done to all values of a dictionary is done to each one that is found. -/
theorem Metadata.get?_ofList_map (d : Metadata) (f : String → String) (key : String) :
    (Dictionary.ofList (d.entries.map fun e => (e.1, f e.2))).get? key = (d.get? key).map f := by
  have hkeys : (d.entries.map fun e => (e.1, f e.2)).map Prod.fst = d.entries.map Prod.fst := by
    simp
  have hnodup : (d.entries.map Prod.fst).Nodup :=
    List.pairwise_map.2 (d.ascending.imp fun {a b} h (heq : a.1 = b.1) =>
      String.lt_irrefl b.1 (heq ▸ h))
  cases hfind : d.get? key with
  | some value =>
    obtain ⟨e, hfound, rfl⟩ := Option.map_eq_some_iff.1 hfind
    obtain rfl : e.1 = key := by simpa using List.find?_some hfound
    exact Dictionary.get?_insertAll_of_mem .empty (hkeys ▸ hnodup)
      (List.mem_map_of_mem (List.mem_of_find?_eq_some hfound))
  | none =>
    have hmissing := List.find?_eq_none.1 (Option.map_eq_none_iff.1 hfind)
    refine Dictionary.get?_insertAll_of_not_mem .empty fun hmem => ?_
    rw [hkeys] at hmem
    obtain ⟨e, he, heq⟩ := List.mem_map.1 hmem
    exact hmissing e he (by simpa using heq)

namespace Dump

def OneLine (e : String × String) : Prop :=
  '\n' ∉ e.1.toList ∧ ':' ∉ e.1.toList ∧ '\n' ∉ e.2.toList

theorem OneLine.of_value {key value : String} (hkey : '\n' ∉ key.toList ∧ ':' ∉ key.toList)
    (hvalue : '\n' ∉ value.toList) : OneLine (key, value) := ⟨hkey.1, hkey.2, hvalue⟩

def line (e : String × String) : List Char := (e.1 ++ ":" ++ e.2).toList

theorem line_eq (e : String × String) : line e = e.1.toList ++ ':' :: e.2.toList := by
  have hcolon : (":" : String).toList = [':'] := by decide
  simp [line, hcolon]

theorem OneLine.not_mem_line {e : String × String} (h : OneLine e) : '\n' ∉ line e := by
  rw [line_eq]
  simp [h.1, h.2.2]

theorem readHeader_append {es : List (String × String)} (h : ∀ e ∈ es, OneLine e)
    (known : Metadata) (rest : List (List Char)) :
    readHeader known ((es.map line).map Text.dropReturn ++ rest) =
      readHeader (known.insertAll (es.map fun e => (e.1, trimmedEnd e.2))) rest := by
  induction es generalizing known with
  | nil => rfl
  | cons e es ih =>
    obtain ⟨-, hcolon, -⟩ := h e List.mem_cons_self
    have hrest := ih fun e' he => h e' (List.mem_cons_of_mem e he)
    have htrim : Text.trimEnd (Text.dropReturn (line e)) =
        e.1.toList ++ ':' :: Text.trimEnd e.2.toList := by
      rw [Text.trimEnd_dropReturn, line_eq, Text.trimEnd_append_cons _ (by decide)]
    have hsep : e.1.toList ++ ':' :: Text.trimEnd e.2.toList ≠ separator.toList := fun heq => by
      have hmem : ':' ∈ separator.toList := heq ▸ List.mem_append_right _ List.mem_cons_self
      exact absurd hmem (by decide)
    rw [List.map_cons, List.map_cons, List.cons_append, readHeader, htrim]
    simp only [if_neg hsep, List.append_eq_nil_iff, reduceCtorEq, and_false, if_false,
      Text.splitFirst_append hcolon, String.ofList_toList]
    exact hrest _

theorem exists_of_isSome {ε α : Type} {a : Except ε α} (h : a.toOption.isSome = true) :
    ∃ b, a = .ok b := by
  cases a with
  | error fault => exact absurd h (by simp [Except.toOption])
  | ok b => exact ⟨b, rfl⟩

theorem get?_foldl_erase (keys : List String) (header : Metadata) (key : String) :
    (keys.foldl Dictionary.erase header).get? key =
      if key ∈ keys then none else header.get? key := by
  induction keys generalizing header with
  | nil => rfl
  | cons k keys ih =>
    rw [List.foldl_cons, ih, Dictionary.get?_erase]
    by_cases hk : k = key
    · simp [hk]
    · simp [hk, Ne.symm hk]

/-- The lines of the header come first, and the separator after them. -/
theorem readHeader_text {d : Dump} (h : ∀ e ∈ d.header.entries, OneLine e) :
    readHeader .empty (Text.lines d.text.toList) =
      .ok (.ofList (d.header.entries.map fun e => (e.1, trimmedEnd e.2)),
        Text.lines ((d.diagram.nodes.map Node.text).flatMap fun l => l.toList ++ ['\n'])) := by
  have hlines : ∀ l ∈ d.header.entries.map line ++ [separator.toList], '\n' ∉ l := by
    intro l hl
    rcases List.mem_append.1 hl with hl | hl
    · obtain ⟨e, he, rfl⟩ := List.mem_map.1 hl
      exact (h e he).not_mem_line
    · rw [List.mem_singleton.1 hl]
      decide
  have hsep : Text.dropReturn separator.toList = separator.toList := by decide
  have hsep' : Text.trimEnd separator.toList = separator.toList := by decide
  have htext : d.text.toList =
      ((d.header.entries.map line ++ [separator.toList]).flatMap fun l => l ++ ['\n']) ++
        (d.diagram.nodes.map Node.text).flatMap fun l => l.toList ++ ['\n'] := by
    simp [text, lines, line, List.flatMap_map]
  rw [htext, Text.lines_flatMap_append hlines, List.map_append, List.append_assoc]
  refine (readHeader_append h _ _).trans ?_
  rw [List.map_singleton, hsep, List.singleton_append, readHeader]
  simp only [hsep', if_true]
  rfl

theorem get?_of_parse_text {d d' : Dump} (hplain : ∀ e ∈ d.header.entries, OneLine e)
    (h : parse d.text = .ok d') {key : String} (hkey : key ∉ reservedKeys) :
    d'.metadata.get? key = (d.metadata.get? key).map trimmedEnd := by
  obtain ⟨header, rest, hheader, hd'⟩ := parse_eq_ok_iff.1 h
  obtain ⟨rfl, -⟩ := Prod.mk.inj (Except.ok.inj (hheader.symm.trans (readHeader_text hplain)))
  have hreserved : d.header.get? key = d.metadata.get? key :=
    Dictionary.get?_insertAll_of_not_mem _ (by simpa [reservedKeys] using hkey)
  rw [hd'.metadata, get?_foldl_erase, if_neg hkey, Metadata.get?_ofList_map, hreserved]

/-! ### Texts on one line -/

/-- Whether nothing that a dump says of itself has a line feed. -/
structure Plain (d : Dump) : Prop where
  metadata : ∀ e ∈ d.metadata.entries, OneLine e
  toolVersion : '\n' ∉ d.toolVersion.toList
  engineName : '\n' ∉ d.engineName.toList
  engineStub : '\n' ∉ d.engineStub.toList

end Dump

theorem Numeral.not_mem_text (n : Nat) {c : Char} (h : c.isDigit = false) :
    c ∉ (Numeral.text n).toList := fun hmem => by
  rw [Numeral.text, String.toList_ofList] at hmem
  rw [Numeral.isDigit_decimal hmem] at h
  exact absurd h (by simp)

namespace Edge

def mark (e : Edge) : Char := if e.complemented then '1' else '0'

theorem toList_text (e : Edge) : e.text.toList = e.mark :: ':' :: Numeral.decimal e.id := by
  have hfalse : ("0:" : String).toList = ['0', ':'] := by decide
  have htrue : ("1:" : String).toList = ['1', ':'] := by decide
  cases hc : e.complemented <;> simp [text, mark, hc, hfalse, htrue, Numeral.text]

theorem isWord_text (e : Edge) : Text.IsWord e.text.toList := by
  rw [toList_text]
  refine ⟨List.cons_ne_nil _ _, fun c hc => ?_⟩
  rcases List.mem_cons.1 hc with rfl | hc
  · cases hmark : e.complemented <;> simp only [mark, hmark] <;> decide
  · rcases List.mem_cons.1 hc with rfl | hc
    · decide
    · exact (Numeral.isWord_decimal e.id).2 c hc

end Edge

theorem VariableOrder.toList_text (o : VariableOrder) :
    o.text.toList = Text.joinWith [','] (o.toList.map Numeral.decimal) := by
  have hcomma : (",".toList) = [','] := by decide
  simp [text, Text.joined, Numeral.text, Function.comp_def, hcomma]

theorem VariableOrder.isBlank_of_mem_text {o : VariableOrder} {c : Char} (h : c ∈ o.text.toList) :
    Text.isBlank c = false := by
  rw [toList_text] at h
  rcases Text.mem_joinWith h with hsep | ⟨w, hw, hmem⟩
  · rw [List.mem_singleton.1 hsep]
    decide
  · obtain ⟨n, -, rfl⟩ := List.mem_map.1 hw
    exact (Numeral.isWord_decimal n).2 c hmem

theorem Bytes.isBlank_of_mem_digest {content : Bytes} {c : Char} (h : c ∈ content.digest.toList) :
    Text.isBlank c = false := by
  have hdigit : ∀ n < 16, Text.isBlank (Nat.digitChar n) = false := by decide
  rw [Bytes.digest, Digest.State.text, String.toList_ofList, Digest.hex] at h
  obtain ⟨b, -, hb⟩ := List.mem_flatMap.1 h
  rw [Digest.hexDigit, Digest.hexDigit, List.mem_cons, List.mem_singleton] at hb
  rcases hb with rfl | rfl <;> exact hdigit _ (Nat.mod_lt _ (by decide))

theorem Bytes.not_mem_digest (content : Bytes) : '\n' ∉ content.digest.toList :=
  Text.not_mem_of_isBlank fun _ => isBlank_of_mem_digest

namespace Dump

theorem isKey_of_reserved {key : String} (h : key ∈ reservedKeys) : IsKey key := by
  have hall : ∀ k ∈ reservedKeys, ':' ∉ k.toList ∧ '\n' ∉ k.toList := by decide
  exact hall key h

/-- The values of a header are those of the other keys, what a dump says of itself, and values
without blanks. -/
theorem forall_mem_header {d : Dump} {p : String → Prop}
    (hword : ∀ s : String, (∀ c ∈ s.toList, Text.isBlank c = false) → p s)
    (hmetadata : ∀ e ∈ d.metadata.entries, IsKey e.1 ∧ p e.2) (hversion : p d.toolVersion)
    (hname : p d.engineName) (hstub : p d.engineStub) :
    ∀ e ∈ d.header.entries, IsKey e.1 ∧ p e.2 := by
  intro e he
  rcases Dictionary.mem_insertAll he with hreserved | hother
  · have hkey : e.1 ∈ reservedKeys := List.mem_map_of_mem (f := Prod.fst) hreserved
    refine ⟨isKey_of_reserved hkey, ?_⟩
    simp only [List.mem_cons, List.not_mem_nil, or_false] at hreserved
    rcases hreserved with rfl | rfl | rfl | rfl | rfl | rfl
    · exact hversion
    · exact hname
    · exact hstub
    · refine hword _ ?_
      rw [Numeral.text, String.toList_ofList]
      exact (Numeral.isWord_decimal _).2
    · exact hword _ d.diagram.root.isWord_text.2
    · exact hword _ fun _ => VariableOrder.isBlank_of_mem_text
  · exact hmetadata e hother

theorem Plain.header {d : Dump} (h : d.Plain) : ∀ e ∈ d.header.entries, OneLine e := by
  have hall := forall_mem_header (p := fun s => '\n' ∉ s.toList)
    (fun _ => Text.not_mem_of_isBlank)
    (fun e he => ⟨⟨(h.metadata e he).2.1, (h.metadata e he).1⟩, (h.metadata e he).2.2⟩)
    h.toolVersion h.engineName h.engineStub
  exact fun e he => ⟨(hall e he).1.2, (hall e he).1.1, (hall e he).2⟩

end Dump

/-! ### Entries of caches -/

namespace Cache

theorem plain_tagged {d : Dump} (h : d.Plain) {input : Path} (hinput : '\n' ∉ input.text.toList)
    (content : Bytes) : (tagged input content.digest d).Plain where
  metadata e he := by
    rcases Dictionary.mem_insertEntry he with rfl | he
    · exact .of_value (by decide) content.not_mem_digest
    · rcases Dictionary.mem_insertEntry he with rfl | he
      · exact .of_value (by decide) hinput
      · exact h.metadata e he
  toolVersion := h.toolVersion
  engineName := h.engineName
  engineStub := h.engineStub

theorem digest_of_parse_tagged {d d' : Dump} (h : d.Plain) {input : Path}
    (hinput : '\n' ∉ input.text.toList) {content : Bytes}
    (hparse : Dump.parse (tagged input content.digest d).text = .ok d') :
    d'.metadata.get? Formula.digestKey = some content.digest := by
  have hget : (tagged input content.digest d).metadata.get? Formula.digestKey =
      some content.digest := by
    rw [tagged, Dictionary.get?_insert, if_pos rfl]
  have htrim : trimmedEnd content.digest = content.digest := by
    rw [trimmedEnd, Text.trimEnd_eq_self, String.ofList_toList]
    exact fun c hc => Bytes.isBlank_of_mem_digest (List.mem_of_getLast? hc)
  rw [Dump.get?_of_parse_text (plain_tagged h hinput content).header hparse (by decide), hget,
    Option.map_some, htrim]

theorem parse_orderText {input : Path} (hinput : '\n' ∉ input.text.toList) (content : Bytes)
    (order : VariableOrder) :
    Dump.parse (orderText input content.digest order) = .error .noSeparator := by
  let es : List (String × String) := [(Formula.nameKey, input.text),
    (Formula.digestKey, content.digest), (Dump.orderKey, order.text)]
  have hes : ∀ e ∈ es, Dump.OneLine e := by
    simp only [es, List.mem_cons, List.not_mem_nil, or_false]
    rintro e (rfl | rfl | rfl)
    · exact .of_value (by decide) hinput
    · exact .of_value (by decide) content.not_mem_digest
    · exact .of_value (by decide) (Text.not_mem_of_isBlank fun _ => VariableOrder.isBlank_of_mem_text)
  have hfeed : ("\n" : String).toList = ['\n'] := by decide
  have htext : (orderText input content.digest order).toList =
      (es.map Dump.line).flatMap fun l => l ++ ['\n'] := by
    simp [orderText, es, Dump.line, hfeed]
  have hlines : ∀ l ∈ es.map Dump.line, '\n' ∉ l := fun l hl => by
    obtain ⟨e, he, rfl⟩ := List.mem_map.1 hl
    exact (hes e he).not_mem_line
  have hheader := Dump.readHeader_append hes .empty []
  have hread := Text.lines_flatMap_append hlines []
  rw [List.append_nil, show Text.lines [] = [] from rfl] at hread
  rw [Dump.parse, htext, hread, hheader]
  rfl

theorem get?_of_isCurrent {fs : FileSystem} {input : Path} {metadata : Metadata} {current : Bytes}
    (h : isCurrent fs input metadata = true) (hread : fs.read input = .ok current) :
    metadata.get? Formula.digestKey = some current.digest := by
  rw [isCurrent, FileSystem.digest, hread] at h
  cases hget : metadata.get? Formula.digestKey with
  | none => simp [hget] at h
  | some stored => simpa [hget] using h

theorem exists_read_of_isCurrent {fs : FileSystem} {input : Path} {metadata : Metadata}
    (h : isCurrent fs input metadata = true) : ∃ current, fs.read input = .ok current := by
  rw [isCurrent, FileSystem.digest] at h
  cases hread : fs.read input with
  | ok current => exact ⟨current, rfl⟩
  | error fault => simp [hread] at h

theorem diagram?_eq_some_iff (c : Cache) {input path : Path} {engine reordering : String}
    {fs : FileSystem} :
    c.diagram? input engine reordering fs = some path ↔
      path = c.diagramPath input engine reordering ∧
        ∃ d, Dump.ofFile path fs = .ok d ∧ isCurrent fs input d.metadata = true := by
  unfold diagram?
  simp only
  constructor
  · intro h
    split at h
    · next d hdump =>
      split at h
      · next hcurrent =>
        obtain rfl := Option.some.inj h
        exact ⟨rfl, d, hdump, hcurrent⟩
      · exact absurd h (by simp)
    · exact absurd h (by simp)
  · rintro ⟨rfl, d, hdump, hcurrent⟩
    simp only [hdump, hcurrent, if_true]

end Cache

theorem Dump.ofFile_eq_ok_iff {fs : FileSystem} {path : Path} {d : Dump} :
    Dump.ofFile path fs = .ok d ↔
      ∃ content text, fs.read path = .ok content ∧ content.text? = some text ∧
        Dump.parse text = .ok d := by
  rw [Dump.ofFile, FileSystem.readText]
  constructor
  · intro h
    split at h
    · exact absurd h (by simp)
    · next text htext =>
      split at htext
      · exact absurd htext (by simp)
      · next content hread =>
        split at htext
        · next hcontent =>
          obtain rfl := Except.ok.inj htext
          split at h
          · next hparse => exact ⟨content, _, hread, hcontent, (Except.ok.inj h) ▸ hparse⟩
          · exact absurd h (by simp)
        · exact absurd htext (by simp)
  · rintro ⟨content, text, hread, hcontent, hparse⟩
    simp only [hread, hcontent, hparse]

end DiagramCompiler
