import DiagramCompiler.Proofs.Dictionaries
import DiagramCompiler.Proofs.NativeTables
import DiagramCompiler.Proofs.ReadDumps

/-! What the lines of native texts say.
Each node of a table that was read stands on a line of the text, with its number, its variable and
where its low and high edge lead; and so does the root, unless it is a constant. -/
namespace DiagramCompiler
namespace Native

/-- The edge that a field of a CUDD text stands for: a node by its number in base 16, or a constant,
after an exclamation mark if it is complemented. -/
inductive Cudd.Denotes : List Char → NativeEdge → Prop
  | node {digits : List Char} {id : Nat}
      (hid : Numeral.unsigned 16 UInt64.size digits = .ok id) :
      Denotes ('0' :: 'x' :: digits) ⟨false, .node id⟩
  | constant {field : List Char} {value : Decimal.Value}
      (hvalue : Decimal.parse field = some value) :
      Denotes field ⟨false, .terminal (!value.isZero)⟩
  | complement {field : List Char} {target : Target} (h : Denotes field ⟨false, target⟩) :
      Denotes ('!' :: field) ⟨true, target⟩

/-- Whether a line gives a number to a node, and what edge it gives to it. In a CUDD text the edge T
is the high one and the edge E the low one. -/
inductive Format.Describes : Format → List Char → Nat → NativeEdge → NativeNode → Prop
  | buddy {line id var low high : List Char} {idNumber varNumber lowNumber highNumber : Nat}
      (hline : Text.words line = [id, var, low, high])
      (hid : Numeral.word64 id = .ok idNumber) (hvar : Numeral.word32 var = .ok varNumber)
      (hlow : Numeral.word64 low = .ok lowNumber) (hhigh : Numeral.word64 high = .ok highNumber) :
      Describes .buddy line idNumber (Buddy.edge idNumber)
        ⟨varNumber, Buddy.edge lowNumber, Buddy.edge highNumber⟩
  | cudd {line : List Char} {fs : List (List Char × List Char)} {id index e t : List Char}
      {idNumber varNumber : Nat} {complemented : Bool} {low high : NativeEdge}
      (hline : Cudd.fields (Text.words line) = some fs)
      (hid : Cudd.field? fs "ID" = some id) (hindex : Cudd.field? fs "index" = some index)
      (hlow : Cudd.field? fs "E" = some e) (hhigh : Cudd.field? fs "T" = some t)
      (hid' : Cudd.Denotes id ⟨complemented, .node idNumber⟩)
      (hindex' : Numeral.word32 index = .ok varNumber)
      (hlow' : Cudd.Denotes e low) (hhigh' : Cudd.Denotes t high) :
      Describes .cudd line idNumber ⟨complemented, .node idNumber⟩ ⟨varNumber, low, high⟩

/-- Whether the lines of a text give an edge as the root: that to the node of the last line in a
BuDDy text, that of the line after the summary in a CUDD text, or a constant. -/
inductive Format.GivesRoot : Format → List (List Char) → NativeEdge → Prop
  | buddyConstant {header value : List Char} {number : Nat} {lines : List (List Char)}
      (hheader : Text.words header = [['0'], ['0'], value])
      (hvalue : Numeral.word64 value = .ok number) (hle : number ≤ 1) :
      GivesRoot .buddy (header :: lines) (Buddy.edge number)
  | buddyNode {lines : List (List Char)} {last : List Char} {id : Nat} {e : NativeEdge}
      {node : NativeNode} (hlast : lines.getLast? = some last)
      (hdescribed : Describes .buddy last id e node) : GivesRoot .buddy lines e
  | cuddZero {summary : List Char} {lines : List (List Char)}
      (hsummary : Text.trim summary = Cudd.zeroSummary.toList) :
      GivesRoot .cudd ((':' :: summary) :: lines) ⟨false, .terminal false⟩
  | cuddConstant {summary first id value : List Char} {lines : List (List Char)}
      {fs : List (List Char × List Char)} {e constant : NativeEdge}
      (hline : Cudd.fields (Text.words first) = some fs)
      (hid : Cudd.field? fs "ID" = some id) (hvalue : Cudd.field? fs "value" = some value)
      (hid' : Cudd.Denotes id e) (hvalue' : Cudd.Denotes value constant) :
      GivesRoot .cudd (summary :: first :: lines) ⟨e.complemented, constant.target⟩
  | cuddNode {summary first : List Char} {lines : List (List Char)} {id : Nat} {e : NativeEdge}
      {node : NativeNode} (hdescribed : Describes .cudd first id e node) :
      GivesRoot .cudd (summary :: first :: lines) e

/-- Whether a table is what a text says. -/
structure Format.Tells (format : Format) (text : String) (t : Table) : Prop where
  nodes {id : Nat} {node : NativeNode} : t.nodes.get? id = some node →
    ∃ line ∈ contentLines text, ∃ e, format.Describes line id e node
  root : format.GivesRoot (contentLines text) t.root

theorem number_eq_ok_iff {read : List Char → Except Numeral.Fault Nat} {what : String}
    {field : List Char} {n : Nat} : number read what field = .ok n ↔ read field = .ok n := by
  rw [number]
  cases read field <;> simp

/-- What is found in a dictionary that was made of a list is in the list. -/
theorem mem_of_get?_ofList {es : List (Nat × NativeNode)} {id : Nat} {node : NativeNode}
    (h : (Dictionary.ofList es).get? id = some node) : (id, node) ∈ es := by
  have hmem : (id, node) ∈ (Dictionary.ofList es).entries := Dictionary.mem_entries_iff.2 h
  rcases Dictionary.mem_insertAll hmem with hes | hempty
  · exact hes
  · exact absurd hempty (by simp [Dictionary.empty])

/-- The last thing that is read of a list is read of its last member. -/
theorem exists_getLast?_of_mapM {ε α β : Type} {read : α → Except ε β} {xs : List α} {ys : List β}
    (h : xs.mapM read = .ok ys) {y : β} (hy : ys.getLast? = some y) :
    ∃ x, xs.getLast? = some x ∧ read x = .ok y := by
  have hall := List.forall₂_reverse_iff.2 (forall₂_of_mapM h)
  rw [← List.head?_reverse] at hy ⊢
  generalize xs.reverse = front at hall ⊢
  generalize ys.reverse = back at hall hy
  cases hall with
  | nil => exact absurd hy (by simp)
  | @cons x _ _ _ hread _ =>
    obtain rfl := Option.some.inj hy
    exact ⟨x, rfl, hread⟩

namespace Buddy

theorem describes_of_parseNode {line : List Char} {id : Nat} {node : NativeNode}
    (h : parseNode line = .ok (id, node)) : Format.buddy.Describes line id (edge id) node := by
  rw [parseNode] at h
  split at h
  · next hline =>
    simp only [bind_eq_ok_iff, number_eq_ok_iff] at h
    obtain ⟨id', hid, var, hvar, low, hlow, high, hhigh, h⟩ := h
    obtain ⟨rfl, rfl⟩ := Prod.mk.inj (Except.ok.inj h)
    exact .buddy hline hid hvar hlow hhigh
  · exact absurd h (by simp)

theorem suffix_of_skipLevels {vars : Nat} {lines rest : List (List Char)}
    (h : skipLevels vars lines = .ok rest) : rest <:+ lines := by
  unfold skipLevels at h
  split at h
  · exact Except.ok.inj h ▸ List.suffix_refl _
  · split at h
    · exact absurd h (by simp)
    · split at h
      · exact Except.ok.inj h ▸ List.suffix_cons _ _
      · exact absurd h (by simp)

/-- Whether lines encode a table: a header and the lines of nodes, or a constant. -/
inductive Encodes : List (List Char) → Table → Prop
  | nodes {header count vars : List Char} {lines : List (List Char)} {n m : Nat} {t : Table}
      (hheader : Text.words header = [count, vars]) (hcount : Numeral.word64 count = .ok n)
      (hvars : Numeral.word64 vars = .ok m) (htable : tableOf n m lines = .ok t) :
      Encodes (header :: lines) t
  | constant {header value : List Char} {lines : List (List Char)} {n : Nat}
      (hheader : Text.words header = [['0'], ['0'], value])
      (hvalue : Numeral.word64 value = .ok n) (hle : n ≤ 1) :
      Encodes (header :: lines) ⟨edge n, .empty⟩

theorem parse_of_header {text : String} {header count vars : List Char} {lines : List (List Char)}
    {n m : Nat} (hcontent : contentLines text = header :: lines)
    (hheader : Text.words header = [count, vars]) (hcount : Numeral.word64 count = .ok n)
    (hvars : Numeral.word64 vars = .ok m) : parse text = tableOf n m lines := by
  rw [parse, hcontent]
  simp only [hheader, number_eq_ok_iff.2 hcount, number_eq_ok_iff.2 hvars, bind, Except.bind]

theorem parse_eq_ok_iff {text : String} {t : Table} :
    parse text = .ok t ↔ Encodes (contentLines text) t := by
  constructor
  · intro h
    rw [parse] at h
    split at h
    · exact absurd h (by simp)
    next header lines hcontent =>
    rw [hcontent]
    split at h
    · next count vars hheader =>
      simp only [bind_eq_ok_iff, number_eq_ok_iff] at h
      obtain ⟨n, hcount, m, hvars, htable⟩ := h
      exact .nodes hheader hcount hvars htable
    · next value hheader =>
      simp only [bind_eq_ok_iff, number_eq_ok_iff] at h
      obtain ⟨n, hvalue, h⟩ := h
      obtain ⟨hle, h⟩ := guard_eq_ok_iff.1 h
      obtain rfl := Except.ok.inj h
      exact .constant hheader hvalue (Nat.not_lt.1 hle)
    · exact absurd h (by simp)
  · intro h
    generalize hcontent : contentLines text = content at h
    cases h with
    | nodes hheader hcount hvars htable =>
      exact (parse_of_header hcontent hheader hcount hvars).trans htable
    | constant hheader hvalue hle =>
      rw [parse, hcontent]
      simp only [hheader, bind_eq_ok_iff, number_eq_ok_iff]
      exact ⟨_, hvalue, guard_eq_ok_iff.2 ⟨Nat.not_lt.2 hle, rfl⟩⟩

theorem tableOf_eq_ok_iff {count vars : Nat} {lines : List (List Char)} {t : Table} :
    tableOf count vars lines = .ok t ↔ ∃ rest nodes last, skipLevels vars lines = .ok rest ∧
      rest.mapM parseNode = .ok nodes ∧ (Dictionary.ofList nodes).entries.length = count ∧
      nodes.getLast? = some last ∧ t = ⟨edge last.1, .ofList nodes⟩ := by
  simp only [tableOf, bind_eq_ok_iff]
  constructor
  · rintro ⟨rest, hrest, nodes, hnodes, h⟩
    obtain ⟨hcount, h⟩ := guard_eq_ok_iff.1 h
    split at h
    · next last hlast =>
      exact ⟨rest, nodes, last, hrest, hnodes, not_not.1 hcount, hlast, (Except.ok.inj h).symm⟩
    · exact absurd h (by simp)
  · rintro ⟨rest, nodes, last, hrest, hnodes, hcount, hlast, rfl⟩
    exact ⟨rest, hrest, nodes, hnodes, guard_eq_ok_iff.2 ⟨not_not.2 hcount, by rw [hlast]; rfl⟩⟩

theorem tells_of_tableOf {text : String} {count vars : Nat} {header : List Char}
    {lines : List (List Char)} {t : Table} (h : tableOf count vars lines = .ok t)
    (hcontent : contentLines text = header :: lines) : Format.buddy.Tells text t := by
  obtain ⟨rest, nodes, last, hrest, hnodes, -, hlast, rfl⟩ := tableOf_eq_ok_iff.1 h
  obtain ⟨skipped, hskipped⟩ := (suffix_of_skipLevels hrest).trans (List.suffix_cons header lines)
  refine ⟨fun {id node} hget => ?_, ?_⟩
  · obtain ⟨line, hline, hparse⟩ := exists_of_mem_mapM hnodes (mem_of_get?_ofList hget)
    refine ⟨line, ?_, edge id, describes_of_parseNode hparse⟩
    rw [hcontent, ← hskipped]
    exact List.mem_append_right skipped hline
  · obtain ⟨line, hline, hparse⟩ := exists_getLast?_of_mapM hnodes hlast
    refine .buddyNode ?_ (describes_of_parseNode hparse)
    rw [hcontent, ← hskipped, List.getLast?_append, hline, Option.some_or]

theorem tells_of_parse {text : String} {t : Table} (h : parse text = .ok t) :
    Format.buddy.Tells text t := by
  have hencodes := parse_eq_ok_iff.1 h
  generalize hcontent : contentLines text = content at hencodes
  cases hencodes with
  | nodes _ _ _ htable => exact tells_of_tableOf htable hcontent
  | constant hheader hvalue hle =>
    refine ⟨fun hget => absurd hget (by simp), ?_⟩
    rw [hcontent]
    exact .buddyConstant hheader hvalue hle

end Buddy

namespace Cudd

theorem denotes_of_parseEdge {field : List Char} {e : NativeEdge} (h : parseEdge field = .ok e) :
    Denotes field e := by
  unfold parseEdge at h
  split at h
  next complemented value hmark =>
  have hplain : Denotes value ⟨false, e.target⟩ ∧ e.complemented = complemented := by
    split at h
    · split at h
      · next hid =>
        obtain rfl := Except.ok.inj h
        exact ⟨.node hid, rfl⟩
      · exact absurd h (by simp)
    · split at h
      · next hvalue =>
        obtain rfl := Except.ok.inj h
        exact ⟨.constant hvalue, rfl⟩
      · exact absurd h (by simp)
  obtain ⟨hvalue, rfl⟩ := hplain
  obtain ⟨complemented, target⟩ := e
  split at hmark
  · obtain ⟨rfl, rfl⟩ := Prod.mk.inj hmark
    exact .complement hvalue
  · obtain ⟨rfl, rfl⟩ := Prod.mk.inj hmark
    exact hvalue

theorem get_eq_ok_iff {line : List Char} {fs : List (List Char × List Char)} {key : String}
    {value : List Char} : get line fs key = .ok value ↔ field? fs key = some value := by
  rw [get]
  cases field? fs key <;> simp

theorem describes_of_parseLine {line : List Char} {e : NativeEdge} {id : Nat} {node : NativeNode}
    (h : parseLine line = .ok (.node e id node)) : Format.cudd.Describes line id e node := by
  rw [parseLine] at h
  split at h
  · exact absurd h (by simp)
  · next fs hline =>
    simp only [bind_eq_ok_iff, get_eq_ok_iff] at h
    obtain ⟨id', hid, e', he, h⟩ := h
    split at h
    · obtain ⟨constant, -, h⟩ := bind_eq_ok_iff.1 h
      exact absurd (Except.ok.inj h) (by simp)
    · split at h
      · exact absurd h (by simp)
      · next number htarget =>
        simp only [bind_eq_ok_iff, get_eq_ok_iff, number_eq_ok_iff] at h
        obtain ⟨index, hindex, var, hvar, low, hlow, lowEdge, hlowEdge, high, hhigh, highEdge,
          hhighEdge, h⟩ := h
        obtain ⟨rfl, rfl, rfl⟩ := Line.node.inj (Except.ok.inj h)
        obtain ⟨complemented, target⟩ := e'
        obtain rfl : target = .node number := htarget
        exact .cudd hline hid hindex hlow hhigh (denotes_of_parseEdge he) hvar
          (denotes_of_parseEdge hlowEdge) (denotes_of_parseEdge hhighEdge)

theorem givesRoot_of_parseLine {summary first : List Char} {l : Line}
    (h : parseLine first = .ok l) (lines : List (List Char)) :
    Format.cudd.GivesRoot (summary :: first :: lines) l.root := by
  cases l with
  | node e id node => exact .cuddNode (describes_of_parseLine h)
  | constant root =>
    rw [parseLine] at h
    split at h
    · exact absurd h (by simp)
    · next fs hline =>
      simp only [bind_eq_ok_iff, get_eq_ok_iff] at h
      obtain ⟨id, hid, e, he, h⟩ := h
      split at h
      · next value hvalue =>
        obtain ⟨constant, hconstant, h⟩ := bind_eq_ok_iff.1 h
        obtain rfl := Line.constant.inj (Except.ok.inj h)
        exact .cuddConstant hline hid hvalue (denotes_of_parseEdge he)
          (denotes_of_parseEdge hconstant)
      · split at h
        · exact absurd h (by simp)
        · simp only [bind_eq_ok_iff] at h
          obtain ⟨_, _, _, _, _, _, _, _, _, _, _, _, h⟩ := h
          exact absurd (Except.ok.inj h) (by simp)

/-- Whether lines encode a table: the summary of the constant false, or any other summary and at
least one line with an identifier. -/
inductive Encodes : List (List Char) → Table → Prop
  | zero {summary : List Char} {lines : List (List Char)}
      (hsummary : Text.trim summary = zeroSummary.toList) :
      Encodes ((':' :: summary) :: lines) ⟨⟨false, .terminal false⟩, .empty⟩
  | nodes {summary : List Char} {lines : List (List Char)} {count : Nat} {first : Line}
      {others : List Line} (hsummary : Text.trim summary ≠ zeroSummary.toList)
      (hcount : Numeral.word64 ((Text.words summary).headD []) = .ok count)
      (hlines : lines.mapM parseLine = .ok (first :: others)) :
      Encodes ((':' :: summary) :: lines)
        ⟨first.root, .ofList ((first :: others).filterMap Line.node?)⟩

theorem parse_eq_ok_iff {text : String} {t : Table} :
    parse text = .ok t ↔ Encodes (contentLines text) t := by
  constructor
  · intro h
    rw [parse] at h
    split at h
    · exact absurd h (by simp)
    · next summary lines hcontent =>
      rw [hcontent]
      split at h
      · next hsummary => exact Except.ok.inj h ▸ .zero hsummary
      · next hsummary =>
        simp only [bind_eq_ok_iff, number_eq_ok_iff] at h
        obtain ⟨count, hcount, read, hread, h⟩ := h
        split at h
        · exact absurd h (by simp)
        · exact Except.ok.inj h ▸ .nodes hsummary hcount hread
    · exact absurd h (by simp)
  · intro h
    rw [parse]
    generalize contentLines text = content at h ⊢
    cases h with
    | zero hsummary => exact if_pos hsummary
    | nodes hsummary hcount hlines =>
      simp only [if_neg hsummary, bind_eq_ok_iff, number_eq_ok_iff]
      exact ⟨_, hcount, _, hlines, rfl⟩

theorem tells_of_parse {text : String} {t : Table} (h : parse text = .ok t) :
    Format.cudd.Tells text t := by
  have hencodes := parse_eq_ok_iff.1 h
  generalize hcontent : contentLines text = content at hencodes
  cases hencodes with
  | zero hsummary =>
    refine ⟨fun hget => absurd hget (by simp), ?_⟩
    rw [hcontent]
    exact .cuddZero hsummary
  | nodes _ _ hlines =>
    refine ⟨fun {id node} hget => ?_, ?_⟩
    · obtain ⟨l, hl, hnode⟩ := List.mem_filterMap.1 (mem_of_get?_ofList hget)
      obtain ⟨line, hline, hparse⟩ := exists_of_mem_mapM hlines hl
      cases l with
      | constant root => exact absurd hnode (by simp [Line.node?])
      | node e id' node' =>
        obtain ⟨rfl, rfl⟩ := Prod.mk.inj (Option.some.inj hnode)
        refine ⟨line, ?_, e, describes_of_parseLine hparse⟩
        rw [hcontent]
        exact List.mem_cons_of_mem _ hline
    · rw [hcontent]
      cases forall₂_of_mapM hlines with
      | @cons line _ lines _ hparse _ => exact givesRoot_of_parseLine hparse lines

end Cudd

theorem Format.tells_of_parse {format : Format} {text : String} {t : Table}
    (h : format.parse text = .ok t) : format.Tells text t := by
  cases format with
  | buddy => exact Buddy.tells_of_parse h
  | cudd => exact Cudd.tells_of_parse h

end Native
end DiagramCompiler
