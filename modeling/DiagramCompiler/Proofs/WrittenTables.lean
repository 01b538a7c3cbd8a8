import DiagramCompiler.Proofs.Dictionaries
import DiagramCompiler.Proofs.PostOrder
import DiagramCompiler.Proofs.WrittenText
import DiagramCompiler.Native.Buddy

/-! Written tables.
The text of a diagram is made up of rows of numbers. It is read back exactly if all of them fit the
words of the reader, and then as the table that has the nodes of the diagram under their numbers. -/
namespace DiagramCompiler

def row (ns : List Nat) : List Char := Text.joinWith [' '] (ns.map Numeral.decimal)

section Row

variable {ns : List Nat}

theorem isWord_of_mem_row {w : List Char} (h : w ∈ ns.map Numeral.decimal) : Text.IsWord w := by
  obtain ⟨n, _, rfl⟩ := List.mem_map.1 h
  exact Numeral.isWord_decimal n

theorem words_row : Text.words (row ns) = ns.map Numeral.decimal :=
  Text.words_joinWith fun _ => isWord_of_mem_row

theorem trim_row : Text.trim (row ns) = row ns := Text.trim_joinWith fun _ => isWord_of_mem_row

theorem row_ne_nil (h : ns ≠ []) : row ns ≠ [] :=
  Text.joinWith_ne_nil (by simpa using h) fun _ hw => (isWord_of_mem_row hw).1

theorem not_mem_row {c : Char} (hc : Text.isBlank c = true) (hspace : c ≠ ' ') : c ∉ row ns := by
  intro h
  rcases Text.mem_joinWith h with hsep | ⟨w, hw, hmem⟩
  · exact hspace (by simpa using hsep)
  · rw [(isWord_of_mem_row hw).2 c hmem] at hc
    exact absurd hc (by decide)

theorem toList_joined : (Text.joined " " (ns.map Numeral.text)).toList = row ns := by
  simp [Text.joined, row, Numeral.text, Function.comp_def]

end Row

namespace Native

theorem contentLines_rows {rows : List (List Nat)} (h : ∀ ns ∈ rows, ns ≠ []) :
    contentLines (String.ofList ((rows.map row).flatMap fun line => line ++ ['\n'])) =
      rows.map row := by
  have hlines : ∀ c, Text.isBlank c = true → c ≠ ' ' → ∀ l ∈ rows.map row, c ∉ l := by
    intro c hc hspace l hl
    obtain ⟨ns, _, rfl⟩ := List.mem_map.1 hl
    exact not_mem_row hc hspace
  have htrim : (rows.map row).map Text.trim = rows.map row := by
    rw [List.map_map]
    exact List.map_congr_left fun ns _ => trim_row
  rw [contentLines, String.toList_ofList, Text.lines_flatMap (hlines _ (by decide) (by decide))
    (hlines _ (by decide) (by decide)), htrim]
  refine List.filter_eq_self.2 fun l hl => ?_
  obtain ⟨ns, hns, rfl⟩ := List.mem_map.1 hl
  simpa using row_ne_nil (h ns hns)

section Number

variable (n : Nat) (what : String)

theorem answers_number {bound : Nat} (hbound : 0 < bound) :
    Answers (number (Numeral.unsigned 10 bound) what (Numeral.decimal n)) (n < bound) n := by
  have h := Numeral.answers_unsigned hbound n
  intro x
  rw [number]
  cases hr : Numeral.unsigned 10 bound (Numeral.decimal n) with
  | error fault =>
    rw [hr] at h
    simpa using h x
  | ok found =>
    rw [hr] at h
    simpa using h x

theorem answers_word64 :
    Answers (number Numeral.word64 what (Numeral.decimal n)) (n < UInt64.size) n :=
  answers_number n what (by decide)

theorem answers_word32 :
    Answers (number Numeral.word32 what (Numeral.decimal n)) (n < UInt32.size) n :=
  answers_number n what (by decide)

end Number
end Native

namespace Reference
namespace Table

def rows (t : Table) (id : Nat) : List (List Nat) :=
  if isTerminal id then [[0, 0, id]]
  else
    [(t.postOrder id).length, t.order.length] ::
      (List.range t.order.length).map (fun var => t.order.idxOf var) ::
      (t.postOrder id).map fun m => [m.1, t.varAt m.2.level, m.2.low, m.2.high]

theorem toList_text (t : Table) (id : Nat) :
    (t.text id).toList = ((t.rows id).map row).flatMap fun line => line ++ ['\n'] := by
  have hlines : (t.lines id).map String.toList = (t.rows id).map row := by
    rw [lines, rows]
    split
    · rw [List.map_singleton, List.map_singleton, ← toList_joined]
      rfl
    · simp only [List.map_cons, List.map_map]
      rw [← toList_joined, ← toList_joined]
      refine congrArg₂ _ rfl (congrArg₂ _ ?_ (List.map_congr_left fun m _ => ?_))
      · rw [List.map_map]
        rfl
      · rw [Function.comp_apply, Function.comp_apply, ← toList_joined]
        rfl
  rw [text, String.toList_ofList, ← hlines, List.flatMap_map]

def native (t : Table) (m : Nat × Branch) : Nat × Native.NativeNode :=
  (m.1, ⟨t.varAt m.2.level, Native.Buddy.edge m.2.low, Native.Buddy.edge m.2.high⟩)

def Fitting (t : Table) (m : Nat × Branch) : Prop :=
  m.1 < UInt64.size ∧ t.varAt m.2.level < UInt32.size ∧ m.2.low < UInt64.size ∧
    m.2.high < UInt64.size

def Readable (t : Table) (id : Nat) : Prop :=
  2 ≤ id → (t.postOrder id).length < UInt64.size ∧ t.order.length < UInt64.size ∧
    ∀ m ∈ t.postOrder id, t.Fitting m

def nativeTable (t : Table) (id : Nat) : Native.Table :=
  ⟨Native.Buddy.edge id, .ofList ((t.postOrder id).map t.native)⟩

variable {t : Table}

theorem Sound.nodup_native (ht : t.Sound) {id : Nat} (hid : t.Holds id) :
    (((t.postOrder id).map t.native).map Prod.fst).Nodup := by
  rw [List.map_map, ← reverse_gathered, List.map_reverse, List.nodup_reverse]
  exact (ht.gathers_gathered hid).gathered.nodup

theorem answers_parseNode (m : Nat × Branch) :
    Answers (Native.Buddy.parseNode (row [m.1, t.varAt m.2.level, m.2.low, m.2.high]))
      (t.Fitting m) (t.native m) := by
  rw [Native.Buddy.parseNode, words_row]
  simp only [List.map_cons, List.map_nil]
  have hid := Native.answers_word64 m.1 "node id"
  have hvar := Native.answers_word32 (t.varAt m.2.level) "variable"
  have hlow := Native.answers_word64 m.2.low "node id"
  have hhigh := Native.answers_word64 m.2.high "node id"
  refine .congr (hid.bind (hvar.bind (hlow.bind (hhigh.bind (.of_ok _))))) ?_
  simp [Fitting]

/-- The rows of the nodes are read as the nodes, of which the last one is the root. -/
theorem Sound.answers_tableOf (ht : t.Sound) {id : Nat} {n : Branch} (hn : t.node? id = some n) :
    Answers (Native.Buddy.tableOf (t.postOrder id).length t.order.length
        (row ((List.range t.order.length).map fun var => t.order.idxOf var) ::
          (t.postOrder id).map fun m => row [m.1, t.varAt m.2.level, m.2.low, m.2.high]))
      (∀ m ∈ t.postOrder id, t.Fitting m) (t.nativeTable id) := by
  have hpos : t.order.length ≠ 0 := by
    have := (ht.placed hn).level_lt
    omega
  have hlevels : Native.Buddy.skipLevels t.order.length
      (row ((List.range t.order.length).map fun var => t.order.idxOf var) ::
        (t.postOrder id).map fun m => row [m.1, t.varAt m.2.level, m.2.low, m.2.high]) =
      .ok ((t.postOrder id).map fun m => row [m.1, t.varAt m.2.level, m.2.low, m.2.high]) := by
    simp [Native.Buddy.skipLevels, hpos, words_row]
  have hnodup := ht.nodup_native (le_and_holds_of_node? hn).2
  have hcount : (Dictionary.ofList ((t.postOrder id).map t.native)).entries.length =
      (t.postOrder id).length := by
    rw [Dictionary.ofList, Dictionary.length_insertAll hnodup fun _ _ => rfl]
    simp [Dictionary.empty]
  have hlast : ((t.postOrder id).map t.native).getLast? = some (t.native (id, n)) := by
    rw [List.getLast?_map, ← reverse_gathered, List.getLast?_reverse, head?_gathered hn]
    rfl
  rw [Native.Buddy.tableOf, hlevels]
  have hread : Answers (((t.postOrder id).map fun m =>
      row [m.1, t.varAt m.2.level, m.2.low, m.2.high]).mapM Native.Buddy.parseNode)
      (∀ m ∈ t.postOrder id, t.Fitting m) ((t.postOrder id).map t.native) := by
    rw [List.mapM_map]
    exact .mapM _ fun m _ => answers_parseNode m
  refine hread.bind_ok ?_
  simp only [hcount, hlast, ne_eq, not_true_eq_false, if_false]
  rfl

theorem answers_parse_terminal {id : Nat} (hid : id < 2) :
    Answers (Native.Buddy.parse (t.text id)) True (t.nativeTable id) := by
  have hrows : t.rows id = [[0, 0, id]] := by rw [rows, if_pos (isTerminal_iff.2 hid)]
  have hlines := Native.contentLines_rows (show ∀ ns ∈ t.rows id, ns ≠ [] by simp [hrows])
  rw [← toList_text, String.ofList_toList, hrows] at hlines
  have hwords : Text.words (row [0, 0, id]) = [['0'], ['0'], Numeral.decimal id] := words_row
  have hlarge : ¬ 1 < id := by omega
  have hsmall : id < UInt64.size := Nat.lt_trans hid (by decide)
  have hempty : t.postOrder id = [] := by rw [← reverse_gathered, gathered_terminal hid]; rfl
  simp only [Native.Buddy.parse, hlines, List.map_singleton, hwords]
  refine .congr ((Native.answers_word64 id "constant").bind_ok ?_) (by simp [hsmall])
  simp only [hlarge, if_false, nativeTable, hempty]
  rfl

theorem Sound.answers_parse (ht : t.Sound) {id : Nat} (hid : t.Holds id) :
    Answers (Native.Buddy.parse (t.text id)) (t.Readable id) (t.nativeTable id) := by
  by_cases hterm : id < 2
  · exact (answers_parse_terminal hterm).congr (by simp [Readable]; omega)
  · obtain ⟨n, hn⟩ := exists_node?_of_holds (by omega) hid
    have hrows : t.rows id = [(t.postOrder id).length, t.order.length] ::
        (List.range t.order.length).map (fun var => t.order.idxOf var) ::
        (t.postOrder id).map fun m => [m.1, t.varAt m.2.level, m.2.low, m.2.high] := by
      rw [rows, if_neg (mt isTerminal_iff.1 hterm)]
    have hpos : t.order.length ≠ 0 := by
      have := (ht.placed hn).level_lt
      omega
    have hlines := Native.contentLines_rows (show ∀ ns ∈ t.rows id, ns ≠ [] by
      rw [hrows]
      simp only [List.mem_cons, List.mem_map]
      rintro ns (rfl | rfl | ⟨m, _, rfl⟩) <;> simp [hpos])
    rw [← toList_text, String.ofList_toList, hrows, List.map_cons, List.map_cons,
      List.map_map] at hlines
    have hwords : Text.words (row [(t.postOrder id).length, t.order.length]) =
        [Numeral.decimal (t.postOrder id).length, Numeral.decimal t.order.length] := words_row
    simp only [Native.Buddy.parse, hlines, hwords]
    refine .congr (.bind (Native.answers_word64 _ "node count")
      (.bind (Native.answers_word64 _ "variable count") (ht.answers_tableOf hn))) ?_
    have hle : 2 ≤ id := by omega
    simp [Readable, hle]

end Table
end Reference
end DiagramCompiler
