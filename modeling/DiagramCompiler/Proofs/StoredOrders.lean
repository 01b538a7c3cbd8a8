import DiagramCompiler.Proofs.HeaderLines

/-! Orders that were stored.
The path of an input may hold line feeds and colons, so that its part of an entry may be read as
any fields. The digest and the order stand after it on lines of their own, and what is read last of
a key stays. So an order is read back from its entry, and whatever else an entry holds, an order
that is read from it is one of the variables that were asked for. -/
namespace DiagramCompiler
namespace Cache

variable {fields : Metadata} {n : Nat} {order : VariableOrder}

/-! ### Orders of the right length -/

theorem length_of_orderIn (h : orderIn n fields = some order) : order.length = n := by
  rw [orderIn] at h
  split at h
  · exact absurd h (by simp)
  · split at h
    · split at h
      · next hlength =>
        obtain rfl := Option.some.inj h
        exact hlength
      · exact absurd h (by simp)
    · exact absurd h (by simp)

theorem length_of_staleOrder? {c : Cache} {input : Path} {stage : String} {fs : FileSystem}
    (h : c.staleOrder? input stage n fs = some order) : order.length = n := by
  unfold staleOrder? at h
  cases htext : fs.readText (c.orderPath input stage) with
  | ok text =>
    simp only [htext] at h
    exact length_of_orderIn h
  | error fault => simp [htext] at h

theorem length_of_order? {c : Cache} {input : Path} {stage : String} {fs : FileSystem}
    (h : c.order? input stage n fs = some order) : order.length = n := by
  unfold order? at h
  cases htext : fs.readText (c.orderPath input stage) with
  | ok text =>
    simp only [htext] at h
    cases horder : orderIn n (Cache.fields text) with
    | some found =>
      simp only [horder] at h
      split at h
      · obtain rfl := Option.some.inj h
        exact length_of_orderIn horder
      · exact absurd h (by simp)
    | none => simp [horder] at h
  | error fault => simp [htext] at h

/-! ### Entries read back -/

def field (line : List Char) : Option (String × String) :=
  (Text.splitFirst ':' line).map fun field =>
    (String.ofList (Text.trim field.1), String.ofList (Text.trim field.2))

theorem field_append {key value : String} (hkey : key.toList.any Text.isBlank = false)
    (hcolon : ':' ∉ key.toList) (hvalue : ∀ c ∈ value.toList, Text.isBlank c = false) :
    field (key.toList ++ ':' :: value.toList) = some (key, value) := by
  have htrim {s : String} (h : ∀ c ∈ s.toList, Text.isBlank c = false) :
      String.ofList (Text.trim s.toList) = s := by
    rw [Text.trim_eq_self (fun c hc => h c (List.mem_of_head? hc)) fun c hc =>
      h c (List.mem_of_getLast? hc), String.ofList_toList]
  rw [field, Text.splitFirst_append hcolon]
  simp only [Option.map_some, htrim (by simpa using hkey), htrim hvalue]

theorem splitAll_line (key value : String) (hkey : key.toList.any Text.isBlank = false)
    (hvalue : ∀ c ∈ value.toList, Text.isBlank c = false) :
    (Text.splitAll '\n' (key.toList ++ ':' :: value.toList)).map Text.dropReturn =
      [key.toList ++ ':' :: value.toList] := by
  have hcolon : Text.isBlank ':' = false := by decide
  have hline : ∀ c ∈ key.toList ++ ':' :: value.toList, Text.isBlank c = false :=
    List.forall_mem_append.2 ⟨by simpa using hkey, List.forall_mem_cons.2 ⟨hcolon, hvalue⟩⟩
  have hlast : (key.toList ++ ':' :: value.toList).getLast? ≠ some '\r' := fun heq =>
    absurd (hline '\r' (List.mem_of_getLast? heq)) (by decide)
  rw [Text.splitAll_of_not_mem (Text.not_mem_of_isBlank hline), List.map_singleton,
    Text.dropReturn, if_neg hlast]

theorem lines_orderText (input : Path) (content : Bytes) (order : VariableOrder) :
    Text.lines (orderText input content.digest order).toList =
      (Text.splitAll '\n' (Formula.nameKey.toList ++ ':' :: input.text.toList)).map
        Text.dropReturn ++ [Formula.digestKey.toList ++ ':' :: content.digest.toList,
          Dump.orderKey.toList ++ ':' :: order.text.toList] := by
  have hdigest := splitAll_line Formula.digestKey content.digest (by decide) fun _ =>
    Bytes.isBlank_of_mem_digest
  have hvars := splitAll_line Dump.orderKey order.text (by decide) fun _ =>
    VariableOrder.isBlank_of_mem_text
  have htext : (orderText input content.digest order).toList =
      ([Formula.nameKey.toList ++ ':' :: input.text.toList,
        Formula.digestKey.toList ++ ':' :: content.digest.toList,
        Dump.orderKey.toList ++ ':' :: order.text.toList].flatMap fun l => l ++ ['\n']) ++ [] := by
    have hcolon : ":".toList = [':'] := by decide
    have hfeed : "\n".toList = ['\n'] := by decide
    simp [orderText, hcolon, hfeed]
  rw [htext, Text.lines_flatMap_splitAll]
  simp only [List.flatMap_cons, List.flatMap_nil, List.map_append, List.append_nil, hdigest, hvars,
    show Text.lines [] = [] from rfl]
  rfl

/-- The digest and the order of an entry come after whatever its path is read as. -/
theorem exists_fields_orderText (input : Path) (content : Bytes) (order : VariableOrder) :
    ∃ known : Metadata, Cache.fields (orderText input content.digest order) =
      (known.insert Formula.digestKey content.digest).insert Dump.orderKey order.text := by
  let name := Formula.nameKey.toList ++ ':' :: input.text.toList
  have hdigest : field (Formula.digestKey.toList ++ ':' :: content.digest.toList) =
      some (Formula.digestKey, content.digest) :=
    field_append (by decide) (by decide) fun _ => Bytes.isBlank_of_mem_digest
  have hvars : field (Dump.orderKey.toList ++ ':' :: order.text.toList) =
      some (Dump.orderKey, order.text) :=
    field_append (by decide) (by decide) fun _ => VariableOrder.isBlank_of_mem_text
  have hfields : Cache.fields (orderText input content.digest order) =
      .ofList ((Text.lines (orderText input content.digest order).toList).filterMap field) := rfl
  refine ⟨.ofList (((Text.splitAll '\n' name).map Text.dropReturn).filterMap field), ?_⟩
  rw [hfields, lines_orderText, List.filterMap_append, List.filterMap_cons_some hdigest,
    List.filterMap_cons_some hvars, Dictionary.ofList, Dictionary.insertAll, List.foldl_append]
  rfl

variable {c : Cache} {input source : Path} {stage : String} {hashed : Bytes} {fs : FileSystem}
  {stored : VariableOrder}

theorem orderIn_orderText (hlength : stored.length < UInt32.size) (source : Path) (hashed : Bytes)
    (n : Nat) : orderIn n (Cache.fields (orderText source hashed.digest stored)) =
      if stored.length = n then some stored else none := by
  obtain ⟨known, hfields⟩ := exists_fields_orderText source hashed stored
  rw [orderIn, hfields, Dictionary.get?_insert, if_pos rfl]
  simp only [VariableOrder.parse_text hlength]

theorem isCurrent_orderText_iff : isCurrent fs input
    (Cache.fields (orderText source hashed.digest stored)) = true ↔
      ∃ current, fs.read input = .ok current ∧ hashed.digest = current.digest := by
  obtain ⟨known, hfields⟩ := exists_fields_orderText source hashed stored
  have hne : Dump.orderKey ≠ Formula.digestKey := by decide
  rw [isCurrent, hfields, Dictionary.get?_insert, if_neg hne, Dictionary.get?_insert, if_pos rfl,
    FileSystem.digest]
  cases fs.read input <;> simp

/-- What is found where an entry is kept is the order of the entry, if it has the right length and
the input has the digest that the entry was made with. -/
theorem order?_eq_some_iff_of_read (hlength : stored.length < UInt32.size)
    (hread : fs.read (c.orderPath input stage) =
      .ok (.ofText (orderText source hashed.digest stored))) :
    c.order? input stage n fs = some order ↔ stored = order ∧ order.length = n ∧
      ∃ current, fs.read input = .ok current ∧ hashed.digest = current.digest := by
  have htext : fs.readText (c.orderPath input stage) =
      .ok (orderText source hashed.digest stored) := by
    rw [FileSystem.readText, hread]
    simp only [Bytes.text?_ofText]
  rw [← @isCurrent_orderText_iff input source hashed fs stored]
  unfold order?
  simp only [htext, orderIn_orderText hlength]
  by_cases hn : stored.length = n
  · simp only [if_pos hn]
    split
    · next hcurrent =>
      simp only [hcurrent, and_true, Option.some.injEq]
      exact ⟨fun heq => ⟨heq, heq ▸ hn⟩, fun h => h.1⟩
    · next hcurrent => simp [hcurrent]
  · simp only [if_neg hn, reduceCtorEq, false_iff]
    rintro ⟨rfl, heq, -⟩
    exact hn heq

/-- An order is found where its entry is kept, as long as the input has the digest it had then. -/
theorem order?_of_read {content : Bytes} (hlength : order.length < UInt32.size)
    (hread : fs.read (c.orderPath input stage) =
      .ok (.ofText (orderText input content.digest order)))
    (hinput : fs.read input = .ok content) :
    c.order? input stage order.length fs = some order :=
  (order?_eq_some_iff_of_read hlength hread).2 ⟨rfl, rfl, content, hinput, rfl⟩

/-- An order is found only if the entry and the input can be read. -/
theorem exists_read_of_order? (h : c.order? input stage n fs = some order) :
    (∃ content, fs.read (c.orderPath input stage) = .ok content) ∧
      ∃ current, fs.read input = .ok current := by
  unfold order? at h
  split at h
  · next text htext =>
    split at h
    · next found _ =>
      split at h
      · next hcurrent =>
        refine ⟨?_, exists_read_of_isCurrent hcurrent⟩
        rw [FileSystem.readText] at htext
        split at htext
        · exact absurd htext (by simp)
        · next content hread => exact ⟨content, hread⟩
      · exact absurd h (by simp)
    · exact absurd h (by simp)
  · exact absurd h (by simp)

end Cache
end DiagramCompiler
