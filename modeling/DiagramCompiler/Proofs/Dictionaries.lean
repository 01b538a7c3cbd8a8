import DiagramCompiler.Dictionary

/-! What look-ups in dictionaries find.
Two dictionaries are equal if every look-up finds the same in both. -/
namespace DiagramCompiler
namespace Dictionary

variable {κ υ : Type}

theorem find?_eraseEntry [DecidableEq κ] (key other : κ) (es : List (κ × υ)) :
    (eraseEntry key es).find? (fun e => e.1 = other) =
      if key = other then none else es.find? (fun e => e.1 = other) := by
  induction es with
  | nil => simp [eraseEntry]
  | cons x xs ih =>
    rw [eraseEntry] at ih ⊢
    by_cases hx : x.1 = key
    · rw [List.filter_cons_of_neg (by simpa using hx), ih, List.find?_cons, hx]
      by_cases h : key = other <;> simp [h]
    · rw [List.filter_cons_of_pos (by simpa using hx), List.find?_cons, List.find?_cons, ih]
      by_cases h : x.1 = other
      · have hne : key ≠ other := fun heq => hx (h.trans heq.symm)
        simp [h, hne]
      · simp [h]

section Erasure

variable [LT κ] [DecidableEq κ]

@[simp] theorem get?_erase (d : Dictionary κ υ) (key other : κ) :
    (d.erase key).get? other = if key = other then none else d.get? other := by
  simp only [get?, erase, find?_eraseEntry]
  split <;> rfl

theorem get?_of_get?_erase {d : Dictionary κ υ} {key other : κ} {value : υ}
    (h : (d.erase key).get? other = some value) : d.get? other = some value := by
  rw [get?_erase] at h
  split at h
  · exact absurd h (by simp)
  · exact h

end Erasure

section Insertion

variable [LT κ] [DecidableEq κ] [DecidableLT κ]

theorem length_insertEntry {key : κ} (value : υ) {es : List (κ × υ)}
    (h : es.find? (fun e => e.1 = key) = none) :
    (insertEntry key value es).length = es.length + 1 := by
  induction es with
  | nil => rfl
  | cons x xs ih =>
    have hx : x.1 ≠ key := by simpa using List.find?_eq_none.1 h x List.mem_cons_self
    rw [List.find?_cons_of_neg (by simpa using hx)] at h
    rw [insertEntry]
    split
    · rfl
    · rw [if_neg (Ne.symm hx), List.length_cons, ih h, List.length_cons]

variable [Ordered κ]

theorem length_insert {d : Dictionary κ υ} {key : κ} (value : υ) (h : d.get? key = none) :
    (d.insert key value).entries.length = d.entries.length + 1 :=
  length_insertEntry value (Option.map_eq_none_iff.1 h)

theorem get?_insertAll_of_not_mem (d : Dictionary κ υ) {es : List (κ × υ)} {key : κ}
    (h : key ∉ es.map Prod.fst) : (d.insertAll es).get? key = d.get? key := by
  induction es generalizing d with
  | nil => rfl
  | cons e es ih =>
    rw [List.map_cons, List.mem_cons, not_or] at h
    have hrest := ih (d.insert e.1 e.2) h.2
    rw [get?_insert, if_neg (Ne.symm h.1)] at hrest
    exact hrest

theorem get?_insertAll_of_mem (d : Dictionary κ υ) {es : List (κ × υ)}
    (hn : (es.map Prod.fst).Nodup) {e : κ × υ} (he : e ∈ es) :
    (d.insertAll es).get? e.1 = some e.2 := by
  induction es generalizing d with
  | nil => exact absurd he (by simp)
  | cons x es ih =>
    obtain ⟨hx, hrest⟩ := List.nodup_cons.1 hn
    rcases List.mem_cons.1 he with rfl | he
    · have hlater := get?_insertAll_of_not_mem (d.insert e.1 e.2) hx
      rw [get?_insert, if_pos rfl] at hlater
      exact hlater
    · exact ih (d.insert x.1 x.2) hrest he

theorem mem_insertAll {d : Dictionary κ υ} {es : List (κ × υ)} {e : κ × υ}
    (h : e ∈ (d.insertAll es).entries) : e ∈ es ∨ e ∈ d.entries := by
  induction es generalizing d with
  | nil => exact .inr h
  | cons x es ih =>
    rcases ih h with hrest | hinsert
    · exact .inl (List.mem_cons_of_mem x hrest)
    · rcases mem_insertEntry hinsert with rfl | hd
      · exact .inl List.mem_cons_self
      · exact .inr hd

theorem length_insertAll {d : Dictionary κ υ} {es : List (κ × υ)}
    (hn : (es.map Prod.fst).Nodup) (hd : ∀ e ∈ es, d.get? e.1 = none) :
    (d.insertAll es).entries.length = d.entries.length + es.length := by
  induction es generalizing d with
  | nil => rfl
  | cons x es ih =>
    obtain ⟨hx, hrest⟩ := List.nodup_cons.1 hn
    have hlater : ((d.insert x.1 x.2).insertAll es).entries.length =
        (d.insert x.1 x.2).entries.length + es.length := by
      refine ih hrest fun e he => ?_
      have hne : x.1 ≠ e.1 := fun heq => hx (heq ▸ List.mem_map_of_mem he)
      rw [get?_insert, if_neg hne]
      exact hd e (List.mem_cons_of_mem x he)
    have hstep : d.insertAll (x :: es) = (d.insert x.1 x.2).insertAll es := rfl
    rw [hstep, hlater, length_insert _ (hd x List.mem_cons_self), List.length_cons]
    omega

end Insertion

section Equality

variable [LT κ] [DecidableEq κ] [Std.Irrefl fun a b : κ => a < b]

theorem mem_entries_iff {d : Dictionary κ υ} {e : κ × υ} :
    e ∈ d.entries ↔ d.get? e.1 = some e.2 := by
  constructor
  · intro h
    suffices hfind : d.entries.find? (fun x => x.1 = e.1) = some e by rw [get?, hfind]; rfl
    have hasc := d.ascending
    generalize d.entries = es at h hasc
    induction es with
    | nil => exact absurd h (by simp)
    | cons x xs ih =>
      obtain ⟨hx, hxs⟩ := List.pairwise_cons.1 hasc
      rcases List.mem_cons.1 h with rfl | h
      · simp
      · have hne : x.1 ≠ e.1 := fun heq => Std.Irrefl.irrefl e.1 (heq ▸ hx e h)
        rw [List.find?_cons_of_neg (by simpa using hne)]
        exact ih h hxs
  · intro h
    obtain ⟨x, hx, hvalue⟩ := Option.map_eq_some_iff.1 h
    obtain rfl : x = e := Prod.ext (by simpa using List.find?_some hx) hvalue
    exact List.mem_of_find?_eq_some hx

omit [DecidableEq κ] in
theorem nodup_entries (d : Dictionary κ υ) : d.entries.Nodup :=
  d.ascending.imp fun {x y} (hlt : x.1 < y.1) (heq : x = y) =>
    Std.Irrefl.irrefl y.1 (heq ▸ hlt)

theorem ext_get? [Ordered κ] {a b : Dictionary κ υ} (h : ∀ key, a.get? key = b.get? key) :
    a = b := by
  have hmem (e : κ × υ) : e ∈ a.entries ↔ e ∈ b.entries := by
    rw [mem_entries_iff, mem_entries_iff, h]
  refine ext (List.Perm.eq_of_pairwise (fun x y _ _ hlt hlt' => ?_) a.ascending b.ascending
    ((List.perm_ext_iff_of_nodup a.nodup_entries b.nodup_entries).2 hmem))
  exact absurd (Ordered.trans hlt hlt') (Std.Irrefl.irrefl _)

theorem perm_of_get? {d : Dictionary κ υ} {key : κ} {value : υ} (h : d.get? key = some value) :
    d.entries.Perm ((key, value) :: (d.erase key).entries) := by
  have hkey : (key, value) ∉ (d.erase key).entries := by simp [mem_entries_iff]
  refine (List.perm_ext_iff_of_nodup d.nodup_entries
    (List.nodup_cons.2 ⟨hkey, (d.erase key).nodup_entries⟩)).2 fun e => ?_
  rw [List.mem_cons, mem_entries_iff, mem_entries_iff, get?_erase]
  by_cases he : key = e.1
  · simp [← he, h, Prod.ext_iff, eq_comm]
  · simp [he, Prod.ext_iff, Ne.symm he]

variable [Ordered κ]

theorem erase_of_get?_eq_none {d : Dictionary κ υ} {key : κ} (h : d.get? key = none) :
    d.erase key = d := by
  refine ext_get? fun other => ?_
  by_cases hkey : key = other
  · simp [← hkey, h]
  · simp [hkey]

theorem erase_insert [DecidableLT κ] (d : Dictionary κ υ) (key : κ) (value : υ) :
    (d.insert key value).erase key = d.erase key := by
  refine ext_get? fun other => ?_
  by_cases hkey : key = other <;> simp [hkey]

theorem perm_insert [DecidableLT κ] (d : Dictionary κ υ) (key : κ) (value : υ) :
    (d.insert key value).entries.Perm ((key, value) :: (d.erase key).entries) := by
  have hkey : (d.insert key value).get? key = some value := by simp
  have h := perm_of_get? hkey
  rwa [erase_insert] at h

end Equality
end Dictionary
end DiagramCompiler
