/-! Dictionaries in key order.
A dictionary is a list of keys and values whose keys strictly ascend, so that two dictionaries with
the same bindings are equal, and going through one visits the keys in order. -/
namespace DiagramCompiler

/-- Keys with their values, in strictly ascending order of the keys. -/
structure Dictionary (κ υ : Type) [LT κ] where
  entries : List (κ × υ)
  ascending : entries.Pairwise fun a b => a.1 < b.1

namespace Dictionary

variable {κ υ : Type} [LT κ]

instance [DecidableEq κ] [DecidableEq υ] : DecidableEq (Dictionary κ υ) := fun a b =>
  if h : a.entries = b.entries then
    isTrue (by cases a; cases b; simp_all)
  else isFalse fun hab => h (hab ▸ rfl)

def empty : Dictionary κ υ := ⟨[], .nil⟩

instance : Inhabited (Dictionary κ υ) := ⟨empty⟩

@[ext] theorem ext {a b : Dictionary κ υ} (h : a.entries = b.entries) : a = b := by
  cases a; cases b; simp_all

def keys (d : Dictionary κ υ) : List κ := d.entries.map Prod.fst

def values (d : Dictionary κ υ) : List υ := d.entries.map Prod.snd

def get? [DecidableEq κ] (d : Dictionary κ υ) (key : κ) : Option υ :=
  (d.entries.find? fun e => e.1 = key).map Prod.snd

@[simp] theorem get?_empty [DecidableEq κ] (key : κ) : (empty : Dictionary κ υ).get? key = none :=
  rfl

def contains [DecidableEq κ] (d : Dictionary κ υ) (key : κ) : Bool := (d.get? key).isSome

/-- What keys need besides an order that can be decided: the order is transitive, and two keys of
which none comes first are equal. -/
class Ordered (κ : Type) [LT κ] : Prop where
  trans {a b c : κ} : a < b → b < c → a < c
  eq_of_not_lt {a b : κ} : ¬a < b → ¬b < a → a = b

theorem Ordered.ofLinear {κ : Type} [LT κ] [LE κ] [Std.IsLinearOrder κ] [Std.LawfulOrderLT κ] :
    Ordered κ where
  trans := Std.lt_trans
  eq_of_not_lt h h' := Std.le_antisymm (Std.not_lt.1 h') (Std.not_lt.1 h)

instance : Ordered Nat := .ofLinear

instance : Ordered String := .ofLinear

instance : Ordered (List String) := .ofLinear

def eraseEntry [DecidableEq κ] (key : κ) (es : List (κ × υ)) : List (κ × υ) :=
  es.filter fun e => e.1 ≠ key

def erase [DecidableEq κ] (d : Dictionary κ υ) (key : κ) : Dictionary κ υ :=
  ⟨eraseEntry key d.entries, d.ascending.filter _⟩

theorem length_erase_lt [DecidableEq κ] {d : Dictionary κ υ} {key : κ} {value : υ}
    (h : d.get? key = some value) :
    (d.erase key).entries.length < d.entries.length := by
  obtain ⟨e, he, _⟩ := Option.map_eq_some_iff.1 h
  refine Nat.lt_of_le_of_ne (List.length_filter_le _ _) fun heq => ?_
  have := List.length_filter_eq_length_iff.1 heq e (List.mem_of_find?_eq_some he)
  have hkey := List.find?_some he
  simp_all

/-- Places an entry before the first larger key, in place of an equal one. -/
def insertEntry [DecidableEq κ] [DecidableLT κ] (key : κ) (value : υ) :
    List (κ × υ) → List (κ × υ)
  | [] => [(key, value)]
  | e :: es =>
    if key < e.1 then (key, value) :: e :: es
    else if key = e.1 then (key, value) :: es
    else e :: insertEntry key value es

theorem mem_insertEntry [DecidableEq κ] [DecidableLT κ] {key : κ} {value : υ}
    {es : List (κ × υ)} {e : κ × υ} (h : e ∈ insertEntry key value es) :
    e = (key, value) ∨ e ∈ es := by
  induction es with
  | nil => simpa [insertEntry] using h
  | cons x xs ih =>
    rw [insertEntry] at h
    split at h
    · simpa using h
    · split at h
      · simp only [List.mem_cons] at h ⊢
        exact h.imp_right .inr
      · simp only [List.mem_cons] at h ⊢
        rcases h with h | h
        · exact .inr (.inl h)
        · exact (ih h).imp_right .inr

theorem find?_insertEntry [DecidableEq κ] [DecidableLT κ] (key other : κ) (value : υ)
    (es : List (κ × υ)) :
    (insertEntry key value es).find? (fun e => e.1 = other) =
      if key = other then some (key, value) else es.find? (fun e => e.1 = other) := by
  induction es with
  | nil => by_cases h : key = other <;> simp [insertEntry, h]
  | cons x xs ih =>
    rw [insertEntry]
    split
    · by_cases h : key = other <;> simp [h]
    · split
      · next heq => subst heq; by_cases h : x.1 = other <;> simp [h]
      · next hne =>
        rw [List.find?_cons, List.find?_cons, ih]
        by_cases hx : x.1 = other
        · have : key ≠ other := fun hk => hne (hk.trans hx.symm)
          simp [hx, this]
        · simp [hx]

section Insertion

variable [Ordered κ] [DecidableEq κ] [DecidableLT κ]

theorem ascending_insertEntry (key : κ) (value : υ) {es : List (κ × υ)}
    (h : es.Pairwise fun a b => a.1 < b.1) :
    (insertEntry key value es).Pairwise fun a b => a.1 < b.1 := by
  induction es with
  | nil => simp [insertEntry]
  | cons x xs ih =>
    obtain ⟨hx, hxs⟩ := List.pairwise_cons.1 h
    rw [insertEntry]
    split
    · next hlt =>
      refine List.pairwise_cons.2 ⟨fun e he => ?_, h⟩
      rcases List.mem_cons.1 he with rfl | he
      · exact hlt
      · exact Ordered.trans hlt (hx e he)
    · split
      · next heq =>
        exact List.pairwise_cons.2 ⟨fun e he => by simpa [heq] using hx e he, hxs⟩
      · next hlt hne =>
        refine List.pairwise_cons.2 ⟨fun e he => ?_, ih hxs⟩
        rcases mem_insertEntry he with rfl | he
        · exact Decidable.byContradiction fun h => hne (Ordered.eq_of_not_lt hlt h)
        · exact hx e he

def insert (d : Dictionary κ υ) (key : κ) (value : υ) : Dictionary κ υ :=
  ⟨insertEntry key value d.entries, ascending_insertEntry key value d.ascending⟩

/-- Binds the keys of a list from left to right, so that the last binding of a key stays. -/
def insertAll (d : Dictionary κ υ) (es : List (κ × υ)) : Dictionary κ υ :=
  es.foldl (fun d e => d.insert e.1 e.2) d

def ofList (es : List (κ × υ)) : Dictionary κ υ := empty.insertAll es

@[simp] theorem get?_insert (d : Dictionary κ υ) (key other : κ) (value : υ) :
    (d.insert key value).get? other = if key = other then some value else d.get? other := by
  simp only [get?, insert, find?_insertEntry]
  split <;> rfl

end Insertion
end Dictionary

abbrev Metadata := Dictionary String String

end DiagramCompiler
