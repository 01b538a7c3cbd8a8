import Mathlib.Data.List.Perm.Subperm
import Mathlib.Data.List.Nodup
import DiagramCompiler.Engine.Reference.Table

/-! The meaning of shared nodes.
Under a value for every variable a number of a table stands for a truth value. A table is sound when
its nodes are reduced, lie above their parts and are found under their numbers; the meaning of a
number then follows the two equations of `eval_branch` and `eval_terminal`, and a table that grows
keeps the meaning of every number it had. -/
namespace DiagramCompiler
namespace Reference
namespace Table

def next (t : Table) (values : Nat → Bool) (n : Branch) : Nat :=
  if values (t.varAt n.level) then n.high else n.low

/-- The value of a diagram under a value for every variable of the engine. Nodes are made after
their parts; what would lead to a later node has the value false. -/
def eval (t : Table) (values : Nat → Bool) (id : Nat) : Bool :=
  match t.node? id with
  | none => id = 1
  | some n => if t.next values n < id then t.eval values (t.next values n) else false
termination_by id

def Holds (t : Table) (id : Nat) : Prop := id < t.nodes.size + 2

/-- What a node must be: reduced, made after its parts and placed above them. -/
structure Placed (t : Table) (id : Nat) (n : Branch) : Prop where
  level_lt : n.level < t.order.length
  reduced : n.low ≠ n.high
  low_lt : n.low < id
  high_lt : n.high < id
  above_low : n.level < t.level n.low
  above_high : n.level < t.level n.high

/-- A table whose variables are in some order, whose nodes are well placed, and which finds every
node under its number and nothing else. -/
structure Sound (t : Table) : Prop where
  order_perm : t.order.Perm (List.range t.order.length)
  placed : ∀ {id n}, t.node? id = some n → t.Placed id n
  numbers_iff : ∀ b id, t.numbers[b]? = some id ↔ t.node? id = some b

/-! ### Numbers and levels -/

theorem isTerminal_iff {id : Nat} : isTerminal id = true ↔ id < 2 := by simp [isTerminal]

theorem node?_of_lt (t : Table) {id : Nat} (h : id < 2) : t.node? id = none := by
  simp [node?, isTerminal_iff.2 h]

theorem node?_of_le (t : Table) {id : Nat} (h : 2 ≤ id) : t.node? id = t.nodes[id - 2]? := by
  have : isTerminal id = false := by simp [isTerminal]; omega
  simp [node?, this]

theorem le_and_holds_of_node? {t : Table} {id : Nat} {n : Branch} (h : t.node? id = some n) :
    2 ≤ id ∧ t.Holds id := by
  have hid : 2 ≤ id := by
    by_contra hlt
    rw [t.node?_of_lt (by omega)] at h
    exact absurd h (by simp)
  rw [t.node?_of_le hid] at h
  have hlt := (Array.getElem?_eq_some_iff.1 h).1
  exact ⟨hid, by simp only [Holds]; omega⟩

theorem exists_node?_of_holds {t : Table} {id : Nat} (hid : 2 ≤ id) (h : t.Holds id) :
    ∃ n, t.node? id = some n := by
  simp only [Holds] at h
  exact ⟨t.nodes[id - 2], by rw [t.node?_of_le hid, Array.getElem?_eq_getElem (by omega)]⟩

theorem holds_of_lt (t : Table) {id : Nat} (h : id < 2) : t.Holds id := by
  simp only [Holds]; omega

theorem level_of_node? {t : Table} {id : Nat} {n : Branch} (h : t.node? id = some n) :
    t.level id = n.level := by
  simp [level, h]

theorem level_terminal (t : Table) {id : Nat} (h : id < 2) : t.level id = t.order.length := by
  simp [level, t.node?_of_lt h]

/-! ### Consequences of soundness -/

section Sound

variable {t : Table} {id : Nat} {n : Branch}

theorem Placed.holds_low (h : t.Placed id n) (hid : t.Holds id) : t.Holds n.low := by
  have := h.low_lt
  simp only [Holds] at *
  omega

theorem Placed.holds_high (h : t.Placed id n) (hid : t.Holds id) : t.Holds n.high := by
  have := h.high_lt
  simp only [Holds] at *
  omega

theorem Placed.next_lt (h : t.Placed id n) (values : Nat → Bool) : t.next values n < id := by
  rw [next]
  split
  · exact h.high_lt
  · exact h.low_lt

theorem Sound.holds_low (ht : t.Sound) (h : t.node? id = some n) : t.Holds n.low :=
  (ht.placed h).holds_low (le_and_holds_of_node? h).2

theorem Sound.holds_high (ht : t.Sound) (h : t.node? id = some n) : t.Holds n.high :=
  (ht.placed h).holds_high (le_and_holds_of_node? h).2

theorem Sound.level_le (ht : t.Sound) (id : Nat) : t.level id ≤ t.order.length := by
  cases h : t.node? id with
  | none => simp [level, h]
  | some n =>
    rw [level_of_node? h]
    exact Nat.le_of_lt (ht.placed h).level_lt

theorem Sound.level_lt (ht : t.Sound) (h : t.Holds id) (hid : 2 ≤ id) :
    t.level id < t.order.length := by
  obtain ⟨n, hn⟩ := exists_node?_of_holds hid h
  rw [level_of_node? hn]
  exact (ht.placed hn).level_lt

theorem Sound.eq_of_node? (ht : t.Sound) {id' : Nat} (h : t.node? id = some n)
    (h' : t.node? id' = some n) : id = id' := by
  have hfound := (ht.numbers_iff n id).2 h
  have hfound' := (ht.numbers_iff n id').2 h'
  rw [hfound] at hfound'
  exact Option.some.inj hfound'

theorem Sound.order_nodup (ht : t.Sound) : t.order.Nodup :=
  ht.order_perm.nodup_iff.2 List.nodup_range

theorem Sound.mem_order_iff (ht : t.Sound) {v : Nat} : v ∈ t.order ↔ v < t.order.length := by
  rw [ht.order_perm.mem_iff, List.mem_range]

theorem varAt_of_lt (t : Table) {level : Nat} (h : level < t.order.length) :
    t.varAt level = t.order[level] := by
  simp [varAt, h]

theorem Sound.varAt_inj (ht : t.Sound) {level level' : Nat} (h : level < t.order.length)
    (h' : level' < t.order.length) (heq : t.varAt level = t.varAt level') : level = level' := by
  rw [t.varAt_of_lt h, t.varAt_of_lt h'] at heq
  exact ht.order_nodup.getElem_inj_iff.1 heq

theorem Sound.varAt_lt (ht : t.Sound) {level : Nat} (h : level < t.order.length) :
    t.varAt level < t.order.length := by
  rw [t.varAt_of_lt h]
  exact ht.mem_order_iff.1 (List.getElem_mem h)

theorem Sound.idxOf_lt (ht : t.Sound) {v : Nat} (h : v < t.order.length) :
    t.order.idxOf v < t.order.length :=
  List.idxOf_lt_length_iff.2 (ht.mem_order_iff.2 h)

theorem Sound.varAt_idxOf (ht : t.Sound) {v : Nat} (h : v < t.order.length) :
    t.varAt (t.order.idxOf v) = v := by
  rw [t.varAt_of_lt (ht.idxOf_lt h)]
  exact List.getElem_idxOf (ht.idxOf_lt h)

end Sound

/-! ### Values -/

theorem eval_of_node?_eq_none {t : Table} {id : Nat} (h : t.node? id = none)
    (values : Nat → Bool) : t.eval values id = decide (id = 1) := by
  rw [eval]
  simp [h]

theorem eval_terminal (t : Table) (values : Nat → Bool) {id : Nat} (h : id < 2) :
    t.eval values id = decide (id = 1) :=
  eval_of_node?_eq_none (t.node?_of_lt h) values

@[simp] theorem eval_zero (t : Table) (values : Nat → Bool) : t.eval values 0 = false :=
  t.eval_terminal values (by omega)

@[simp] theorem eval_one (t : Table) (values : Nat → Bool) : t.eval values 1 = true :=
  t.eval_terminal values (by omega)

theorem eval_branch {t : Table} {id : Nat} {n : Branch} (h : t.node? id = some n)
    (hp : t.Placed id n) (values : Nat → Bool) :
    t.eval values id =
      if values (t.varAt n.level) then t.eval values n.high else t.eval values n.low := by
  rw [eval]
  simp only [h, hp.next_lt values, if_true]
  rw [next]
  split <;> rfl

/-- A diagram depends only on the variables at its level and below. -/
theorem Sound.eval_congr {t : Table} (ht : t.Sound) (id : Nat) {values values' : Nat → Bool}
    (h : ∀ level, t.level id ≤ level → level < t.order.length →
      values (t.varAt level) = values' (t.varAt level)) :
    t.eval values id = t.eval values' id := by
  induction id using Nat.strongRecOn with
  | ind id ih =>
    cases hn : t.node? id with
    | none => rw [eval_of_node?_eq_none hn, eval_of_node?_eq_none hn]
    | some n =>
      have hp := ht.placed hn
      have hlevel := level_of_node? hn
      rw [eval_branch hn hp, eval_branch hn hp, h n.level (by omega) hp.level_lt]
      rw [ih n.low hp.low_lt fun l hl hlt => h l (by have := hp.above_low; omega) hlt]
      rw [ih n.high hp.high_lt fun l hl hlt => h l (by have := hp.above_high; omega) hlt]

def assign (t : Table) (values : Nat → Bool) (level : Nat) (value : Bool) : Nat → Bool :=
  fun v => if v = t.varAt level then value else values v

@[simp] theorem assign_varAt (t : Table) (values : Nat → Bool) (level : Nat) (value : Bool) :
    t.assign values level value (t.varAt level) = value := by simp [assign]

theorem Sound.eval_assign {t : Table} (ht : t.Sound) {id level : Nat} (h : level < t.level id)
    (values : Nat → Bool) (value : Bool) :
    t.eval (t.assign values level value) id = t.eval values id := by
  have hlevel : level < t.order.length := Nat.lt_of_lt_of_le h (ht.level_le id)
  refine ht.eval_congr id fun l hl hlt => ?_
  have hne : t.varAt l ≠ t.varAt level := fun heq => by
    have := ht.varAt_inj hlt hlevel heq
    omega
  simp [assign, hne]

/-! ### Growing tables -/

/-- Whether a table has the order of another one and all its nodes. -/
structure Extends (t t' : Table) : Prop where
  order_eq : t'.order = t.order
  size_le : t.nodes.size ≤ t'.nodes.size
  node?_eq : ∀ {id}, t.Holds id → t'.node? id = t.node? id

namespace Extends

variable {t t' t'' : Table}

theorem refl (t : Table) : Extends t t := ⟨rfl, Nat.le_refl _, fun _ => rfl⟩

theorem holds (h : Extends t t') {id : Nat} (hid : t.Holds id) : t'.Holds id := by
  have := h.size_le
  simp only [Holds] at *
  omega

theorem trans (h : Extends t t') (h' : Extends t' t'') : Extends t t'' where
  order_eq := h'.order_eq.trans h.order_eq
  size_le := Nat.le_trans h.size_le h'.size_le
  node?_eq hid := (h'.node?_eq (h.holds hid)).trans (h.node?_eq hid)

theorem varAt_eq (h : Extends t t') (level : Nat) : t'.varAt level = t.varAt level := by
  simp [varAt, h.order_eq]

theorem level_eq (h : Extends t t') {id : Nat} (hid : t.Holds id) : t'.level id = t.level id := by
  simp [level, h.node?_eq hid, h.order_eq]

theorem eval_eq (h : Extends t t') (ht : t.Sound) (ht' : t'.Sound) {id : Nat} (hid : t.Holds id)
    (values : Nat → Bool) : t'.eval values id = t.eval values id := by
  induction id using Nat.strongRecOn with
  | ind id ih =>
    cases hn : t.node? id with
    | none =>
      have hn' : t'.node? id = none := (h.node?_eq hid).trans hn
      rw [eval_of_node?_eq_none hn, eval_of_node?_eq_none hn']
    | some n =>
      have hp := ht.placed hn
      have hn' : t'.node? id = some n := (h.node?_eq hid).trans hn
      rw [eval_branch hn hp, eval_branch hn' (ht'.placed hn'), h.varAt_eq,
        ih n.low hp.low_lt (hp.holds_low hid), ih n.high hp.high_lt (hp.holds_high hid)]

end Extends

/-! ### Making nodes -/

def added (t : Table) (b : Branch) : Table :=
  { t with
    nodes := t.nodes.push b
    numbers := t.numbers.insert b (t.nodes.size + 2) }

theorem node?_added (t : Table) (b : Branch) (id : Nat) :
    (t.added b).node? id = if id = t.nodes.size + 2 then some b else t.node? id := by
  by_cases hid : 2 ≤ id
  · rw [node?_of_le _ hid, node?_of_le _ hid, added, Array.getElem?_push]
    have : id - 2 = t.nodes.size ↔ id = t.nodes.size + 2 := by omega
    simp [this]
  · have hne : id ≠ t.nodes.size + 2 := by omega
    rw [node?_of_lt _ (by omega), node?_of_lt _ (by omega), if_neg hne]

theorem extends_added (t : Table) (b : Branch) : Extends t (t.added b) where
  order_eq := rfl
  size_le := by simp [added]
  node?_eq {id} hid := by
    have hne : id ≠ t.nodes.size + 2 := by simp only [Holds] at hid; omega
    rw [node?_added, if_neg hne]

/-- What the parts of a new node must be. -/
structure Fits (t : Table) (b : Branch) : Prop where
  level_lt : b.level < t.order.length
  holds_low : t.Holds b.low
  holds_high : t.Holds b.high
  above_low : b.level < t.level b.low
  above_high : b.level < t.level b.high

theorem Fits.placed_added {t : Table} {b : Branch} (hb : t.Fits b) (hne : b.low ≠ b.high) :
    (t.added b).Placed (t.nodes.size + 2) b where
  level_lt := hb.level_lt
  reduced := hne
  low_lt := hb.holds_low
  high_lt := hb.holds_high
  above_low := by rw [(t.extends_added b).level_eq hb.holds_low]; exact hb.above_low
  above_high := by rw [(t.extends_added b).level_eq hb.holds_high]; exact hb.above_high

theorem Placed.extend {t t' : Table} {id : Nat} {n : Branch} (h : t.Placed id n)
    (he : Extends t t') (hid : t.Holds id) : t'.Placed id n where
  level_lt := he.order_eq ▸ h.level_lt
  reduced := h.reduced
  low_lt := h.low_lt
  high_lt := h.high_lt
  above_low := by rw [he.level_eq (h.holds_low hid)]; exact h.above_low
  above_high := by rw [he.level_eq (h.holds_high hid)]; exact h.above_high

theorem Sound.added {t : Table} (ht : t.Sound) {b : Branch} (hb : t.Fits b) (hne : b.low ≠ b.high)
    (hnew : t.numbers[b]? = none) : (t.added b).Sound where
  order_perm := ht.order_perm
  placed {id n} hn := by
    rw [node?_added] at hn
    split at hn
    · next hid =>
      obtain rfl := Option.some.inj hn
      exact hid ▸ hb.placed_added hne
    · exact (ht.placed hn).extend (t.extends_added b) (le_and_holds_of_node? hn).2
  numbers_iff b' id := by
    rw [node?_added, Table.added, Std.HashMap.getElem?_insert]
    by_cases hb' : b = b'
    · subst hb'
      by_cases hid : id = t.nodes.size + 2
      · simp [hid]
      · have hold : t.node? id ≠ some b := fun h => by
          rw [(ht.numbers_iff b id).2 h] at hnew
          exact absurd hnew (by simp)
        simp only [beq_self_eq_true, if_true, Option.some.injEq, hid, if_false]
        exact ⟨fun h => absurd h.symm hid, fun h => absurd h hold⟩
    · by_cases hid : id = t.nodes.size + 2
      · have hlarge : t.node? id ≠ some b' := fun h => by
          have := (le_and_holds_of_node? h).2
          simp only [Holds] at this
          omega
        simp only [beq_iff_eq, hb', if_false, hid, if_true, Option.some.injEq, iff_false]
        exact fun h => hlarge (hid ▸ (ht.numbers_iff b' _).1 h)
      · simp only [beq_iff_eq, hb', if_false, hid]
        exact ht.numbers_iff b' id

/-- What making a node comes to: a sound table that has all nodes of the old one, and a number of it
that chooses between the two parts by the variable of the level. -/
structure Makes (t : Table) (b : Branch) (id : Nat) (t' : Table) : Prop where
  sound : t'.Sound
  grows : Extends t t'
  holds : t'.Holds id
  level_le : b.level ≤ t'.level id
  eval_eq : ∀ values, t'.eval values id =
    if values (t.varAt b.level) then t.eval values b.high else t.eval values b.low

theorem make_branch (t : Table) (b : Branch) :
    t.make b.level b.low b.high =
      if b.low = b.high then (b.low, t)
      else
        match t.numbers[b]? with
        | some id => (id, t)
        | none => (t.nodes.size + 2, t.added b) := rfl

theorem Sound.makes {t : Table} (ht : t.Sound) {b : Branch} (hb : t.Fits b) :
    t.Makes b (t.make b.level b.low b.high).1 (t.make b.level b.low b.high).2 := by
  rw [make_branch]
  split
  · next heq =>
    refine ⟨ht, .refl t, hb.holds_low, Nat.le_of_lt hb.above_low, fun values => ?_⟩
    rw [heq]
    split <;> rfl
  · next hne =>
    split
    · next id hfound =>
      have hn := (ht.numbers_iff b id).1 hfound
      exact ⟨ht, .refl t, (le_and_holds_of_node? hn).2, Nat.le_of_eq (level_of_node? hn).symm,
        eval_branch hn (ht.placed hn)⟩
    · next hnew =>
      have hsound := ht.added hb hne hnew
      have hgrows := t.extends_added b
      have hn : (t.added b).node? (t.nodes.size + 2) = some b := by rw [node?_added, if_pos rfl]
      refine ⟨hsound, hgrows, (le_and_holds_of_node? hn).2, Nat.le_of_eq (level_of_node? hn).symm,
        fun values => ?_⟩
      rw [eval_branch hn (hsound.placed hn), hgrows.varAt_eq, hgrows.eval_eq ht hsound hb.holds_low,
        hgrows.eval_eq ht hsound hb.holds_high]

/-! ### Changing the order -/

def withOrder (t : Table) (order : List Nat) : Table := { t with order := order }

@[simp] theorem node?_withOrder (t : Table) (order : List Nat) (id : Nat) :
    (t.withOrder order).node? id = t.node? id := rfl

@[simp] theorem order_withOrder (t : Table) (order : List Nat) :
    (t.withOrder order).order = order := rfl

theorem node?_of_size_eq_zero {t : Table} (h : t.nodes.size = 0) (id : Nat) : t.node? id = none := by
  by_cases hid : 2 ≤ id
  · rw [t.node?_of_le hid]
    simp [h]
  · exact t.node?_of_lt (by omega)

theorem Placed.withOrder {t : Table} {id : Nat} {n : Branch} (h : t.Placed id n)
    {order : List Nat} (hle : t.order.length ≤ order.length) : (t.withOrder order).Placed id n := by
  have below : ∀ part, n.level < t.level part → n.level < (t.withOrder order).level part := by
    intro part hpart
    have hlevel := h.level_lt
    simp only [level, node?_withOrder, order_withOrder] at hpart ⊢
    split <;> simp_all
    omega
  exact {
    level_lt := Nat.lt_of_lt_of_le h.level_lt hle
    reduced := h.reduced
    low_lt := h.low_lt
    high_lt := h.high_lt
    above_low := below _ h.above_low
    above_high := below _ h.above_high }

/-- An order may be given while there are no nodes, and prolonged at any time. -/
theorem Sound.withOrder {t : Table} (ht : t.Sound) {order : List Nat}
    (hperm : order.Perm (List.range order.length))
    (h : t.nodes.size = 0 ∨ t.order.length ≤ order.length) : (t.withOrder order).Sound where
  order_perm := hperm
  placed {id n} hn := by
    rcases h with hempty | hle
    · rw [node?_withOrder, node?_of_size_eq_zero hempty] at hn
      exact absurd hn (by simp)
    · exact (ht.placed hn).withOrder hle
  numbers_iff := ht.numbers_iff

/-- A change of the order that moves no variable of a node changes no meaning. -/
theorem Sound.eval_withOrder {t : Table} (ht : t.Sound) {order : List Nat}
    (ht' : (t.withOrder order).Sound) (h : t.nodes.size = 0 ∨ t.order <+: order) (id : Nat)
    (values : Nat → Bool) : (t.withOrder order).eval values id = t.eval values id := by
  induction id using Nat.strongRecOn with
  | ind id ih =>
    cases hn : t.node? id with
    | none => rw [eval_of_node?_eq_none hn, eval_of_node?_eq_none (by rw [node?_withOrder, hn])]
    | some n =>
      have hp := ht.placed hn
      have hvar : (t.withOrder order).varAt n.level = t.varAt n.level := by
        rcases h with hempty | hpre
        · rw [node?_of_size_eq_zero hempty] at hn
          exact absurd hn (by simp)
        · have hlt := Nat.lt_of_lt_of_le hp.level_lt hpre.length_le
          rw [t.varAt_of_lt hp.level_lt, varAt_of_lt (t.withOrder order) hlt]
          exact (hpre.getElem hp.level_lt).symm
      rw [eval_branch hn hp, eval_branch (t := t.withOrder order) hn (ht'.placed hn), hvar,
        ih n.low hp.low_lt, ih n.high hp.high_lt]

theorem sound_empty : Sound .empty where
  order_perm := .refl _
  placed {id n} h := by simp [node?, empty] at h
  numbers_iff b id := by simp [node?, empty]

end Table
end Reference
end DiagramCompiler
