import DiagramCompiler.Proofs.SharedNodes

/-! Equal functions have equal numbers.
A node depends on the variable of its level, since its parts differ as functions; so the level of a
diagram, and from it both parts, can be read off its function. In one table this makes numbers of
the same function equal. In two tables with the same order it makes the diagrams of one function
correspond node by node. -/
namespace DiagramCompiler
namespace Reference
namespace Table

variable {t t' : Table}

/-- The parts of a node as functions: the node with the variable of its level set. -/
theorem Sound.eval_low (ht : t.Sound) {id : Nat} {n : Branch} (h : t.node? id = some n)
    (values : Nat → Bool) :
    t.eval values n.low = t.eval (t.assign values n.level false) id := by
  have hp := ht.placed h
  rw [eval_branch h hp, assign_varAt, ht.eval_assign hp.above_low]
  rfl

theorem Sound.eval_high (ht : t.Sound) {id : Nat} {n : Branch} (h : t.node? id = some n)
    (values : Nat → Bool) :
    t.eval values n.high = t.eval (t.assign values n.level true) id := by
  have hp := ht.placed h
  rw [eval_branch h hp, assign_varAt, ht.eval_assign hp.above_high]
  rfl

def SameMeaning (t t' : Table) (id id' : Nat) : Prop :=
  ∀ values, t.eval values id = t'.eval values id'

theorem assign_eq (h : t'.order = t.order) (values : Nat → Bool) (level : Nat) (value : Bool) :
    t'.assign values level value = t.assign values level value := by
  unfold assign varAt
  rw [h]

/-- A node whose parts differ as functions is not the same function as a diagram further down. -/
theorem SameMeaning.not_level_lt (ht : t.Sound) (ht' : t'.Sound) (horder : t'.order = t.order)
    {id id' : Nat} {n : Branch} (hn : t.node? id = some n) (h : SameMeaning t t' id id')
    (hparts : ¬ SameMeaning t t n.low n.high) : ¬ n.level < t'.level id' := by
  intro hlt
  refine hparts fun values => ?_
  calc t.eval values n.low
      = t.eval (t.assign values n.level false) id := ht.eval_low hn values
    _ = t'.eval (t'.assign values n.level false) id' := by rw [h, assign_eq horder]
    _ = t'.eval (t'.assign values n.level true) id' := by
        rw [ht'.eval_assign hlt, ht'.eval_assign hlt]
    _ = t.eval (t.assign values n.level true) id := by rw [h, assign_eq horder]
    _ = t.eval values n.high := (ht.eval_high hn values).symm

theorem SameMeaning.symm {id id' : Nat} (h : SameMeaning t t' id id') : SameMeaning t' t id' id :=
  fun values => (h values).symm

theorem SameMeaning.parts (ht : t.Sound) (ht' : t'.Sound) (horder : t'.order = t.order)
    {id id' : Nat} {n n' : Branch} (hn : t.node? id = some n) (hn' : t'.node? id' = some n')
    (hlevel : n.level = n'.level) (h : SameMeaning t t' id id') :
    SameMeaning t t' n.low n'.low ∧ SameMeaning t t' n.high n'.high := by
  constructor
  · intro values
    rw [ht.eval_low hn, ht'.eval_low hn', h, assign_eq horder, hlevel]
  · intro values
    rw [ht.eval_high hn, ht'.eval_high hn', h, assign_eq horder, hlevel]

theorem SameMeaning.eq_of_terminal {id id' : Nat} (hid : id < 2) (hid' : id' < 2)
    (h : SameMeaning t t' id id') : id = id' := by
  have := h fun _ => false
  rw [eval_terminal _ _ hid, eval_terminal _ _ hid', decide_eq_decide] at this
  omega

/-- The two ways in which diagrams can be the same function, as soon as both tables tell the parts
of a node apart: both are the same terminal, or both are nodes of one level. -/
theorem SameMeaning.cases (ht : t.Sound) (ht' : t'.Sound) (horder : t'.order = t.order)
    {id id' : Nat} (hid : t.Holds id) (hid' : t'.Holds id') (h : SameMeaning t t' id id')
    (hparts : ∀ n, t.node? id = some n → ¬ SameMeaning t t n.low n.high)
    (hparts' : ∀ n, t'.node? id' = some n → ¬ SameMeaning t' t' n.low n.high) :
    id < 2 ∧ id = id' ∨
      ∃ n n', t.node? id = some n ∧ t'.node? id' = some n' ∧ n.level = n'.level := by
  by_cases hlt : id < 2
  · by_cases hlt' : id' < 2
    · exact .inl ⟨hlt, h.eq_of_terminal hlt hlt'⟩
    · obtain ⟨n', hn'⟩ := exists_node?_of_holds (by omega) hid'
      have hnot := h.symm.not_level_lt ht' ht horder.symm hn' (hparts' n' hn')
      rw [level_terminal _ hlt, ← horder] at hnot
      exact absurd (ht'.placed hn').level_lt hnot
  · obtain ⟨n, hn⟩ := exists_node?_of_holds (by omega) hid
    have hnot := h.not_level_lt ht ht' horder hn (hparts n hn)
    by_cases hlt' : id' < 2
    · rw [level_terminal _ hlt', horder] at hnot
      exact absurd (ht.placed hn).level_lt hnot
    · obtain ⟨n', hn'⟩ := exists_node?_of_holds (by omega) hid'
      have hnot' := h.symm.not_level_lt ht' ht horder.symm hn' (hparts' n' hn')
      rw [level_of_node? hn'] at hnot
      rw [level_of_node? hn] at hnot'
      exact .inr ⟨n, n', hn, hn', by omega⟩

/-- In a sound table numbers of the same function are equal. The induction is on a bound of both
numbers, since parts have smaller ones. -/
theorem Sound.eq_of_sameMeaning_of_lt (ht : t.Sound) (bound : Nat) {id id' : Nat} (hb : id < bound)
    (hb' : id' < bound) (hid : t.Holds id) (hid' : t.Holds id') (h : SameMeaning t t id id') :
    id = id' := by
  induction bound generalizing id id' with
  | zero => omega
  | succ bound ih =>
    have differ : ∀ {i n}, i < bound + 1 → t.node? i = some n → ¬ SameMeaning t t n.low n.high := by
      intro i n hi hn hsame
      have hp := ht.placed hn
      have hlow := hp.low_lt
      have hhigh := hp.high_lt
      exact hp.reduced
        (ih (by omega) (by omega) (ht.holds_low hn) (ht.holds_high hn) hsame)
    rcases h.cases ht ht rfl hid hid' (fun n hn => differ hb hn) (fun n hn => differ hb' hn) with
      ⟨_, heq⟩ | ⟨n, n', hn, hn', hlevel⟩
    · exact heq
    · have hp := ht.placed hn
      have hp' := ht.placed hn'
      have hlow := hp.low_lt
      have hhigh := hp.high_lt
      have hlow' := hp'.low_lt
      have hhigh' := hp'.high_lt
      obtain ⟨slow, shigh⟩ := h.parts ht ht rfl hn hn' hlevel
      have elow := ih (by omega) (by omega) (ht.holds_low hn) (ht.holds_low hn') slow
      have ehigh := ih (by omega) (by omega) (ht.holds_high hn) (ht.holds_high hn') shigh
      have hsame : n = n' := by
        cases n
        cases n'
        simp_all
      exact ht.eq_of_node? hn (hsame ▸ hn')

/-- Two numbers of a sound table are equal exactly if they stand for the same function. -/
theorem Sound.eq_iff_sameMeaning (ht : t.Sound) {id id' : Nat} (hid : t.Holds id)
    (hid' : t.Holds id') : id = id' ↔ SameMeaning t t id id' := by
  constructor
  · rintro rfl
    exact fun _ => rfl
  · exact ht.eq_of_sameMeaning_of_lt (max id id' + 1) (by omega) (by omega) hid hid'

theorem Sound.parts_differ (ht : t.Sound) {id : Nat} {n : Branch} (hn : t.node? id = some n) :
    ¬ SameMeaning t t n.low n.high := fun h =>
  (ht.placed hn).reduced ((ht.eq_iff_sameMeaning (ht.holds_low hn) (ht.holds_high hn)).2 h)

/-- Diagrams of two sound tables that are the same function are the same terminal or nodes of one
level whose parts are the same functions. -/
theorem Sound.sameMeaning_cases (ht : t.Sound) (ht' : t'.Sound) (horder : t'.order = t.order)
    {id id' : Nat} (hid : t.Holds id) (hid' : t'.Holds id') (h : SameMeaning t t' id id') :
    id < 2 ∧ id = id' ∨
      ∃ n n', t.node? id = some n ∧ t'.node? id' = some n' ∧ n.level = n'.level ∧
        SameMeaning t t' n.low n'.low ∧ SameMeaning t t' n.high n'.high := by
  rcases h.cases ht ht' horder hid hid' (fun _ hn => ht.parts_differ hn)
    (fun _ hn => ht'.parts_differ hn) with hterm | ⟨n, n', hn, hn', hlevel⟩
  · exact .inl hterm
  · exact .inr ⟨n, n', hn, hn', hlevel, h.parts ht ht' horder hn hn' hlevel⟩

end Table
end Reference
end DiagramCompiler
