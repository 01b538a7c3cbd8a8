import Mathlib.Order.Bounds.Basic
import DiagramCompiler.Proofs.TightestClauses

/-! Formulas of given clauses.
A formula keeps what it is made of: the literals of each clause, once each, and every clause but
those that hold always because they have a literal and its negation. A clause without such a pair
has a variable for each of its literals, and the formula counts its variables up to the largest of
them. So there is a place for every variable wherever one is looked up by its number. -/
namespace DiagramCompiler

/-! ### Literals of one variable -/

namespace Literal

variable {l : Literal}

theorem one_le_var_of_ofInt? {i : Int} (h : ofInt? i = some l) : 1 ≤ l.var := by
  rw [ofInt?] at h
  split at h
  · next hi =>
    cases h
    exact Int.natAbs_pos.2 hi.1
  · cases h

theorem eval_negate (h : 1 ≤ l.var) (assignment : Nat → Bool) :
    l.negate.eval assignment = !l.eval assignment := by
  have hne : l.value ≠ 0 := Int.natAbs_pos.1 h
  have hsign : l.negate.isNegated = !l.isNegated := by
    rw [isNegated, isNegated, ← decide_not, decide_eq_decide]
    change -l.value < 0 ↔ ¬ l.value < 0
    omega
  rw [eval, eval, holdsAt, holdsAt, var_negate, hsign]
  cases assignment l.var <;> cases l.isNegated <;> rfl

end Literal

/-! ### Clauses of given literals -/

namespace Clause

variable {c : Clause} {ls : List Literal} {assignment : Nat → Bool}

/-- Whether some literals include one and its negation. -/
def HasOpposites (ls : List Literal) : Prop := ∃ l ∈ ls, l.negate ∈ ls

instance (ls : List Literal) : Decidable (HasOpposites ls) :=
  inferInstanceAs (Decidable (∃ l ∈ ls, l.negate ∈ ls))

theorem isTautology_iff : c.isTautology = true ↔ HasOpposites c.literals := by
  simp [isTautology, HasOpposites]

theorem isTautology_ofLiterals : (ofLiterals ls).isTautology = true ↔ HasOpposites ls := by
  simp [isTautology_iff, HasOpposites]

theorem eval_ofLiterals :
    (ofLiterals ls).eval assignment = true ↔ ∃ l ∈ ls, l.eval assignment = true := by
  simp [eval]

/-- Literals of which two are opposite are never all false. -/
theorem exists_eval_of_hasOpposites (hvars : ∀ l ∈ ls, 1 ≤ l.var) (h : HasOpposites ls) :
    ∃ l ∈ ls, l.eval assignment = true := by
  obtain ⟨l, hl, hnegate⟩ := h
  cases hvalue : l.eval assignment with
  | true => exact ⟨l, hl, hvalue⟩
  | false => exact ⟨l.negate, hnegate, by rw [Literal.eval_negate (hvars l hl), hvalue]; rfl⟩

theorem largest_eq_or_mem (vars : List Nat) (limit : Nat) :
    largest vars limit = limit ∨ largest vars limit ∈ vars := by
  induction vars generalizing limit with
  | nil => exact .inl rfl
  | cons v vs ih =>
    rcases ih (max limit v) with heq | hmem
    · rcases Nat.le_total limit v with hle | hle
      · exact .inr (by rw [largest, List.foldl_cons, ← largest, heq, Nat.max_eq_right hle]; simp)
      · exact .inl (by rw [largest, List.foldl_cons, ← largest, heq, Nat.max_eq_left hle])
    · exact .inr (.tail _ hmem)

end Clause

namespace Formula

theorem largestVar_eq_or_mem (cs : List Clause) (limit : Nat) :
    largestVar cs limit = limit ∨ ∃ c ∈ cs, largestVar cs limit ∈ c.vars := by
  induction cs generalizing limit with
  | nil => exact .inl rfl
  | cons c cs ih =>
    rcases ih (max limit c.maxVar) with heq | ⟨d, hd, hmem⟩
    · have hfirst : largestVar (c :: cs) limit = max limit c.maxVar := heq
      rcases Nat.le_total c.maxVar limit with hle | hle
      · exact .inl (hfirst.trans (Nat.max_eq_left hle))
      · rw [hfirst, Nat.max_eq_right hle]
        rcases Clause.largest_eq_or_mem c.vars 0 with hzero | hmem
        · have hmax : c.maxVar = 0 := hzero
          exact .inl (by omega)
        · exact .inr ⟨c, List.mem_cons_self, hmem⟩
    · exact .inr ⟨d, .tail _ hd, hmem⟩

theorem isGreatest_varCount (n : Nat) (cs : List Clause) :
    IsGreatest {v | v = n ∨ ∃ c ∈ (ofClauses n cs).clauses, v ∈ c.vars}
      (ofClauses n cs).varCount := by
  refine ⟨largestVar_eq_or_mem _ _, ?_⟩
  rintro v (rfl | ⟨c, hc, hv⟩)
  · exact le_largestVar _ _
  · exact (ofClauses n cs).vars_le c hc v hv

variable {lists : List (List Literal)} {n : Nat} {assignment : Nat → Bool}

theorem clauses_ofLists : (ofClauses n (lists.map Clause.ofLiterals)).clauses =
    (lists.filter (¬ Clause.HasOpposites ·)).map Clause.ofLiterals := by
  rw [clauses_ofClauses, List.filter_map]
  refine congrArg (List.map _) (List.filter_congr fun ls _ => ?_)
  rw [Function.comp_apply, Bool.not_eq_eq_eq_not, ← decide_not, Bool.eq_iff_iff,
    Clause.isTautology_ofLiterals]
  simp

/-- The number of lists that hold always is recorded, unless there are none. -/
theorem metadata_ofLists :
    (ofClauses n (lists.map Clause.ofLiterals)).metadata.entries =
      if lists.countP (Clause.HasOpposites ·) = 0 then []
      else [(droppedKey, Numeral.text (lists.countP (Clause.HasOpposites ·)))] := by
  let cs := lists.map Clause.ofLiterals
  have hdropped : cs.length - (cs.filter fun c => !c.isTautology).length =
      lists.countP (Clause.HasOpposites ·) := by
    have hkept : (cs.filter fun c => !c.isTautology).length =
        lists.countP fun ls => ¬ Clause.HasOpposites ls := by
      rw [← clauses_ofClauses n cs, clauses_ofLists, List.length_map, List.countP_eq_length_filter]
    have hall := List.length_eq_countP_add_countP (l := lists) (Clause.HasOpposites ·)
    rw [hkept, List.length_map]
    simp only [decide_eq_true_eq] at hall
    omega
  have hmetadata : (ofClauses n cs).metadata =
      if cs.length - (cs.filter fun c => !c.isTautology).length = 0 then .empty
      else (Dictionary.empty : Metadata).insert droppedKey
        (Numeral.text (cs.length - (cs.filter fun c => !c.isTautology).length)) := rfl
  rw [hmetadata, hdropped]
  split <;> rfl

/-- The formula holds exactly if each of the lists has a literal that holds. -/
theorem eval_ofLists (hvars : ∀ ls ∈ lists, ∀ l ∈ ls, 1 ≤ l.var) :
    (ofClauses n (lists.map Clause.ofLiterals)).eval assignment = true ↔
      ∀ ls ∈ lists, ∃ l ∈ ls, l.eval assignment = true := by
  rw [eval, clauses_ofLists, List.all_map, List.all_eq_true]
  simp only [Function.comp_apply, Clause.eval_ofLiterals, List.mem_filter, decide_eq_true_eq]
  refine ⟨fun h ls hls => ?_, fun h ls hls => h ls hls.1⟩
  by_cases hopposites : Clause.HasOpposites ls
  · exact Clause.exists_eval_of_hasOpposites (hvars ls hls) hopposites
  · exact h ls ⟨hls, hopposites⟩

/-- A formula is made of the clauses that it is given, of literals written as integers, repeated and
opposite ones included. It keeps, in their order, all clauses but those with opposite literals, and
records how many these are, unless there are none. A clause that is kept has each of its variables
once, and the number of variables is the given one or the largest that occurs. The formula holds
exactly if each of the given lists has a literal that holds. No literal is outside of a table of
positions, below the variables of an engine, or without a value where there is one for each
variable. -/
theorem given_clauses_kept (n : Nat) (lists : List (List Literal))
    (hmade : ∀ ls ∈ lists, ∀ l ∈ ls, ∃ i, Literal.ofInt? i = some l) :
    let f := ofClauses n (lists.map Clause.ofLiterals)
    f.clauses = (lists.filter (¬ Clause.HasOpposites ·)).map Clause.ofLiterals ∧
      (∀ c ∈ f.clauses, c.vars.Nodup ∧ ∀ v ∈ c.vars, 1 ≤ v ∧ v ≤ f.varCount) ∧
      IsGreatest {v | v = n ∨ ∃ c ∈ f.clauses, v ∈ c.vars} f.varCount ∧
      f.metadata.entries = (if lists.countP (Clause.HasOpposites ·) = 0 then []
        else [(droppedKey, Numeral.text (lists.countP (Clause.HasOpposites ·)))]) ∧
      (∀ assignment, f.eval assignment = true ↔
        ∀ ls ∈ lists, ∃ l ∈ ls, l.eval assignment = true) ∧
      (∀ order : VariableOrder, order.length = f.varCount → ∀ c ∈ f.clauses, ∀ v ∈ c.vars,
        order.positions[v]? = some (order.position v)) ∧
      (∀ (σ : Type) (m : Manager σ), ∀ c ∈ f.clauses, ∀ v ∈ c.vars,
        m.engineVar v + (if m.capabilities.zeroBased then 1 else 0) = v) ∧
      ∀ values, f.eval? values =
        if values.length < f.varCount then none
        else some (f.eval fun v => values.getD (v - 1) false) := by
  intro f
  have hvars : ∀ ls ∈ lists, ∀ l ∈ ls, 1 ≤ l.var := fun ls hls l hl =>
    (hmade ls hls l hl).elim fun _ hi => Literal.one_le_var_of_ofInt? hi
  refine ⟨clauses_ofLists, fun c hc => ⟨?_, fun v hv => ?_⟩, isGreatest_varCount n _,
    metadata_ofLists, fun assignment => eval_ofLists hvars, fun order hlength c hc v hv => ?_,
    fun σ m c hc v hv => ?_, fun values => ?_⟩
  · exact Clause.nodup_vars (f.informative c hc)
  · exact ⟨f.one_le_var hc hv, f.vars_le c hc v hv⟩
  · exact VariableOrder.getElem?_positions_of_mem hlength hc hv
  · have hpos := f.one_le_var hc hv
    rw [Manager.engineVar]
    split <;> omega
  · split
    · next hfew => exact if_pos hfew
    · next hall => exact f.eval?_eq (Nat.le_of_not_lt hall)

/-- A repeated literal and the largest variable of all, and a clause that is left out. -/
theorem given_clauses_kept_up_to_largest :
    let lists : List (List Literal) :=
      [[.ofVar 1 true, .ofVar 2147483647 false, .ofVar 1 true],
        [.ofVar 2 true, .ofVar 3 true, .ofVar 2 false]]
    let f := ofClauses 2 (lists.map Clause.ofLiterals)
    (∀ ls ∈ lists, ∀ l ∈ ls, ∃ i, Literal.ofInt? i = some l) ∧
      f.clauses = [.ofLiterals [.ofVar 1 true, .ofVar 2147483647 false]] ∧
      f.varCount = 2147483647 ∧ f.metadata.entries = [("dropped-tautologies", "1")] ∧
      ∀ assignment, f.eval assignment = true ↔
        ∀ ls ∈ lists, ∃ l ∈ ls, l.eval assignment = true := by
  intro lists f
  have hmade : ∀ ls ∈ lists, ∀ l ∈ ls, ∃ i, Literal.ofInt? i = some l := by
    have hvalue : ∀ ls ∈ lists, ∀ l ∈ ls, Literal.ofInt? l.value = some l := by decide
    exact fun ls hls l hl => ⟨l.value, hvalue ls hls l hl⟩
  obtain ⟨hclauses, -, -, hmetadata, heval, -⟩ := given_clauses_kept 2 lists hmade
  exact ⟨hmade, hclauses.trans (by decide), by decide, hmetadata.trans (by decide), heval⟩

end Formula
end DiagramCompiler
