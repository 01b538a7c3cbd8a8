import Mathlib
import DiagramCompiler.Proofs.CompiledFormulas
import DiagramCompiler.Proofs.TopologicalOrders

/-! Clauses that are sorted by their spans.
Whatever sorts the clauses of a formula, they are taken out of their places one after the other,
each place once, so that none is lost and none is doubled. Where they are sorted by span per
literal, the keys are compared as fractions: cross products of spans and lengths are in the order of
the quotients, and the sort is stable, which determines its outcome and lets a second sort change
nothing. -/
namespace DiagramCompiler

/-! ### Places -/

/-- Takes things out of slots one after the other. A slot that was emptied before has nothing. -/
def takenFrom {α : Type} : List (Option α) → List Nat → List α
  | _, [] => []
  | slots, i :: is => slots[i]?.join.toList ++ takenFrom (slots.set i none) is

theorem takenFrom_of_nodup {α : Type} {slots : List (Option α)} {positions : List Nat}
    (h : positions.Nodup) :
    takenFrom slots positions = positions.filterMap fun i => slots[i]?.join := by
  induction positions generalizing slots with
  | nil => rfl
  | cons i is ih =>
    obtain ⟨hi, his⟩ := List.nodup_cons.1 h
    have hrest : (is.filterMap fun j => (slots.set i none)[j]?.join) =
        is.filterMap fun j => slots[j]?.join :=
      List.filterMap_congr fun j hj => by
        have hne : i ≠ j := fun heq => hi (heq ▸ hj)
        rw [List.getElem?_set_ne hne]
    rw [takenFrom, ih his, hrest, List.filterMap_cons]
    cases slots[i]?.join <;> rfl

/-- Taking things out of their places, each place at most once, is looking them up. -/
theorem takenFrom_map_some {α : Type} (as : List α) {positions : List Nat}
    (h : positions.Nodup) :
    takenFrom (as.map some) positions = positions.filterMap fun i => as[i]? := by
  rw [takenFrom_of_nodup h]
  refine List.filterMap_congr fun i _ => ?_
  rw [List.getElem?_map]
  cases as[i]? <;> rfl

/-! ### Stable sorts -/

/-- Whether a list is another one sorted by a key, with all that have one key in the order that they
had. -/
structure IsStableSort {α κ : Type} [LE κ] [DecidableEq κ] (key : α → κ) (as sorted : List α) :
    Prop where
  ascending : sorted.Pairwise fun a b => key a ≤ key b
  stable : ∀ k, sorted.filter (key · = k) = as.filter (key · = k)

section MergeSort

variable {α κ : Type} [LinearOrder κ] {key : α → κ} {le : α → α → Bool}

theorem isStableSort_mergeSort (hle : ∀ a b, le a b = true ↔ key a ≤ key b) (as : List α) :
    IsStableSort key as (as.mergeSort le) := by
  have htrans (a b c : α) (hab : le a b = true) (hbc : le b c = true) : le a c = true :=
    (hle a c).2 (((hle a b).1 hab).trans ((hle b c).1 hbc))
  have htotal (a b : α) : (le a b || le b a) = true := by
    rw [Bool.or_eq_true, hle, hle]
    exact le_total _ _
  refine ⟨(List.pairwise_mergeSort htrans htotal as).imp (hle _ _).1, fun k => ?_⟩
  -- those of one key are sorted as they are, so the sort has them as a sublist
  have hsorted : (as.filter (key · = k)).Pairwise fun a b => le a b = true :=
    List.pairwise_of_forall_mem_list fun a ha b hb => by
      have hka : key a = k := by simpa using (List.mem_filter.1 ha).2
      have hkb : key b = k := by simpa using (List.mem_filter.1 hb).2
      exact (hle a b).2 (hka.trans hkb.symm).le
  have hsub := (List.sublist_mergeSort htrans htotal hsorted List.filter_sublist).filter
    (key · = k)
  simp only [List.filter_filter, Bool.and_self] at hsub
  exact (hsub.eq_of_length ((List.mergeSort_perm as le).filter _).length_eq.symm).symm

theorem mergeSort_mergeSort (hle : ∀ a b, le a b = true ↔ key a ≤ key b) (as : List α) :
    (as.mergeSort le).mergeSort le = as.mergeSort le :=
  List.mergeSort_of_pairwise ((isStableSort_mergeSort hle as).ascending.imp (hle _ _).2)

end MergeSort

/-! ### Spans per literal -/

namespace VariableOrder

variable {order : VariableOrder} {f : Formula} {c : Clause} {var : Nat}

/-- The distance between the outermost variables of a clause in an order, for each literal; zero for
the empty clause. -/
def tightness (order : VariableOrder) (c : Clause) : ℚ :=
  (extent (c.vars.map order.position) : ℚ) / c.length

theorem getElem?_positions (hvar : 1 ≤ var) (hle : var ≤ order.length) :
    order.positions[var]? = some (order.position var) := by
  obtain ⟨i, rfl⟩ := Nat.exists_eq_add_of_le' hvar
  have hrange : (List.range' 1 order.length)[i]? = some (1 + i) := by
    rw [List.getElem?_range' (by omega)]
    simp
  simp [positions, hrange, Nat.add_comm]

theorem getElem?_positions_of_mem (hlength : order.length = f.varCount) (hc : c ∈ f.clauses)
    (hvar : var ∈ c.vars) : order.positions[var]? = some (order.position var) :=
  getElem?_positions (f.one_le_var hc hvar) (hlength ▸ f.vars_le c hc var hvar)

theorem clauseSpan_positions (hlength : order.length = f.varCount) (hc : c ∈ f.clauses) :
    clauseSpan order.positions c = extent (c.vars.map order.position) := by
  have hmap : (c.vars.map fun v => order.positions.getD v 0) = c.vars.map order.position :=
    List.map_congr_left fun v hv => by
      rw [Array.getD_eq_getD_getElem?, getElem?_positions_of_mem hlength hc hv]
      rfl
  rw [clauseSpan, hmap]

/-- Spans per literal are compared as fractions, of which those of no literals are zero. -/
theorem Density.atMost_iff (a b : Density) :
    a.atMost b = true ↔ (a.span : ℚ) / a.literals ≤ (b.span : ℚ) / b.literals := by
  rw [Density.atMost]
  split
  · next hzero =>
    have hle : (0 : ℚ) ≤ (b.span : ℚ) / b.literals := by positivity
    simpa [hzero] using hle
  · next hpos =>
    have ha : (0 : ℚ) < a.literals := by exact_mod_cast Nat.pos_of_ne_zero hpos
    split
    · next hzero =>
      rw [hzero, Nat.cast_zero, div_zero, div_le_iff₀ ha, zero_mul]
      simp
    · next hpos' =>
      have hb : (0 : ℚ) < b.literals := by exact_mod_cast Nat.pos_of_ne_zero hpos'
      rw [div_le_div_iff₀ ha hb, decide_eq_true_iff]
      exact_mod_cast Iff.rfl

theorem density_atMost_iff (positions : Array Nat) (c d : Clause) :
    (density positions c).atMost (density positions d) = true ↔
      (clauseSpan positions c : ℚ) / c.length ≤ (clauseSpan positions d : ℚ) / d.length :=
  Density.atMost_iff _ _

/-- The clauses sorted for an order, without the detour over their places. -/
theorem clauses_sortClauses (order : VariableOrder) (f : Formula) :
    (order.sortClauses f).clauses = f.clauses.mergeSort fun c d =>
      (density order.positions c).atMost (density order.positions d) := by
  let atMost (c d : Clause × Nat) : Bool :=
    (density order.positions c.1).atMost (density order.positions d.1)
  let keyed (c : Clause × Nat) : Density × Nat := (density order.positions c.1, c.2)
  have hkeys : order.tightestFirst f.clauses =
      (f.clauses.zipIdx.mergeSort atMost).map Prod.snd := by
    have hmap := List.map_mergeSort (r := atMost) (s := fun a b => a.1.atMost b.1) (f := keyed)
      (l := f.clauses.zipIdx) fun _ _ _ _ => rfl
    exact (congrArg (List.map Prod.snd) hmap.symm).trans List.map_map
  have hplaces : (f.clauses.zipIdx.mergeSort atMost).filterMap (fun c => f.clauses[c.2]?) =
      (f.clauses.zipIdx.mergeSort atMost).map Prod.fst := by
    rw [← List.filterMap_eq_map]
    refine List.filterMap_congr fun c hc => ?_
    exact List.mem_zipIdx_iff_getElem?.1 ((List.mergeSort_perm _ _).mem_iff.1 hc)
  calc (order.sortClauses f).clauses
      = (order.tightestFirst f.clauses).filterMap fun i => f.clauses[i]? := rfl
    _ = (f.clauses.zipIdx.mergeSort atMost).map Prod.fst := by
      rw [hkeys, List.filterMap_map]
      exact hplaces
    _ = (f.clauses.zipIdx.map Prod.fst).mergeSort fun c d =>
          (density order.positions c).atMost (density order.positions d) :=
      List.map_mergeSort fun _ _ _ _ => rfl
    _ = _ := by rw [List.zipIdx_map_fst]

/-- Clauses are sorted by their spans per literal, and a second sort changes nothing. -/
theorem isStableSort_sortClauses (hlength : order.length = f.varCount) :
    IsStableSort order.tightness f.clauses (order.sortClauses f).clauses ∧
      (order.sortClauses (order.sortClauses f)).clauses = (order.sortClauses f).clauses := by
  have hkey (c : Clause) (hc : c ∈ f.clauses) :
      (clauseSpan order.positions c : ℚ) / c.length = order.tightness c := by
    rw [clauseSpan_positions hlength hc, tightness]
  have hperm : (order.sortClauses f).clauses.Perm f.clauses := by
    rw [clauses_sortClauses]
    exact List.mergeSort_perm _ _
  have hsort := isStableSort_mergeSort (density_atMost_iff order.positions) f.clauses
  rw [← clauses_sortClauses] at hsort
  refine ⟨⟨?_, fun k => ?_⟩, ?_⟩
  · refine hsort.ascending.imp_of_mem fun {c d} hc hd hle => ?_
    rwa [hkey c (hperm.mem_iff.1 hc), hkey d (hperm.mem_iff.1 hd)] at hle
  · have hstable := hsort.stable k
    have hsame (cs : List Clause) (hcs : ∀ c ∈ cs, c ∈ f.clauses) :
        cs.filter (fun c => (clauseSpan order.positions c : ℚ) / c.length = k) =
          cs.filter (order.tightness · = k) :=
      List.filter_congr fun c hc => by rw [hkey c (hcs c hc)]
    rwa [hsame _ fun c => hperm.mem_iff.1, hsame _ fun c hc => hc] at hstable
  · rw [clauses_sortClauses order (order.sortClauses f), clauses_sortClauses order f]
    exact mergeSort_mergeSort (density_atMost_iff order.positions) f.clauses

end VariableOrder

/-! ### Formulas whose clauses are sorted -/

namespace Formula

variable {f f' : Formula}

/-- Whether a formula is another one with its clauses in another order. -/
structure Reorders (f f' : Formula) : Prop where
  clauses : f'.clauses.Perm f.clauses
  varCount : f'.varCount = f.varCount
  descriptions : f'.descriptions = f.descriptions
  metadata : f'.metadata = f.metadata
  source : f'.source = f.source

theorem reorders_permute {positions : List Nat}
    (h : positions.Perm (List.range f.clauses.length)) : f.Reorders (f.permute positions) :=
  ⟨f.perm_permute h, rfl, rfl, rfl, rfl⟩

theorem Reorders.eval_eq (h : f.Reorders f') : f'.eval = f.eval := by
  funext assignment
  exact h.clauses.all_eq

theorem Reorders.eval?_eq (h : f.Reorders f') (values : List Bool) :
    f'.eval? values = f.eval? values := by
  by_cases hfew : values.length < f.varCount
  · rw [eval?, eval?, if_pos hfew, if_pos (h.varCount ▸ hfew)]
  · have hall : f.varCount ≤ values.length := Nat.le_of_not_lt hfew
    rw [Formula.eval?_eq f hall, Formula.eval?_eq f' (h.varCount ▸ hall), h.eval_eq]

theorem Reorders.eq_self (h : f.Reorders f') (hclauses : f'.clauses = f.clauses) : f' = f := by
  obtain ⟨-, hvarCount, hdescriptions, hmetadata, hsource⟩ := h
  cases f
  cases f'
  simp_all

end Formula

namespace Options

variable {o : Options} {f : Formula} {order : VariableOrder}

/-- Every heuristic takes the clauses of a formula out of their places, each place once. -/
theorem exists_of_sortClauses {f' : Formula} (h : o.sortClauses f order = .ok f') :
    ∃ positions, positions.Perm (List.range f.clauses.length) ∧ f' = f.permute positions := by
  have hself : f = f.permute (List.range f.clauses.length) :=
    ((Formula.reorders_permute (.refl _)).eq_self (filterMap_getElem?_range f.clauses)).symm
  rw [sortClauses] at h
  split at h
  · exact ⟨_, .refl _, (Except.ok.inj h).symm.trans hself⟩
  · exact ⟨_, order.perm_tightestFirst f.clauses, (Except.ok.inj h).symm⟩
  · exact ⟨_, order.perm_tightestFirst f.clauses, (Except.ok.inj h).symm⟩
  · split at h
    · obtain ⟨positions, htopological, heq⟩ := Interaction.exists_of_sortClauses h
      exact ⟨positions, htopological.perm, heq⟩
    · exact ⟨_, .refl _, (Except.ok.inj h).symm.trans hself⟩

/-- Whether there is room for a graph of the clauses of a formula, if they are sorted by one. -/
def FitsClauses (o : Options) (f : Formula) : Prop :=
  o.heuristic = .degree → o.degreeSortsClauses = true →
    f.varCount < Memory.maxLists ∧ (Interaction.clauseGraph f).IsNumbered

theorem exists_sortClauses_iff : (∃ f', o.sortClauses f order = .ok f') ↔ o.FitsClauses f := by
  rw [sortClauses, FitsClauses]
  cases o.heuristic with
  | off => simp
  | force => simp
  | forceTriage => simp
  | degree =>
    cases o.degreeSortsClauses with
    | false => simp
    | true => simpa using Interaction.exists_sortClauses_iff

theorem exists_overflow_of_sortClauses {failure : Failure}
    (h : o.sortClauses f order = .error failure) : ∃ cause, failure = .overflow cause := by
  rw [sortClauses] at h
  split at h
  · cases h
  · cases h
  · cases h
  · split at h
    · exact Interaction.exists_overflow_of_sortClauses h
    · cases h

theorem sortClauses_of_spans (h : o.heuristic = .force ∨ o.heuristic = .forceTriage) :
    o.sortClauses f order = .ok (order.sortClauses f) := by
  rw [sortClauses]
  rcases h with h | h <;> rw [h]

theorem sortClauses_of_not_sortsClauses (h : o.sortsClauses = false) :
    o.sortClauses f order = .ok f := by
  rw [sortsClauses] at h
  rw [sortClauses]
  split at h <;> simp_all

/-- Sorting clauses loses nothing. Whatever the heuristic and its options, it succeeds exactly where
there is room for a graph of the clauses or none is made, and fails for want of that room only. The
clauses are taken out of their places one after the other, each place once; so they are the same
clauses as often as before, with all else of the formula as it was, and the formula has the value
that it had under whatever values are given to its variables. Every variable is looked up where it
has a position. FORCE and its triage sort stably by the span per literal, as a fraction, and to sort
once more changes nothing. -/
theorem sorted_clauses_kept (o : Options) (f : Formula) (order : VariableOrder)
    (hlength : order.length = f.varCount) :
    ((∃ f', o.sortClauses f order = .ok f') ↔
        (o.heuristic = .degree → o.degreeSortsClauses = true →
          f.varCount < Memory.maxLists ∧ (Interaction.clauseGraph f).IsNumbered)) ∧
      (∀ failure, o.sortClauses f order = .error failure → ∃ cause, failure = .overflow cause) ∧
      (∀ c ∈ f.clauses, ∀ var ∈ c.vars, order.positions[var]? = some (order.position var)) ∧
      ∀ f', o.sortClauses f order = .ok f' →
        (∃ positions, positions.Perm (List.range f.clauses.length) ∧
          f'.clauses = takenFrom (f.clauses.map some) positions) ∧
        f.Reorders f' ∧ f'.eval = f.eval ∧ (∀ values, f'.eval? values = f.eval? values) ∧
        (o.sortsClauses = false → f' = f) ∧
        (o.heuristic = .force ∨ o.heuristic = .forceTriage →
          IsStableSort order.tightness f.clauses f'.clauses ∧ o.sortClauses f' order = .ok f') := by
  refine ⟨exists_sortClauses_iff, fun failure => exists_overflow_of_sortClauses,
    fun c hc var hvar => VariableOrder.getElem?_positions_of_mem hlength hc hvar,
    fun f' hsorted => ?_⟩
  obtain ⟨positions, hperm, rfl⟩ := exists_of_sortClauses hsorted
  have hreorders := Formula.reorders_permute hperm
  have hnodup : positions.Nodup := hperm.nodup_iff.2 List.nodup_range
  refine ⟨⟨positions, hperm, (takenFrom_map_some _ hnodup).symm⟩, hreorders, hreorders.eval_eq,
    hreorders.eval?_eq, fun hnot => ?_, fun hspans => ?_⟩
  · exact (Except.ok.inj ((sortClauses_of_not_sortsClauses hnot).symm.trans hsorted)).symm
  · have heq : order.sortClauses f = f.permute positions :=
      Except.ok.inj ((sortClauses_of_spans hspans).symm.trans hsorted)
    rw [← heq, sortClauses_of_spans hspans]
    obtain ⟨hstable, hagain⟩ := VariableOrder.isStableSort_sortClauses hlength
    have hlast := Formula.reorders_permute (order.perm_tightestFirst (order.sortClauses f).clauses)
    exact ⟨hstable, congrArg _ (hlast.eq_self hagain)⟩

/-- Spans of three halves, three quarters, one half, nothing and again one half for each literal:
the empty clause comes first, and then the clause that is there twice. -/
theorem sorted_clauses_kept_with_repetition :
    let near := Clause.ofLiterals [.ofVar 2 true, .ofVar 4 false]
    let wide := Clause.ofLiterals [.ofVar 1 true, .ofVar 2 false, .ofVar 3 true, .ofVar 4 true]
    let far := Clause.ofLiterals [.ofVar 3 true, .ofVar 2 true]
    let f := Formula.ofClauses 4 [far, wide, near, .ofLiterals [], near]
    let order : VariableOrder := ⟨[2, 4, 1, 3], by decide, by decide⟩
    let o : Options := { heuristic := .force }
    order.length = f.varCount ∧
      ∃ f', o.sortClauses f order = .ok f' ∧
        f'.clauses = [.ofLiterals [], near, near, wide, far] ∧
        IsStableSort order.tightness f.clauses f'.clauses ∧ f'.eval = f.eval ∧
        o.sortClauses f' order = .ok f' := by
  intro near wide far f order o
  have hlength : order.length = f.varCount := by decide
  obtain ⟨hroom, -, -, hkept⟩ := sorted_clauses_kept o f order hlength
  obtain ⟨f', hsorted⟩ := hroom.2 fun hdegree => absurd hdegree (by decide)
  obtain ⟨-, -, heval, -, -, hspans⟩ := hkept f' hsorted
  obtain ⟨hstable, hagain⟩ := hspans (.inl rfl)
  have hclauses : (order.sortClauses f).clauses = [.ofLiterals [], near, near, wide, far] := by cbv
  obtain rfl : order.sortClauses f = f' := Except.ok.inj hsorted
  exact ⟨hlength, _, hsorted, hclauses, hstable, heval, hagain⟩

/-- There is no graph of so many clauses that share a variable, and none of the clauses of a formula
with so many variables. -/
theorem sortClauses_of_company :
    let o : Options := { heuristic := .degree, degreeSortsClauses := true }
    let company := Interaction.company 92683
    let vast := Formula.ofClauses 1152921504606846976 []
    (∃ count, o.sortClauses company (.identity 1) = .error (.overflow (.edges count))) ∧
      (∀ order, o.sortClauses vast order =
        .error (.overflow (.variables 1152921504606846976))) ∧
      ¬ ∀ (o : Options) (f : Formula) (order : VariableOrder), order.length = f.varCount →
        ∃ f', o.sortClauses f order = .ok f' := by
  intro o company vast
  obtain ⟨count, hcount⟩ : ∃ count, o.sortClauses company (.identity 1) =
      .error (.overflow (.edges count)) :=
    Interaction.sortClauses_company (n := 92683) (by decide) (by decide)
  refine ⟨⟨count, hcount⟩, fun order => rfl, fun hall => ?_⟩
  have hlength : (VariableOrder.identity 1).length = company.varCount :=
    (VariableOrder.length_identity 1).trans (Interaction.varCount_company _).symm
  obtain ⟨f', hf'⟩ := hall o company (.identity 1) hlength
  exact absurd (hcount.symm.trans hf') (by simp)

end Options
end DiagramCompiler
