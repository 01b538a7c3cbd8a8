import Mathlib.Logic.Function.Iterate
import DiagramCompiler.Proofs.FoundOrders

/-! Relaxations whose spans fall.
A relaxation takes the orders that come of sorting again and again, as long as each has a smaller
total span than the one before and there are rounds left. So the spans fall from the first order to
the last, which bounds the number of rounds by the first span, whatever the sort does: nothing is
known of it but that it permutes the variables. -/
namespace DiagramCompiler
namespace VariableOrder

variable {clauses : List Clause} {rounds : Option Nat} {start : VariableOrder} {r : Relaxation}
  {taken m n : Nat}

def stepped (clauses : List Clause) (start : VariableOrder) (n : Nat) : VariableOrder :=
  (step clauses)^[n] start

def spanAfter (clauses : List Clause) (start : VariableOrder) (n : Nat) : Nat :=
  totalSpan (stepped clauses start n).positions clauses

/-- Whether the outcome of a relaxation comes of some rounds that were taken: each lowered the span,
and after the last the limit was reached or the next order has no smaller span. -/
structure Relaxes (clauses : List Clause) (rounds : Option Nat) (start : VariableOrder)
    (taken : Nat) (r : Relaxation) : Prop where
  order : r.order = stepped clauses start taken
  span : r.span = spanAfter clauses start taken
  history : r.history = (List.range (taken + 1)).map (spanAfter clauses start)
  falls {n : Nat} (h : n < taken) : spanAfter clauses start (n + 1) < spanAfter clauses start n
  within : ∀ limit ∈ rounds, taken ≤ limit
  ends : rounds = some taken ∨
    spanAfter clauses start taken ≤ spanAfter clauses start (taken + 1)

namespace Relaxes

theorem stays (h : rounds = some 0 ∨ spanAfter clauses start 0 ≤ spanAfter clauses start 1) :
    Relaxes clauses rounds start 0 ⟨start, spanAfter clauses start 0, [spanAfter clauses start 0]⟩
    where
  order := rfl
  span := rfl
  history := rfl
  falls h := absurd h (Nat.not_lt_zero _)
  within limit _ := Nat.zero_le limit
  ends := h

theorem round (hrounds : rounds ≠ some 0)
    (hless : spanAfter clauses start 1 < spanAfter clauses start 0)
    (h : Relaxes clauses (rounds.map (· - 1)) (step clauses start) taken r) :
    Relaxes clauses rounds start (taken + 1)
      { r with history := spanAfter clauses start 0 :: r.history } where
  order := h.order
  span := h.span
  history := by
    rw [h.history, List.range_succ_eq_map (n := taken + 1), List.map_cons, List.map_map]
    rfl
  falls {n} hn := by
    cases n with
    | zero => exact hless
    | succ n => exact h.falls (Nat.lt_of_succ_lt_succ hn)
  within limit hlimit := by
    obtain rfl := Option.mem_def.1 hlimit
    have hrest := h.within (limit - 1) rfl
    have hpos : limit ≠ 0 := fun hzero => hrounds (congrArg some hzero)
    omega
  ends := by
    refine h.ends.imp (fun hlimit => ?_) id
    obtain ⟨limit, rfl, hrest⟩ := Option.map_eq_some_iff.1 hlimit
    have hpos : limit ≠ 0 := fun hzero => hrounds (congrArg some hzero)
    exact congrArg some (by omega)

variable (h : Relaxes clauses rounds start taken r)

include h

theorem spanAfter_add_le (hn : n ≤ taken) :
    spanAfter clauses start n + n ≤ spanAfter clauses start 0 := by
  induction n with
  | zero => exact Nat.le_refl _
  | succ n ih =>
    have hless := h.falls hn
    have hrest := ih (Nat.le_of_succ_le hn)
    omega

theorem span_le : r.span ≤ totalSpan start.positions clauses := by
  have hall := h.spanAfter_add_le (Nat.le_refl taken)
  rw [h.span]
  exact Nat.le_trans (Nat.le_add_right _ taken) hall

theorem span_eq : r.span = totalSpan r.order.positions clauses := by
  rw [h.span, h.order, spanAfter]

end Relaxes

theorem exists_relaxes (clauses : List Clause) (rounds : Option Nat) (start : VariableOrder) :
    ∃ taken, Relaxes clauses rounds start taken (relax clauses rounds start) := by
  rw [relax]
  generalize hspan : totalSpan start.positions clauses = span
  fun_induction relaxFrom clauses rounds start span with
  | case1 start span =>
    subst hspan
    exact ⟨0, .stays (.inl rfl)⟩
  | case2 rounds start span hrounds next nextSpan hless rest ih =>
    subst hspan
    obtain ⟨taken, h⟩ := ih rfl
    exact ⟨taken + 1, h.round hrounds hless⟩
  | case3 rounds start span hrounds next nextSpan hnot =>
    subst hspan
    exact ⟨0, .stays (.inr (Nat.le_of_not_lt hnot))⟩

end VariableOrder
end DiagramCompiler
