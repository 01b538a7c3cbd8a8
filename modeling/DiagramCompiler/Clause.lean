import DiagramCompiler.Literal
import DiagramCompiler.Text.Line

/-! Clauses.
A clause is a disjunction of distinct literals in the order of their first occurrence. It is
tautological when it holds a literal and its negation. -/
namespace DiagramCompiler

structure Clause where
  literals : List Literal
  nodup : literals.Nodup
  deriving DecidableEq, Repr

namespace Clause

def distinct : List Literal → List Literal → List Literal
  | met, [] => met
  | met, l :: ls => distinct (if l ∈ met then met else met ++ [l]) ls

theorem nodup_distinct (met ls : List Literal) (h : met.Nodup) : (distinct met ls).Nodup := by
  induction ls generalizing met with
  | nil => exact h
  | cons l ls ih =>
    refine ih _ ?_
    split
    · exact h
    · next hl =>
      refine List.nodup_append.2 ⟨h, by simp, fun a ha b hb hab => hl ?_⟩
      rw [List.mem_singleton] at hb
      exact hb ▸ hab ▸ ha

@[simp] theorem mem_distinct (met ls : List Literal) (l : Literal) :
    l ∈ distinct met ls ↔ l ∈ met ∨ l ∈ ls := by
  induction ls generalizing met with
  | nil => simp [distinct]
  | cons a ls ih =>
    rw [distinct, ih]
    by_cases ha : a ∈ met
    · simp only [ha, if_true, List.mem_cons]
      constructor
      · rintro (h | h) <;> simp [h]
      · rintro (h | rfl | h) <;> simp [*]
    · simp [ha, or_assoc]

/-- The clause of some literals; only the first occurrence of a literal is kept. -/
def ofLiterals (ls : List Literal) : Clause := ⟨distinct [] ls, nodup_distinct [] ls .nil⟩

@[simp] theorem mem_ofLiterals (ls : List Literal) (l : Literal) :
    l ∈ (ofLiterals ls).literals ↔ l ∈ ls := by simp [ofLiterals]

/-- The clause written as integers, if each of them is a literal. -/
def ofInts? (is : List Int) : Option Clause := (is.mapM Literal.ofInt?).map ofLiterals

def isTautology (c : Clause) : Bool := c.literals.any fun l => l.negate ∈ c.literals

def vars (c : Clause) : List Nat := c.literals.map Literal.var

/-- The variables of a clause that is not tautological are numbered from 1: the literal zero is its
own negation. -/
theorem one_le_of_mem_vars {c : Clause} (hc : c.isTautology = false) {v : Nat} (h : v ∈ c.vars) :
    1 ≤ v := by
  obtain ⟨l, hl, rfl⟩ := List.mem_map.1 h
  rcases Nat.eq_zero_or_pos l.var with h0 | h0
  · have hn : l.negate = l := by
      cases l with
      | mk value hv =>
        simp only [Literal.var, Int.natAbs_eq_zero] at h0
        subst h0
        rfl
    have : c.isTautology = true := by
      rw [isTautology, List.any_eq_true]
      exact ⟨l, hl, by simpa [hn] using hl⟩
    rw [this] at hc
    exact absurd hc (by decide)
  · exact h0

/-- No two literals of a clause that is not tautological have one variable. -/
theorem nodup_vars {c : Clause} (hc : c.isTautology = false) : c.vars.Nodup := by
  refine List.pairwise_map.2 (c.nodup.imp_of_mem fun {l l'} hl hl' hne hvar => ?_)
  rcases Literal.eq_or_eq_negate_of_var_eq hvar with rfl | rfl
  · exact hne rfl
  · have : c.isTautology = true := by
      rw [isTautology, List.any_eq_true]
      exact ⟨l, hl, by simpa using hl'⟩
    rw [this] at hc
    exact absurd hc (by decide)

def length (c : Clause) : Nat := c.literals.length

def isEmpty (c : Clause) : Bool := c.literals.isEmpty

def largest (vars : List Nat) (limit : Nat) : Nat := vars.foldl max limit

theorem le_largest (vars : List Nat) (limit : Nat) : limit ≤ largest vars limit := by
  induction vars generalizing limit with
  | nil => exact Nat.le_refl _
  | cons v vs ih => exact Nat.le_trans (Nat.le_max_left _ _) (ih (max limit v))

theorem le_largest_of_mem {vars : List Nat} {v : Nat} (h : v ∈ vars) (limit : Nat) :
    v ≤ largest vars limit := by
  induction vars generalizing limit with
  | nil => simp at h
  | cons w vs ih =>
    rcases List.mem_cons.1 h with rfl | h
    · exact Nat.le_trans (Nat.le_max_right _ _) (le_largest vs _)
    · exact ih h _

def maxVar (c : Clause) : Nat := largest c.vars 0

theorem le_maxVar {c : Clause} {v : Nat} (h : v ∈ c.vars) : v ≤ c.maxVar := le_largest_of_mem h 0

def eval (c : Clause) (assignment : Nat → Bool) : Bool := c.literals.any (·.eval assignment)

/-- The value of a variable in a list that starts with the value of variable 1. -/
def valueAt? (values : List Bool) (var : Nat) : Option Bool :=
  if var = 0 then none else values[var - 1]?

/-- Looks at literals from the left until one holds; fails at one whose variable has no value. -/
def evalLiterals? (values : List Bool) : List Literal → Option Bool
  | [] => some false
  | l :: ls => do
    let value ← valueAt? values l.var
    if l.holdsAt value then some true else evalLiterals? values ls

/-- The value of the clause under the values of variables 1, 2, ... -/
def eval? (c : Clause) (values : List Bool) : Option Bool := evalLiterals? values c.literals

def textNamed (c : Clause) (name : Nat → String) : String :=
  "(" ++ Text.joined " ∨ " (c.literals.map fun l => l.textNamed (name l.var)) ++ ")"

def text (c : Clause) : String :=
  "(" ++ Text.joined " ∨ " (c.literals.map Literal.text) ++ ")"

end Clause
end DiagramCompiler
