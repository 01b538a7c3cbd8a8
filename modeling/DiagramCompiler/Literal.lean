import DiagramCompiler.Text.Numeral

/-! Literals.
A literal is an integer of 31 bits and a sign: its magnitude is the variable, numbered from 1, and a
negative literal holds when its variable is false. -/
namespace DiagramCompiler

structure Literal where
  value : Int
  magnitude_lt : value.natAbs < 2147483648
  deriving DecidableEq, Repr

namespace Literal

/-- The literal written as an integer; zero ends clauses and is none. -/
def ofInt? (i : Int) : Option Literal :=
  if h : i ≠ 0 ∧ i.natAbs < 2147483648 then some ⟨i, h.2⟩ else none

/-- The literal of a variable; variables past the largest are cut down to it. -/
def ofVar (var : Nat) (positive : Bool) : Literal :=
  let magnitude := min var 2147483647
  ⟨if positive then magnitude else -magnitude, by split <;> omega⟩

def var (l : Literal) : Nat := l.value.natAbs

def isNegated (l : Literal) : Bool := l.value < 0

def isPositive (l : Literal) : Bool := 0 < l.value

def negate (l : Literal) : Literal := ⟨-l.value, by simpa using l.magnitude_lt⟩

@[simp] theorem negate_negate (l : Literal) : l.negate.negate = l := by
  cases l; simp [negate]

@[simp] theorem var_negate (l : Literal) : l.negate.var = l.var := by
  simp [var, negate]

theorem eq_or_eq_negate_of_var_eq {l l' : Literal} (h : l.var = l'.var) :
    l' = l ∨ l' = l.negate := by
  obtain ⟨i, hi⟩ := l
  obtain ⟨j, hj⟩ := l'
  have habs : i.natAbs = j.natAbs := h
  rcases Int.natAbs_eq_natAbs_iff.1 habs with rfl | rfl
  · exact .inl rfl
  · exact .inr (by simp [negate])

theorem var_lt (l : Literal) : l.var < 2147483648 := l.magnitude_lt

def holdsAt (l : Literal) (value : Bool) : Bool := value != l.isNegated

def eval (l : Literal) (assignment : Nat → Bool) : Bool := l.holdsAt (assignment l.var)

def textNamed (l : Literal) (name : String) : String :=
  if l.isNegated then "¬" ++ name else name

def text (l : Literal) : String := l.textNamed ("x" ++ Numeral.text l.var)

end Literal
end DiagramCompiler
