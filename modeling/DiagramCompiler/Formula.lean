import DiagramCompiler.Clause
import DiagramCompiler.Dictionary
import DiagramCompiler.Files.Path

/-! Formulas in conjunctive normal form.
A formula is a sequence of clauses over the variables from 1 to its variable count, with the names
given to variables and the facts that travel with it. Tautological clauses hold always and are left
out, and the variable count covers every variable that occurs. -/
namespace DiagramCompiler

structure Formula where
  clauses : List Clause
  varCount : Nat
  informative : ∀ c ∈ clauses, c.isTautology = false
  vars_le : ∀ c ∈ clauses, ∀ v ∈ c.vars, v ≤ varCount
  /-- Names given to variables. -/
  descriptions : Dictionary Nat String
  metadata : Metadata
  /-- Where the formula was read from. -/
  source : Option Path
  deriving DecidableEq

namespace Formula

theorem one_le_var (f : Formula) {c : Clause} (hc : c ∈ f.clauses) {v : Nat} (hv : v ∈ c.vars) :
    1 ≤ v := Clause.one_le_of_mem_vars (f.informative c hc) hv

theorem nodup_vars (f : Formula) {c : Clause} (hc : c ∈ f.clauses) : c.vars.Nodup :=
  Clause.nodup_vars (f.informative c hc)

/-- Key under which the number of tautologies left out is recorded, unless it is zero. -/
def droppedKey : String := "dropped-tautologies"

/-- The largest variable of some clauses, at least `limit`. -/
def largestVar (clauses : List Clause) (limit : Nat) : Nat :=
  clauses.foldl (fun n c => max n c.maxVar) limit

theorem le_largestVar (clauses : List Clause) (limit : Nat) : limit ≤ largestVar clauses limit := by
  induction clauses generalizing limit with
  | nil => exact Nat.le_refl _
  | cons c cs ih => exact Nat.le_trans (Nat.le_max_left _ _) (ih (max limit c.maxVar))

theorem maxVar_le_largestVar {clauses : List Clause} {c : Clause} (h : c ∈ clauses) (limit : Nat) :
    c.maxVar ≤ largestVar clauses limit := by
  induction clauses generalizing limit with
  | nil => simp at h
  | cons d cs ih =>
    rcases List.mem_cons.1 h with rfl | h
    · exact Nat.le_trans (Nat.le_max_right _ _) (le_largestVar cs _)
    · exact ih h _

/-- The formula of some clauses over at least `varCount` variables. -/
def ofClauses (varCount : Nat) (clauses : List Clause) : Formula :=
  let kept := clauses.filter fun c => !c.isTautology
  let dropped := clauses.length - kept.length
  { clauses := kept
    varCount := largestVar kept varCount
    informative := fun c hc => by simpa using (List.mem_filter.1 hc).2
    vars_le := fun c hc v hv =>
      Nat.le_trans (Clause.le_maxVar hv) (maxVar_le_largestVar hc varCount)
    descriptions := .empty
    metadata :=
      if dropped = 0 then .empty
      else (Dictionary.empty : Metadata).insert droppedKey (Numeral.text dropped)
    source := none }

@[simp] theorem clauses_ofClauses (n : Nat) (cs : List Clause) :
    (ofClauses n cs).clauses = cs.filter fun c => !c.isTautology := rfl

@[simp] theorem source_ofClauses (n : Nat) (cs : List Clause) :
    (ofClauses n cs).source = none := rfl

def eval (f : Formula) (assignment : Nat → Bool) : Bool := f.clauses.all (·.eval assignment)

def evalClauses? (values : List Bool) : List Clause → Option Bool
  | [] => some true
  | c :: cs => do
    if ← c.eval? values then evalClauses? values cs else some false

/-- The value of the formula under the values of variables 1, 2, ..., of which there must be one
for each. -/
def eval? (f : Formula) (values : List Bool) : Option Bool :=
  if values.length < f.varCount then none else evalClauses? values f.clauses

def description? (f : Formula) (var : Nat) : Option String := f.descriptions.get? var

/-- The name of a variable: the one given to it, or an x and its number. -/
def label (f : Formula) (var : Nat) : String :=
  (f.description? var).getD ("x" ++ Numeral.text var)

/-- Takes the clauses in the order of some positions; positions past the end are passed over. -/
def permute (f : Formula) (positions : List Nat) : Formula :=
  { f with
    clauses := positions.filterMap fun i => f.clauses[i]?
    informative := fun c hc => by
      obtain ⟨i, _, hi⟩ := List.mem_filterMap.1 hc
      exact f.informative c (List.mem_of_getElem? hi)
    vars_le := fun c hc => by
      obtain ⟨i, _, hi⟩ := List.mem_filterMap.1 hc
      exact f.vars_le c (List.mem_of_getElem? hi) }

def text (f : Formula) : String := Text.joined " ∧ " (f.clauses.map Clause.text)

def verbose (f : Formula) : String := Text.joined " ∧ " (f.clauses.map (·.textNamed f.label))

end Formula
end DiagramCompiler
