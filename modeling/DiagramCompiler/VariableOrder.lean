import DiagramCompiler.Formula
import DiagramCompiler.Memory
import DiagramCompiler.Text.Blank

/-! Variable orders.
A variable order is a permutation of the numbers from 1 to its length; the first variable is the
nearest to the root of a diagram. A list is checked from left to right, and a variable outside the
range is found before a repeated one. -/
namespace DiagramCompiler

structure VariableOrder where
  toList : List Nat
  nodup : toList.Nodup
  inRange : ∀ v ∈ toList, 1 ≤ v ∧ v ≤ toList.length
  deriving DecidableEq, Repr

namespace VariableOrder

/-- Why a list or a text is no variable order. -/
inductive Fault where
  | outside (var length : Nat)
  | repeated (var : Nat)
  | notVariable (text : String) (cause : Numeral.Fault)
  deriving DecidableEq, Repr

def Fault.message : Fault → String
  | .outside var length =>
    "variable " ++ Numeral.text var ++ " is outside 1..=" ++ Numeral.text length
  | .repeated var => "variable " ++ Numeral.text var ++ " occurs more than once"
  | .notVariable text cause => "'" ++ text ++ "' is not a variable: " ++ cause.message

/-- The first fault of a list that follows the variables `met`. -/
def fault? (length : Nat) (met : List Nat) : List Nat → Option Fault
  | [] => none
  | v :: vs =>
    if v = 0 ∨ length < v then some (.outside v length)
    else if v ∈ met then some (.repeated v)
    else fault? length (v :: met) vs

theorem fault?_eq_none {length : Nat} {met vs : List Nat} (h : fault? length met vs = none) :
    vs.Nodup ∧ (∀ v ∈ vs, v ∉ met) ∧ ∀ v ∈ vs, 1 ≤ v ∧ v ≤ length := by
  induction vs generalizing met with
  | nil => simp
  | cons v vs ih =>
    rw [fault?] at h
    split at h
    · simp at h
    · next hrange =>
      split at h
      · simp at h
      · next hmet =>
        obtain ⟨hn, hm, hr⟩ := ih h
        refine ⟨List.nodup_cons.2 ⟨fun hv => hm v hv (.head _), hn⟩, fun w hw => ?_, fun w hw => ?_⟩
        · rcases List.mem_cons.1 hw with rfl | hw
          · exact hmet
          · exact fun hw' => hm w hw (.tail _ hw')
        · rcases List.mem_cons.1 hw with rfl | hw
          · omega
          · exact hr w hw

def ofList? (vars : List Nat) : Except Fault VariableOrder :=
  match h : fault? vars.length [] vars with
  | some fault => .error fault
  | none => .ok ⟨vars, (fault?_eq_none h).1, (fault?_eq_none h).2.2⟩

theorem toList_ofList? {vars : List Nat} {o : VariableOrder} (h : ofList? vars = .ok o) :
    o.toList = vars := by
  rw [ofList?] at h
  split at h
  · simp at h
  · simp only [Except.ok.injEq] at h; rw [← h]

def identity (n : Nat) : VariableOrder :=
  ⟨List.range' 1 n, List.nodup_range', fun v hv => by
    rw [List.mem_range'_1] at hv
    simp only [List.length_range']
    omega⟩

def identity? (n : Nat) : Option VariableOrder :=
  if n ≤ Memory.maxVars then some (identity n) else none

def reorder (o : VariableOrder) (vars : List Nat) (h : vars.Perm o.toList) : VariableOrder :=
  ⟨vars, h.nodup_iff.2 o.nodup, fun v hv => h.length_eq ▸ o.inRange v (h.mem_iff.1 hv)⟩

def length (o : VariableOrder) : Nat := o.toList.length

def isEmpty (o : VariableOrder) : Bool := o.toList.isEmpty

@[simp] theorem length_identity (n : Nat) : (identity n).length = n := by
  simp [length, identity]

@[simp] theorem length_reorder (o : VariableOrder) (vars : List Nat) (h : vars.Perm o.toList) :
    (o.reorder vars h).length = o.length := h.length_eq

def position (o : VariableOrder) (var : Nat) : Nat := o.toList.idxOf var

/-- The positions of all variables; entry 0 belongs to none. -/
def positions (o : VariableOrder) : Array Nat :=
  ((0 :: (List.range' 1 o.length).map o.position)).toArray

def covers (o : VariableOrder) (f : Formula) : Bool :=
  f.clauses.all fun c => c.vars.all (· ≤ o.length)

def text (o : VariableOrder) : String := Text.joined "," (o.toList.map Numeral.text)

/-- One entry of a list of variables; the text shown in a fault keeps its blanks. -/
def parseVar (entry : List Char) : Except Fault Nat :=
  match Numeral.word32 (Text.trim entry) with
  | .ok var => .ok var
  | .error cause => .error (.notVariable (String.ofList entry) cause)

def parse (s : String) : Except Fault VariableOrder :=
  match Text.trim s.toList with
  | [] => ofList? []
  | cs => ((Text.splitAll ',' cs).mapM parseVar).bind ofList?

end VariableOrder
end DiagramCompiler
