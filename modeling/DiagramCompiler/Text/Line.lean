/-! Cutting a text at a character.
Lines end at a line feed, and a carriage return just before it belongs to the line's end. A text
that ends in a line feed has no further, empty line after it. -/
namespace DiagramCompiler
namespace Text

/-- The pieces between the occurrences of `sep`; there is always at least one. -/
def splitAll {α : Type} [DecidableEq α] (sep : α) : List α → List (List α)
  | [] => [[]]
  | c :: cs =>
    if c = sep then [] :: splitAll sep cs
    else match splitAll sep cs with
      | [] => [[c]]
      | p :: ps => (c :: p) :: ps

theorem splitAll_ne_nil {α : Type} [DecidableEq α] (sep : α) (cs : List α) :
    splitAll sep cs ≠ [] := by
  cases cs with
  | nil => simp [splitAll]
  | cons c cs =>
    rw [splitAll]
    split
    · simp
    · split <;> simp

/-- The parts before and after the first occurrence of `sep`. -/
def splitFirst {α : Type} [DecidableEq α] (sep : α) : List α → Option (List α × List α)
  | [] => none
  | c :: cs =>
    if c = sep then some ([], cs)
    else (splitFirst sep cs).map fun p => (c :: p.1, p.2)

/-- The runs that `sep` ends, together with a last run that it does not end unless that is empty. -/
def splitEnded {α : Type} [DecidableEq α] (sep : α) : List α → List (List α)
  | [] => []
  | c :: cs =>
    if c = sep then [] :: splitEnded sep cs
    else match cs, splitEnded sep cs with
      | [], _ => [[c]]
      | _ :: _, [] => [[c]]
      | _ :: _, p :: ps => (c :: p) :: ps

def joinWith {α : Type} (sep : List α) : List (List α) → List α
  | [] => []
  | [p] => p
  | p :: q :: ps => p ++ sep ++ joinWith sep (q :: ps)

def dropReturn (cs : List Char) : List Char :=
  if cs.getLast? = some '\r' then cs.dropLast else cs

/-- The lines of a text. A carriage return is part of a line's end only before a line feed. -/
def lines (cs : List Char) : List (List Char) :=
  let runs := splitEnded '\n' cs
  if cs.getLast? = some '\n' then runs.map dropReturn
  else runs.dropLast.map dropReturn ++ runs.getLast?.toList

def joined (sep : String) (pieces : List String) : String :=
  String.ofList (joinWith sep.toList (pieces.map String.toList))

end Text
end DiagramCompiler
