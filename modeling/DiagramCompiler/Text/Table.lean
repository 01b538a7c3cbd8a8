import DiagramCompiler.Text.Line
import DiagramCompiler.Text.Width

/-! Tables in text.
A cell has one or more lines, and a row has as many as its tallest cell. A column is as wide as its
widest line and has a blank on both sides, and so has every row. The first row is underlined. -/
namespace DiagramCompiler
namespace Text

def cellLines (content : List Char) : List (List Char) := splitAll '\n' content

def cellWidth (content : List Char) : Nat :=
  ((cellLines content).map displayWidth).foldr max 0

def padded (width : Nat) (line : List Char) : List Char :=
  ' ' :: line ++ List.replicate (width - displayWidth line) ' ' ++ [' ']

def columnWidths (rows : List (List (List Char))) : List Nat :=
  match rows with
  | [] => []
  | first :: rest =>
    rest.foldl (fun widths row => List.zipWith max widths (row.map cellWidth))
      (first.map cellWidth)

def rowHeight (row : List (List Char)) : Nat :=
  (row.map fun cell => (cellLines cell).length).foldr max 0

def rowLine (widths : List Nat) (row : List (List Char)) (i : Nat) : List Char :=
  let lines := row.map fun cell => (cellLines cell).getD i []
  ' ' :: (List.zipWith padded widths lines).flatten ++ [' ']

def rowLines (widths : List Nat) (row : List (List Char)) : List (List Char) :=
  (List.range (rowHeight row)).map (rowLine widths row)

def underline (widths : List Nat) : List Char :=
  ' ' :: widths.flatMap (fun width => List.replicate (width + 2) '-') ++ [' ']

/-- A table with a header and rows that have as many cells; it is empty without columns. -/
def table (header : List (List Char)) (rows : List (List (List Char))) : List Char :=
  if header = [] then []
  else
    let widths := columnWidths (header :: rows)
    joinWith ['\n']
      (rowLines widths header ++ underline widths :: rows.flatMap (rowLines widths))

end Text
end DiagramCompiler
