import DiagramCompiler.Native.Table

/-! The text layout of BuDDy.
A header counts the nodes and the variables; if there are variables, a line with their levels
follows, and then a line for each node. The root comes last. A constant has only a header, two zeros
and its value. -/
namespace DiagramCompiler
namespace Native
namespace Buddy

/-- The edge to a number, of which 0 and 1 are the constants. -/
def edge (id : Nat) : NativeEdge :=
  ⟨false, if id = 0 then .terminal false else if id = 1 then .terminal true else .node id⟩

def parseNode (line : List Char) : Except Fault (Nat × NativeNode) :=
  match Text.words line with
  | [id, var, low, high] => do
    let id ← number Numeral.word64 "node id" id
    let var ← number Numeral.word32 "variable" var
    let low ← number Numeral.word64 "node id" low
    let high ← number Numeral.word64 "node id" high
    return (id, ⟨var, edge low, edge high⟩)
  | _ => .error (.nodeLine (String.ofList line))

def skipLevels (vars : Nat) (lines : List (List Char)) : Except Fault (List (List Char)) :=
  if vars = 0 then .ok lines
  else
    match lines with
    | [] => .error .noLevels
    | line :: rest =>
      if (Text.words line).length = vars then .ok rest
      else .error (.levels vars (String.ofList line))

def tableOf (count vars : Nat) (lines : List (List Char)) : Except Fault Table := do
  let lines ← skipLevels vars lines
  let nodes ← lines.mapM parseNode
  let table : Dictionary Nat NativeNode := .ofList nodes
  if table.entries.length ≠ count then .error (.nodeCount count table.entries.length)
  match nodes.getLast? with
  | some last => return ⟨edge last.1, table⟩
  | none => .error .noNodes

def parse (text : String) : Except Fault Table :=
  match contentLines text with
  | [] => .error .empty
  | header :: lines =>
    match Text.words header with
    | [count, vars] => do
      let count ← number Numeral.word64 "node count" count
      let vars ← number Numeral.word64 "variable count" vars
      tableOf count vars lines
    | [['0'], ['0'], value] => do
      let value ← number Numeral.word64 "constant" value
      if 1 < value then .error (.constant value)
      return ⟨edge value, .empty⟩
    | words => .error (.header (String.ofList (Text.joinWith [' '] words)))

end Buddy
end Native
end DiagramCompiler
