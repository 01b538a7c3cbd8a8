import DiagramCompiler.Diagram.Node
import DiagramCompiler.Dictionary

/-! Tables of native nodes.
The libraries of decision diagrams print their nodes under addresses or numbers of their own. A
table is what such a text says: a root and a node for each number. Variables are those of the
library. -/
namespace DiagramCompiler
namespace Native

/-- The text layouts of the libraries. -/
inductive Format where
  /-- A count of nodes and of variables, the level of every variable, then lines of a number, a
  variable, a low and a high node, the root last. -/
  | buddy
  /-- A summary after a colon, then lines of keys, equal signs and values, the root first. -/
  | cudd
  deriving DecidableEq, Repr

def Format.text : Format → String
  | .buddy => "Buddy"
  | .cudd => "Cudd"

/-- Where an edge leads. -/
inductive Target where
  | terminal (value : Bool)
  | node (id : Nat)
  deriving DecidableEq, Repr

structure NativeEdge where
  complemented : Bool
  target : Target
  deriving DecidableEq, Repr

structure NativeNode where
  var : Nat
  low : NativeEdge
  high : NativeEdge
  deriving DecidableEq, Repr

structure Table where
  root : NativeEdge
  nodes : Dictionary Nat NativeNode
  deriving DecidableEq

/-- Why a text is no table, or a table no diagram. -/
inductive Fault where
  /-- A field that is no number of the wanted kind. -/
  | notNumber (field what : String)
  | empty
  | constant (value : Nat)
  | noLevels
  | levels (count : Nat) (line : String)
  | nodeLine (line : String)
  | nodeCount (announced found : Nat)
  | noNodes
  | header (text : String)
  | notNode (field : String)
  | line (text : String)
  | noKey (line key : String)
  | constantId (line : String)
  | noIds
  | missing (id : Nat)
  | cycle (id : Nat)
  deriving DecidableEq, Repr

def Fault.message : Fault → String
  | .notNumber field what => "'" ++ field ++ "' is not a valid " ++ what
  | .empty => "empty dump"
  | .constant value => "constant " ++ Numeral.text value
  | .noLevels => "missing variable levels"
  | .levels count shown =>
    "expected " ++ Numeral.text count ++ " variable levels in '" ++ shown ++ "'"
  | .nodeLine shown => "node line '" ++ shown ++ "'"
  | .nodeCount announced found =>
    "header announces " ++ Numeral.text announced ++ " nodes but " ++ Numeral.text found ++
      " follow"
  | .noNodes => "no node lines"
  | .header text => "header '" ++ text ++ "'"
  | .notNode field => "'" ++ field ++ "' is not a node id"
  | .line text => "line '" ++ text ++ "'"
  | .noKey shown key => "line '" ++ shown ++ "' has no " ++ key
  | .constantId shown => "line '" ++ shown ++ "' has a constant ID"
  | .noIds => "no ID lines"
  | .missing id => "node 0x" ++ Numeral.hexText id ++ " is missing"
  | .cycle id => "cycle through node 0x" ++ Numeral.hexText id

def contentLines (text : String) : List (List Char) :=
  ((Text.lines text.toList).map Text.trim).filter (· ≠ [])

def number (read : List Char → Except Numeral.Fault Nat) (what : String) (field : List Char) :
    Except Fault Nat :=
  match read field with
  | .ok n => .ok n
  | .error _ => .error (.notNumber (String.ofList field) what)

end Native
end DiagramCompiler
