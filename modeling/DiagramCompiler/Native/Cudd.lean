import DiagramCompiler.Native.Table
import DiagramCompiler.Text.Decimal

/-! The text layout of CUDD.
After a summary, each line describes a node by keys and values: its ID, the index of its variable
and its edges T and E. An ID may be complemented, and the first line is the root. A constant is
written as a number, and has a line, with its value, only when it is the root. -/
namespace DiagramCompiler
namespace Native
namespace Cudd

/-- Reads an edge: a mark of complementation and then a node or a constant. -/
def parseEdge (field : List Char) : Except Fault NativeEdge :=
  let (complemented, value) := match field with
    | '!' :: rest => (true, rest)
    | _ => (false, field)
  match value with
  | '0' :: 'x' :: digits =>
    match Numeral.unsigned 16 UInt64.size digits with
    | .ok id => .ok ⟨complemented, .node id⟩
    | .error _ => .error (.notNode (String.ofList value))
  | _ =>
    match Decimal.parse value with
    | some constant => .ok ⟨complemented, .terminal (!constant.isZero)⟩
    | none => .error (.notNumber (String.ofList value) "constant")

/-- The keys of a line with their values, if it is made up of such. -/
def fields : List (List Char) → Option (List (List Char × List Char))
  | [] => some []
  | key :: equal :: value :: rest =>
    if equal = ['='] then (fields rest).map ((key, value) :: ·) else none
  | _ => none

def field? (fs : List (List Char × List Char)) (key : String) : Option (List Char) :=
  (fs.reverse.find? fun f => f.1 = key.toList).map Prod.snd

/-- What a line says. -/
inductive Line where
  /-- A constant, which is the root if there is none yet. -/
  | constant (root : NativeEdge)
  | node (id : NativeEdge) (number : Nat) (node : NativeNode)
  deriving DecidableEq, Repr

def get (line : List Char) (fs : List (List Char × List Char)) (key : String) :
    Except Fault (List Char) :=
  match field? fs key with
  | some value => .ok value
  | none => .error (.noKey (String.ofList line) key)

def parseLine (line : List Char) : Except Fault Line :=
  match fields (Text.words line) with
  | none => .error (.line (String.ofList line))
  | some fs => do
    let id ← get line fs "ID"
    let id ← parseEdge id
    match field? fs "value" with
    | some value =>
      let constant ← parseEdge value
      return .constant ⟨id.complemented, constant.target⟩
    | none =>
      match id.target with
      | .terminal _ => .error (.constantId (String.ofList line))
      | .node n => do
        let index ← get line fs "index"
        let var ← number Numeral.word32 "index" index
        let low ← get line fs "E"
        let low ← parseEdge low
        let high ← get line fs "T"
        let high ← parseEdge high
        return .node id n ⟨var, low, high⟩

def Line.root : Line → NativeEdge
  | .constant root => root
  | .node id _ _ => id

def Line.node? : Line → Option (Nat × NativeNode)
  | .constant _ => none
  | .node _ n content => some (n, content)

def zeroSummary : String := "is the zero DD"

def parse (text : String) : Except Fault Table :=
  match contentLines text with
  | [] => .error .empty
  | (':' :: summary) :: lines =>
    if Text.trim summary = zeroSummary.toList then .ok ⟨⟨false, .terminal false⟩, .empty⟩
    else do
      let _ ← number Numeral.word64 "node count" ((Text.words summary).headD [])
      let lines ← lines.mapM parseLine
      match lines with
      | [] => .error .noIds
      | first :: _ => return ⟨first.root, .ofList (lines.filterMap Line.node?)⟩
  | header :: _ => .error (.header (String.ofList header))

end Cudd
end Native
end DiagramCompiler
