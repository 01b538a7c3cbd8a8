import DiagramCompiler.Diagram
import DiagramCompiler.Dictionary

/-! Dumps of diagrams.
A dump is a text of two parts. The header has one line for each key, in the order of the keys, with
a colon before the value. After a separator, each node of the diagram has its line. The keys that
describe the diagram itself are reserved. -/
namespace DiagramCompiler

structure Dump where
  toolVersion : String
  engineName : String
  engineStub : String
  diagram : Diagram
  /-- The keys of the header that are not reserved. -/
  metadata : Metadata
  deriving DecidableEq

namespace Dump

def currentVersion : String := "ddcomp 0.1.0"

def separator : String := "----"

def toolVersionKey : String := "tool-version"

def engineNameKey : String := "engine-name"

def engineStubKey : String := "engine-stub"

def nodeCountKey : String := "node-count"

def rootKey : String := "root"

def orderKey : String := "order"

def reservedKeys : List String :=
  [toolVersionKey, engineNameKey, engineStubKey, nodeCountKey, rootKey, orderKey]

def isReserved (key : String) : Bool := key ∈ reservedKeys

def ofDiagram (engineName engineStub : String) (diagram : Diagram) : Dump :=
  ⟨currentVersion, engineName, engineStub, diagram, .empty⟩

def header (d : Dump) : Metadata :=
  d.metadata.insertAll
    [(toolVersionKey, d.toolVersion), (engineNameKey, d.engineName), (engineStubKey, d.engineStub),
      (nodeCountKey, Numeral.text d.diagram.nodeCount), (rootKey, d.diagram.root.text),
      (orderKey, d.diagram.order.text)]

def lines (d : Dump) : List String :=
  d.header.entries.map (fun e => e.1 ++ ":" ++ e.2) ++ separator :: d.diagram.nodes.map Node.text

def text (d : Dump) : String := String.ofList (d.lines.flatMap fun line => line.toList ++ ['\n'])

/-- Why a text is no dump. -/
inductive Fault where
  | noSeparator
  | noColon (line : String)
  | noKey (key : String)
  | node (fault : NodeFault)
  | order (fault : VariableOrder.Fault)
  | nodeCount (written : String) (found : Nat)
  | diagram (fault : Diagram.Fault)
  deriving DecidableEq, Repr

def Fault.message : Fault → String
  | .noSeparator => "missing '" ++ separator ++ "' separator"
  | .noColon line => "metadata line '" ++ line ++ "' has no ':'"
  | .noKey key => "missing metadata key '" ++ key ++ "'"
  | .node fault => fault.message
  | .order fault => "bad order: invalid variable order: " ++ fault.message
  | .nodeCount written found =>
    "node-count is '" ++ written ++ "' but " ++ Numeral.text found ++ " node lines follow"
  | .diagram fault => fault.message

def readHeader (known : Metadata) :
    List (List Char) → Except Fault (Metadata × List (List Char))
  | [] => .error .noSeparator
  | raw :: rest =>
    let line := Text.trimEnd raw
    if line = separator.toList then .ok (known, rest)
    else if line = [] then readHeader known rest
    else match Text.splitFirst ':' line with
      | none => .error (.noColon (String.ofList line))
      | some (key, value) =>
        readHeader (known.insert (String.ofList key) (String.ofList value)) rest

def value (header : Metadata) (key : String) : Except Fault String :=
  match header.get? key with
  | some value => .ok value
  | none => .error (.noKey key)

def within {ε α : Type} (wrap : ε → Fault) : Except ε α → Except Fault α
  | .ok a => .ok a
  | .error e => .error (wrap e)

def readNodes (lines : List (List Char)) : Except NodeFault (List Node) :=
  ((lines.map Text.trim).filter (· ≠ [])).mapM Node.parse

def parse (text : String) : Except Fault Dump := do
  let (header, rest) ← readHeader .empty (Text.lines text.toList)
  let toolVersion ← value header toolVersionKey
  let engineName ← value header engineNameKey
  let engineStub ← value header engineStubKey
  let nodeCount ← value header nodeCountKey
  let root ← value header rootKey
  let root ← within .node (Edge.parse root.toList)
  let order ← value header orderKey
  let order ← within .order (VariableOrder.parse order)
  let nodes ← within .node (readNodes rest)
  if (Numeral.word64 nodeCount.toList).toOption ≠ some nodes.length then
    .error (.nodeCount nodeCount nodes.length)
  let diagram ← within .diagram (Diagram.ofNodes order root nodes)
  return {
    toolVersion, engineName, engineStub, diagram
    metadata := reservedKeys.foldl Dictionary.erase header }

end Dump
end DiagramCompiler
