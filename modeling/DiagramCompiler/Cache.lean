import DiagramCompiler.Dimacs.File
import DiagramCompiler.Dump.File
import DiagramCompiler.Options

/-! Caches of orders and diagrams.
A cache is a directory. The orders found for a file and the diagrams compiled from it are kept in
files named after it and after how they were made, each with the digest of the file at that time.
An entry counts only while the file still has that digest; what is broken or outdated counts as
missing. -/
namespace DiagramCompiler

structure Cache where
  directory : Path
  deriving DecidableEq, Repr

namespace Cache

/-- The cache in a directory, which is made if it is not there. -/
def inDirectory (directory : Path) : Action FileSystem Cache := do
  FileSystem.makeDirectories directory
  return ⟨directory⟩

/-! ### Names of entries -/

/-- Where orders for a file are kept, which depends on the heuristic. -/
def orderPath (c : Cache) (input : Path) (stage : String) : Path :=
  c.directory.join (input.baseName ++ "-" ++ stage ++ ".order")

/-- Where diagrams of a file are kept, which depends on the engine and its reordering. -/
def diagramPath (c : Cache) (input : Path) (engine reordering : String) : Path :=
  let suffix := if isNoReordering reordering then "" else "-" ++ reordering
  c.directory.join (input.baseName ++ "-" ++ engine ++ suffix ++ ".dd")

def lockPath (c : Cache) (input : Path) : Path := c.directory.join (input.baseName ++ ".lock")

/-! ### Orders -/

/-- The fields of an entry: on every line with a colon a key and a value, without the blanks around
them. -/
def fields (text : String) : Metadata :=
  .ofList ((Text.lines text.toList).filterMap fun line =>
    (Text.splitFirst ':' line).map fun field =>
      (String.ofList (Text.trim field.1), String.ofList (Text.trim field.2)))

def orderIn (n : Nat) (fields : Metadata) : Option VariableOrder :=
  match fields.get? Dump.orderKey with
  | none => none
  | some text =>
    match VariableOrder.parse text with
    | .ok order => if order.length = n then some order else none
    | .error _ => none

def isCurrent (fs : FileSystem) (input : Path) (fields : Metadata) : Bool :=
  match fields.get? Formula.digestKey, fs.digest input with
  | some stored, .ok actual => stored = actual
  | _, _ => false

/-- The order kept for a file, whatever has become of the file since. -/
def staleOrder? (c : Cache) (input : Path) (stage : String) (n : Nat) (fs : FileSystem) :
    Option VariableOrder :=
  match fs.readText (c.orderPath input stage) with
  | .ok text => orderIn n (fields text)
  | .error _ => none

def order? (c : Cache) (input : Path) (stage : String) (n : Nat) (fs : FileSystem) :
    Option VariableOrder :=
  match fs.readText (c.orderPath input stage) with
  | .ok text =>
    match orderIn n (fields text) with
    | some order => if isCurrent fs input (fields text) then some order else none
    | none => none
  | .error _ => none

def orderText (input : Path) (digest : String) (order : VariableOrder) : String :=
  Formula.nameKey ++ ":" ++ input.text ++ "\n" ++ Formula.digestKey ++ ":" ++ digest ++ "\n" ++
    Dump.orderKey ++ ":" ++ order.text ++ "\n"

def digestOf (input : Path) : Action FileSystem String :=
  .asking fun fs => FileSystem.failing input (fs.digest input)

theorem run_digestOf_of_read {fs : FileSystem} {input : Path} {content : Bytes}
    (h : fs.read input = .ok content) : (digestOf input).run fs = (.ok content.digest, fs) := by
  rw [digestOf, Action.run_asking, FileSystem.digest, h]
  rfl

theorem run_digestOf_of_error {fs : FileSystem} {input : Path} {fault : FileFault}
    (h : fs.read input = .error fault) :
    (digestOf input).run fs = (.error (.file input fault), fs) := by
  rw [digestOf, Action.run_asking, FileSystem.digest, h]
  rfl

def storeOrder (c : Cache) (input : Path) (stage : String) (order : VariableOrder) :
    Action FileSystem Path := do
  let path := c.orderPath input stage
  let digest ← digestOf input
  FileSystem.replace path (.ofText (orderText input digest order))
  return path

/-! ### Diagrams -/

def diagram? (c : Cache) (input : Path) (engine reordering : String) (fs : FileSystem) :
    Option Path :=
  let path := c.diagramPath input engine reordering
  match Dump.ofFile path fs with
  | .ok dump => if isCurrent fs input dump.metadata then some path else none
  | .error _ => none

def tagged (input : Path) (digest : String) (dump : Dump) : Dump :=
  { dump with
    metadata := (dump.metadata.insert Formula.nameKey input.text).insert Formula.digestKey digest }

def storeDiagram (c : Cache) (input : Path) (engine reordering : String) (dump : Dump) :
    Action FileSystem Path := do
  let path := c.diagramPath input engine reordering
  let digest ← digestOf input
  FileSystem.replace path (tagged input digest dump).bytes
  return path

/-! ### Locks -/

def lock (c : Cache) (input : Path) : Action FileSystem Ticket :=
  FileSystem.lock (c.lockPath input)

end Cache
end DiagramCompiler
