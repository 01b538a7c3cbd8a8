import DiagramCompiler.Proofs.FileTrees
import DiagramCompiler.Proofs.MadeDumps
import Mathlib.Logic.Function.Basic
import Mathlib.Data.Set.Insert
import Mathlib.Logic.Relation

/-! Inputs that are edited while runs work on them.
The steps of any number of runs over one cache are taken one access to a file at a time, in any
order, and between them anyone may change what is outside the cache. What a step leaves to later
ones is an item: a formula goes back to what its file held when its clauses were read, a dump to
that of its formula, and an entry also to what the file held when its digest was taken. The origins
of the files in the cache are remembered beside the files.

Files are read only under paths without line feeds: a dump writes the path of its file as it is, so
that a line feed in it could begin a line that passes for another field. -/
namespace DiagramCompiler

/-- Where an entry of a cache comes from. -/
structure Origin where
  input : Path
  /-- What the file held when the clauses were read. -/
  parsed : Bytes
  /-- What the file held when its digest was taken for the entry. -/
  digested : Bytes
  dump : Dump

namespace Origin

def text (o : Origin) : String := (Cache.tagged o.input o.digested.digest o.dump).text

/-- Whether the dump was made of a formula that was read from the file. -/
def IsGenuine (o : Origin) : Prop :=
  ∃ options f, Formula.IsReadFrom o.input o.parsed f ∧ Run.Makes options f o.dump

/-- Whether the file held something else when its digest was taken. -/
def IsStale (o : Origin) : Prop := o.parsed ≠ o.digested

end Origin

namespace Interleaving

/-- What a step of a run leaves to later steps. -/
inductive Item where
  /-- Clauses of a file whose digest is yet to be taken. -/
  | clauses (input : Path) (parsed : Bytes) (f : Formula)
  | formula (input : Path) (parsed : Bytes) (f : Formula)
  | dump (o : Options) (input : Path) (parsed : Bytes) (d : Dump)
  /-- Content that is yet to be written to a path in the cache. -/
  | entry (path : Path) (content : Bytes) (origin : Option Origin)
  /-- A dump that was read from the cache; the file that it was made of is yet to be compared. -/
  | seen (input path : Path) (d : Dump) (origin : Option Origin)
  /-- A dump whose digest is that of the file as it was then. -/
  | found (input path : Path) (d : Dump) (origin : Option Origin) (current : Bytes)

def Item.digested : Item → Option Bytes
  | .entry _ _ origin => origin.map Origin.digested
  | .found _ _ _ _ current => some current
  | _ => none

structure State where
  files : FileSystem
  /-- Where the dumps in the cache come from. -/
  origins : Location → Option Origin
  /-- Where files are that were not written to their end. -/
  torn : Set Location
  held : List Item

namespace State

def start (files : FileSystem) : State := ⟨files, fun _ => none, ∅, []⟩

def hold (s : State) (item : Item) : State := { s with held := item :: s.held }

/-- Whether different contents that were hashed have different digests. -/
def IsCollisionFree (s : State) : Prop :=
  ∀ i ∈ s.held, ∀ j ∈ s.held, ∀ a ∈ i.digested, ∀ b ∈ j.digested, a.digest = b.digest → a = b

end State

variable (c : Cache)

/-- What a step can come to hold without changing a file. -/
inductive Learns (s : State) : Item → Prop where
  | clauses {input : Path} {parsed : Bytes} {f : Formula} (hinput : '\n' ∉ input.text.toList)
      (hread : s.files.read input = .ok parsed) (hf : Dimacs.read parsed = .ok f) :
      Learns s (.clauses input parsed f)
  | formula {input : Path} {parsed later : Bytes} {f : Formula}
      (hheld : .clauses input parsed f ∈ s.held) (hread : s.files.read input = .ok later) :
      Learns s (.formula input parsed (f.readFrom input later))
  | ordered {input : Path} {parsed : Bytes} {f f' : Formula} {order : VariableOrder} (o : Options)
      (conditions : Conditions) (hheld : .formula input parsed f ∈ s.held)
      (hsorted : Run.sorted o f order = .ok f') :
      Learns s (.formula input parsed (Run.ordered o conditions f'))
  | dump {o : Options} {input : Path} {parsed : Bytes} {f : Formula} {d : Dump}
      (hheld : .formula input parsed f ∈ s.held) (ho : o.IsPlain) (hmakes : Run.Makes o f d) :
      Learns s (.dump o input parsed d)
  | orderEntry {input : Path} {parsed digested : Bytes} {f : Formula} (o : Options)
      (order : VariableOrder) (hheld : .formula input parsed f ∈ s.held)
      (hread : s.files.read input = .ok digested) :
      Learns s (.entry (c.orderPath input o.stage)
        (.ofText (Cache.orderText input digested.digest order)) none)
  | dumpEntry {o : Options} {input : Path} {parsed digested : Bytes} {d : Dump}
      (hheld : .dump o input parsed d ∈ s.held) (hread : s.files.read input = .ok digested) :
      Learns s (.entry (c.diagramPath input o.engine.stub o.reordering)
        (Cache.tagged input digested.digest d).bytes (some ⟨input, parsed, digested, d⟩))
  | seen {o : Options} {input : Path} {d : Dump} {place : Location}
      (ho : '/' ∉ o.reordering.toList)
      (hdump : Dump.ofFile (c.diagramPath input o.engine.stub o.reordering) s.files = .ok d)
      (hplace : s.files.locate (c.diagramPath input o.engine.stub o.reordering) = .ok place) :
      Learns s (.seen input (c.diagramPath input o.engine.stub o.reordering) d (s.origins place))
  | found {input path : Path} {d : Dump} {origin : Option Origin} {current : Bytes}
      (hheld : .seen input path d origin ∈ s.held)
      (hcurrent : Cache.isCurrent s.files input d.metadata = true)
      (hread : s.files.read input = .ok current) : Learns s (.found input path d origin current)

/-- A change that leaves the cache as it is. -/
structure Edits (before after : FileSystem) : Prop where
  tree : after.IsTree
  working : after.working = before.working
  find? (name : String) : after.find? (before.placeOf c.directory ++ [name]) =
    before.find? (before.placeOf c.directory ++ [name])

/-- A step of a run, or an edit. -/
inductive Step : State → State → Prop where
  | edit {s : State} {files : FileSystem} (h : Edits c s.files files) : Step s { s with files }
  | learn {s : State} {item : Item} (h : Learns c s item) : Step s (s.hold item)
  | makeDirectories (s : State) :
      Step s { s with files := ((FileSystem.makeDirectories c.directory).run s.files).2 }
  | lock (s : State) (input : Path) : Step s { s with files := ((c.lock input).run s.files).2 }
  | unlock (s : State) (ticket : Ticket) : Step s { s with files := s.files.unlock ticket }
  | write {s : State} {path : Path} {content : Bytes} {origin : Option Origin}
      {files : FileSystem} {place : Location} (hheld : .entry path content origin ∈ s.held)
      (hwrite : (FileSystem.write (path.withExtension "tmp") content).run s.files = (.ok (), files))
      (hplace : s.files.target (path.withExtension "tmp") = .ok place) :
      Step s { s with
        files
        origins := Function.update s.origins place origin
        torn := s.torn \ {place} }
  | stop {s : State} {path : Path} {content : Bytes} {origin : Option Origin}
      {files : FileSystem} {place : Location} {failure : Failure}
      (hheld : .entry path content origin ∈ s.held)
      (hwrite : (FileSystem.write (path.withExtension "tmp") content).run s.files =
        (.error failure, files))
      (hplace : s.files.target (path.withExtension "tmp") = .ok place) :
      Step s { s with files, torn := insert place s.torn }
  | move {s : State} {path : Path} {content : Bytes} {origin : Option Origin}
      {files : FileSystem} {here there : Location} (hheld : .entry path content origin ∈ s.held)
      (hmove : (FileSystem.move (path.withExtension "tmp") path).run s.files = (.ok (), files))
      (hhere : s.files.locate (path.withExtension "tmp") = .ok here) (hwhole : here ∉ s.torn)
      (hthere : s.files.target path = .ok there) :
      Step s { s with
        files
        origins := Function.update (Function.update s.origins here none) there (s.origins here) }

/-- Whether some steps and edits lead from one state to another. -/
def Reaches (s s' : State) : Prop := Relation.ReflTransGen (Step c) s s'

end Interleaving
end DiagramCompiler
