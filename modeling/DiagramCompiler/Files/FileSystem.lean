import DiagramCompiler.Action
import DiagramCompiler.Dictionary
import DiagramCompiler.Files.Bytes
import DiagramCompiler.Files.Path

/-! File systems.
A file system is a tree of directories and files. Paths start at its root or at a working directory.
A file can be locked, which keeps others from locking it but from nothing else. What an operation
did before it failed stays done. -/
namespace DiagramCompiler

abbrev Location := List String

inductive Entry where
  | directory
  | file (content : Bytes)
  deriving DecidableEq, Repr

abbrev Ticket := Nat

/-- How writing some content to a file stops. -/
inductive Stop where
  /-- The file is not opened. -/
  | unopened (fault : FileFault)
  /-- Only so many bytes are written, or all of them without being made durable. -/
  | cut (count : Nat) (fault : FileFault)
  deriving DecidableEq, Repr

def Stop.fault : Stop → FileFault
  | .unopened fault => fault
  | .cut _ fault => fault

structure FileSystem where
  /-- What is at the places below the root. -/
  entries : Dictionary Location Entry
  /-- The locks that are held, with the files that they lock. -/
  locks : List (Ticket × Location)
  /-- How many locks were ever held. -/
  tickets : Nat
  /-- Where paths start that do not start at the root. -/
  working : Location
  /-- How writing some content at a place stops, if it does. -/
  device : Location → Bytes → Option Stop
  /-- The number of the process that locks files. -/
  process : Nat

namespace FileSystem

/-- A file system that holds nothing but a working directory. -/
def empty : FileSystem where
  entries := (Dictionary.empty : Dictionary Location Entry).insert ["work"] .directory
  locks := []
  tickets := 0
  working := ["work"]
  device _ _ := none
  process := 1

def find? (fs : FileSystem) (place : Location) : Option Entry :=
  if place = [] then some .directory else fs.entries.get? place

def put (fs : FileSystem) (place : Location) (entry : Entry) : FileSystem :=
  { fs with entries := fs.entries.insert place entry }

/-- The place of a name in a directory. Names have at most 255 bytes. -/
def child (above : Location) (name : String) : Except FileFault Location :=
  if 255 < name.utf8ByteSize then .error .nameTooLong else .ok (above ++ [name])

def descend (fs : FileSystem) (here : Location) : List String → Except FileFault Location
  | [] => .ok here
  | step :: steps =>
    if step = "." then fs.descend here steps
    else if step = ".." then fs.descend here.dropLast steps
    else
      match child here step with
      | .error fault => .error fault
      | .ok place =>
        match fs.find? place with
        | some .directory => fs.descend place steps
        | some (.file _) => .error .notDirectory
        | none => .error .notFound

/-- The place that some steps lead to from a directory. All above it must be there, but it may be
free itself if the last step is a name. -/
def reach (fs : FileSystem) (here : Location) (steps : List String) : Except FileFault Location :=
  match steps.getLast?.filter Path.isName with
  | some name => (fs.descend here steps.dropLast).bind fun above => child above name
  | none => fs.descend here steps

def origin (fs : FileSystem) (p : Path) : Location := if p.isAbsolute then [] else fs.working

/-- Why a path leads nowhere in any file system. Paths have at most 4095 bytes. -/
def pathFault? (p : Path) : Option FileFault :=
  if '\x00' ∈ p.text.toList then some .endOfName
  else if p.text = "" then some .notFound
  else if 4095 < p.text.utf8ByteSize then some .nameTooLong
  else none

def locate (fs : FileSystem) (p : Path) : Except FileFault Location :=
  match pathFault? p with
  | some fault => .error fault
  | none => fs.reach (fs.origin p) p.steps

def read (fs : FileSystem) (p : Path) : Except FileFault Bytes :=
  match fs.locate p with
  | .error fault => .error fault
  | .ok place =>
    match fs.find? place with
    | none => .error .notFound
    | some .directory => .error .isDirectory
    | some (.file content) => if p.endsInSlash then .error .notDirectory else .ok content

def readText (fs : FileSystem) (p : Path) : Except FileFault String :=
  match fs.read p with
  | .error fault => .error fault
  | .ok content =>
    match content.text? with
    | some text => .ok text
    | none => .error .notText

def target (fs : FileSystem) (p : Path) : Except FileFault Location :=
  match fs.locate p with
  | .error fault => .error fault
  | .ok place =>
    if p.endsInSlash ∨ fs.find? place = some .directory then .error .isDirectory
    else .ok place

def failing {α : Type} (p : Path) : Except FileFault α → Except Failure α
  | .ok a => .ok a
  | .error fault => .error (.file p fault)

/-- Makes the directory that some steps lead to, unless it is there already. -/
def makeDirectory (here : Location) (steps : List String) (fs : FileSystem) :
    Except FileFault Unit × FileSystem :=
  match fs.reach here steps with
  | .error fault => (.error fault, fs)
  | .ok place =>
    match fs.find? place with
    | some .directory => (.ok (), fs)
    | some (.file _) => (.error .alreadyExists, fs)
    | none => (.ok (), fs.put place .directory)

/-- Makes the directory that some steps lead to. If one above it is missing, `above` comes first. -/
def makeAfter (above : FileSystem → Except FileFault Unit × FileSystem) (here : Location)
    (steps : List String) (fs : FileSystem) : Except FileFault Unit × FileSystem :=
  match makeDirectory here steps fs with
  | (.error .notFound, fs) =>
    match above fs with
    | (.ok _, fs) => makeDirectory here steps fs
    | (.error fault, fs) => (.error fault, fs)
  | (answer, fs) => (answer, fs)

/-- Makes the directory that some parts lead to and those above it. The last part comes first. -/
def makeUpwards (here : Location) : List String → FileSystem → Except FileFault Unit × FileSystem
  | [], fs => (.ok (), fs)
  | part :: parts, fs => makeAfter (makeUpwards here parts) here (part :: parts).reverse fs

/-- Makes a directory and those above it, as far as they are not there yet. -/
def makeDirectories (p : Path) : Action FileSystem Unit := fun fs =>
  match pathFault? p with
  | none =>
    match makeAfter (makeUpwards (fs.origin p) p.parts.reverse.tail) (fs.origin p) p.steps fs with
    | (answer, fs) => (failing p answer, fs)
  | some fault => (if p.text = "" then .ok () else .error (.file p fault), fs)

def fill (fs : FileSystem) (place : Location) (content : Bytes) : Option Stop × FileSystem :=
  match fs.device place content with
  | none => (none, fs.put place (.file content))
  | some (.unopened fault) => (some (.unopened fault), fs)
  | some (.cut count fault) => (some (.cut count fault), fs.put place (.file (content.take count)))

def write (p : Path) (content : Bytes) : Action FileSystem Unit := fun fs =>
  match fs.target p with
  | .error fault => (.error (.file p fault), fs)
  | .ok place =>
    let filled := fs.fill place content
    match filled.1 with
    | none => (.ok (), filled.2)
    | some stop => (.error (.file p stop.fault), filled.2)

def vacate (fs : FileSystem) (place : Location) : FileSystem :=
  { fs with
    entries := fs.entries.erase place
    locks := fs.locks.filter fun l => l.2 ≠ place }

def remove (p : Path) : Action FileSystem Unit := fun fs =>
  match fs.read p, fs.locate p with
  | .error fault, _ => (.error (.file p fault), fs)
  | .ok _, .error fault => (.error (.file p fault), fs)
  | .ok _, .ok place => (.ok (), fs.vacate place)

def move (source destination : Path) : Action FileSystem Unit := fun fs =>
  match fs.read source, fs.locate source, fs.target destination with
  | .ok content, .ok here, .ok there => (.ok (), (fs.vacate here).put there (.file content))
  | .error fault, _, _ => (.error (.file destination fault), fs)
  | _, .error fault, _ => (.error (.file destination fault), fs)
  | _, _, .error fault => (.error (.file destination fault), fs)

/-- Replaces the content of a file at once: it is written beside it and then moved over it. -/
def replace (p : Path) (content : Bytes) : Action FileSystem Unit := do
  let beside := p.withExtension "tmp"
  write beside content
  move beside p

def isLocked (fs : FileSystem) (place : Location) : Bool := fs.locks.any fun l => l.2 = place

def ownerLine (process : Nat) : Bytes := .ofText (Numeral.text process ++ "\n")

def hold (fs : FileSystem) (place : Location) : FileSystem :=
  { fs with locks := (fs.tickets, place) :: fs.locks, tickets := fs.tickets + 1 }

/-- Locks a file, which is made if it is not there. Once it is locked, it holds the number of the
process as far as that can be written. -/
def lock (p : Path) : Action FileSystem Ticket := fun fs =>
  match fs.target p with
  | .error fault => (.error (.file p fault), fs)
  | .ok place =>
    let marked := fs.fill place (ownerLine fs.process)
    match marked.1 with
    | some (.unopened fault) => (.error (.file p fault), fs)
    | _ =>
      if fs.isLocked place then (.error (.file p .wouldBlock), fs)
      else (.ok fs.tickets, marked.2.hold place)

def unlock (ticket : Ticket) (fs : FileSystem) : FileSystem :=
  { fs with locks := fs.locks.filter fun l => l.1 ≠ ticket }

def changes (before after : FileSystem) : List (Location × Entry) :=
  after.entries.entries.filter fun e => before.entries.get? e.1 ≠ some e.2

def files (fs : FileSystem) : List Path :=
  fs.entries.entries.filterMap fun e =>
    match e.2 with
    | .directory => none
    | .file _ =>
      if fs.working.isPrefixOf e.1 then
        some ⟨Text.joined "/" (e.1.drop fs.working.length)⟩
      else none

end FileSystem
end DiagramCompiler
