import DiagramCompiler.CommandLine

/-! The program.
What a request looks at is read first, the request is performed on that, and what has changed is
written back. A lock that another process holds is seen as held. -/
namespace DiagramCompiler
namespace Program

def placeText (place : Location) : String := "/" ++ Text.joined "/" place

def survey (here : Location) : List String → FileSystem → IO FileSystem
  | [], fs => return fs
  | name :: names, fs => do
    if name = ".." then survey here.dropLast names fs
    else
      let place := here ++ [name]
      let path := (← IO.currentDir) / placeText place
      if ← path.isDir then survey place names (fs.put place .directory)
      else if ← path.pathExists then
        return fs.put place (.file (← IO.FS.readBinFile path).data.toList)
      else return fs

/-- The number of this process, with which its entry in the table of processes starts. -/
def processNumber : IO Nat := do
  let status ← IO.FS.readFile "/proc/self/stat"
  return (Numeral.word32 (status.toList.takeWhile Char.isDigit)).toOption.getD 0

def snapshot (paths : List Path) : IO FileSystem := do
  let working := (Path.mk (← IO.currentDir).toString).parts
  let process ← processNumber
  let mut fs := { FileSystem.empty with entries := .empty, working, process }
  fs ← survey [] working fs
  for p in paths do
    fs ← survey (fs.origin p) p.parts fs
  return fs

/-- Locks a file that is there; the answer is none if there is no such file. -/
def lockFile (p : Path) : IO (Option (IO.FS.Handle × Bool)) := do
  let path := (← IO.currentDir) / p.text
  if (← path.pathExists) && !(← path.isDir) then
    let handle ← IO.FS.Handle.mk path .readWrite
    return some (handle, ← handle.tryLock)
  else return none

/-- Writes something to a place; files are replaced at once. -/
def commit (place : Location) (entry : Entry) : IO Unit :=
  match entry with
  | .directory => IO.FS.createDirAll (placeText place)
  | .file content => do
    let beside := placeText place ++ ".new"
    IO.FS.writeBinFile beside ⟨content.toArray⟩
    IO.FS.rename beside (placeText place)

def perform (conditions : Conditions) (r : CommandLine.Request) :
    IO (CommandLine.Outcome × Duration) := do
  let lock ← lockFile r.lockPath
  let before ← snapshot r.paths
  let before := match lock, before.locate r.lockPath with
    | some (_, false), .ok place => { before with locks := [(0, place)], tickets := 1 }
    | _, _ => before
  let started ← IO.monoNanosNow
  let (outcome, files) := CommandLine.perform conditions r before
  for change in before.changes files do
    commit change.1 change.2
  let ended ← IO.monoNanosNow
  match lock with
  | some (handle, true) => handle.unlock
  | _ => pure ()
  return (outcome, ⟨ended - started⟩)

end Program
end DiagramCompiler

open DiagramCompiler in
def main (arguments : List String) : IO UInt32 := do
  let (outcome, elapsed) ←
    match CommandLine.Request.parse arguments with
    | .ok request => Program.perform (.unhurried (← IO.rand 0 (UInt64.size - 1))) request
    | .error refusal => pure (CommandLine.refused refusal, .zero)
  IO.print (outcome.output elapsed)
  IO.eprint outcome.errors
  return UInt32.ofNat outcome.code
