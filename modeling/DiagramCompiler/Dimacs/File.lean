import DiagramCompiler.Dimacs.Reader
import DiagramCompiler.Files.Digest
import DiagramCompiler.Files.FileSystem

/-! Formulas in files.
A formula that is read from a file remembers the path, and the digest of what it was read from. A
directory can be opened, but fails where its first line should be. -/
namespace DiagramCompiler

namespace FileSystem

def digest (fs : FileSystem) (p : Path) : Except FileFault String :=
  match fs.read p with
  | .ok content => .ok content.digest
  | .error fault => .error fault

end FileSystem

namespace Formula

def nameKey : String := "input-name"

def digestKey : String := "input-hash"

def readFrom (p : Path) (content : Bytes) (f : Formula) : Formula :=
  { f with
    metadata := (f.metadata.insert nameKey p.text).insert digestKey content.digest
    source := some p }

def ofContent (p : Path) (content : Bytes) : Except Failure Formula :=
  match Dimacs.read content with
  | .ok f => .ok (f.readFrom p content)
  | .error fault => .error (.ofDimacs fault)

def ofFile (p : Path) (fs : FileSystem) : Except Failure Formula :=
  match fs.read p with
  | .ok content => ofContent p content
  | .error fault =>
    if fault = .isDirectory then .error (.ofDimacs (.unreadable 1 fault))
    else .error (.file p fault)

end Formula
end DiagramCompiler
