import DiagramCompiler.Text.Line

/-! Paths of files.
A path is kept as it was given, since messages show it so. Slashes separate its steps: a name leads
into a directory, a single dot stays where it is, and a double dot leads to the directory above. -/
namespace DiagramCompiler

structure Path where
  text : String
  deriving DecidableEq, Repr, Inhabited

namespace Path

instance : ToString Path := ⟨Path.text⟩

def pieces (p : Path) : List String := (Text.splitAll '/' p.text.toList).map String.ofList

/-- The steps of a path: names, single dots and double dots. -/
def steps (p : Path) : List String := p.pieces.filter (· ≠ "")

def parts (p : Path) : List String := p.steps.filter (· ≠ ".")

def isName (step : String) : Bool := step ≠ "." && step ≠ ".."

def fileName (p : Path) : Option String := p.parts.getLast?.filter (· ≠ "..")

def baseName (p : Path) : String := p.fileName.getD p.text

def isAbsolute (p : Path) : Bool := p.text.toList.head? = some '/'

def endsInSlash (p : Path) : Bool := p.text.toList.getLast? = some '/'

def trimmed (pieces : List String) : List String :=
  (pieces.reverse.dropWhile fun piece => piece = "" ∨ piece = ".").reverse

/-- The path of the directory above, as far as the text shows it. -/
def parent (p : Path) : Path :=
  match trimmed (trimmed p.pieces).dropLast with
  | [] => ⟨if p.isAbsolute then "/" else ""⟩
  | pieces => ⟨Text.joined "/" pieces⟩

/-- A path below a directory; an absolute path stays as it is. -/
def join (directory : Path) (name : String) : Path :=
  if name.toList.head? = some '/' then ⟨name⟩
  else if directory.text = "" ∨ directory.endsInSlash then ⟨directory.text ++ name⟩
  else ⟨directory.text ++ "/" ++ name⟩

/-- A file name without its extension, which starts at the last dot that is not the first
character. -/
def stem (name : List Char) : List Char :=
  match Text.splitFirst '.' name.reverse with
  | some (_, before) => if before = [] then name else before.reverse
  | none => name

/-- A file name with another extension. The old one goes before the new one comes; if that leaves
a double dot, which is no name, it stays at that. -/
def renamed (name extension : String) : String :=
  if stem name.toList = ['.'] then ".."
  else String.ofList (stem name.toList) ++ "." ++ extension

def withExtension (p : Path) (extension : String) : Path :=
  match p.fileName with
  | none => p
  | some name =>
    ⟨Text.joined "/" ((trimmed p.pieces).dropLast ++ [renamed name extension])⟩

end Path
end DiagramCompiler
