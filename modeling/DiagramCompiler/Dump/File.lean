import DiagramCompiler.Dump
import DiagramCompiler.Files.FileSystem

/-! Dumps in files. -/
namespace DiagramCompiler
namespace Dump

def ofFile (p : Path) (fs : FileSystem) : Except Failure Dump :=
  match fs.readText p with
  | .error fault => .error (.file p fault)
  | .ok text =>
    match parse text with
    | .ok dump => .ok dump
    | .error fault => .error (.malformedDump fault.message)

def bytes (d : Dump) : Bytes := .ofText d.text

end Dump
end DiagramCompiler
