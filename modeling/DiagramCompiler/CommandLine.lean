import DiagramCompiler.CommandLine.Arguments
import DiagramCompiler.CommandLine.Help
import DiagramCompiler.Diagram.Sample
import DiagramCompiler.Run

/-! The command line.
A run of the program compiles the file that its arguments name and reports on the diagram. If asked
for, it counts the models of the diagram or draws some of them, for which it reads the dump back. -/
namespace DiagramCompiler
namespace CommandLine

/-- What a run of the program shows. -/
structure Outcome where
  code : Nat
  /-- What is printed, given how long the compilation took. -/
  output : Duration → String
  errors : String

/-- A cause as shown below an error: further lines of it are indented as well. -/
def indented (mark : String) (width : Nat) (cause : String) : String :=
  let newline := '\n' :: List.replicate width ' '
  mark ++ String.ofList (Text.joinWith newline (Text.splitAll '\n' cause.toList)) ++ "\n"

def numbered (cause : String × Nat) : String :=
  let number := Numeral.decimal cause.2
  indented (String.ofList (List.replicate (5 - number.length) ' ' ++ number) ++ ": ") 7 cause.1

/-- An error and the causes below it; a single cause is not numbered. -/
def errorText (error : String) : List String → String
  | [] => "Error: " ++ error ++ "\n"
  | [cause] => "Error: " ++ error ++ "\n\nCaused by:\n" ++ indented "    " 4 cause
  | causes =>
    "Error: " ++ error ++ "\n\nCaused by:\n" ++ Text.joined "" (causes.zipIdx.map numbered)

def failed (output : Duration → String) (attempt : Option String) (failure : Failure) : Outcome :=
  match failure, attempt with
  | .overflow _, _ => ⟨101, output, failure.message ++ "\n"⟩
  | _, some attempt => ⟨1, output, errorText attempt (failure.message :: failure.causes)⟩
  | _, none => ⟨1, output, errorText failure.message failure.causes⟩

def reportText (report : Report) (elapsed : Duration) : String :=
  "diagram (" ++ (if report.fromCache then "cached" else "compiled") ++ "): " ++
    report.dumpPath.text ++ "\norder          : " ++ report.order.text ++ "\n" ++
    (if report.skipped = 0 then ""
      else "skipped clauses: " ++ Numeral.text report.skipped ++ "\n") ++
    "total time     : " ++ elapsed.text ++ "\n"

/-- The end after a report: models are counted and drawn if asked for. -/
def answer (conditions : Conditions) (r : Request) (report : Report) (fs : FileSystem) : Outcome :=
  if !r.countsModels && r.samples.isNone then ⟨0, reportText report, ""⟩
  else
    match Dump.ofFile report.dumpPath fs with
    | .error failure =>
      failed (reportText report) (some ("could not read back " ++ report.dumpPath.text)) failure
    | .ok dump =>
      let counted := if r.countsModels then Numeral.text dump.diagram.count ++ "\n" else ""
      let shown elapsed := reportText report elapsed ++ counted
      match r.samples with
      | none => ⟨0, shown, ""⟩
      | some k =>
        match Formula.ofFile r.file fs with
        | .error failure => failed shown none failure
        | .ok f =>
          let g := Random.Generator.ofSeed (r.options.seed.getD conditions.entropy)
          let table := ((dump.diagram.sample k g).relabel f.label).text
          ⟨0, fun elapsed => shown elapsed ++ table ++ "\n", ""⟩

def Request.cache (r : Request) : Cache := ⟨r.options.cacheDirectory⟩

def Request.lockPath (r : Request) : Path := r.cache.lockPath r.file

def Request.paths (r : Request) : List Path :=
  [r.file, r.lockPath] ++
    [r.cache.orderPath r.file r.options.stage,
      r.cache.diagramPath r.file r.options.engine.stub r.options.reordering].flatMap fun p =>
        [p, p.withExtension "tmp"]

def perform (conditions : Conditions) (r : Request) (fs : FileSystem) : Outcome × FileSystem :=
  let provider := Provider.native Library.bareHost r.options
  match (Run.run r.options conditions provider r.file).run ⟨fs, .fresh ()⟩ with
  | (.error failure, w) =>
    (failed (fun _ => "") (some ("could not compile " ++ r.file.text)) failure, w.files)
  | (.ok report, w) => (answer conditions r report w.files, w.files)

def refused : Refusal → Outcome
  | .usage reason =>
    ⟨2, fun _ => "", "error: " ++ reason ++ "\n\nFor more information, try '--help'.\n"⟩
  | .help detailed => ⟨0, fun _ => helpText detailed, ""⟩
  | .version => ⟨0, fun _ => versionText, ""⟩

def run (conditions : Conditions) (arguments : List String) (fs : FileSystem) :
    Outcome × FileSystem :=
  match Request.parse arguments with
  | .ok request => perform conditions request fs
  | .error refusal => (refused refusal, fs)

end CommandLine
end DiagramCompiler
