import DiagramCompiler.CommandLine.Flag
import DiagramCompiler.Text.Line

/-! Help for the command line.
The help lists the file and all flags, each with what it is for below it. The detailed help adds
what every choice means and keeps the flags apart by empty lines. -/
namespace DiagramCompiler
namespace CommandLine

def program : String := "ddcompc"

def versionText : String := program ++ " 0.1.0\n"

def margin : String := "          "

def Flag.text (f : Flag) : String :=
  let letter := match f.short with
    | some c => "-" ++ c.toString ++ ", "
    | none => "    "
  let value := match f.value with
    | some value => " <" ++ value ++ ">"
    | none => ""
  "  " ++ letter ++ "--" ++ f.long ++ value

def Flag.explains (f : Flag) : Bool := f.choices.any fun c => c.about.isSome

/-- What is used without a flag and what can be chosen, as far as the choices are not explained. -/
def Flag.notes (f : Flag) (detailed : Bool) : List String :=
  (f.default.map fun text => "[default: " ++ text ++ "]").toList ++
    if f.choices = [] ∨ (detailed ∧ f.explains) then []
    else ["[possible values: " ++ Text.joined ", " (f.choices.map Choice.name) ++ "]"]

/-- What a flag is for; the flag for help tells of the other help. -/
def Flag.purpose (f : Flag) (detailed : Bool) : String :=
  match f.effect with
  | .help => f.about ++
      if detailed then " (see a summary with '-h')" else " (see more with '--help')"
  | _ => f.about

/-- A choice with its explanation, given the length of the longest name. -/
def Choice.line (width : Nat) (c : Choice) : String :=
  let explanation := match c.about with
    | some about =>
      ": " ++ String.ofList (List.replicate (width - c.name.length) ' ') ++ about
    | none => ""
  "\n" ++ margin ++ "- " ++ c.name ++ explanation

def Flag.explanation (f : Flag) : String :=
  let width := (f.choices.map fun c => c.name.length).foldl max 0
  "\n\n" ++ margin ++ "Possible values:" ++ Text.joined "" (f.choices.map (Choice.line width))

def Flag.help (detailed : Bool) (f : Flag) : String :=
  let newline := "\n" ++ margin
  let notes := f.notes detailed
  let noted :=
    if notes = [] then ""
    else if detailed then newline ++ newline ++ Text.joined newline notes
    else " " ++ Text.joined " " notes
  f.text ++ newline ++ f.purpose detailed ++ noted ++
    if detailed ∧ f.explains then f.explanation else ""

def helpText (detailed : Bool) : String :=
  "Compile DIMACS CNF into decision diagrams under a static variable order.\n\n" ++
    "Usage: " ++ program ++ " [OPTIONS] <dimacs.cnf>\n\nArguments:\n  <dimacs.cnf>" ++
    (if detailed then "\n" ++ margin else "  ") ++
    "Path to DIMACS file with the CNF to compile\n\nOptions:\n" ++
    Text.joined (if detailed then "\n\n" else "\n") (flags.map (Flag.help detailed)) ++ "\n"

end CommandLine
end DiagramCompiler
