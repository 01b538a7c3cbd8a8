import DiagramCompiler.CommandLine.Flag

/-! Arguments of the command line.
An argument is a file, a flag or the value of the flag before it. Flags have long names after two
dashes and some have a letter after one dash; letters can be joined, and a value can follow its flag
after an equals sign or, after a letter, at once. Every flag is given at most once. -/
namespace DiagramCompiler
namespace CommandLine

/-- What the arguments ask for. -/
structure Request where
  file : Path
  options : Options
  countsModels : Bool
  samples : Option Nat
  deriving DecidableEq

/-- Why the arguments ask for no run. -/
inductive Refusal where
  | usage (reason : String)
  | help (detailed : Bool)
  | version
  deriving DecidableEq, Repr

/-- Arguments read so far. -/
structure Progress where
  draft : Draft := {}
  /-- The flags given. -/
  given : List String := []
  /-- A flag that waits for its value. -/
  pending : Option Flag := none
  /-- Whether all arguments to come are files. -/
  onlyFiles : Bool := false

namespace Progress

def addFile (p : Progress) (argument : String) : Except Refusal Progress :=
  match p.draft.file, path? argument with
  | some _, _ => .error (.usage ("unexpected argument '" ++ argument ++ "' found"))
  | none, none => .error (.usage "a value is required for '<dimacs.cnf>' but none was supplied")
  | none, some file => .ok { p with draft := { p.draft with file := some file } }

def note (p : Progress) (f : Flag) : Except Refusal Progress :=
  if f.long ∈ p.given then
    .error (.usage ("the argument '--" ++ f.long ++ "' cannot be used multiple times"))
  else .ok { p with given := f.long :: p.given }

def assign (p : Progress) (f : Flag) (set : Draft → String → Option Draft) (text : String) :
    Except Refusal Progress := do
  let p ← p.note f
  match set p.draft text with
  | some draft => return { p with draft, pending := none }
  | none => .error (.usage ("invalid value '" ++ text ++ "' for '--" ++ f.long ++ "'"))

/-- A flag with the value joined to it, if there is one. Spelled out, a flag for help asks for the
detailed one. -/
def take (p : Progress) (f : Flag) (joined : Option String) (spelledOut : Bool) :
    Except Refusal Progress :=
  match f.effect, joined with
  | .setting set, some text => p.assign f set text
  | .setting _, none => .ok { p with pending := some f }
  | _, some text =>
    .error (.usage ("unexpected value '" ++ text ++ "' for '--" ++ f.long ++ "' found"))
  | .switch set, none => (p.note f).map fun p => { p with draft := set p.draft }
  | .help, none => .error (.help spelledOut)
  | .version, none => .error .version

def joinedValue : List Char → Option String
  | [] => none
  | '=' :: text => some (String.ofList text)
  | text => some (String.ofList text)

/-- Joined letters; the first that takes a value ends them. -/
def takeShorts (p : Progress) : List Char → Except Refusal Progress
  | [] => .ok p
  | letter :: rest =>
    match Flag.ofShort? letter with
    | none => .error (.usage ("unexpected argument '-" ++ letter.toString ++ "' found"))
    | some f =>
      match f.effect with
      | .setting _ => p.take f (joinedValue rest) false
      | _ => do
        let p ← p.take f none false
        p.takeShorts rest

/-- A long name, with an equals sign before its value if it is joined to it. -/
def takeLong (p : Progress) (text : List Char) : Except Refusal Progress :=
  let (name, joined) := match Text.splitFirst '=' text with
    | some (name, value) => (name, some (String.ofList value))
    | none => (text, none)
  match Flag.ofLong? name with
  | some f => p.take f joined true
  | none => .error (.usage ("unexpected argument '--" ++ String.ofList name ++ "' found"))

def unfinished {α : Type} (f : Flag) : Except Refusal α :=
  .error (.usage ("a value is required for '--" ++ f.long ++ "' but none was supplied"))

def next (p : Progress) (argument : String) : Except Refusal Progress :=
  if p.onlyFiles then p.addFile argument
  else
    match p.pending, argument.toList with
    | some f, '-' :: _ :: _ => unfinished f
    | some f, _ =>
      match f.effect with
      | .setting set => p.assign f set argument
      | _ => unfinished f
    | none, ['-', '-'] => .ok { p with onlyFiles := true }
    | none, '-' :: '-' :: text => p.takeLong text
    | none, '-' :: letter :: letters => p.takeShorts (letter :: letters)
    | none, _ => p.addFile argument

def finish (p : Progress) : Except Refusal Request :=
  match p.pending, p.draft.file with
  | some f, _ => unfinished f
  | none, none => .error (.usage "the following required arguments were not provided: <dimacs.cnf>")
  | none, some file => .ok ⟨file, p.draft.options, p.draft.countsModels, p.draft.samples⟩

end Progress

def Request.parse (arguments : List String) : Except Refusal Request := do
  (← arguments.foldlM Progress.next {}).finish

end CommandLine
end DiagramCompiler
