import DiagramCompiler.Files.Bytes
import DiagramCompiler.Text.Numeral

/-! Faults of problem files.
A fault is shown as a chain of causes, the outermost first. -/
namespace DiagramCompiler
namespace Dimacs

/-- What is wrong with a problem line. -/
inductive ProblemFault where
  | shape (line : String)
  | format (found : String)
  | varCount (field : String) (cause : Numeral.Fault)
  | clauseCount (field : String) (cause : Numeral.Fault)
  deriving DecidableEq, Repr

def ProblemFault.causes : ProblemFault → List String
  | .shape line => ["expected 'p cnf VARIABLES CLAUSES', found '" ++ line ++ "'"]
  | .format found => ["format must be 'cnf', found '" ++ found ++ "'"]
  | .varCount field cause => ["variable count '" ++ field ++ "'", cause.message]
  | .clauseCount field cause => ["clause count '" ++ field ++ "'", cause.message]

/-- Why a file is not a formula. Lines are numbered from 1. -/
inductive Fault where
  | unreadable (line : Nat) (cause : FileFault)
  | noProblemLine
  | problemLineExpected (line : Nat)
  | problemLine (line : Nat) (cause : ProblemFault)
  | clausesTooEarly
  | notLiteral (line : Nat) (token : String) (cause : Numeral.Fault)
  | literalOutOfRange (line : Nat) (token : String)
  | secondProblemLine (line : Nat)
  | trailer (line : Nat)
  /-- The declared number of clauses is more than memory can be reserved for. -/
  | tooManyClauses (declared : Nat)
  deriving DecidableEq, Repr

def atLine (line : Nat) (what : String) : String := "line " ++ Numeral.text line ++ ": " ++ what

def Fault.causes : Fault → List String
  | .unreadable line cause => ["could not read line " ++ Numeral.text line, cause.message]
  | .noProblemLine => ["input has no problem line"]
  | .problemLineExpected line =>
    [atLine line "expected the problem line 'p cnf VARIABLES CLAUSES'"]
  | .problemLine line cause => ("invalid problem line " ++ Numeral.text line) :: cause.causes
  | .clausesTooEarly => ["clauses requested before the problem line"]
  | .notLiteral line token cause =>
    [atLine line ("'" ++ token ++ "' is not a literal"), cause.message]
  | .literalOutOfRange line token => [atLine line ("literal '" ++ token ++ "' is out of range")]
  | .secondProblemLine line => [atLine line "second problem line"]
  | .trailer line => [atLine line "expected '0' after '%'"]
  | .tooManyClauses _ => ["capacity overflow"]

end Dimacs
end DiagramCompiler
