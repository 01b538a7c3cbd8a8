import DiagramCompiler.Failure
import DiagramCompiler.Text.Blank

/-! Options of a run.
Engines, ordering heuristics and graph shapes are chosen by short names, in any case and with blanks
around them. -/
namespace DiagramCompiler

def findStub {α : Type} (stub : α → String) (choices : List α) (text : String) : Option α :=
  choices.find? fun choice => Text.sameLetters (stub choice).toList (Text.trim text.toList)

/-- The libraries of decision diagrams that can be bound. -/
inductive EngineKind where
  | buddy
  | cudd
  deriving DecidableEq, Repr

namespace EngineKind

def all : List EngineKind := [.buddy, .cudd]

def stub : EngineKind → String
  | .buddy => "buddy"
  | .cudd => "cudd"

def parse (text : String) : Except Failure EngineKind :=
  match findStub stub all text with
  | some kind => .ok kind
  | none => .error (.unsupportedEngine text)

end EngineKind

/-- The heuristics that order variables. -/
inductive Heuristic where
  /-- Keeps the order `1, 2, ..., n`. -/
  | off
  | force
  | forceTriage
  | degree
  deriving DecidableEq, Repr

namespace Heuristic

def all : List Heuristic := [.off, .force, .forceTriage, .degree]

def stub : Heuristic → String
  | .off => "off"
  | .force => "force"
  | .forceTriage => "force-triage"
  | .degree => "dbo"

def parse (text : String) : Except Failure Heuristic :=
  match findStub stub all text with
  | some heuristic => .ok heuristic
  | none => .error (.unsupportedOrdering text)

end Heuristic

/-- How the variables of a clause are connected. -/
inductive GraphShape where
  /-- Every two variables of a clause. -/
  | clique
  /-- Every variable to the smallest variable of its clause. -/
  | star
  deriving DecidableEq, Repr

namespace GraphShape

def all : List GraphShape := [.clique, .star]

def stub : GraphShape → String
  | .clique => "clique"
  | .star => "star"

def parse (text : String) : Except Failure GraphShape :=
  match findStub stub all text with
  | some shape => .ok shape
  | none => .error (.unsupportedOrdering ("dbo-" ++ text))

end GraphShape

def isNoReordering (stub : String) : Bool := Text.sameLetters stub.toList "off".toList

structure Options where
  engine : EngineKind := .buddy
  heuristic : Heuristic := .off
  /-- Name of a dynamic reordering of the engine. -/
  reordering : String := "lib-default"
  forceBudget : Duration := .ofSeconds 60
  triageSeeds : Nat := 32
  triageSeedBudget : Duration := .ofSeconds 30
  triageRefineBudget : Duration := .ofSeconds 15
  /-- Seed of every random choice, of 64 bits. -/
  seed : Option Nat := none
  graph : GraphShape := .clique
  /-- Whether the degree heuristic sorts clauses. -/
  degreeSortsClauses : Bool := false
  /-- Bound on the time of a binary operation. -/
  operationBound : Option Duration := none
  cacheDirectory : Path := ⟨"_cache"⟩
  /-- Master switch of the lookups in the cache. -/
  useCache : Bool := true
  useCachedOrder : Bool := true
  useCachedResults : Bool := true
  /-- Directory searched for libraries before the places of the system. -/
  libraryDirectory : Option Path := none
  deriving DecidableEq, Repr

end DiagramCompiler
