import DiagramCompiler.Options

/-! Flags of the command line.
A flag has a long name and may have a letter. Some flags take a value, which may be a choice from a
list; the others are switches or ask for something else than a run. -/
namespace DiagramCompiler
namespace CommandLine

/-- What the arguments said so far. -/
structure Draft where
  file : Option Path := none
  options : Options := {}
  countsModels : Bool := false
  samples : Option Nat := none

/-- What a flag does. -/
inductive Effect where
  | switch (set : Draft → Draft)
  /-- Takes a value, which has to be one that the flag can read. -/
  | setting (set : Draft → String → Option Draft)
  | help
  | version

/-- One of the values that a flag can take. -/
structure Choice where
  name : String
  about : Option String := none
  deriving DecidableEq, Repr

structure Flag where
  long : String
  short : Option Char := none
  about : String
  /-- What the value is called. -/
  value : Option String := none
  /-- The value without the flag. -/
  default : Option String := none
  choices : List Choice := []
  effect : Effect

/-! ### Values -/

def named {α : Type} (stub : α → String) (values : List α) (text : String) : Option α :=
  values.find? fun value => stub value = text

def path? (text : String) : Option Path := if text = "" then none else some ⟨text⟩

def number? (text : String) : Option Nat := (Numeral.word64 text.toList).toOption

def seconds? (text : String) : Option Duration :=
  ((Decimal.parse text.toList).bind Decimal.Value.nanoseconds?).map Duration.mk

def choicesOf {α : Type} (stub : α → String) (values : List α) : List Choice :=
  values.map fun value => ⟨stub value, none⟩

def verbosities : List String := ["trace", "debug", "info", "warn", "none"]

/-! ### The table -/

def setting {α : Type} (read : String → Option α) (set : Options → α → Options) : Effect :=
  .setting fun d text => (read text).map fun a => { d with options := set d.options a }

def switch (set : Options → Options) : Effect :=
  .switch fun d => { d with options := set d.options }

def flags : List Flag :=
  [{ long := "engine", short := some 'e'
     about := "Native engine building the diagram"
     value := some "ENGINE", default := some "buddy"
     choices := choicesOf EngineKind.stub EngineKind.all
     effect := setting (named EngineKind.stub EngineKind.all) fun o x => { o with engine := x } },
   { long := "ordering", short := some 'o'
     about := "Static variable ordering heuristic"
     value := some "ORDERING", default := some "off"
     choices := [⟨"off", some "Keep the default order `1, 2, ..., n`"⟩, ⟨"force", none⟩,
       ⟨"force-triage", none⟩, ⟨"dbo", none⟩]
     effect := setting (named Heuristic.stub Heuristic.all) fun o x => { o with heuristic := x } },
   { long := "dynamic-reorder"
     about := "Dynamic reordering of the engine, by stub. `off` disables it"
     value := some "DYNAMIC_REORDER", default := some "lib-default"
     effect := setting some fun o x => { o with reordering := x } },
   { long := "dbo-graph"
     about := "How DBO connects the variables of a clause"
     value := some "DBO_GRAPH", default := some "clique"
     choices := [⟨"clique", some "Every pair of co-occurring variables"⟩,
       ⟨"star", some "Every variable to the clause's smallest variable"⟩]
     effect := setting (named GraphShape.stub GraphShape.all) fun o x => { o with graph := x } },
   { long := "dbo-clause-reordering"
     about := "Let DBO reorder the clauses as well"
     effect := switch fun o => { o with degreeSortsClauses := true } },
   { long := "seed"
     about := "Seed for the random start orders of FORCE"
     value := some "SEED"
     effect := setting number? fun o x => { o with seed := some x } },
   { long := "force-budget"
     about := "Wall-clock budget of FORCE, in seconds"
     value := some "FORCE_BUDGET", default := some "60"
     effect := setting seconds? fun o x => { o with forceBudget := x } },
   { long := "triage-seeds"
     about := "Random start orders evaluated by FORCE-triage"
     value := some "TRIAGE_SEEDS", default := some "32"
     effect := setting number? fun o x => { o with triageSeeds := x } },
   { long := "triage-seed-budget"
     about := "FORCE budget of every triage seed, in seconds"
     value := some "TRIAGE_SEED_BUDGET", default := some "30"
     effect := setting seconds? fun o x => { o with triageSeedBudget := x } },
   { long := "triage-refine-budget"
     about := "FORCE budget of every refinement round of the triage survivors, in seconds"
     value := some "TRIAGE_REFINE_BUDGET", default := some "15"
     effect := setting seconds? fun o x => { o with triageRefineBudget := x } },
   { long := "op-timeout"
     about := "Watchdog bound for a single diagram operation, in seconds"
     value := some "OP_TIMEOUT"
     effect := setting seconds? fun o x => { o with operationBound := some x } },
   { long := "cache-dir"
     about := "Where orders and compiled diagrams are cached"
     value := some "CACHE_DIR", default := some "_cache"
     effect := setting path? fun o x => { o with cacheDirectory := x } },
   { long := "lib-dir"
     about := "Directory searched for libbuddy.so / libcudd.so first"
     value := some "LIB_DIR"
     effect := setting path? fun o x => { o with libraryDirectory := some x } },
   { long := "no-cache"
     about := "Neither read nor cache orders, and ignore cached diagrams"
     effect := switch fun o => { o with useCache := false } },
   { long := "ignore-cached-order"
     about := "Recompute the variable order even if one is cached"
     effect := switch fun o => { o with useCachedOrder := false } },
   { long := "ignore-cached-results"
     about := "Recompile even if a compiled diagram is cached"
     effect := switch fun o => { o with useCachedResults := false } },
   { long := "count-models", short := some 'c'
     about := "Print count of the models to the stdout"
     effect := .switch fun d => { d with countsModels := true } },
   { long := "samples", short := some 's'
     about := "Print N uniformly drawn models to the stdout"
     value := some "N"
     effect := .setting fun d text => (number? text).map fun n => { d with samples := some n } },
   { long := "verbosity"
     about := "Verbosity level. See `tracing::Level` for more information"
     value := some "VERBOSITY", default := some "warn"
     choices := choicesOf id verbosities
     effect := .setting fun d text => if text ∈ verbosities then some d else none },
   { long := "help", short := some 'h', about := "Print help", effect := .help },
   { long := "version", short := some 'V', about := "Print version", effect := .version }]

def Flag.ofLong? (name : List Char) : Option Flag := flags.find? fun f => f.long.toList = name

def Flag.ofShort? (letter : Char) : Option Flag := flags.find? fun f => f.short = some letter

end CommandLine
end DiagramCompiler
