import DiagramCompiler.Cache
import DiagramCompiler.Compilation
import DiagramCompiler.Ordering
import DiagramCompiler.Provider

/-! Runs.
A run reads a formula from a file, finds an order for its variables, compiles it with an engine and
writes the dump into the cache. Orders and dumps that are already in the cache are taken from there
as far as the options allow it. The cache is locked for the file while the run lasts. -/
namespace DiagramCompiler

/-- The files and the state of an engine. -/
structure World (σ : Type) where
  files : FileSystem
  engine : σ

namespace World

variable {σ α : Type}

def onFiles (a : Action FileSystem α) : Action (World σ) α := fun w =>
  match a w.files with
  | (answer, files) => (answer, { w with files })

def onEngine (a : Action σ α) : Action (World σ) α := fun w =>
  match a w.engine with
  | (answer, engine) => (answer, { w with engine })

def mapFiles (f : FileSystem → FileSystem) (w : World σ) : World σ := { w with files := f w.files }

def mapEngine (f : σ → σ) (w : World σ) : World σ := { w with engine := f w.engine }

end World

/-- What a run did. -/
structure Report where
  /-- Where the dump of the diagram is. -/
  dumpPath : Path
  /-- Whether the dump was in the cache before. -/
  fromCache : Bool
  order : VariableOrder
  /-- The number of clauses that the diagram does not constrain. -/
  skipped : Nat
  metadata : Metadata
  deriving DecidableEq

namespace Run

variable {σ : Type}

def stageKey : String := "svo"

def stageTimeKey : String := "runtime-svo"

def reorderingKey : String := "dvo"

/-! ### Orders -/

def cachesOrders (o : Options) : Bool := o.useCache && o.heuristic ≠ .off

/-- The cache for the orders of a formula with the path that it was read from, if there is one. -/
def orderCache (o : Options) (f : Formula) : Action FileSystem (Option (Cache × Path)) :=
  match f.source with
  | none => pure none
  | some source =>
    if cachesOrders o then do
      let cache ← Cache.inDirectory o.cacheDirectory
      return some (cache, source)
    else pure none

def searchOrder (o : Options) (conditions : Conditions) (f : Formula) (cache : Cache)
    (source : Path) (start : Option VariableOrder) : Action FileSystem VariableOrder := do
  let order ← .ofExcept (o.findOrder conditions f start)
  let _ ← cache.storeOrder source o.stage order
  return order

/-- The order kept for a formula, or else one that is found starting from an outdated one. -/
def keptOrder (o : Options) (conditions : Conditions) (f : Formula) (cache : Cache)
    (source : Path) : Action FileSystem VariableOrder := do
  if o.useCachedOrder then
    match ← .reading (cache.order? source o.stage f.varCount) with
    | some order => return order
    | none =>
      let stale ← .reading (cache.staleOrder? source o.stage f.varCount)
      searchOrder o conditions f cache source stale
  else searchOrder o conditions f cache source none

def chooseOrder (o : Options) (conditions : Conditions) (f : Formula) :
    Action FileSystem VariableOrder := do
  match ← orderCache o f with
  | some (cache, source) => keptOrder o conditions f cache source
  | none => .ofExcept (o.findOrder conditions f none)

def sorted (o : Options) (f : Formula) (order : VariableOrder) : Except Failure Formula :=
  if o.sortsClauses then o.sortClauses f order else .ok f

def ordered (o : Options) (conditions : Conditions) (f : Formula) : Formula :=
  { f with
    metadata := (f.metadata.insert stageTimeKey conditions.searchTime.secondsText).insert stageKey
      o.stage }

/-- The order for a formula, and the formula with its clauses sorted for it. -/
def orderFor (o : Options) (conditions : Conditions) (f : Formula) :
    Action FileSystem (VariableOrder × Formula) := do
  let order ← chooseOrder o conditions f
  let f ← .ofExcept (sorted o f order)
  return (order, ordered o conditions f)

/-! ### Dumps -/

/-- A dump with what is known of the formula, of the compilation and of the reordering. -/
def described (o : Options) (f : Formula) (c : Compilation) (dump : Dump) : Dump :=
  let known := (f.metadata.entries ++ c.metadata.entries).filter fun e => !Dump.isReserved e.1
  { dump with metadata := (dump.metadata.insertAll known).insert reorderingKey o.reordering }

def unnamed : Path := ⟨"formula"⟩

def storeDump (o : Options) (f : Formula) (dump : Dump) : Action FileSystem Path := do
  let cache ← Cache.inDirectory o.cacheDirectory
  match f.source with
  | some source => cache.storeDiagram source o.engine.stub o.reordering dump
  | none =>
    let path := cache.diagramPath unnamed o.engine.stub o.reordering
    FileSystem.replace path dump.bytes
    return path

def dump (o : Options) (m : Manager σ) (c : Compilation) (f : Formula) :
    Action (World σ) Path := do
  let dump ← World.onEngine (m.dump c.diagram)
  World.onFiles (storeDump o f (described o f c dump))

/-- Where the diagram of a formula is kept, if that may be used. A cache that cannot be made holds
nothing. -/
def cachedDiagram? (o : Options) (f : Formula) : Action FileSystem (Option Path) := do
  if o.useCache && o.useCachedResults then
    match f.source with
    | none => return none
    | some source =>
      match ← (Cache.inDirectory o.cacheDirectory).attempt with
      | .ok cache => .reading (cache.diagram? source o.engine.stub o.reordering)
      | .error _ => return none
  else return none

/-! ### Whole runs -/

def cachedReport (path : Path) (dump : Dump) : Report where
  dumpPath := path
  fromCache := true
  order := dump.diagram.order
  skipped :=
    match dump.metadata.get? Compilation.skippedKey with
    | some text => (Numeral.word64 text.toList).toOption.getD 0
    | none => 0
  metadata := dump.metadata

def prepare (o : Options) (m : Manager σ) (f : Formula) (order : VariableOrder) :
    Action σ Unit := do
  m.declareVars f.varCount
  if !order.isEmpty then m.setOrder order
  m.setReordering o.reordering

def freshReport (path : Path) (order : VariableOrder) (f : Formula) (c : Compilation) : Report where
  dumpPath := path
  fromCache := false
  order := order
  skipped := c.skipped
  metadata := f.metadata.insertAll c.metadata.entries

/-- Compiles a formula with an engine and dumps the diagram, which is released after that. -/
def compileWith (o : Options) (m : Manager σ) (f : Formula) (order : VariableOrder) :
    Action (World σ) Report := do
  let c ← World.onEngine (do
    prepare o m f order
    Compilation.compile m f none)
  let path ← (dump o m c f).ensuring (World.mapEngine (m.release c.diagram))
  return freshReport path order f c

def compileFormula (o : Options) (conditions : Conditions) (provider : Provider σ) (f : Formula) :
    Action (World σ) Report := do
  let (order, f) ← World.onFiles (orderFor o conditions f)
  let m ← World.onEngine provider.acquire
  (compileWith o m f order).ensuring (World.mapEngine provider.dispose)

/-- Answers from the cache if it can and compiles otherwise. -/
def answer (o : Options) (conditions : Conditions) (provider : Provider σ) (f : Formula) :
    Action (World σ) Report := do
  match ← World.onFiles (cachedDiagram? o f) with
  | some path =>
    let dump ← World.onFiles (.asking (Dump.ofFile path))
    return cachedReport path dump
  | none => compileFormula o conditions provider f

def run (o : Options) (conditions : Conditions) (provider : Provider σ) (path : Path) :
    Action (World σ) Report := do
  let f ← World.onFiles (.asking (Formula.ofFile path))
  let ticket ← World.onFiles (do
    let cache ← Cache.inDirectory o.cacheDirectory
    cache.lock path)
  (answer o conditions provider f).ensuring (World.mapFiles (FileSystem.unlock ticket))

end Run
end DiagramCompiler
