import DiagramCompiler.Engine
import DiagramCompiler.Library.Call
import DiagramCompiler.Options

/-! Sessions with native libraries.
A session calls libraries, whose state is kept with it, and remembers every call. A library is
loaded from a directory if one is given and otherwise by the system, and has to export all functions
that a binding uses. -/
namespace DiagramCompiler
namespace Library

/-- What libraries there are, what they do and how long that takes. -/
structure Host (σ : Type) where
  /-- The functions exported by the library at a path, if there is one. -/
  load : Path → Option (String → Bool)
  perform : Call → σ → Answer × σ
  time : Call → σ → Duration
  /-- How many variables beyond those asked for are made before a library is given up that still
  counts too few. -/
  patience : Nat

structure Session (σ : Type) where
  /-- The state of the libraries. -/
  library : σ
  /-- The calls made so far, the last first. -/
  calls : List Call
  /-- Whether BuDDy is in use; it keeps its state in one place for the whole session. -/
  buddyOpen : Bool
  clock : Duration

namespace Session

def fresh {σ : Type} (library : σ) : Session σ := ⟨library, [], false, .zero⟩

/-- The calls made so far in order, and the session without them. -/
def takeCalls {σ : Type} (p : Session σ) : List Call × Session σ :=
  (p.calls.reverse, { p with calls := [] })

end Session

namespace Host

variable {σ : Type}

def call (h : Host σ) (c : Call) (p : Session σ) : Answer × Session σ :=
  let (answer, library) := h.perform c p.library
  (answer, { p with
    library := library
    calls := c :: p.calls
    clock := p.clock + h.time c p.library })

def answer (h : Host σ) (c : Call) : Action (Session σ) Answer := fun p =>
  let (answer, p) := h.call c p
  (.ok answer, p)

def effect (h : Host σ) (c : Call) (p : Session σ) : Session σ := (h.call c p).2

def doing (h : Host σ) (c : Call) : Action (Session σ) Unit := .change (h.effect c)

def notLoaded (file : String) : String :=
  file ++ ": cannot open shared object file: No such file or directory"

/-- The first of some libraries that can be loaded, with what it exports. -/
def firstLoaded (h : Host σ) : List Path → Option (Path × (String → Bool))
  | [] => none
  | path :: paths =>
    match h.load path with
    | some exported => some (path, exported)
    | none => h.firstLoaded paths

def require (h : Host σ) (file hint : String) (symbols : List String) (directory : Option Path) :
    Except Failure Unit :=
  let candidates := (directory.map fun d => d.join file).toList ++ [⟨file⟩]
  match h.firstLoaded candidates with
  | none => .error (.engineUnavailable file (notLoaded file) hint)
  | some (path, exported) =>
    match symbols.find? fun s => !exported s with
    | some missing =>
      .error (.engineUnavailable file
        ("missing symbol " ++ missing ++ ": " ++ path.text ++ ": undefined symbol: " ++ missing)
        hint)
    | none => .ok ()

end Host

def bareHost : Host Unit where
  load _ := none
  perform _ s := (.ofInt 0, s)
  time _ _ := .zero
  patience := 0

/-- The largest number that the libraries take for a variable, a count or a node. -/
def maxInt : Nat := 2147483647

def nativeText (name : String) (content : Option Bytes) : Except Failure String :=
  match (content.getD []).text? with
  | some text => .ok text
  | none => .error (.engine name ("native dump is not text: " ++ FileFault.notText.message))

/-- The variables sorted by their levels; variables of one level are sorted by number. -/
def sortByLevel (levels : List (Int × Nat)) : List Nat :=
  (levels.mergeSort fun a b => a.1 < b.1 || (a.1 = b.1 && a.2 ≤ b.2)).map Prod.snd

end Library
end DiagramCompiler
