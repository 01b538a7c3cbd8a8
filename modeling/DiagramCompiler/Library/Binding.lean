import DiagramCompiler.Library.Buddy
import DiagramCompiler.Library.Cudd
import DiagramCompiler.Manager

/-! The bindings by kind.
Every kind of engine has a binding, which is launched before its engine is used and closed after
the last diagram is released. -/
namespace DiagramCompiler
namespace Library
namespace Host

variable {σ : Type}

def engine (h : Host σ) : EngineKind → Engine (Session σ)
  | .buddy => Buddy.engine h
  | .cudd => Cudd.engine h

def close (h : Host σ) : EngineKind → Session σ → Session σ
  | .buddy => Buddy.close h
  | .cudd => Cudd.close h

def manager (h : Host σ) (kind : EngineKind) (directory : Option Path) (bound : Option Duration) :
    Action (Session σ) (Manager (Session σ)) := do
  match kind with
  | .buddy => Buddy.launch h directory
  | .cudd => Cudd.launch h directory
  return ⟨h.engine kind, bound⟩

end Host
end Library
end DiagramCompiler
