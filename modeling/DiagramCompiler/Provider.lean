import DiagramCompiler.Engine.Reference
import DiagramCompiler.Library.Binding

/-! Providers of engines.
An engine is acquired with a manager before it is used, and disposed of after its last diagram was
released. -/
namespace DiagramCompiler

structure Provider (σ : Type) where
  acquire : Action σ (Manager σ)
  /-- Ends the use of an engine that was acquired. -/
  dispose : σ → σ

namespace Provider

def reference (o : Options) : Provider Reference.State where
  acquire := pure ⟨Reference.engine, o.operationBound⟩
  dispose := id

/-- The native engine of the options, as far as the libraries of a host allow it. -/
def native {σ : Type} (host : Library.Host σ) (o : Options) : Provider (Library.Session σ) where
  acquire := host.manager o.engine o.libraryDirectory o.operationBound
  dispose := host.close o.engine

end Provider
end DiagramCompiler
