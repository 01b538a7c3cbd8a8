import DiagramCompiler.Proofs.EngineParts
import DiagramCompiler.Proofs.RecordedEngines
import DiagramCompiler.Proofs.RunOutcomes

/-! Records of whole runs.
A run with a recorded engine does what the run does: with the record left out, every action that it
is put together from answers the same and leaves the same state. -/
namespace DiagramCompiler

variable {σ α : Type}

theorem Action.Projects.recorded (a : Action σ α) (operation : Operation) :
    Action.Projects Prod.fst (a.recorded operation) a := fun _ => rfl

/-- A binary operation that comes too late is recorded as one that timed out, but answers what it
did. -/
theorem Engine.projects_recorded (e : Engine σ) : e.recorded.Projects Prod.fst e where
  name := rfl
  stub := rfl
  capabilities := rfl
  zero := .recorded _ _
  one := .recorded _ _
  var _ := .recorded _ _
  negatedVar _ := .recorded _ _
  negate _ := .recorded _ _
  apply _ _ _ _ := fun _ => rfl
  release _ _ := rfl
  declare _ := .recorded _ _
  setOrder _ := .recorded _ _
  enableReordering _ := .recorded _ _
  disableReordering := .recorded _ _
  dump _ := .recorded _ _
  now _ := rfl

theorem Manager.projects_recorded (m : Manager σ) : Manager.Projects Prod.fst m.recorded m :=
  ⟨m.engine.projects_recorded, rfl⟩

theorem Compilation.projects_compile (m : Manager σ) (f : Formula) :
    Action.Projects Prod.fst (compile m.recorded f none) (compile m f none) :=
  m.projects_recorded.compile f none

/-! ### Runs -/

def Provider.recorded (provider : Provider σ) : Provider (Recorded σ) where
  acquire := fun (s, log) =>
    match provider.acquire s with
    | (answer, s) => (answer.map Manager.recorded, s, log)
  dispose := Prod.map provider.dispose id

theorem Provider.run_acquire_recorded (provider : Provider σ) (s : σ) (log : List Performed) :
    provider.recorded.acquire.run (s, log) =
      ((provider.acquire.run s).1.map Manager.recorded, (provider.acquire.run s).2, log) := rfl

namespace World

def erased (w : World (Recorded σ)) : World σ := ⟨w.files, w.engine.1⟩

theorem projects_onFiles (a : Action FileSystem α) :
    Action.Projects (@erased σ) (onFiles a) (onFiles a) := fun _ => rfl

theorem projects_onEngine {a' : Action (Recorded σ) α} {a : Action σ α}
    (h : Action.Projects Prod.fst a' a) :
    Action.Projects erased (onEngine a') (onEngine a) := fun w => run_onEngine (h w.engine)

/-- What goes on with an engine that was acquired goes on with a recorded one. -/
theorem projects_acquire {β : Type} (provider : Provider σ)
    {next' : Manager (Recorded σ) → Action (World (Recorded σ)) β}
    {next : Manager σ → Action (World σ) β}
    (hnext : ∀ m, Action.Projects erased (next' m.recorded) (next m)) :
    Action.Projects erased (onEngine provider.recorded.acquire >>= next')
      (onEngine provider.acquire >>= next) := by
  rintro ⟨files, s, log⟩
  have hrecorded := provider.run_acquire_recorded s log
  cases hrun : provider.acquire.run s with
  | mk answer s' =>
    rw [hrun] at hrecorded
    have hplain : (onEngine provider.acquire).run (erased ⟨files, s, log⟩) = (answer, ⟨files, s'⟩) :=
      run_onEngine hrun
    have hwritten : (onEngine provider.recorded.acquire).run ⟨files, s, log⟩ =
        (answer.map Manager.recorded, ⟨files, s', log⟩) := run_onEngine hrecorded
    cases answer with
    | ok m =>
      rw [Action.run_bind_of_ok hplain, Action.run_bind_of_ok hwritten]
      exact hnext m ⟨files, s', log⟩
    | error failure =>
      rw [Action.run_bind_of_error hplain, Action.run_bind_of_error hwritten]
      rfl

end World

namespace Run

variable (o : Options) (m : Manager σ)

theorem projects_prepare (f : Formula) (order : VariableOrder) :
    Action.Projects Prod.fst (prepare o m.recorded f order) (prepare o m f order) := by
  have hreordering := m.projects_recorded.setReordering o.reordering
  refine .bind (m.projects_recorded.declareVars f.varCount) fun _ => ?_
  exact .ite (.bind (.recorded _ _) fun _ => hreordering) hreordering

theorem projects_compileWith (f : Formula) (order : VariableOrder) :
    Action.Projects World.erased (compileWith o m.recorded f order) (compileWith o m f order) := by
  have hcompile : Action.Projects Prod.fst
      (do prepare o m.recorded f order; Compilation.compile m.recorded f none)
      (do prepare o m f order; Compilation.compile m f none) :=
    .bind (projects_prepare o m f order) fun _ => Compilation.projects_compile m f
  refine .bind (World.projects_onEngine hcompile) fun c => ?_
  have hdump : Action.Projects World.erased (dump o m.recorded c f) (dump o m c f) := by
    refine .bind (World.projects_onEngine (m.projects_recorded.dump c.diagram)) fun d => ?_
    exact World.projects_onFiles _
  refine .bind (.ensuring hdump fun _ => rfl) fun path => ?_
  exact .pure _

/-- A run with the recorded engine answers what the run does, and leaves the same files and the same
state of the engine. -/
theorem projects_run (conditions : Conditions) (provider : Provider σ) (input : Path) :
    Action.Projects World.erased (run o conditions provider.recorded input)
      (run o conditions provider input) := by
  refine .bind (World.projects_onFiles _) fun f => ?_
  refine .bind (World.projects_onFiles _) fun ticket => ?_
  refine .ensuring ?_ fun _ => rfl
  refine .bind (World.projects_onFiles _) fun found => ?_
  cases found with
  | some path => exact .bind (World.projects_onFiles _) fun d => .pure _
  | none =>
    refine .bind (World.projects_onFiles _) fun value => ?_
    exact World.projects_acquire provider fun m =>
      .ensuring (projects_compileWith o m value.2 value.1) fun _ => rfl

end Run

end DiagramCompiler
