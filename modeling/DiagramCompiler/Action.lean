import DiagramCompiler.Failure

/-! Actions.
An action reads and changes a state and answers with a value or a failure. What it did before it
failed stays done. -/
namespace DiagramCompiler

def Action (σ α : Type) : Type := σ → Except Failure α × σ

namespace Action

variable {σ α β : Type}

def run (a : Action σ α) (s : σ) : Except Failure α × σ := a s

def andThen (a : Action σ α) (next : α → Action σ β) : Action σ β := fun s =>
  match a s with
  | (.ok value, s) => next value s
  | (.error failure, s) => (.error failure, s)

instance : Monad (Action σ) where
  pure value := fun s => (.ok value, s)
  bind := andThen

@[simp] theorem run_pure (value : α) (s : σ) : (pure value : Action σ α).run s = (.ok value, s) :=
  rfl

theorem run_bind (a : Action σ α) (next : α → Action σ β) (s : σ) :
    (a >>= next).run s =
      match a.run s with
      | (.ok value, s) => (next value).run s
      | (.error failure, s) => (.error failure, s) := rfl

def fail (failure : Failure) : Action σ α := fun s => (.error failure, s)

def ofExcept (answer : Except Failure α) : Action σ α := fun s => (answer, s)

def reading (read : σ → α) : Action σ α := fun s => (.ok (read s), s)

def asking (answer : σ → Except Failure α) : Action σ α := fun s => (answer s, s)

def change (f : σ → σ) : Action σ Unit := fun s => (.ok (), f s)

/-- An action followed by a change that happens even if the action fails. -/
def ensuring (a : Action σ α) (after : σ → σ) : Action σ α := fun s =>
  match a s with
  | (answer, s) => (answer, after s)

def attempt (a : Action σ α) : Action σ (Except Failure α) := fun s =>
  match a s with
  | (answer, s) => (.ok answer, s)

@[simp] theorem run_fail (failure : Failure) (s : σ) :
    (fail failure : Action σ α).run s = (.error failure, s) := rfl

@[simp] theorem run_ofExcept (answer : Except Failure α) (s : σ) :
    (ofExcept answer).run s = (answer, s) := rfl

@[simp] theorem run_reading (read : σ → α) (s : σ) : (reading read).run s = (.ok (read s), s) := rfl

@[simp] theorem run_asking (answer : σ → Except Failure α) (s : σ) :
    (asking answer).run s = (answer s, s) := rfl

@[simp] theorem run_change (f : σ → σ) (s : σ) : (change f).run s = (.ok (), f s) := rfl

@[simp] theorem run_ensuring (a : Action σ α) (after : σ → σ) (s : σ) :
    (a.ensuring after).run s = ((a.run s).1, after (a.run s).2) := rfl

@[simp] theorem run_attempt (a : Action σ α) (s : σ) :
    a.attempt.run s = (.ok (a.run s).1, (a.run s).2) := rfl

end Action
end DiagramCompiler
