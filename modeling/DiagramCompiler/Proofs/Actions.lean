import DiagramCompiler.Action

/-! Actions one after the other.
An action that goes on with the value of another one answers as the first one does if that fails,
and has a value only if both have one. What holds of a state after every failure, and of each value
with the state that it comes with, is put together in the same way. -/
namespace DiagramCompiler
namespace Action

variable {σ α β : Type} {a : Action σ α} {s s' : σ}

theorem run_bind_of_ok {value : α} (h : a.run s = (.ok value, s')) (next : α → Action σ β) :
    (a >>= next).run s = (next value).run s' := by
  rw [run_bind, h]

theorem run_bind_of_error {failure : Failure} (h : a.run s = (.error failure, s'))
    (next : α → Action σ β) : (a >>= next).run s = (.error failure, s') := by
  rw [run_bind, h]

theorem exists_of_run_bind {next : α → Action σ β} {value : β}
    (h : (a >>= next).run s = (.ok value, s')) :
    ∃ first between, a.run s = (.ok first, between) ∧ (next first).run between = (.ok value, s') := by
  rw [run_bind] at h
  split at h
  · next first between ha => exact ⟨first, between, ha, h⟩
  · exact absurd (congrArg Prod.fst h) (by simp)

instance : LawfulMonad (Action σ) :=
  .mk' (Action σ)
    (fun a => funext fun s => by
      show andThen a pure s = a s
      rw [andThen]
      cases a s with
      | mk answer s' => cases answer <;> rfl)
    (fun _ _ => rfl)
    (fun a next later => funext fun s => by
      show andThen (andThen a next) later s = andThen a (fun value => andThen (next value) later) s
      rw [andThen, andThen, andThen]
      cases a s with
      | mk answer s' => cases answer <;> rfl)

/-! ### Conditions on ends -/

/-- Whether a condition holds of the state after an action that fails, and another one of the value
and the state after one that does not. -/
structure Ends (a : Action σ α) (s : σ) (fails : σ → Prop) (gives : α → σ → Prop) : Prop where
  ok {value : α} {s' : σ} : a.run s = (.ok value, s') → gives value s'
  error {failure : Failure} {s' : σ} : a.run s = (.error failure, s') → fails s'

namespace Ends

variable {fails fails' : σ → Prop} {gives gives' : α → σ → Prop}

theorem of_ok {value : α} (h : a.run s = (.ok value, s')) (hend : gives value s') :
    a.Ends s fails gives where
  ok hrun := by
    obtain ⟨rfl, rfl⟩ : value = _ ∧ s' = _ := by simpa using h.symm.trans hrun
    exact hend
  error hrun := absurd (h.symm.trans hrun) (by simp)

theorem of_error {failure : Failure} (h : a.run s = (.error failure, s')) (hend : fails s') :
    a.Ends s fails gives where
  ok hrun := absurd (h.symm.trans hrun) (by simp)
  error hrun := by
    obtain ⟨-, rfl⟩ : failure = _ ∧ s' = _ := by simpa using h.symm.trans hrun
    exact hend

theorem of_run (a : Action σ α) (s : σ) :
    a.Ends s (fun s' => ∃ failure, a.run s = (.error failure, s'))
      fun value s' => a.run s = (.ok value, s') :=
  ⟨fun h => h, fun h => ⟨_, h⟩⟩

theorem mono (h : a.Ends s fails gives) (hfails : ∀ s', fails s' → fails' s')
    (hgives : ∀ value s', gives value s' → gives' value s') : a.Ends s fails' gives' where
  ok hrun := hgives _ _ (h.ok hrun)
  error hrun := hfails _ (h.error hrun)

theorem cases (h : a.Ends s fails gives) :
    (∃ failure s', a.run s = (.error failure, s') ∧ fails s') ∨
      ∃ value s', a.run s = (.ok value, s') ∧ gives value s' := by
  cases hrun : a.run s with
  | mk answer s' =>
    cases answer with
    | ok value => exact .inr ⟨value, s', rfl, h.ok hrun⟩
    | error failure => exact .inl ⟨failure, s', rfl, h.error hrun⟩

theorem bind_of_ok {next : α → Action σ β} {ends : β → σ → Prop} {value : α}
    (hrun : a.run s = (.ok value, s')) (h : (next value).Ends s' fails ends) :
    (a >>= next).Ends s fails ends where
  ok h' := h.ok (run_bind_of_ok hrun next ▸ h')
  error h' := h.error (run_bind_of_ok hrun next ▸ h')

theorem bind {next : α → Action σ β} {ends : β → σ → Prop} (h : a.Ends s fails gives)
    (hnext : ∀ value s', gives value s' → (next value).Ends s' fails ends) :
    (a >>= next).Ends s fails ends := by
  rcases h.cases with ⟨failure, s', hrun, hfails⟩ | ⟨value, s', hrun, hgives⟩
  · exact .of_error (run_bind_of_error hrun next) hfails
  · exact .bind_of_ok hrun (hnext value s' hgives)

theorem pure {value : α} (h : gives value s) : (Pure.pure value : Action σ α).Ends s fails gives :=
  .of_ok rfl h

theorem ofExcept {answer : Except Failure α} (hfails : fails s)
    (hgives : ∀ value, answer = .ok value → gives value s) :
    (Action.ofExcept answer).Ends s fails gives := by
  cases answer with
  | ok value => exact .of_ok rfl (hgives value rfl)
  | error failure => exact .of_error rfl hfails

theorem reading {read : σ → α} (h : gives (read s) s) : (Action.reading read).Ends s fails gives :=
  .of_ok rfl h

theorem reading_bind {read : σ → α} {next : α → Action σ β} {ends : β → σ → Prop}
    (h : (next (read s)).Ends s fails ends) : (Action.reading read >>= next).Ends s fails ends :=
  ⟨h.ok, h.error⟩

theorem asking {answer : σ → Except Failure α} (hfails : fails s)
    (hgives : ∀ value, answer s = .ok value → gives value s) :
    (Action.asking answer).Ends s fails gives := by
  cases h : answer s with
  | ok value => exact .of_ok (congrArg (·, s) h) (hgives value h)
  | error failure => exact .of_error (congrArg (·, s) h) hfails

theorem of_state {holds : σ → Prop} (h : holds (a.run s).2) : a.Ends s holds fun _ => holds where
  ok hrun := by rwa [hrun] at h
  error hrun := by rwa [hrun] at h

theorem attempt (h : a.Ends s fails gives) :
    a.attempt.Ends s (fun _ => False) fun answer s' =>
      (∃ failure, answer = .error failure ∧ fails s') ∨
        ∃ value, answer = .ok value ∧ gives value s' := by
  refine .of_ok (run_attempt a s) ?_
  rcases h.cases with ⟨failure, s', hrun, hfails⟩ | ⟨value, s', hrun, hgives⟩
  · exact .inl ⟨failure, by rw [hrun], by rwa [hrun]⟩
  · exact .inr ⟨value, by rw [hrun], by rwa [hrun]⟩

theorem ensuring {after : σ → σ} (h : a.Ends s (fun s' => fails (after s'))
    fun value s' => gives value (after s')) : (a.ensuring after).Ends s fails gives := by
  have hafter := run_ensuring a after s
  cases hrun : a.run s with
  | mk answer s' =>
    rw [hrun] at hafter
    cases answer with
    | ok value => exact .of_ok hafter (h.ok hrun)
    | error failure => exact .of_error hafter (h.error hrun)

theorem mapM {holds : σ → Prop} {act : α → Action σ β} (hs : holds s)
    (hact : ∀ {s} value, holds s → (act value).Ends s holds fun _ => holds) (values : List α) :
    (values.mapM act).Ends s holds fun _ => holds := by
  induction values generalizing s with
  | nil => exact .pure hs
  | cons value values ih =>
    rw [List.mapM_cons]
    refine (hact value hs).bind fun result s₁ hfirst => ?_
    refine (ih hfirst).bind fun results s₂ hrest => ?_
    exact .pure hrest

end Ends

end Action
end DiagramCompiler
