import Mathlib.Data.Multiset.ZeroCons
import DiagramCompiler.Proofs.HandleCanonicity

/-! Contracts of engines.
A contract says what the references of an engine stand for and which of them are held: one that was
handed out is held until it is given back. An operation on held references hands out one that stands
for what the operation says, or it fails; either way all that is held goes on standing for the same.
The reference engine keeps such a contract. -/
namespace DiagramCompiler

/-- What references stand for, as functions of the values of variables, and which of them are held,
each as often as it was handed out and not given back. -/
structure Semantics (σ : Type) where
  meaning : σ → NodeRef → (Nat → Bool) → Bool
  holds : σ → Multiset NodeRef → Prop

namespace Semantics

variable {σ : Type} (M : Semantics σ)

def Agrees (refs : Multiset NodeRef) (s s' : σ) : Prop :=
  ∀ node ∈ refs, M.meaning s' node = M.meaning s node

/-- Whether an action leaves all that is held as it is and, unless it fails, hands out one more
reference, which stands for a function. -/
structure Gives (a : Action σ NodeRef) (s : σ) (refs : Multiset NodeRef)
    (f : (Nat → Bool) → Bool) : Prop where
  agrees : M.Agrees refs s (a.run s).2
  ok {node : NodeRef} (h : (a.run s).1 = .ok node) :
    M.holds (a.run s).2 (node ::ₘ refs) ∧ M.meaning (a.run s).2 node = f
  error {failure : Failure} (h : (a.run s).1 = .error failure) : M.holds (a.run s).2 refs

/-- Whether a state that an action leads to has the same references, which stand for the same. -/
structure Stays (s : σ) (refs : Multiset NodeRef) (s' : σ) : Prop where
  agrees : M.Agrees refs s s'
  holds : M.holds s' refs

variable {M}

theorem Agrees.trans {refs : Multiset NodeRef} {s s' s'' : σ} (h : M.Agrees refs s s')
    (h' : M.Agrees refs s' s'') : M.Agrees refs s s'' :=
  fun node hnode => (h' node hnode).trans (h node hnode)

theorem Agrees.of_cons {node : NodeRef} {refs : Multiset NodeRef} {s s' : σ}
    (h : M.Agrees (node ::ₘ refs) s s') : M.Agrees refs s s' :=
  fun other hother => h other (Multiset.mem_cons_of_mem hother)

end Semantics

def Capabilities.firstVar (c : Capabilities) : Nat := if c.zeroBased then 0 else 1

/-- A semantics that the operations of an engine keep to. Variables are the engine's own; an order
places each of them once. -/
structure Engine.Contract {σ : Type} (e : Engine σ) extends Semantics σ where
  zero {s : σ} {refs : Multiset NodeRef} (h : holds s refs) :
    toSemantics.Gives e.zero s refs fun _ => false
  one {s : σ} {refs : Multiset NodeRef} (h : holds s refs) :
    toSemantics.Gives e.one s refs fun _ => true
  var {s : σ} {refs : Multiset NodeRef} (h : holds s refs) (v : Nat) :
    toSemantics.Gives (e.var v) s refs fun values => values v
  negatedVar {s : σ} {refs : Multiset NodeRef} (h : holds s refs) (v : Nat) :
    toSemantics.Gives (e.negatedVar v) s refs fun values => !values v
  negate {s : σ} {refs : Multiset NodeRef} (h : holds s refs) {node : NodeRef} (hnode : node ∈ refs) :
    toSemantics.Gives (e.negate node) s refs fun values => !meaning s node values
  apply {s : σ} {refs : Multiset NodeRef} (h : holds s refs) (op : BinaryOp) {lhs rhs : NodeRef}
    (hlhs : lhs ∈ refs) (hrhs : rhs ∈ refs) (limit : Option Duration) :
    toSemantics.Gives (e.apply op lhs rhs limit) s refs fun values =>
      op.eval (meaning s lhs values) (meaning s rhs values)
  release {s : σ} {refs : Multiset NodeRef} {node : NodeRef} (h : holds s (node ::ₘ refs)) :
    toSemantics.Stays s refs (e.release node s)
  declare {s : σ} {refs : Multiset NodeRef} (h : holds s refs) (count : Nat) :
    toSemantics.Stays s refs ((e.declare count).run s).2
  setOrder {s : σ} {refs : Multiset NodeRef} (h : holds s refs) {order : List Nat}
    (horder : order.Perm (List.range' e.capabilities.firstVar order.length)) :
    toSemantics.Stays s refs ((e.setOrder order).run s).2
  enableReordering {s : σ} {refs : Multiset NodeRef} (h : holds s refs) (algorithm : Int) :
    toSemantics.Stays s refs ((e.enableReordering algorithm).run s).2
  disableReordering {s : σ} {refs : Multiset NodeRef} (h : holds s refs) :
    toSemantics.Stays s refs (e.disableReordering.run s).2

/-- An order of a formula's variables places each variable of the engine once. -/
theorem Manager.perm_engineVars {σ : Type} (m : Manager σ) (o : VariableOrder) :
    (o.toList.map m.engineVar).Perm
      (List.range' m.capabilities.firstVar (o.toList.map m.engineVar).length) := by
  have hrange : (List.range' 1 o.length).map m.engineVar =
      List.range' m.capabilities.firstVar o.length := by
    refine List.ext_getElem (by simp) fun i h _ => ?_
    rw [List.getElem_map, List.getElem_range', List.getElem_range', engineVar,
      Capabilities.firstVar]
    split <;> omega
  rw [List.length_map]
  exact hrange ▸ o.perm_range'.map m.engineVar

/-! ### The contract of the reference engine -/

namespace Reference

/-- Handles stand for what the table says of their numbers, and each of the table may be held. -/
def semantics : Semantics State where
  meaning s node values := s.table.eval values node.number
  holds s refs := s.table.Sound ∧ ∀ node ∈ refs, s.Holds node

theorem semantics_meaning (s : State) (node : NodeRef) (values : Nat → Bool) :
    semantics.meaning s node values = s.meaning node fun v => values (v - 1) := rfl

theorem semantics_agrees {s s' : State} {refs : Multiset NodeRef}
    (h : ∀ node ∈ refs, s'.meaning node = s.meaning node) : semantics.Agrees refs s s' := by
  intro node hnode
  funext values
  rw [semantics_meaning, semantics_meaning, h node hnode]

theorem Builds.gives {a : Action State NodeRef} {s : State} {f g : (Nat → Bool) → Bool}
    (h : Builds a s f) {refs : Multiset NodeRef} (hs : semantics.holds s refs)
    (hf : ∀ values, g values = f fun v => values (v - 1)) : semantics.Gives a s refs g where
  agrees := semantics_agrees fun _ hnode => h.advances.meaning_eq hs.1 (hs.2 _ hnode)
  ok {node} hok := by
    obtain ⟨hholds, hmeaning⟩ := h.means hok
    refine ⟨⟨h.advances.sound, fun other hother => ?_⟩, ?_⟩
    · rcases Multiset.mem_cons.1 hother with rfl | hother
      · exact hholds
      · exact h.advances.holds (hs.2 _ hother)
    · funext values
      rw [semantics_meaning, hmeaning, hf]
  error _ := ⟨h.advances.sound, fun _ hnode => h.advances.holds (hs.2 _ hnode)⟩

theorem State.Keeps.stays {s s' : State} (h : s.Keeps s') {refs : Multiset NodeRef}
    (hs : semantics.holds s refs) : semantics.Stays s refs s' where
  agrees := semantics_agrees fun _ hnode => h.meaning_eq (hs.2 _ hnode)
  holds := ⟨h.sound, fun _ hnode => h.holds (hs.2 _ hnode)⟩

theorem run_declare_keeps {s : State} (hs : s.table.Sound) (count : Nat) :
    s.Keeps ((declare count).run s).2 := by
  have h := declare_keeps hs none count
  by_cases hcount : 0 < count
  · rwa [Manager.declareVars, if_pos ⟨rfl, hcount⟩] at h
  · obtain rfl : count = 0 := by omega
    refine .of_table_eq hs ?_
    simp [declare, Memory.maxVars]

theorem run_setOrder_keeps {s : State} (hs : s.table.Sound) {order : List Nat}
    (horder : order.Perm (List.range' 0 order.length)) : s.Keeps ((setOrder order).run s).2 := by
  rw [Action.run, setOrder]
  split
  · exact .refl hs
  · next hempty =>
    split
    · exact .refl hs
    · refine State.keeps_withOrder hs ?_ (.inl (by simpa using hempty))
      rwa [List.range_eq_range']

theorem stays_of_table_eq {s s' : State} {refs : Multiset NodeRef} (hs : semantics.holds s refs)
    (h : s'.table = s.table) : semantics.Stays s refs s' :=
  (State.Keeps.of_table_eq hs.1 h).stays hs

def contract : engine.Contract where
  toSemantics := semantics
  zero hs := (zero_builds hs.1 none).gives hs fun _ => rfl
  one hs := (one_builds hs.1 none).gives hs fun _ => rfl
  var hs v := (var_builds hs.1 v).gives hs fun _ => rfl
  negatedVar hs v := (negatedVar_builds hs.1 v).gives hs fun _ => rfl
  negate hs node hnode := (negate_builds hs.1 (hs.2 node hnode)).gives hs fun _ => rfl
  apply hs op lhs rhs hlhs hrhs limit :=
    (apply_builds hs.1 op (hs.2 lhs hlhs) (hs.2 rhs hrhs) limit).gives hs fun _ => rfl
  release hs :=
    stays_of_table_eq ⟨hs.1, fun _ hnode => hs.2 _ (Multiset.mem_cons_of_mem hnode)⟩ rfl
  declare hs count := (run_declare_keeps hs.1 count).stays hs
  setOrder hs _ horder := (run_setOrder_keeps hs.1 horder).stays hs
  enableReordering hs _ := stays_of_table_eq hs rfl
  disableReordering hs := stays_of_table_eq hs rfl

end Reference
end DiagramCompiler
