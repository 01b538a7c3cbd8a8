import DiagramCompiler.Proofs.Canonicity
import DiagramCompiler.Proofs.Dictionaries
import DiagramCompiler.Proofs.Handles
import DiagramCompiler.Proofs.WellFormedDiagrams
import DiagramCompiler.Workbench

/-! Canonicity of handles.
Commands are given one after the other to a workbench of the reference engine. Whatever they are and
whichever of them fail, a handle stands for what its command prescribes, keeps standing for it, and
is the same as another handle exactly if both stand for the same function. The induction is on the
commands; what one command keeps is that the table is sound and has all handles in slots. -/
namespace DiagramCompiler

/-- The truth function that the result of a command should have, given those of its operands. -/
def Command.prescribed? (operand : String → Option ((Nat → Bool) → Bool)) :
    Command → Option ((Nat → Bool) → Bool)
  | .zero _ => some fun _ => false
  | .one _ => some fun _ => true
  | .literal l _ => some l.eval
  | .negate slot _ => do
    let f ← operand slot
    return fun assignment => !f assignment
  | .consume op lhs rhs _ | .retain op lhs rhs _ => do
    let f ← operand lhs
    let g ← operand rhs
    return fun assignment => op.eval (f assignment) (g assignment)
  | .info | .declare _ | .order _ | .reorder _ | .drop _ | .dump _ => none

def Reply.handle? : Reply → Option NodeRef
  | .node handle => some handle
  | _ => none

/-- A workbench with the state of its engine and all replies so far. -/
structure Bench (σ : Type) where
  slots : Slots
  state : σ
  replies : List Reply

namespace Bench

variable {σ : Type}

def step (m : Manager σ) (b : Bench σ) (c : Command) : Bench σ :=
  match Workbench.run m c b.slots b.state with
  | (reply, slots, s) => ⟨slots, s, b.replies ++ [reply]⟩

def after (m : Manager σ) (b : Bench σ) (cs : List Command) : Bench σ := cs.foldl (step m) b

/-- All handles handed out so far, those given back included. -/
def handles (b : Bench σ) : List NodeRef := b.replies.filterMap Reply.handle?

end Bench

namespace Reference

def bench (failing : Option Nat) (delay : Duration) : Bench State :=
  ⟨.empty, .fresh failing delay, []⟩

namespace State

/-- Whether all handles of a state are handles of another one with the same meanings. -/
structure Keeps (s s' : State) : Prop where
  sound : s'.table.Sound
  holds : ∀ {node}, s.Holds node → s'.Holds node
  meaning_eq : ∀ {node}, s.Holds node → s'.meaning node = s.meaning node

namespace Keeps

variable {s s' s'' : State}

theorem refl (hs : s.table.Sound) : s.Keeps s := ⟨hs, id, fun _ => rfl⟩

theorem of_table_eq (hs : s.table.Sound) (h : s'.table = s.table) : s.Keeps s' where
  sound := by rw [h]; exact hs
  holds hn := by simpa only [Holds, h] using hn
  meaning_eq _ := by
    funext assignment
    simp only [meaning, h]

theorem trans (h : s.Keeps s') (h' : s'.Keeps s'') : s.Keeps s'' :=
  ⟨h'.sound, fun hn => h'.holds (h.holds hn),
    fun hn => (h'.meaning_eq (h.holds hn)).trans (h.meaning_eq hn)⟩

end Keeps

theorem Advances.keeps {s s' : State} (h : s.Advances s') (hs : s.table.Sound) : s.Keeps s' :=
  ⟨h.sound, h.holds, h.meaning_eq hs⟩

def withOrder (s : State) (order : List Nat) : State := { s with table := s.table.withOrder order }

/-- An order that does not move the variable of any node keeps all handles. -/
theorem keeps_withOrder {s : State} (hs : s.table.Sound) {order : List Nat}
    (hperm : order.Perm (List.range order.length))
    (h : s.table.nodes.size = 0 ∨ s.table.order <+: order) :
    s.Keeps (s.withOrder order) := by
  have hsound : (s.table.withOrder order).Sound :=
    hs.withOrder hperm (h.imp_right fun hpre => hpre.length_le)
  refine ⟨hsound, id, fun _ => ?_⟩
  funext assignment
  exact hs.eval_withOrder hsound h _ _

end State

/-! ### Declarations and orders -/

section Order

variable {s : State}

theorem run_declareVars (bound : Option Duration) {count : Nat} (h : count < UInt32.size) :
    ((manager bound).declareVars count).run s = (.ok (), s.withOrder (s.table.order ++
      List.range' s.table.order.length (count - s.table.order.length))) := by
  have hmemory : ¬ Memory.maxVars < count := by
    have : UInt32.size ≤ Memory.maxVars := by decide
    omega
  have hnumber : ¬ UInt32.size ≤ count := Nat.not_le_of_lt h
  by_cases hpos : 0 < count
  · simp [Manager.declareVars, Manager.capabilities, manager, engine, declare, hpos, hmemory, hnumber,
      State.withOrder, Table.withOrder]
  · have hzero : count = 0 := by omega
    simp [Manager.declareVars, hzero, State.withOrder, Table.withOrder]

theorem run_declareVars_of_le (bound : Option Duration) {count : Nat} (h : UInt32.size ≤ count) :
    ∃ failure, ((manager bound).declareVars count).run s = (.error failure, s) := by
  have hpos : 0 < count := Nat.lt_of_lt_of_le (by decide) h
  by_cases hmemory : Memory.maxVars < count
  · exact ⟨.overflow (.variables count), by
      simp [Manager.declareVars, Manager.capabilities, manager, engine, declare, hpos, hmemory]⟩
  · exact ⟨.overflow (.lastVariable (UInt32.size - 1)), by
      simp [Manager.declareVars, Manager.capabilities, manager, engine, declare, hpos, hmemory, h]⟩

theorem declare_keeps (hs : s.table.Sound) (bound : Option Duration) (count : Nat) :
    s.Keeps (((manager bound).declareVars count).run s).2 := by
  by_cases h : count < UInt32.size
  · rw [run_declareVars bound h]
    refine State.keeps_withOrder hs ?_ (.inr (List.prefix_append _ _))
    rw [List.length_append, List.length_range', List.range_eq_range', List.range'_append_1.symm]
    rw [Nat.zero_add, ← List.range_eq_range']
    exact hs.order_perm.append_right _
  · obtain ⟨failure, hrun⟩ := run_declareVars_of_le (s := s) bound (Nat.le_of_not_lt h)
    rw [hrun]
    exact .refl hs

/-- The numbers of an order, counted from 0, are all numbers below its length. -/
theorem perm_range_of_order (o : VariableOrder) :
    (o.toList.map fun v => v - 1).Perm (List.range o.length) := by
  have hrange : (List.range' 1 o.length).map (fun v => v - 1) = List.range o.length := by
    rw [List.map_sub_range' (Nat.le_refl 1), Nat.sub_self, List.range_eq_range']
  exact hrange ▸ o.perm_range'.map fun v => v - 1

theorem run_setOrder (bound : Option Duration) (o : VariableOrder) :
    ((manager bound).setOrder o).run s = (setOrder (o.toList.map fun v => v - 1)).run s := by
  have hvars : o.toList.map (manager bound).engineVar = o.toList.map fun v => v - 1 := by
    simp [Manager.engineVar, Manager.capabilities, manager, engine]
  rw [← hvars]
  rfl

theorem setOrder_keeps (hs : s.table.Sound) (bound : Option Duration) (o : VariableOrder) :
    s.Keeps (((manager bound).setOrder o).run s).2 := by
  rw [run_setOrder, Action.run, setOrder]
  split
  · exact .refl hs
  · next hempty =>
    split
    · exact .refl hs
    · refine State.keeps_withOrder hs ?_ (.inl (by simpa using hempty))
      simpa [VariableOrder.length] using perm_range_of_order o

theorem setReordering_keeps (hs : s.table.Sound) (bound : Option Duration) (stub : String) :
    s.Keeps (((manager bound).setReordering stub).run s).2 := by
  refine .of_table_eq hs ?_
  rw [Manager.setReordering]
  split
  · rfl
  · split <;> rfl

end Order

/-! ### Commands -/

def Filled (slots : Slots) (s : State) : Prop :=
  ∀ slot node, slots.get? slot = some node → s.Holds node

theorem Filled.keeps {slots : Slots} {s s' : State} (h : Filled slots s) (hk : s.Keeps s') :
    Filled slots s' := fun slot node hslot => hk.holds (h slot node hslot)

theorem Filled.erase {slots : Slots} {s : State} (h : Filled slots s) (slot : String) :
    Filled (slots.erase slot) s := fun other node hslot =>
  h other node (Dictionary.get?_of_get?_erase hslot)

theorem Filled.insert {slots : Slots} {s : State} (h : Filled slots s) (into : String)
    {node : NodeRef} (hnode : s.Holds node) : Filled (slots.insert into node) s := by
  intro slot other hslot
  rw [Dictionary.get?_insert] at hslot
  split at hslot
  · exact Option.some.inj hslot ▸ hnode
  · exact h slot other hslot

/-- A diagram that leaves its slot is released, which the table does not notice. -/
theorem exists_store (bound : Option Duration) (into : String) (node : NodeRef) (slots : Slots)
    (s : State) : ∃ s', Workbench.store (manager bound) into node slots s =
      (slots.insert into node, s') ∧ s'.table = s.table := by
  rw [Workbench.store]
  split
  · exact ⟨s, rfl, rfl⟩
  · exact ⟨s.release, rfl, rfl⟩

/-- What a command comes to: all handles keep their meanings, the slots hold handles, and a handle
in the reply stands for what the command prescribes. -/
structure Obeys (c : Command) (slots : Slots) (s : State) (outcome : Reply × Slots × State) :
    Prop where
  keeps : s.Keeps outcome.2.2
  filled : Filled outcome.2.1 outcome.2.2
  prescribed : ∀ {node}, outcome.1.handle? = some node → outcome.2.2.Holds node ∧
    c.prescribed? (fun slot => (slots.get? slot).map s.meaning) = some (outcome.2.2.meaning node)

section Command

variable {s : State} {slots : Slots}

theorem Obeys.of_keeps {c : Command} {reply : Reply} {slots' : Slots} {s' : State}
    (hk : s.Keeps s') (hslots : Filled slots' s) (hreply : reply.handle? = none) :
    Obeys c slots s (reply, slots', s') where
  keeps := hk
  filled := hslots.keeps hk
  prescribed h := by
    rw [hreply] at h
    exact absurd h (by simp)

theorem acting_obeys {c : Command} {a : Action State Unit} (hslots : Filled slots s)
    (hk : s.Keeps (a.run s).2) : Obeys c slots s (Workbench.acting a slots s) := by
  rw [Workbench.acting]
  rcases hr : a.run s with ⟨answer, s'⟩
  rw [hr] at hk
  cases answer with
  | ok _ => exact .of_keeps hk hslots rfl
  | error _ => exact .of_keeps hk hslots rfl

theorem storing_obeys {c : Command} {a : Action State NodeRef} {f : (Nat → Bool) → Bool}
    (bound : Option Duration) (into : String) {slots' : Slots} (hs : s.table.Sound)
    (hslots : Filled slots' s) (h : Builds a s f)
    (hf : c.prescribed? (fun slot => (slots.get? slot).map s.meaning) = some f) :
    Obeys c slots s (Workbench.storing (manager bound) into a slots' s) := by
  rw [Workbench.storing]
  have hk := h.advances.keeps hs
  have hmeans := @h.means
  rcases hr : a.run s with ⟨answer, s'⟩
  rw [hr] at hk hmeans
  cases answer with
  | error _ => exact .of_keeps hk hslots rfl
  | ok node =>
    obtain ⟨hholds, hm⟩ := hmeans rfl
    obtain ⟨s'', hstored, htable⟩ := exists_store bound into node slots' s'
    have hk' := State.Keeps.of_table_eq hk.sound htable
    have hfilled := (hslots.keeps hk).insert into hholds
    simp only [hstored]
    refine ⟨hk.trans hk', hfilled.keeps hk', fun {other} hother => ?_⟩
    obtain rfl : node = other := Option.some.inj hother
    exact ⟨hk'.holds hholds, by rw [hk'.meaning_eq hholds, hm, hf]⟩

theorem dump_obeys (bound : Option Duration) (slot : String) (hs : s.table.Sound)
    (hslots : Filled slots s) :
    Obeys (.dump slot) slots s (Workbench.run (manager bound) (.dump slot) slots s) := by
  have hsame := State.Keeps.refl hs
  rw [Workbench.run]
  cases slots.get? slot with
  | none => exact .of_keeps hsame hslots rfl
  | some node =>
    simp only
    rcases hr : ((manager bound).dump node).run s with ⟨answer, s'⟩
    obtain rfl : s = s' := congrArg Prod.snd hr
    cases answer with
    | ok dump => exact .of_keeps hsame hslots rfl
    | error failure => exact .of_keeps hsame hslots rfl

theorem run_obeys (bound : Option Duration) (c : Command) (hs : s.table.Sound)
    (hslots : Filled slots s) : Obeys c slots s (Workbench.run (manager bound) c slots s) := by
  have hsame := State.Keeps.refl hs
  cases c with
  | info => exact .of_keeps hsame hslots rfl
  | declare count => exact acting_obeys hslots (declare_keeps hs bound count)
  | order vars =>
    rw [Workbench.run]
    cases VariableOrder.ofList? vars with
    | ok order => exact acting_obeys hslots (setOrder_keeps hs bound order)
    | error fault => exact .of_keeps hsame hslots rfl
  | reorder stub => exact acting_obeys hslots (setReordering_keeps hs bound stub)
  | drop slot =>
    rw [Workbench.run]
    cases hslot : slots.get? slot with
    | none => exact .of_keeps hsame hslots rfl
    | some node => exact .of_keeps (.of_table_eq hs rfl) (hslots.erase slot) rfl
  | zero into => exact storing_obeys bound into hs hslots (zero_builds hs bound) rfl
  | one into => exact storing_obeys bound into hs hslots (one_builds hs bound) rfl
  | literal l into => exact storing_obeys bound into hs hslots (literal_builds hs bound l) rfl
  | negate slot into =>
    rw [Workbench.run]
    cases hslot : slots.get? slot with
    | none => exact .of_keeps hsame hslots rfl
    | some node =>
      refine storing_obeys bound into hs hslots (negate_builds hs (hslots _ _ hslot)) ?_
      simp [Command.prescribed?, hslot]
  | consume op lhs rhs into =>
    rw [Workbench.run]
    split
    · next a b ha hb =>
      have hb' := Dictionary.get?_of_get?_erase hb
      refine storing_obeys bound into hs ((hslots.erase lhs).erase rhs)
        (manager_apply_builds hs bound op (hslots _ _ ha) (hslots _ _ hb')) ?_
      simp [Command.prescribed?, ha, hb']
    · exact .of_keeps hsame hslots rfl
  | retain op lhs rhs into =>
    rw [Workbench.run]
    split
    · next a b ha hb =>
      refine storing_obeys bound into hs hslots
        (applyRetaining_builds hs bound op (hslots _ _ ha) (hslots _ _ hb)) ?_
      simp [Command.prescribed?, ha, hb]
    · exact .of_keeps hsame hslots rfl
  | dump slot => exact dump_obeys bound slot hs hslots

end Command

/-! ### Runs -/

/-- What holds of a workbench at any time: its table is sound, and all handles that it ever handed
out are among those of the state. -/
structure Proper (b : Bench State) : Prop where
  sound : b.state.table.Sound
  filled : Filled b.slots b.state
  holds : ∀ {node}, node ∈ b.handles → b.state.Holds node

theorem proper_bench (failing : Option Nat) (delay : Duration) : Proper (bench failing delay) where
  sound := Table.sound_empty
  filled slot node h := by simp [bench] at h
  holds h := by simp [bench, Bench.handles] at h

theorem Proper.step {b : Bench State} (h : Proper b) (bound : Option Duration) (c : Command) :
    Proper (b.step (manager bound) c) ∧ b.state.Keeps (b.step (manager bound) c).state := by
  have ho := run_obeys bound c h.sound h.filled
  rw [Bench.step]
  generalize Workbench.run (manager bound) c b.slots b.state = outcome at ho
  rcases outcome with ⟨reply, slots, s⟩
  refine ⟨⟨ho.keeps.sound, ho.filled, fun {node} hnode => ?_⟩, ho.keeps⟩
  simp only [Bench.handles, List.filterMap_append, List.mem_append] at hnode
  rcases hnode with hold | hnew
  · exact ho.keeps.holds (h.holds hold)
  · exact (ho.prescribed (by simpa using hnew)).1

theorem Proper.after {b : Bench State} (h : Proper b) (bound : Option Duration)
    (cs : List Command) :
    Proper (b.after (manager bound) cs) ∧ b.state.Keeps (b.after (manager bound) cs).state := by
  induction cs generalizing b with
  | nil => exact ⟨h, .refl h.sound⟩
  | cons c cs ih =>
    obtain ⟨hstep, hk⟩ := h.step bound c
    obtain ⟨hrest, hk'⟩ := ih hstep
    exact ⟨hrest, hk.trans hk'⟩

theorem State.meaning_congr {s : State} (hs : s.table.Sound) (node : NodeRef)
    {assignment assignment' : Nat → Bool}
    (h : ∀ v, 1 ≤ v → v ≤ s.table.order.length → assignment v = assignment' v) :
    s.meaning node assignment = s.meaning node assignment' := by
  refine hs.eval_congr node.number fun level _ hlt => ?_
  have := hs.varAt_lt hlt
  exact h _ (by omega) (by omega)

theorem State.eq_iff_meaning_eq {s : State} (hs : s.table.Sound) {node node' : NodeRef}
    (hn : s.Holds node) (hn' : s.Holds node') :
    node = node' ↔ s.meaning node = s.meaning node' := by
  have hnumber : node = node' ↔ node.number = node'.number := by
    cases node
    cases node'
    simp
  rw [hnumber, hs.eq_iff_sameMeaning hn hn']
  constructor
  · intro h
    funext assignment
    exact h _
  · intro h values
    have := congrFun h fun v => values (v - 1)
    simpa [State.meaning] using this

/-- Let any commands be given to a new workbench, then `c`, then any further ones. If `c` hands out
a handle, it stands for what `c` prescribes for its operands. All handles that were handed out by
then stand for the same functions after the further commands, these are functions of the declared
variables, and two handles are the same exactly if their functions are. -/
theorem handles_canonical (bound : Option Duration) (failing : Option Nat) (delay : Duration)
    (earlier : List Command) (c : Command) (later : List Command) :
    let m := manager bound
    let before := (bench failing delay).after m earlier
    let now := before.step m c
    let afterwards := now.after m later
    (∀ node, now.replies.getLast? = some (.node node) →
      c.prescribed? (fun slot => (before.slots.get? slot).map before.state.meaning) =
        some (now.state.meaning node)) ∧
    (∀ node ∈ now.handles, afterwards.state.meaning node = now.state.meaning node) ∧
    (∀ node ∈ afterwards.handles, ∀ assignment assignment' : Nat → Bool,
      (∀ v, 1 ≤ v → v ≤ afterwards.state.table.order.length → assignment v = assignment' v) →
      afterwards.state.meaning node assignment = afterwards.state.meaning node assignment') ∧
    (∀ node ∈ afterwards.handles, ∀ node' ∈ afterwards.handles,
      node = node' ↔ afterwards.state.meaning node = afterwards.state.meaning node') := by
  intro m before now afterwards
  have hbefore : Proper before := ((proper_bench failing delay).after bound earlier).1
  have hnow : Proper now := (hbefore.step bound c).1
  obtain ⟨hafterwards, hkept⟩ := hnow.after bound later
  refine ⟨fun node hnode => ?_, fun node hnode => hkept.meaning_eq (hnow.holds hnode),
    fun node _ _ _ h => State.meaning_congr hafterwards.sound node h,
    fun node hnode node' hnode' => State.eq_iff_meaning_eq hafterwards.sound
      (hafterwards.holds hnode) (hafterwards.holds hnode')⟩
  have ho := run_obeys bound c hbefore.sound hbefore.filled
  have hstep : now = before.step m c := rfl
  rw [Bench.step] at hstep
  rcases hr : Workbench.run m c before.slots before.state with ⟨reply, slots, s⟩
  rw [hr] at hstep ho
  rw [hstep, List.getLast?_concat] at hnode
  rw [hstep]
  exact (ho.prescribed (by rw [Option.some.inj hnode]; rfl)).2

end Reference
end DiagramCompiler
