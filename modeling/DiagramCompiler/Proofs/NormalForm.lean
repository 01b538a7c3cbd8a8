import Mathlib.Data.List.Forall2
import DiagramCompiler.Proofs.Canonicity
import DiagramCompiler.Proofs.CompiledFormulas

/-! Normal forms.
Diagrams of one function in two tables are walked through in step: the nodes that are gathered at
the same time have the same level and the same function. Numbers by place are then equal, and so are
the dumps, whatever else the tables hold. -/
namespace DiagramCompiler

/-- Whether two formulas have the same variables and the same models. -/
def Formula.SameModels (f g : Formula) : Prop :=
  f.varCount = g.varCount ∧
    ∀ values : List Bool, values.length = f.varCount → f.eval? values = g.eval? values

/-- Whether the clauses of a formula are those of another one in some order, each with its literals
in some order. -/
def Formula.Rearranged (f g : Formula) : Prop :=
  f.varCount = g.varCount ∧ ∃ cs, f.clauses.Perm cs ∧
    List.Forall₂ (fun c d => c.literals.Perm d.literals) cs g.clauses

theorem Clause.eval_of_perm {c d : Clause} (h : c.literals.Perm d.literals)
    (assignment : Nat → Bool) : c.eval assignment = d.eval assignment := h.any_eq

theorem Formula.Rearranged.eval_eq {f g : Formula} (h : f.Rearranged g)
    (assignment : Nat → Bool) : f.eval assignment = g.eval assignment := by
  obtain ⟨_, cs, hperm, hclauses⟩ := h
  refine (hperm.all_eq).trans ?_
  rw [Formula.eval]
  generalize g.clauses = ds at hclauses ⊢
  clear hperm
  induction hclauses with
  | nil => rfl
  | cons hd _ ih => rw [List.all_cons, List.all_cons, ih, Clause.eval_of_perm hd]

theorem Formula.Rearranged.sameModels {f g : Formula} (h : f.Rearranged g) : f.SameModels g := by
  refine ⟨h.1, fun values hvalues => ?_⟩
  rw [f.eval?_eq (Nat.le_of_eq hvalues.symm), g.eval?_eq (Nat.le_of_eq (h.1 ▸ hvalues.symm)),
    h.eval_eq]

theorem Formula.eval_congr (f : Formula) {assignment assignment' : Nat → Bool}
    (h : ∀ v, 1 ≤ v → v ≤ f.varCount → assignment v = assignment' v) :
    f.eval assignment = f.eval assignment' := by
  have hliteral : ∀ c ∈ f.clauses, ∀ l ∈ c.literals, l.eval assignment = l.eval assignment' := by
    intro c hc l hl
    have hrange := f.var_range hc hl
    rw [Literal.eval, Literal.eval, h l.var hrange.1 hrange.2]
  have hclause : ∀ c ∈ f.clauses, c.eval assignment = c.eval assignment' := by
    intro c hc
    rw [Clause.eval, Clause.eval, Bool.eq_iff_iff, List.any_eq_true, List.any_eq_true]
    exact exists_congr fun l => and_congr_right fun hl => by rw [hliteral c hc l hl]
  rw [Formula.eval, Formula.eval, Bool.eq_iff_iff, List.all_eq_true, List.all_eq_true]
  exact forall₂_congr fun c hc => by rw [hclause c hc]

theorem Formula.SameModels.eval_eq {f g : Formula} (h : f.SameModels g)
    (assignment : Nat → Bool) : f.eval assignment = g.eval assignment := by
  let values := (List.range f.varCount).map fun i => assignment (i + 1)
  have hlength : values.length = f.varCount := by simp [values]
  have hvalue : ∀ v, 1 ≤ v → v ≤ f.varCount → values.getD (v - 1) false = assignment v := by
    intro v hpos hle
    have hlt : v - 1 < f.varCount := by omega
    have hv : v - 1 + 1 = v := by omega
    simp [values, List.getD_eq_getElem?_getD, hlt, hv]
  have heval := h.2 values hlength
  rw [f.eval?_eq (by omega), g.eval?_eq (by rw [← h.1]; omega)] at heval
  calc f.eval assignment
      = f.eval fun v => values.getD (v - 1) false :=
        (f.eval_congr fun v hpos hle => (hvalue v hpos hle)).symm
    _ = g.eval fun v => values.getD (v - 1) false := Option.some.inj heval
    _ = g.eval assignment := g.eval_congr fun v hpos hle => hvalue v hpos (h.1 ▸ hle)

namespace Reference
namespace Table

variable {t t' : Table} {met met' : List (Nat × Branch)} {id id' : Nat}

theorem exists_mem_of_forall₂ {α β : Type} {R : α → β → Prop} {l : List α} {l' : List β}
    (h : List.Forall₂ R l l') {x : α} (hx : x ∈ l) : ∃ y ∈ l', R x y := by
  induction h with
  | nil => exact absurd hx (by simp)
  | cons hr _ ih =>
    rcases List.mem_cons.1 hx with rfl | hx
    · exact ⟨_, List.mem_cons_self, hr⟩
    · obtain ⟨y, hy, hxy⟩ := ih hx
      exact ⟨y, List.mem_cons_of_mem _ hy, hxy⟩

theorem map_eq_of_forall₂ {α β γ : Type} {R : α → β → Prop} {l : List α} {l' : List β} {f : α → γ}
    {g : β → γ} (h : List.Forall₂ R l l') (hfg : ∀ x ∈ l, ∀ y ∈ l', R x y → f x = g y) :
    l.map f = l'.map g := by
  induction h with
  | nil => rfl
  | cons hr _ ih =>
    rw [List.map_cons, List.map_cons, hfg _ List.mem_cons_self _ List.mem_cons_self hr,
      ih fun x hx y hy => hfg x (List.mem_cons_of_mem _ hx) y (List.mem_cons_of_mem _ hy)]

/-- Whether two lists have nodes of the same levels and functions in the same places. -/
def Alike (t t' : Table) : List (Nat × Branch) → List (Nat × Branch) → Prop :=
  List.Forall₂ fun m m' => SameMeaning t t' m.1 m'.1 ∧ m.2.level = m'.2.level

theorem Alike.symm (h : Alike t t' met met') : Alike t' t met' met :=
  List.Forall₂.flip (h.imp fun _ _ hm => ⟨hm.1.symm, hm.2.symm⟩)

theorem SameMeaning.trans {t'' : Table} {id'' : Nat} (h : SameMeaning t t' id id')
    (h' : SameMeaning t' t'' id' id'') : SameMeaning t t'' id id'' :=
  fun values => (h values).trans (h' values)

theorem Gathered.holds (h : t.Gathered met) {m : Nat × Branch} (hm : m ∈ met) : t.Holds m.1 :=
  (le_and_holds_of_node? (h.node?_eq hm)).2

section Alike

variable (ht : t.Sound) (ht' : t'.Sound) (horder : t'.order = t.order)

include ht ht' horder

theorem SameMeaning.lt_two (hid : t.Holds id) (hid' : t'.Holds id') (h : SameMeaning t t' id id')
    (hlt : id < 2) : id = id' := by
  rcases ht.sameMeaning_cases ht' horder hid hid' h with ⟨_, heq⟩ | ⟨n, _, hn, _⟩
  · exact heq
  · rw [t.node?_of_lt hlt] at hn
    exact absurd hn (by simp)

theorem Alike.met_of_met (h : Alike t t' met met') (hmet' : t'.Gathered met') (hid : t.Holds id)
    (hid' : t'.Holds id') (hsame : SameMeaning t t' id id') (hm : Met met id) : Met met' id' := by
  rcases hm with hlt | ⟨n, hn⟩
  · exact .inl (hsame.lt_two ht ht' horder hid hid' hlt ▸ hlt)
  · obtain ⟨m', hm', hpair, _⟩ := exists_mem_of_forall₂ h hn
    have heq : m'.1 = id' := (ht'.eq_iff_sameMeaning (hmet'.holds hm') hid').2
      (hpair.symm.trans hsame)
    exact .inr ⟨m'.2, heq ▸ hm'⟩

theorem Alike.met_iff (h : Alike t t' met met') (hmet : t.Gathered met) (hmet' : t'.Gathered met')
    (hid : t.Holds id) (hid' : t'.Holds id') (hsame : SameMeaning t t' id id') :
    Met met id ↔ Met met' id' :=
  ⟨h.met_of_met ht ht' horder hmet' hid hid' hsame,
    h.symm.met_of_met ht' ht horder.symm hmet hid' hid hsame.symm⟩

theorem Alike.gather (fuel : Nat) (h : Alike t t' met met') (hmet : t.Gathered met)
    (hmet' : t'.Gathered met') (hid : t.Holds id) (hid' : t'.Holds id')
    (hsame : SameMeaning t t' id id') (hfuel : t.order.length < fuel + t.level id)
    (hfuel' : t'.order.length < fuel + t'.level id') :
    Alike t t' (t.gather fuel met id) (t'.gather fuel met' id') := by
  induction fuel generalizing met met' id id' with
  | zero => exact h
  | succ fuel ih =>
    by_cases hold : Met met id
    · have hold' := (h.met_iff ht ht' horder hmet hmet' hid hid' hsame).1 hold
      rwa [gather_of_met _ hold, gather_of_met _ hold']
    · have hold' := mt (h.met_iff ht ht' horder hmet hmet' hid hid' hsame).2 hold
      rcases ht.sameMeaning_cases ht' horder hid hid' hsame with
        ⟨hlt, _⟩ | ⟨n, n', hn, hn', hlevel, hlow, hhigh⟩
      · exact absurd (.inl hlt) hold
      · have hp := ht.placed hn
        have hp' := ht'.placed hn'
        rw [level_of_node? hn] at hfuel
        rw [level_of_node? hn'] at hfuel'
        have habove := hp.above_low
        have habove' := hp'.above_low
        have above := hp.above_high
        have above' := hp'.above_high
        have glow := ht.gathers fuel hmet (ht.holds_low hn) (by omega)
        have glow' := ht'.gathers fuel hmet' (ht'.holds_low hn') (by omega)
        have alow := ih h hmet hmet' (ht.holds_low hn) (ht'.holds_low hn') hlow (by omega)
          (by omega)
        have ahigh := ih alow glow.gathered glow'.gathered (ht.holds_high hn) (ht'.holds_high hn')
          hhigh (by omega) (by omega)
        rw [gather_of_not_met fuel hn hold, gather_of_not_met fuel hn' hold']
        exact .cons ⟨hsame, hlevel⟩ ahigh

theorem Alike.numberIn_eq (h : Alike t t' met met') (hmet : t.Gathered met)
    (hmet' : t'.Gathered met') (hid : t.Holds id) (hid' : t'.Holds id')
    (hsame : SameMeaning t t' id id') (hm : Met met id) : numberIn met id = numberIn met' id' := by
  induction h with
  | nil =>
    rcases hm with hlt | ⟨n, hn⟩
    · exact hsame.lt_two ht ht' horder hid hid' hlt
    · exact absurd hn (by simp)
  | @cons m m' met met' hpair hrest ih =>
    have hm₀ := hmet.holds (List.mem_cons_self)
    have hm₀' := hmet'.holds (List.mem_cons_self)
    have hfirst : m.1 = id ↔ m'.1 = id' := by
      rw [ht.eq_iff_sameMeaning hm₀ hid, ht'.eq_iff_sameMeaning hm₀' hid']
      exact ⟨fun h => hpair.1.symm.trans (h.trans hsame),
        fun h => hpair.1.trans (h.trans hsame.symm)⟩
    rw [numberIn, numberIn, hrest.length_eq]
    by_cases heq : m.1 = id
    · rw [if_pos heq, if_pos (hfirst.1 heq)]
    · rw [if_neg heq, if_neg (mt hfirst.2 heq)]
      exact ih hmet.of_cons hmet'.of_cons ((met_cons_iff.1 hm).resolve_left heq)

/-- Diagrams of one function have the same root and nodes once they are renumbered. -/
theorem SameMeaning.renumbered_eq (hid : t.Holds id) (hid' : t'.Holds id')
    (h : SameMeaning t t' id id') :
    numberIn (t.gathered id) id = numberIn (t'.gathered id') id' ∧
      t.renumbered id = t'.renumbered id' := by
  have g := ht.gathers_gathered hid
  have g' := ht'.gathers_gathered hid'
  have halike : Alike t t' (t.gathered id) (t'.gathered id') := by
    have hempty : Alike t t' [] [] := .nil
    rw [gathered, gathered, horder]
    exact hempty.gather ht ht' horder _ .nil .nil hid hid' h (by omega) (by rw [horder]; omega)
  have hnumber : ∀ {part part' : Nat}, t.Holds part → t'.Holds part' →
      SameMeaning t t' part part' → Met (t.gathered id) part →
      numberIn (t.gathered id) part = numberIn (t'.gathered id') part' :=
    fun hpart hpart' hsame hmet =>
      halike.numberIn_eq ht ht' horder g.gathered g'.gathered hpart hpart' hsame hmet
  refine ⟨hnumber hid hid' h g.reached, congrArg List.reverse (map_eq_of_forall₂ halike ?_)⟩
  intro m hm m' hm' hpair
  have hn := g.gathered.node?_eq hm
  have hn' := g'.gathered.node?_eq hm'
  obtain ⟨hlow, hhigh⟩ := hpair.1.parts ht ht' horder hn hn' hpair.2
  have hparts := g.gathered.parts hm
  have hvar : t.varAt m.2.level = t'.varAt m'.2.level := by rw [varAt, varAt, horder, hpair.2]
  simp only [renamed]
  rw [hnumber (g.gathered.holds hm) (g'.gathered.holds hm') hpair.1 (.inr ⟨m.2, hm⟩), hvar,
    hnumber (ht.holds_low hn) (ht'.holds_low hn') hlow hparts.1,
    hnumber (ht.holds_high hn) (ht'.holds_high hn') hhigh hparts.2]

end Alike

end Table

/-! ### Dumps of formulas -/

/-- Whether compiling a formula on a new engine and dumping the result gives a dump. -/
def CompilesTo (bound : Option Duration) (delay : Duration) (f : Formula)
    (order : Option VariableOrder) (d : Dump) : Prop :=
  ∃ c s s', (Compilation.compile (manager bound) f order).run (.fresh none delay) = (.ok c, s) ∧
    ((manager bound).dump c.diagram).run s = (.ok d, s')

theorem CompilesTo.exists_table {bound : Option Duration} {delay : Duration} {f : Formula}
    {order : Option VariableOrder} {d : Dump} (h : CompilesTo bound delay f order d)
    (ht : InTime bound (.fresh none delay)) :
    ∃ (s : State) (node : NodeRef) (hs : s.table.Sound) (hn : s.Holds node),
      s.table.order = engineOrder f order ∧ s.meaning node = f.eval ∧
        d = .ofDiagram name stub (hs.diagram hn) := by
  obtain ⟨c, s, s', hcompile, hdump⟩ := h
  obtain ⟨hvars, horder⟩ := of_run_compile hcompile
  obtain ⟨c', s'', hrun, _, hs, hplaced, hholds, hmeaning⟩ := run_compile f hvars horder ht
  rw [hcompile] at hrun
  obtain ⟨hc, rfl⟩ := Prod.mk.inj hrun
  obtain rfl := Except.ok.inj hc
  rw [run_dump] at hdump
  have hanswer := (answers_dumpOf bound hs hholds d).1 (congrArg Prod.fst hdump)
  exact ⟨s, c.diagram, hs, hholds, hplaced, hmeaning, hanswer.2⟩

/-- Formulas with the same variables and models have the same dump, engines that compile them in
time provided: the root, the order and all nodes are equal. -/
theorem dump_normal_form {bound bound' : Option Duration} {delay delay' : Duration}
    (ht : InTime bound (.fresh none delay)) (ht' : InTime bound' (.fresh none delay'))
    (f g : Formula) (h : f.SameModels g) (order : Option VariableOrder) :
    (∀ d d' : Dump, CompilesTo bound delay f order d → CompilesTo bound' delay' g order d' →
      d.diagram.root = d'.diagram.root ∧ d.diagram.order = d'.diagram.order ∧
        d.diagram.nodes = d'.diagram.nodes) ∧
      (f.varCount < UInt32.size → (∀ o, order = some o → o.length = f.varCount) →
        ∃ c s c' s',
          (Compilation.compile (manager bound) f order).run (.fresh none delay) = (.ok c, s) ∧
          (Compilation.compile (manager bound') g order).run (.fresh none delay') = (.ok c', s') ∧
          (s.table.nodes.size + 2 ≤ UInt64.size → s'.table.nodes.size + 2 ≤ UInt64.size →
            (∃ d, ((manager bound).dump c.diagram).run s = (.ok d, s)) ∧
              ∃ d', ((manager bound').dump c'.diagram).run s' = (.ok d', s'))) := by
  constructor
  · intro d d' hd hd'
    obtain ⟨s, node, hs, hn, hplaced, hmeaning, rfl⟩ := hd.exists_table ht
    obtain ⟨s', node', hs', hn', hplaced', hmeaning', rfl⟩ := hd'.exists_table ht'
    have hengine : engineOrder f order = engineOrder g order := by rw [engineOrder, engineOrder, h.1]
    have horder : s'.table.order = s.table.order := by rw [hplaced, hplaced', hengine]
    have hsame : s.table.SameMeaning s'.table node.number node'.number := by
      intro values
      have heval := h.eval_eq fun v => values (v - 1)
      rw [← hmeaning, ← hmeaning'] at heval
      simpa [State.meaning] using heval
    obtain ⟨hroot, hnodes⟩ := hsame.renumbered_eq hs hs' horder hn hn'
    refine ⟨congrArg (Edge.mk false) hroot, ?_, hnodes⟩
    show hs.variableOrder = hs'.variableOrder
    rw [variableOrder_eq hs hplaced, variableOrder_eq hs' hplaced', h.1]
  · intro hvars horder
    obtain ⟨c, s, hrun, _, hs, hplaced, hholds, _⟩ := run_compile f hvars horder ht
    obtain ⟨c', s', hrun', _, hs', hplaced', hholds', _⟩ :=
      run_compile g (h.1 ▸ hvars) (fun o ho => h.1 ▸ horder o ho) ht'
    refine ⟨c, s, c', s', hrun, hrun', fun hsize hsize' => ⟨?_, ?_⟩⟩
    · exact exists_dump hs hholds hsize (by rwa [hplaced, length_engineOrder horder])
    · have hlength : (engineOrder g order).length = g.varCount :=
        length_engineOrder fun o ho => h.1 ▸ horder o ho
      exact exists_dump hs' hholds' hsize' (by rwa [hplaced', hlength, ← h.1])

theorem dump_rearranged_clauses :
    let f := Formula.ofClauses 3 [.ofLiterals [.ofVar 1 true, .ofVar 2 false],
      .ofLiterals [.ofVar 2 true, .ofVar 3 true]]
    let g := Formula.ofClauses 3 [.ofLiterals [.ofVar 3 true, .ofVar 2 true],
      .ofLiterals [.ofVar 2 false, .ofVar 1 true]]
    let order : VariableOrder := ⟨[3, 1, 2], by decide, by decide⟩
    InTime (some ⟨5⟩) (.fresh none ⟨4⟩) ∧ InTime none (.fresh none .zero) ∧ f.SameModels g ∧
      ∀ d d' : Dump, CompilesTo (some ⟨5⟩) ⟨4⟩ f (some order) d →
        CompilesTo none .zero g (some order) d' → d.diagram.root = d'.diagram.root ∧
          d.diagram.order = d'.diagram.order ∧ d.diagram.nodes = d'.diagram.nodes := by
  intro f g order
  have hbounded : InTime (some ⟨5⟩) (.fresh none ⟨4⟩) := by
    refine ⟨rfl, fun limit hlimit => ?_⟩
    obtain rfl := Option.some.inj hlimit
    decide
  have hfree : InTime none (.fresh none .zero) := ⟨rfl, fun limit hlimit => absurd hlimit (by simp)⟩
  have hsame : f.SameModels g := by
    refine Formula.Rearranged.sameModels ⟨by decide, f.clauses.reverse, f.clauses.reverse_perm.symm,
      ?_⟩
    exact .cons (by decide) (.cons (by decide) .nil)
  exact ⟨hbounded, hfree, hsame, (dump_normal_form hbounded hfree f g hsame (some order)).1⟩

end Reference
end DiagramCompiler
