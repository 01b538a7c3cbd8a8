import Mathlib.Algebra.Group.Action.Defs
import Mathlib.Algebra.Order.BigOperators.Group.List
import Mathlib.Algebra.Order.Group.Nat
import Mathlib.Data.List.MinMax
import DiagramCompiler.Proofs.FallingSpans

/-! Populations under triage.
A member of least span is never above the mean, so that it is kept in every round, and relaxing it
further does not make its span larger. So no population is empty, and each has a member that is as
good as any one of the first. When nobody is given up, all have the mean span; until then every
round makes the population smaller. -/
namespace DiagramCompiler
namespace VariableOrder

variable {clauses : List Clause} {refine : Nat → Nat → VariableOrder → Relaxation}
  {population first : List Relaxation} {r : Relaxation} {bound round : Nat}

/-! ### One round -/

def spanSum (population : List Relaxation) : Nat := sumOf (population.map Relaxation.span)

theorem mem_survivors_iff : r ∈ survivors population ↔
    r ∈ population ∧ r.span * population.length ≤ spanSum population := by
  rw [survivors, List.mem_filter, decide_eq_true_eq]
  rfl

theorem exists_least (h : population ≠ []) :
    ∃ r ∈ population, ∀ s ∈ population, r.span ≤ s.span := by
  obtain ⟨r, hr⟩ := Option.ne_none_iff_exists'.1
    (mt (List.argmin_eq_none (f := Relaxation.span)).1 h)
  exact ⟨r, List.argmin_mem hr, fun s hs => List.le_of_mem_argmin hs hr⟩

theorem exists_greatest (h : population ≠ []) :
    ∃ r ∈ population, ∀ s ∈ population, s.span ≤ r.span := by
  obtain ⟨r, hr⟩ := Option.ne_none_iff_exists'.1
    (mt (List.argmax_eq_none (f := Relaxation.span)).1 h)
  exact ⟨r, List.argmax_mem hr, fun s hs => List.le_of_mem_argmax hs hr⟩

theorem mem_survivors_of_least (hr : r ∈ population) (hleast : ∀ s ∈ population, r.span ≤ s.span) :
    r ∈ survivors population := by
  refine mem_survivors_iff.2 ⟨hr, ?_⟩
  have hsum := List.card_nsmul_le_sum (population.map Relaxation.span) r.span fun span hspan => by
    obtain ⟨s, hs, rfl⟩ := List.mem_map.1 hspan
    exact hleast s hs
  rw [List.length_map, smul_eq_mul, Nat.mul_comm] at hsum
  exact hsum

theorem exists_survivor (hr : r ∈ population) (hbound : r.span ≤ bound) :
    ∃ s ∈ survivors population, s.span ≤ bound := by
  obtain ⟨s, hs, hleast⟩ := exists_least (List.ne_nil_of_mem hr)
  exact ⟨s, mem_survivors_of_least hs hleast, Nat.le_trans (hleast r hr) hbound⟩

/-- When nobody is given up, the greatest span is the mean, and so is every other. -/
theorem span_eq_of_survivors_eq (h : survivors population = population) :
    ∀ r ∈ population, ∀ s ∈ population, r.span = s.span := by
  suffices hsame : ∃ span, ∀ r ∈ population, r.span = span by
    obtain ⟨span, hsame⟩ := hsame
    exact fun r hr s hs => (hsame r hr).trans (hsame s hs).symm
  by_cases hempty : population = []
  · exact ⟨0, fun r hr => absurd (hempty ▸ hr) List.not_mem_nil⟩
  obtain ⟨greatest, hmem, hle⟩ := exists_greatest hempty
  refine ⟨greatest.span, fun r hr => Nat.le_antisymm (hle r hr) (Nat.le_of_not_lt fun hless => ?_)⟩
  have hsum : spanSum population < (population.map fun _ => greatest.span).sum :=
    List.sum_lt_sum Relaxation.span (fun _ => greatest.span) hle ⟨r, hr, hless⟩
  rw [List.map_const', List.sum_replicate, smul_eq_mul, Nat.mul_comm] at hsum
  have hkept := (mem_survivors_iff.1 (h.symm ▸ hmem)).2
  exact absurd hsum (Nat.not_lt.2 hkept)

theorem survivors_eq_self (h : ¬ (survivors population).length < population.length) :
    survivors population = population := by
  have hlength : (survivors population).length = population.length :=
    Nat.le_antisymm (List.length_filter_le _ _) (Nat.le_of_not_lt h)
  exact List.filter_eq_self.2 (List.length_filter_eq_length_iff.1 hlength)

/-! ### All rounds -/

def populationAt (refine : Nat → Nat → VariableOrder → Relaxation) (first : List Relaxation) :
    Nat → List Relaxation
  | 0 => first
  | round + 1 => (survivors (populationAt refine first round)).zipIdx.map fun member =>
      refine (round + 1) member.2 member.1.order

/-- Whether members are relaxed to spans that are those of their orders and not larger than
before. -/
structure Improves (clauses : List Clause) (refine : Nat → Nat → VariableOrder → Relaxation) :
    Prop where
  span_eq (round index : Nat) (o : VariableOrder) :
    (refine round index o).span = totalSpan (refine round index o).order.positions clauses
  span_le (round index : Nat) (o : VariableOrder) :
    (refine round index o).span ≤ totalSpan o.positions clauses

def IsMeasured (clauses : List Clause) (population : List Relaxation) : Prop :=
  ∀ r ∈ population, r.span = totalSpan r.order.positions clauses

theorem Improves.isMeasured_populationAt (h : Improves clauses refine)
    (hfirst : IsMeasured clauses first) : IsMeasured clauses (populationAt refine first round) := by
  cases round with
  | zero => exact hfirst
  | succ round =>
    intro r hr
    obtain ⟨member, -, rfl⟩ := List.mem_map.1 hr
    exact h.span_eq _ _ _

/-- In every round there is a member that is as good as any one of the first population. -/
theorem Improves.exists_mem_populationAt (h : Improves clauses refine)
    (hfirst : IsMeasured clauses first) (hr : r ∈ first) (round : Nat) :
    ∃ s ∈ populationAt refine first round, s.span ≤ r.span := by
  induction round with
  | zero => exact ⟨r, hr, Nat.le_refl _⟩
  | succ round ih =>
    obtain ⟨s, hs, hle⟩ := ih
    obtain ⟨kept, hkept, hbound⟩ := exists_survivor hs hle
    have hmeasured := h.isMeasured_populationAt hfirst kept (List.mem_of_mem_filter hkept)
    rw [← List.zipIdx_map_fst 0 (survivors (populationAt refine first round))] at hkept
    obtain ⟨member, hmember, rfl⟩ := List.mem_map.1 hkept
    refine ⟨_, List.mem_map_of_mem hmember, ?_⟩
    exact Nat.le_trans (h.span_le _ _ _) (hmeasured ▸ hbound)

theorem Improves.populationAt_ne_nil (h : Improves clauses refine)
    (hmeasured : IsMeasured clauses first) (hfirst : first ≠ []) (round : Nat) :
    populationAt refine first round ≠ [] := by
  obtain ⟨r, hr⟩ := List.exists_mem_of_ne_nil _ hfirst
  obtain ⟨s, hs, -⟩ := h.exists_mem_populationAt hmeasured hr round
  exact List.ne_nil_of_mem hs

/-- What a triage comes to in some rounds: in each of them somebody is given up, and after the last
nobody is. -/
structure Settles (refine : Nat → Nat → VariableOrder → Relaxation) (first : List Relaxation)
    (rounds : Nat) : Prop where
  shrinks {round : Nat} (h : round < rounds) :
    (survivors (populationAt refine first round)).length < (populationAt refine first round).length
  settled : survivors (populationAt refine first rounds) = populationAt refine first rounds

variable {rounds : Nat}

theorem Settles.length_add_le (h : Settles refine first rounds) (hround : round ≤ rounds) :
    (populationAt refine first round).length + round ≤ first.length := by
  induction round with
  | zero => exact Nat.le_refl _
  | succ round ih =>
    have hshrinks := h.shrinks hround
    have hrest := ih (Nat.le_of_succ_le hround)
    rw [populationAt, List.length_map, List.length_zipIdx]
    omega

/-- There are fewer rounds than members at first, since somebody is left after them. -/
theorem Settles.lt_length (h : Settles refine first rounds)
    (hleft : populationAt refine first rounds ≠ []) : rounds < first.length := by
  have hpos := List.length_pos_iff.2 hleft
  have hall := h.length_add_le (Nat.le_refl rounds)
  omega

theorem Settles.span_le (h : Settles refine first rounds) (himproves : Improves clauses refine)
    (hmeasured : IsMeasured clauses first) {left : Relaxation}
    (hleft : left ∈ populationAt refine first rounds) (hr : r ∈ first) : left.span ≤ r.span := by
  obtain ⟨s, hs, hle⟩ := himproves.exists_mem_populationAt hmeasured hr rounds
  rw [span_eq_of_survivors_eq h.settled left hleft s hs]
  exact hle

theorem exists_triage_eq (refine : Nat → Nat → VariableOrder → Relaxation)
    (first : List Relaxation) :
    ∃ rounds, Settles refine first rounds ∧
      triage refine 0 first = populationAt refine first rounds := by
  -- a triage that goes on from a round which all before it have led to
  suffices hall : ∀ round population, population = populationAt refine first round →
      (∀ earlier < round, (survivors (populationAt refine first earlier)).length <
        (populationAt refine first earlier).length) →
      ∃ rounds, Settles refine first rounds ∧
        triage refine round population = populationAt refine first rounds from
    hall 0 first rfl fun earlier h => absurd h (Nat.not_lt_zero _)
  intro round population
  fun_induction triage refine round population with
  | case1 round population kept hless ih =>
    rintro rfl hearlier
    refine ih rfl fun earlier h => ?_
    rcases Nat.lt_succ_iff_lt_or_eq.1 h with h | rfl
    · exact hearlier earlier h
    · exact hless
  | case2 round population kept hless =>
    rintro rfl hearlier
    have hsettled := survivors_eq_self hless
    exact ⟨round, ⟨hearlier _, hsettled⟩, hsettled⟩

theorem foldl_best_eq {best : Relaxation} {rest : List Relaxation}
    (h : ∀ r ∈ rest, r.span = best.span) :
    rest.foldl (fun best r => if r.span < best.span then r else best) best = best := by
  induction rest with
  | nil => rfl
  | cons next rest ih =>
    have hnext := h next List.mem_cons_self
    rw [List.foldl_cons, if_neg (by omega)]
    exact ih fun r hr => h r (.tail _ hr)

/-- What is left of a triage: all members have the span of the first, which is that of its order and
not larger than any span at the start. -/
structure IsLeft (clauses : List Clause) (first : List Relaxation) (best : Relaxation)
    (rest : List Relaxation) : Prop where
  span_eq_best : ∀ r ∈ rest, r.span = best.span
  span_eq : best.span = totalSpan best.order.positions clauses
  span_le : ∀ r ∈ first, best.span ≤ r.span

theorem Improves.exists_isLeft (h : Improves clauses refine) (hmeasured : IsMeasured clauses first)
    (hfirst : first ≠ []) (hsettles : Settles refine first rounds) :
    ∃ best rest, populationAt refine first rounds = best :: rest ∧
      IsLeft clauses first best rest := by
  obtain ⟨best, rest, hbest⟩ :=
    List.exists_cons_of_ne_nil (h.populationAt_ne_nil hmeasured hfirst rounds)
  have hmem : ∀ r ∈ best :: rest, r ∈ populationAt refine first rounds := fun _ hr => hbest ▸ hr
  refine ⟨best, rest, hbest, fun r hr => ?_, ?_, fun r hr => ?_⟩
  · exact span_eq_of_survivors_eq hsettles.settled r (hmem r (.tail _ hr)) best
      (hmem best (.head _))
  · exact h.isMeasured_populationAt hmeasured best (hmem best (.head _))
  · exact hsettles.span_le h hmeasured (hmem best (.head _)) hr

theorem IsLeft.best?_eq {best : Relaxation} {rest : List Relaxation}
    (h : IsLeft clauses first best rest) : best? (best :: rest) = some best := by
  rw [best?, foldl_best_eq h.span_eq_best]

theorem improves_relax (clauses : List Clause) (rounds : Nat → Nat → Option Nat) :
    Improves clauses fun round index o => relax clauses (rounds round index) o where
  span_eq _ _ _ := (exists_relaxes _ _ _).choose_spec.span_eq
  span_le _ _ _ := (exists_relaxes _ _ _).choose_spec.span_le

end VariableOrder

/-! ### Searches -/

namespace Options

open VariableOrder (Relaxation populationAt survivors totalSpan)

variable {o : Options} {conditions : Conditions} {f : Formula} {start : Option VariableOrder}

/-- A relaxation with a budget, numbered by a round and a place. -/
def relaxed (conditions : Conditions) (f : Formula) (budget : Duration) (round index : Nat)
    (order : VariableOrder) : Relaxation :=
  VariableOrder.relax f.clauses (conditions.rounds budget round index) order

/-- The order that is relaxed for a place: a given one for the first. -/
def seeded (o : Options) (conditions : Conditions) (f : Formula) (start : Option VariableOrder)
    (index : Nat) : VariableOrder :=
  match index, start with
  | 0, some order => order
  | _, _ => randomOrder f ((o.seed.getD conditions.entropy + index) % UInt64.size)

def firstPopulation (o : Options) (conditions : Conditions) (f : Formula)
    (start : Option VariableOrder) : List Relaxation :=
  (List.range (max o.triageSeeds 1)).map fun index =>
    relaxed conditions f o.triageSeedBudget 0 index (o.seeded conditions f start index)

/-- The relaxations at the start of a round of the triage. -/
def population (o : Options) (conditions : Conditions) (f : Formula)
    (start : Option VariableOrder) (round : Nat) : List Relaxation :=
  populationAt (relaxed conditions f o.triageRefineBudget) (o.firstPopulation conditions f start)
    round

/-- The relaxations that are left when nobody is given up any more. -/
def settled (o : Options) (conditions : Conditions) (f : Formula)
    (start : Option VariableOrder) : List Relaxation :=
  VariableOrder.triage (relaxed conditions f o.triageRefineBudget) 0
    (o.firstPopulation conditions f start)

theorem triageOrder_eq : o.triageOrder conditions f start =
    match VariableOrder.best? (o.settled conditions f start) with
    | some best => best.order
    | none => .identity f.varCount := rfl

variable (o conditions f start) in
theorem length_firstPopulation :
    (o.firstPopulation conditions f start).length = max o.triageSeeds 1 := by
  rw [firstPopulation, List.length_map, List.length_range]

variable (o conditions f start) in
theorem isMeasured_firstPopulation :
    VariableOrder.IsMeasured f.clauses (o.firstPopulation conditions f start) := by
  intro r hr
  obtain ⟨index, -, rfl⟩ := List.mem_map.1 hr
  exact (VariableOrder.improves_relax f.clauses _).span_eq 0 index _

theorem exists_mem_firstPopulation (o : Options) (conditions : Conditions) (f : Formula)
    (order : VariableOrder) :
    ∃ r ∈ o.firstPopulation conditions f (some order),
      r.span ≤ totalSpan order.positions f.clauses := by
  have hplace : 0 ∈ List.range (max o.triageSeeds 1) := List.mem_range.2 (by omega)
  exact ⟨_, List.mem_map_of_mem hplace, (VariableOrder.improves_relax f.clauses _).span_le 0 0 _⟩

/-- What a search by triage finds, if memory for it can be reserved. -/
theorem findOrder_of_triage (hheuristic : o.heuristic = .forceTriage)
    (hstart : ∀ order ∈ start, order.length = f.varCount) :
    o.findOrder conditions f start =
      if o.triageSeeds ≤ Memory.maxRelaxations then
        if f.varCount ≤ Memory.maxVars then .ok (o.triageOrder conditions f start)
        else .error (.overflow (.variables f.varCount))
      else .error (.overflow (.relaxations o.triageSeeds)) := by
  rw [findOrder, hheuristic]
  simp only [start?_of_length hstart, checkSeeds, checkVars]
  split
  · split <;> rfl
  · rfl

/-- A search by triage comes to an end after fewer rounds than there are orders to start from. In
every round before, somebody is given up; nobody is in the last, where all that are left have one
span. There is somebody in each round, and the search finds the order of the first that is left,
which is at least as good as that of anyone at the start and as an order that was given. It fails
only where memory for the population or for the variables cannot be reserved. -/
theorem triage_keeps_best (o : Options) (conditions : Conditions) (f : Formula)
    (start : Option VariableOrder) (hheuristic : o.heuristic = .forceTriage)
    (hstart : ∀ order ∈ start, order.length = f.varCount) :
    ∃ rounds best rest,
      rounds < max o.triageSeeds 1 ∧
      (∀ round < rounds, (survivors (o.population conditions f start round)).length <
        (o.population conditions f start round).length) ∧
      survivors (o.population conditions f start rounds) =
        o.population conditions f start rounds ∧
      (∀ round, o.population conditions f start round ≠ []) ∧
      o.population conditions f start rounds = o.settled conditions f start ∧
      o.settled conditions f start = best :: rest ∧
      (∀ r ∈ rest, r.span = best.span) ∧
      (o.firstPopulation conditions f start).length = max o.triageSeeds 1 ∧
      (∀ r ∈ o.firstPopulation conditions f start,
        totalSpan best.order.positions f.clauses ≤ r.span) ∧
      (∀ order ∈ start,
        totalSpan best.order.positions f.clauses ≤ totalSpan order.positions f.clauses) ∧
      o.findOrder conditions f start =
        if o.triageSeeds ≤ Memory.maxRelaxations then
          if f.varCount ≤ Memory.maxVars then .ok best.order
          else .error (.overflow (.variables f.varCount))
        else .error (.overflow (.relaxations o.triageSeeds)) := by
  have himproves : VariableOrder.Improves f.clauses (relaxed conditions f o.triageRefineBudget) :=
    VariableOrder.improves_relax f.clauses _
  have hmeasured := o.isMeasured_firstPopulation conditions f start
  have hlength := o.length_firstPopulation conditions f start
  have hfirst : o.firstPopulation conditions f start ≠ [] :=
    List.ne_nil_of_length_pos (by omega)
  have hsomebody : ∀ round, o.population conditions f start round ≠ [] :=
    himproves.populationAt_ne_nil hmeasured hfirst
  obtain ⟨rounds, hsettles, htriage⟩ := VariableOrder.exists_triage_eq
    (relaxed conditions f o.triageRefineBudget) (o.firstPopulation conditions f start)
  have hrounds := hsettles.lt_length (hsomebody rounds)
  obtain ⟨best, rest, hbest, hleft⟩ := himproves.exists_isLeft hmeasured hfirst hsettles
  have hsettled : o.settled conditions f start = best :: rest := htriage.trans hbest
  have hleast : ∀ r ∈ o.firstPopulation conditions f start,
      totalSpan best.order.positions f.clauses ≤ r.span := hleft.span_eq ▸ hleft.span_le
  have hgiven : ∀ order ∈ start,
      totalSpan best.order.positions f.clauses ≤ totalSpan order.positions f.clauses := by
    rintro order rfl
    obtain ⟨r, hr, hle⟩ := o.exists_mem_firstPopulation conditions f order
    exact Nat.le_trans (hleast r hr) hle
  have horder : o.triageOrder conditions f start = best.order := by
    rw [triageOrder_eq, hsettled, hleft.best?_eq]
  have hfind : o.findOrder conditions f start = _ := findOrder_of_triage hheuristic hstart
  rw [horder] at hfind
  exact ⟨rounds, best, rest, hlength ▸ hrounds, fun _ h => hsettles.shrinks h, hsettles.settled,
    hsomebody, htriage.symm, hsettled, hleft.span_eq_best, hlength, hleast, hgiven, hfind⟩

/-- A triage of five orders, the first of which is given, with relaxations that are cut after
different numbers of rounds. -/
theorem triage_of_five_keeps_best :
    let f := Formula.ofClauses 3 [.ofLiterals [.ofVar 1 true, .ofVar 3 false],
      .ofLiterals [.ofVar 2 true, .ofVar 3 true]]
    let start : VariableOrder := ⟨[3, 1, 2], by decide, by decide⟩
    let o : Options := { heuristic := .forceTriage, triageSeeds := 5, seed := some 7 }
    let conditions : Conditions := ⟨fun _ round index => some (round + index), 0, .zero⟩
    o.heuristic = .forceTriage ∧ start.length = f.varCount ∧
      totalSpan start.positions f.clauses = 3 ∧
      ∃ best rest, o.settled conditions f (some start) = best :: rest ∧
        (∀ r ∈ rest, r.span = best.span) ∧
        (o.firstPopulation conditions f (some start)).length = 5 ∧
        (∀ r ∈ o.firstPopulation conditions f (some start),
          totalSpan best.order.positions f.clauses ≤ r.span) ∧
        totalSpan best.order.positions f.clauses ≤ 3 ∧
        o.findOrder conditions f (some start) = .ok best.order := by
  intro f start o conditions
  have hlength : start.length = f.varCount := by decide
  have hspan : totalSpan start.positions f.clauses = 3 := by decide
  have hseeds : o.triageSeeds ≤ Memory.maxRelaxations := by decide
  have hvars : f.varCount ≤ Memory.maxVars := by decide
  obtain ⟨_, best, rest, -, -, -, -, -, hsettled, hall, hfirst, hleast, hgiven, hfind⟩ :=
    triage_keeps_best o conditions f (some start) rfl
      fun order horder => Option.some.inj horder ▸ hlength
  rw [if_pos hseeds, if_pos hvars] at hfind
  exact ⟨rfl, hlength, hspan, best, rest, hsettled, hall, hfirst, hleast,
    hspan ▸ hgiven start rfl, hfind⟩

/-- Where there is no memory for the population or for the variables, nothing is found. -/
theorem triage_of_too_many_seeds :
    let o (seeds : Nat) : Options :=
      { heuristic := .forceTriage, triageSeeds := seeds, seed := some 1 }
    let f := Formula.ofClauses 1 [.ofLiterals [.ofVar 1 true]]
    let vast := Formula.ofClauses (2 ^ 61) []
    (o (2 ^ 63)).findOrder (.unhurried 0) f none = .error (.overflow (.relaxations (2 ^ 63))) ∧
      (o 1).findOrder (.unhurried 0) vast none = .error (.overflow (.variables (2 ^ 61))) ∧
      ¬ ∀ (o : Options) (conditions : Conditions) (f : Formula) (start : Option VariableOrder),
        o.heuristic = .forceTriage → 1 ≤ o.triageSeeds →
        (∀ order ∈ start, order.length = f.varCount) →
        ∃ best rest, o.settled conditions f start = best :: rest ∧
          o.findOrder conditions f start = .ok best.order := by
  intro o f vast
  have herror : (o (2 ^ 63)).findOrder (.unhurried 0) f none =
      .error (.overflow (.relaxations (2 ^ 63))) := rfl
  have hvast : (o 1).findOrder (.unhurried 0) vast none =
      .error (.overflow (.variables (2 ^ 61))) := rfl
  refine ⟨herror, hvast, fun hall => ?_⟩
  obtain ⟨best, rest, -, hfind⟩ := hall (o (2 ^ 63)) (.unhurried 0) f none rfl (by decide) (by simp)
  exact absurd (herror.symm.trans hfind) (by simp)

end Options
end DiagramCompiler
