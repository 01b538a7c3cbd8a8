import Mathlib.Data.Fintype.BigOperators
import DiagramCompiler.Proofs.LevelModels

/-! Counts of models.
A counter that has been asked for counts and models knows exact counts only. A node has half the
models of its two edges together, since an edge below a node does not depend on the variable of the
node and so has an even number of models. -/
namespace DiagramCompiler

theorem assigned_map {vars : List Nat} {var : Nat} (h : var ∈ vars) (value : Nat → Bool) :
    assigned vars (vars.map value) var = value var := by
  have hlt := List.idxOf_lt_length_of_mem h
  simp [assigned, List.getD_eq_getElem?_getD, hlt]

theorem map_assigned {vars : List Nat} (hn : vars.Nodup) {bits : List Bool}
    (h : bits.length = vars.length) : vars.map (assigned vars bits) = bits := by
  refine List.ext_getElem (by simp [h]) fun i hi hi' => ?_
  rw [List.length_map] at hi
  simp [assigned, hn.idxOf_getElem i hi, List.getD_eq_getElem?_getD, hi']

namespace Diagram

variable {d : Diagram} {e : Edge}

/-- Whether an edge is true under a list of values, that of variable 1 first. -/
def holdsAt (d : Diagram) (e : Edge) (values : List Bool) : Bool :=
  d.eval (fun var => values.getD (var - 1) false) e

/-- The assignments of values to all variables under which an edge is true. -/
def modelSet (d : Diagram) (e : Edge) : Finset (Fin d.varCount → Bool) :=
  Finset.univ.filter fun values => d.holdsAt e (List.ofFn values) = true

def inOrder (d : Diagram) (values : List Bool) : List Bool :=
  d.order.toList.map fun var => values.getD (var - 1) false

/-- The values that are given in diagram order, that of variable 1 first. -/
def arranged (d : Diagram) (bits : List Bool) : List Bool :=
  (List.range' 1 d.varCount).map (assigned d.order.toList bits)

theorem length_inOrder (d : Diagram) (values : List Bool) :
    (d.inOrder values).length = d.order.toList.length := List.length_map _

theorem length_arranged (d : Diagram) (bits : List Bool) :
    (d.arranged bits).length = d.varCount := by simp [arranged]

theorem getD_arranged (bits : List Bool) {var : Nat} (h : var ∈ d.order.toList) :
    (d.arranged bits).getD (var - 1) false = assigned d.order.toList bits var := by
  have hrange := d.order.mem_toList_iff.1 h
  have hlt : var - 1 < d.varCount := by
    rw [varCount]
    omega
  have hvar : 1 + (var - 1) = var := by omega
  simp [arranged, List.getD_eq_getElem?_getD, hlt, hvar]

theorem inOrder_arranged {bits : List Bool} (h : bits.length = d.order.toList.length) :
    d.inOrder (d.arranged bits) = bits :=
  (List.map_congr_left fun _ hvar => getD_arranged bits hvar).trans (map_assigned d.order.nodup h)

theorem arranged_inOrder {values : List Bool} (h : values.length = d.varCount) :
    d.arranged (d.inOrder values) = values := by
  refine List.ext_getElem (by rw [length_arranged, h]) fun i hi hi' => ?_
  have hlt : i < d.varCount := h ▸ hi'
  have hvar : 1 + i ∈ d.order.toList := d.order.mem_toList_iff.2 ⟨by omega, by
    rw [varCount] at hlt
    omega⟩
  have hassigned := assigned_map hvar fun var => values.getD (var - 1) false
  simp only [arranged, List.getElem_map, List.getElem_range', Nat.one_mul]
  rw [inOrder, hassigned]
  simp [List.getD_eq_getElem?_getD, hi']

/-- Bits in diagram order make an edge true just as the values do that they are arranged to. -/
theorem holdsAt_arranged (d : Diagram) (e : Edge) (bits : List Bool) :
    d.holdsAt e (d.arranged bits) = d.eval (assigned d.order.toList bits) e :=
  (d.startsAt_zero e).eval_congr fun _ hvar => getD_arranged bits (List.mem_of_mem_drop hvar)

theorem inOrder_mem_modelBits {values : List Bool} (h : values.length = d.varCount) :
    d.inOrder values ∈ d.modelBits d.order.toList e ↔ d.holdsAt e values = true := by
  rw [mem_modelBits, ← holdsAt_arranged, arranged_inOrder h]
  exact and_iff_right (d.length_inOrder values)

theorem ofFn_arranged (d : Diagram) (bits : List Bool) :
    (List.ofFn fun i : Fin d.varCount => (d.arranged bits).getD i false) = d.arranged bits := by
  refine List.ext_getElem (by rw [List.length_ofFn, length_arranged]) fun i hi hi' => ?_
  simp [List.getD_eq_getElem?_getD, hi']

theorem nodup_modelBits (d : Diagram) (vars : List Nat) (e : Edge) : (d.modelBits vars e).Nodup :=
  (d.sorted_modelBits vars e).imp fun h => ne_of_lt h

/-- The bits that make an edge true are as many as its models. -/
theorem weight_zero_eq_card (d : Diagram) (e : Edge) : d.weight 0 e = (d.modelSet e).card := by
  have hlength (values : Fin d.varCount → Bool) : (List.ofFn values).length = d.varCount :=
    List.length_ofFn
  rw [weight, List.drop_zero, ← List.toFinset_card_of_nodup (d.nodup_modelBits _ e)]
  refine (Finset.card_nbij' (fun values => d.inOrder (List.ofFn values))
    (fun bits i => (d.arranged bits).getD i false) ?_ ?_ ?_ ?_).symm
  · intro values hvalues
    have hmodel := (Finset.mem_filter.1 hvalues).2
    exact List.mem_toFinset.2 ((inOrder_mem_modelBits (hlength values)).2 hmodel)
  · intro bits hbits
    obtain ⟨_, hmodel⟩ := mem_modelBits.1 (List.mem_toFinset.1 hbits)
    refine Finset.mem_filter.2 ⟨Finset.mem_univ _, ?_⟩
    rwa [ofFn_arranged, holdsAt_arranged]
  · intro values _
    funext i
    simp [arranged_inOrder (hlength values), List.getD_eq_getElem?_getD]
  · intro bits hbits
    obtain ⟨hbitsLength, _⟩ := mem_modelBits.1 (List.mem_toFinset.1 hbits)
    simp only [ofFn_arranged]
    exact inOrder_arranged hbitsLength

/-! ### Counters -/

theorem marked_weight (d : Diagram) (e : Edge) :
    d.marked e.complemented (d.weight 0 ⟨false, e.id⟩) = d.weight 0 e := by
  obtain ⟨complemented, id⟩ := e
  cases complemented with
  | false => rfl
  | true =>
    have hsum := d.weight_mark id
    have hall : d.assignmentCount = 2 ^ d.varCount := rfl
    simp only [marked, if_true]
    omega

theorem weight_add_weight {n : Node} (h : n ∈ d.nodes) :
    d.weight 0 n.low + d.weight 0 n.high = 2 * d.weight 0 ⟨false, n.id⟩ := by
  have hlt : levelOf d.order n < d.varCount := List.idxOf_lt_length_of_mem (mem_toList_of_node h)
  have hnode := node?_id h
  have hstarts : d.StartsAt (levelOf d.order n) ⟨false, n.id⟩ := fun m hm => by
    rw [hnode] at hm
    rw [Option.some.inj hm]
  have hbranch (value : Bool) :
      d.branch ⟨false, n.id⟩ (levelOf d.order n) value = follow n value := by
    rw [branch_of_level hnode rfl, Edge.flipIf]
    simp
  have hfollow (value : Bool) :
      d.weight 0 (follow n value) =
        2 ^ (levelOf d.order n + 1) * d.weight (levelOf d.order n + 1) (follow n value) :=
    (startsAt_follow h value).weight_zero hlt
  show d.weight 0 (follow n false) + d.weight 0 (follow n true) = _
  rw [hfollow, hfollow, hstarts.weight_zero (Nat.le_of_lt hlt), hstarts.weight_eq_add hlt, hbranch,
    hbranch]
  ring

theorem weight_terminal (h : e.isTerminal = true) :
    d.weight 0 e = if (e.id = Edge.trueId) != e.complemented then 2 ^ d.varCount else 0 := by
  rw [weight, List.drop_zero, modelBits]
  simp only [eval_terminal d _ h]
  split
  · next hvalue => simp [hvalue, length_bitLists, varCount, VariableOrder.length]
  · next hvalue => simp [hvalue]

namespace Counter

/-- Whether all counts that a counter keeps are exact. -/
def IsExact (d : Diagram) (c : Counter) : Prop :=
  ∀ id count, c.known[id]? = some count → count = d.weight 0 ⟨false, id⟩

theorem isExact_fresh (d : Diagram) : IsExact d fresh := fun id count h => by
  simp [fresh] at h

theorem IsExact.record {c : Counter} (h : c.IsExact d) {id count : Nat}
    (hcount : count = d.weight 0 ⟨false, id⟩) : (c.record id count).IsExact d := by
  intro other found hfound
  rw [Counter.record, Std.HashMap.getElem?_insert] at hfound
  split at hfound
  · next heq =>
    rw [← Option.some.inj hfound, ← beq_iff_eq.1 heq]
    exact hcount
  · exact h other found hfound

end Counter

/-- A node is counted exactly, whatever the counter was asked before. -/
theorem countNode_exact (id : Nat) {c : Counter} (h : c.IsExact d) :
    (d.countNode id c).1 = d.weight 0 ⟨false, id⟩ ∧ (d.countNode id c).2.IsExact d := by
  fun_induction d.countNode id c with
  | case1 c => exact ⟨by rw [weight_terminal (by rfl)]; rfl, h⟩
  | case2 c _ => exact ⟨by rw [weight_terminal (by rfl)]; rfl, h⟩
  | case3 id c _ _ count hknown => exact ⟨h id count hknown, h⟩
  | case4 id c _ htrue _ hmissing =>
    have hnone : ∀ bits, d.eval (assigned d.order.toList bits) ⟨false, id⟩ = false := fun bits => by
      rw [eval_of_no_node hmissing]
      simpa using htrue
    exact ⟨by simp [weight, modelBits, hnone], h⟩
  | case5 id c _ _ _ n hn low high count ihlow ihhigh =>
    obtain ⟨hmem, hid⟩ := mem_of_node? hn
    obtain ⟨hlow, hlowExact⟩ := ihlow h
    obtain ⟨hhigh, hhighExact⟩ := ihhigh hlowExact
    have hcount : count = d.weight 0 ⟨false, id⟩ := by
      have hsum := weight_add_weight hmem
      rw [hid] at hsum
      simp only [count, low, high, hlow, hhigh, marked_weight]
      omega
    exact ⟨hcount, Counter.IsExact.record hhighExact hcount⟩

theorem countEdge_exact (e : Edge) {c : Counter} (h : c.IsExact d) :
    (d.countEdge e c).1 = d.weight 0 e ∧ (d.countEdge e c).2.IsExact d := by
  obtain ⟨hcount, hexact⟩ := countNode_exact e.id h
  exact ⟨by rw [countEdge, hcount, marked_weight], hexact⟩

theorem choices_isExact (vars : List Nat) (level : Nat) (e : Edge) (rank : Nat) {c : Counter}
    (h : c.IsExact d) : (d.choices vars level e rank c).2.IsExact d := by
  induction vars generalizing level e rank c with
  | nil => exact h
  | cons var vars ih =>
    have hfound := (countEdge_exact (d.branches e level).1 h).2
    rw [choices]
    simp only
    split
    · exact ih _ _ _ hfound
    · exact ih _ _ _ hfound

theorem unrank_isExact (rank : Nat) {c : Counter} (h : c.IsExact d) :
    (d.unrank rank c).2.IsExact d := by
  have hall := (countEdge_exact d.root h).2
  rw [unrank]
  simp only
  split
  · exact choices_isExact _ _ _ _ hall
  · exact hall

namespace Counter

/-- What a counter can be asked. -/
inductive Question where
  /-- How many models an edge has. -/
  | count (e : Edge)
  /-- What the model of a rank is. -/
  | model (rank : Nat)

def asked (d : Diagram) (c : Counter) : Question → Counter
  | .count e => (d.countEdge e c).2
  | .model rank => (d.unrank rank c).2

def after (d : Diagram) (questions : List Question) : Counter := questions.foldl (asked d) .fresh

theorem isExact_after (d : Diagram) (questions : List Question) : (after d questions).IsExact d := by
  have hrun (c : Counter) (h : c.IsExact d) : (questions.foldl (asked d) c).IsExact d := by
    induction questions generalizing c with
    | nil => exact h
    | cons question questions ih =>
      cases question with
      | count e => exact ih _ (countEdge_exact e h).2
      | model rank => exact ih _ (unrank_isExact rank h)
  exact hrun _ (isExact_fresh d)

end Counter

/-- Whatever a counter was asked before, it counts the models of every edge among all assignments;
the two numbers that are halved for a node have an even sum, and what is taken from the number of
all assignments for a complemented edge does not exceed it. A count that is asked for on the way to
another one meets such a counter, too. -/
theorem counts_exact (d : Diagram) (questions : List Counter.Question) :
    let c := Counter.after d questions
    d.assignmentCount = Fintype.card (Fin d.varCount → Bool) ∧
      (∀ e, (d.countEdge e c).1 = (d.modelSet e).card) ∧
      (∀ n ∈ d.nodes,
        let low := d.countEdge n.low c
        let high := d.countEdge n.high low.2
        low.1 + high.1 = 2 * (d.countNode n.id c).1) ∧
      ∀ id, (d.countNode id c).1 ≤ d.assignmentCount := by
  intro c
  have hc : c.IsExact d := Counter.isExact_after d questions
  refine ⟨?_, fun e => ?_, fun n hn => ?_, fun id => ?_⟩
  · simp [assignmentCount]
  · rw [(countEdge_exact e hc).1, weight_zero_eq_card]
  · obtain ⟨hlow, hlowExact⟩ := countEdge_exact n.low hc
    simp only [hlow, (countEdge_exact n.high hlowExact).1, (countNode_exact n.id hc).1]
    exact weight_add_weight hn
  · rw [(countNode_exact id hc).1]
    exact d.weight_le _

/-- The diagram of `(x1 ∨ ¬x2) ∧ (x2 ∨ x3)` under the order 2, 3, 1. -/
def twoClauses : Diagram where
  order := ⟨[2, 3, 1], by decide, by decide⟩
  root := ⟨false, 4⟩
  nodes := [⟨2, 0, ⟨true, 1⟩, ⟨false, 1⟩⟩, ⟨3, 2, ⟨false, 1⟩, ⟨true, 1⟩⟩,
    ⟨4, 1, ⟨true, 3⟩, ⟨false, 2⟩⟩]
  wellFormed := by
    constructor <;> decide

example : twoClauses.count = 4 := by cbv

theorem counts_of_two_clauses :
    let c := Counter.after twoClauses [.model 3, .count ⟨true, 3⟩]
    let n : Node := ⟨4, 1, ⟨true, 3⟩, ⟨false, 2⟩⟩
    let low := twoClauses.countEdge n.low c
    let high := twoClauses.countEdge n.high low.2
    n ∈ twoClauses.nodes ∧ (twoClauses.countEdge ⟨true, 3⟩ c).1 = (twoClauses.modelSet ⟨true, 3⟩).card ∧
      low.1 + high.1 = 2 * (twoClauses.countNode n.id c).1 := by
  have hn : (⟨4, 1, ⟨true, 3⟩, ⟨false, 2⟩⟩ : Node) ∈ twoClauses.nodes := by decide
  obtain ⟨_, hcount, hsum, _⟩ := counts_exact twoClauses [.model 3, .count ⟨true, 3⟩]
  exact ⟨hn, hcount _, hsum _ hn⟩

end Diagram
end DiagramCompiler
