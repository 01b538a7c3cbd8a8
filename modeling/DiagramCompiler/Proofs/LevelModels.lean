import Mathlib.Tactic.Ring
import DiagramCompiler.Diagram.Count
import DiagramCompiler.Proofs.WellFormedDiagrams

/-! Models level by level.
The values of the variables from a level on, in diagram order, are a list of bits. Below an edge
some of these lists lead to true: those that start with false belong to the one branch of the edge
and those that start with true to the other one, so that their numbers add up. An edge that skips a
level has the same lists after either bit. -/
namespace DiagramCompiler

def bitLists : Nat → List (List Bool)
  | 0 => [[]]
  | n + 1 => (bitLists n).map (false :: ·) ++ (bitLists n).map (true :: ·)

theorem mem_bitLists {n : Nat} {bits : List Bool} : bits ∈ bitLists n ↔ bits.length = n := by
  induction n generalizing bits with
  | zero => simp [bitLists]
  | succ n ih =>
    cases bits with
    | nil => simp [bitLists]
    | cons bit bits => cases bit <;> simp [bitLists, ih]

theorem length_bitLists (n : Nat) : (bitLists n).length = 2 ^ n := by
  induction n with
  | zero => rfl
  | succ n ih =>
    rw [bitLists, List.length_append, List.length_map, List.length_map, ih, Nat.pow_succ]
    omega

theorem sorted_bitLists (n : Nat) : (bitLists n).Pairwise (· < ·) := by
  induction n with
  | zero => exact List.pairwise_singleton _ _
  | succ n ih =>
    have hcons (bit : Bool) : ((bitLists n).map (bit :: ·)).Pairwise (· < ·) :=
      List.pairwise_map.2 (ih.imp fun h => List.cons_lt_cons_iff.2 (.inr ⟨rfl, h⟩))
    refine List.pairwise_append.2 ⟨hcons false, hcons true, fun bits hbits bits' hbits' => ?_⟩
    obtain ⟨_, _, rfl⟩ := List.mem_map.1 hbits
    obtain ⟨_, _, rfl⟩ := List.mem_map.1 hbits'
    exact List.cons_lt_cons_iff.2 (.inl (by decide))

/-- The assignment of bits to a list of variables; all others are false. -/
def assigned (vars : List Nat) (bits : List Bool) (var : Nat) : Bool :=
  bits.getD (vars.idxOf var) false

theorem assigned_cons_self (var : Nat) (vars : List Nat) (bit : Bool) (bits : List Bool) :
    assigned (var :: vars) (bit :: bits) var = bit := by
  simp [assigned]

theorem assigned_cons_of_ne {var other : Nat} (h : var ≠ other) (vars : List Nat) (bit : Bool)
    (bits : List Bool) : assigned (var :: vars) (bit :: bits) other = assigned vars bits other := by
  simp [assigned, List.idxOf_cons_ne vars h]

namespace Diagram

def StartsAt (d : Diagram) (level : Nat) (e : Edge) : Prop :=
  ∀ n, d.node? e.id = some n → level ≤ levelOf d.order n

variable {d : Diagram} {level : Nat} {e : Edge}

theorem startsAt_zero (d : Diagram) (e : Edge) : d.StartsAt 0 e := fun _ _ => Nat.zero_le _

theorem StartsAt.of_succ (h : d.StartsAt (level + 1) e) : d.StartsAt level e :=
  fun n hn => Nat.le_of_succ_le (h n hn)

theorem mem_toList_of_node {n : Node} (h : n ∈ d.nodes) : n.var + 1 ∈ d.order.toList :=
  d.order.mem_toList_iff.2 ⟨Nat.le_add_left 1 _, d.wellFormed.var_lt n h⟩

theorem startsAt_follow {n : Node} (h : n ∈ d.nodes) (value : Bool) :
    d.StartsAt (levelOf d.order n + 1) (follow n value) := fun m hm => by
  obtain ⟨hmem, hid⟩ := mem_of_node? hm
  exact d.wellFormed.below n h m hmem (by cases value <;> simp_all [follow])

theorem eval_of_node? {n : Node} (h : d.node? e.id = some n) (assignment : Nat → Bool) :
    d.eval assignment e =
      (d.eval assignment (follow n (assignment (n.var + 1))) != e.complemented) := by
  obtain ⟨hn, hid⟩ := mem_of_node? h
  rw [← eval_node hn assignment e.complemented, hid]

theorem eval_of_no_node (h : d.node? e.id = none) (assignment : Nat → Bool) :
    d.eval assignment e = ((e.id = Edge.trueId) != e.complemented) := by
  rw [eval]
  split
  · next hn => simp [h] at hn
  · rfl

theorem eval_mark (d : Diagram) (assignment : Nat → Bool) (complemented : Bool) (id : Nat) :
    d.eval assignment ⟨complemented, id⟩ = (d.eval assignment ⟨false, id⟩ != complemented) := by
  cases h : d.node? id with
  | none => rw [eval_of_no_node h, eval_of_no_node h, Bool.bne_false]
  | some n =>
    rw [eval_of_node? h, eval_of_node? (e := ⟨false, id⟩) h, Bool.bne_false]

theorem eval_flipIf (d : Diagram) (assignment : Nat → Bool) (e : Edge) (flip : Bool) :
    d.eval assignment (e.flipIf flip) = (d.eval assignment e != flip) := by
  obtain ⟨complemented, id⟩ := e
  rw [Edge.flipIf, eval_mark, eval_mark d assignment complemented, Bool.bne_assoc]

theorem StartsAt.eval_congr (h : d.StartsAt level e) {assignment assignment' : Nat → Bool}
    (hagree : ∀ var ∈ d.order.toList.drop level, assignment var = assignment' var) :
    d.eval assignment e = d.eval assignment' e := by
  induction hdepth : d.depth e using Nat.strongRecOn generalizing e with
  | ind depth ih =>
    cases hn : d.node? e.id with
    | none => rw [eval_of_no_node hn, eval_of_no_node hn]
    | some n =>
      have hmem := (mem_of_node? hn).1
      have hvar : n.var + 1 ∈ d.order.toList.drop level := by
        have hlt := List.idxOf_lt_length_of_mem (mem_toList_of_node hmem)
        have hle : level ≤ d.order.toList.idxOf (n.var + 1) := h n hn
        refine List.mem_drop_iff_getElem.2
          ⟨d.order.toList.idxOf (n.var + 1) - level, by omega, ?_⟩
        simp [Nat.add_sub_cancel' hle]
      rw [eval_of_node? hn, eval_of_node? hn, hagree _ hvar]
      refine congrArg (· != e.complemented) (ih _ ?_ (fun m hm => ?_) rfl)
      · exact hdepth ▸ depth_follow_lt hn _
      · exact Nat.le_of_succ_le (Nat.le_trans (Nat.succ_le_succ (h n hn))
          (startsAt_follow hmem _ m hm))

def branch (d : Diagram) (e : Edge) (level : Nat) (value : Bool) : Edge :=
  if value then (d.branches e level).2 else (d.branches e level).1

theorem branch_of_level {n : Node} (h : d.node? e.id = some n) (hlevel : levelOf d.order n = level)
    (value : Bool) : d.branch e level value = (follow n value).flipIf e.complemented := by
  cases value <;> simp [branch, branches, h, hlevel, follow]

theorem branch_of_startsAt (h : d.StartsAt (level + 1) e) (value : Bool) :
    d.branch e level value = e := by
  have hboth : d.branches e level = (e, e) := by
    rw [branches]
    split
    · next n hn =>
      have hlevel := h n hn
      rw [if_neg (by omega)]
    · rfl
  cases value <;> simp [branch, hboth]

theorem StartsAt.cases (h : d.StartsAt level e) :
    (∃ n, d.node? e.id = some n ∧ levelOf d.order n = level) ∨ d.StartsAt (level + 1) e := by
  by_cases hlevel : ∃ n, d.node? e.id = some n ∧ levelOf d.order n = level
  · exact .inl hlevel
  · refine .inr fun n hn => Nat.lt_of_le_of_ne (h n hn) fun heq => hlevel ⟨n, hn, heq.symm⟩

theorem StartsAt.branch (h : d.StartsAt level e) (value : Bool) :
    d.StartsAt (level + 1) (d.branch e level value) := by
  rcases h.cases with ⟨n, hn, rfl⟩ | hskip
  · rw [branch_of_level hn rfl]
    exact startsAt_follow (mem_of_node? hn).1 value
  · rwa [branch_of_startsAt hskip]

theorem StartsAt.eval_branch (h : d.StartsAt level e) {var : Nat}
    (hvar : d.order.toList[level]? = some var) (assignment : Nat → Bool) :
    d.eval assignment e = d.eval assignment (d.branch e level (assignment var)) := by
  rcases h.cases with ⟨n, hn, rfl⟩ | hskip
  · have hmem := mem_toList_of_node (mem_of_node? hn).1
    obtain rfl : n.var + 1 = var := by
      rw [levelOf, VariableOrder.position,
        List.getElem?_eq_getElem (List.idxOf_lt_length_of_mem hmem)] at hvar
      simpa using hvar
    rw [branch_of_level hn rfl, eval_flipIf, eval_of_node? hn]
  · rw [branch_of_startsAt hskip]

/-! ### Bits below an edge -/

/-- The bits for some variables under which an edge is true, in lexicographic order. -/
def modelBits (d : Diagram) (vars : List Nat) (e : Edge) : List (List Bool) :=
  (bitLists vars.length).filter fun bits => d.eval (assigned vars bits) e

theorem mem_modelBits {vars : List Nat} {bits : List Bool} :
    bits ∈ d.modelBits vars e ↔
      bits.length = vars.length ∧ d.eval (assigned vars bits) e = true := by
  rw [modelBits, List.mem_filter, mem_bitLists]

theorem sorted_modelBits (d : Diagram) (vars : List Nat) (e : Edge) :
    (d.modelBits vars e).Pairwise (· < ·) := (sorted_bitLists _).filter _

theorem StartsAt.modelBits_cons (h : d.StartsAt level e) {var : Nat} {vars : List Nat}
    (hvars : d.order.toList.drop level = var :: vars) :
    d.modelBits (var :: vars) e =
      (d.modelBits vars (d.branch e level false)).map (false :: ·) ++
        (d.modelBits vars (d.branch e level true)).map (true :: ·) := by
  have hvar : d.order.toList[level]? = some var := by
    rw [← List.head?_drop, hvars, List.head?_cons]
  have hrest : d.order.toList.drop (level + 1) = vars := by
    rw [← List.tail_drop, hvars, List.tail_cons]
  have hnew : var ∉ vars := by
    have hnodup := d.order.nodup.sublist (List.drop_sublist level _)
    rw [hvars] at hnodup
    exact (List.nodup_cons.1 hnodup).1
  have heval (bit : Bool) (bits : List Bool) :
      d.eval (assigned (var :: vars) (bit :: bits)) e =
        d.eval (assigned vars bits) (d.branch e level bit) := by
    rw [h.eval_branch hvar, assigned_cons_self]
    refine (h.branch bit).eval_congr fun other hother => ?_
    rw [hrest] at hother
    have hne : var ≠ other := fun heq => hnew (heq ▸ hother)
    exact assigned_cons_of_ne hne _ _ _
  rw [modelBits, List.length_cons, bitLists, List.filter_append, List.filter_map, List.filter_map]
  simp only [Function.comp_def, heval]
  rfl

def weight (d : Diagram) (level : Nat) (e : Edge) : Nat :=
  (d.modelBits (d.order.toList.drop level) e).length

theorem exists_drop_eq_cons (h : level < d.varCount) :
    ∃ var vars, d.order.toList.drop level = var :: vars :=
  ⟨_, _, List.drop_eq_getElem_cons h⟩

theorem StartsAt.weight_eq_add (h : d.StartsAt level e) (hlevel : level < d.varCount) :
    d.weight level e =
      d.weight (level + 1) (d.branch e level false) +
        d.weight (level + 1) (d.branch e level true) := by
  obtain ⟨var, vars, hvars⟩ := exists_drop_eq_cons hlevel
  have hrest : d.order.toList.drop (level + 1) = vars := by
    rw [← List.tail_drop, hvars, List.tail_cons]
  rw [weight, weight, weight, hvars, hrest, h.modelBits_cons hvars, List.length_append,
    List.length_map, List.length_map]

/-- An edge has as many models as there are ways below it, for each way to it. -/
theorem StartsAt.weight_zero (h : d.StartsAt level e) (hlevel : level ≤ d.varCount) :
    d.weight 0 e = 2 ^ level * d.weight level e := by
  induction level with
  | zero => simp
  | succ level ih =>
    rw [ih h.of_succ (Nat.le_of_succ_le hlevel), h.of_succ.weight_eq_add hlevel,
      branch_of_startsAt h, branch_of_startsAt h, Nat.pow_succ]
    ring

theorem weight_le (d : Diagram) (e : Edge) : d.weight 0 e ≤ 2 ^ d.varCount := by
  rw [weight, List.drop_zero, ← length_bitLists d.varCount]
  exact List.length_filter_le _ _

theorem weight_mark (d : Diagram) (id : Nat) :
    d.weight 0 ⟨false, id⟩ + d.weight 0 ⟨true, id⟩ = 2 ^ d.varCount := by
  have hnot : (fun bits => d.eval (assigned d.order.toList bits) ⟨true, id⟩) =
      fun bits => !d.eval (assigned d.order.toList bits) ⟨false, id⟩ := by
    funext bits
    rw [eval_mark, Bool.bne_true]
  rw [weight, weight, List.drop_zero, modelBits, modelBits, hnot, ← length_bitLists d.varCount]
  exact (List.length_eq_length_filter_add _).symm

end Diagram
end DiagramCompiler
