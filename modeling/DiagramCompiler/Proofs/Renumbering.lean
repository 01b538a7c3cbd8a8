import DiagramCompiler.Proofs.WrittenTables
import DiagramCompiler.Native.Numbering

/-! Renumbered nodes.
The walk through a table that was read gives numbers from 2 on, in the order in which the walk
through the nodes of the engine gathers them. So the number of a node is its place in the gathered
list, and nothing of the engine's own number is left. -/
namespace DiagramCompiler
namespace Reference
namespace Table

/-- The number of a diagram by its place in a gathered list; a terminal keeps its own. -/
def numberIn : List (Nat × Branch) → Nat → Nat
  | [], id => id
  | m :: met, id => if m.1 = id then met.length + Edge.firstNodeId else numberIn met id

def renamed (t : Table) (met : List (Nat × Branch)) (m : Nat × Branch) : Node :=
  ⟨numberIn met m.1, t.varAt m.2.level, ⟨false, numberIn met m.2.low⟩,
    ⟨false, numberIn met m.2.high⟩⟩

variable {t : Table} {met : List (Nat × Branch)}

theorem Gathered.two_le (h : t.Gathered met) {m : Nat × Branch} (hm : m ∈ met) : 2 ≤ m.1 :=
  (le_and_holds_of_node? (h.node?_eq hm)).1

theorem Gathered.numberIn_terminal (h : t.Gathered met) {id : Nat} (hid : id < 2) :
    numberIn met id = id := by
  induction h with
  | nil => rfl
  | @cons met other n rest node new low high ih =>
    have hne : other ≠ id := by
      have := (le_and_holds_of_node? node).1
      omega
    rw [numberIn, if_neg hne, ih]

theorem numberIn_cons_of_met {other : Nat} {n : Branch} (hnew : ¬ Met met other) {id : Nat}
    (hid : Met met id) : numberIn ((other, n) :: met) id = numberIn met id := by
  rw [numberIn, if_neg]
  rintro rfl
  exact hnew hid

theorem Gathered.numberIn_lt (h : t.Gathered met) {id : Nat} (hid : Met met id) :
    numberIn met id < met.length + 2 := by
  induction h with
  | nil =>
    rcases hid with hlt | ⟨n, hn⟩
    · exact hlt
    · exact absurd hn (by simp)
  | @cons met other n rest node new low high ih =>
    rw [numberIn, List.length_cons]
    split
    · simp [Edge.firstNodeId]
    · next hne =>
      have := ih ((met_cons_iff.1 hid).resolve_left hne)
      omega

theorem Gathered.le_numberIn (h : t.Gathered met) {id : Nat} (hid : Met met id) (hle : 2 ≤ id) :
    2 ≤ numberIn met id := by
  induction h with
  | nil => exact hle
  | @cons met other n rest node new low high ih =>
    rw [numberIn]
    split
    · simp [Edge.firstNodeId]
    · next hne => exact ih ((met_cons_iff.1 hid).resolve_left hne)

theorem Gathered.numberIn_inj (h : t.Gathered met) {id id' : Nat} (hid : Met met id)
    (hid' : Met met id') (heq : numberIn met id = numberIn met id') : id = id' := by
  induction h with
  | nil => exact heq
  | @cons met other n rest node new low high ih =>
    rw [met_cons_iff] at hid hid'
    by_cases hsame : other = id
    · by_cases hsame' : other = id'
      · exact hsame.symm.trans hsame'
      · have hlt := rest.numberIn_lt (hid'.resolve_left hsame')
        rw [numberIn, if_pos hsame, numberIn, if_neg hsame'] at heq
        simp only [Edge.firstNodeId] at heq
        omega
    · by_cases hsame' : other = id'
      · have hlt := rest.numberIn_lt (hid.resolve_left hsame)
        rw [numberIn, if_neg hsame, numberIn, if_pos hsame'] at heq
        simp only [Edge.firstNodeId] at heq
        omega
      · rw [numberIn, if_neg hsame, numberIn, if_neg hsame'] at heq
        exact ih (hid.resolve_left hsame) (hid'.resolve_left hsame') heq

/-- A node that is gathered later does not touch the names of those before. -/
theorem Gathered.map_renamed_cons {id : Nat} {n : Branch} (h : t.Gathered met)
    (hnew : ¬ Met met id) :
    met.map (t.renamed ((id, n) :: met)) = met.map (t.renamed met) := by
  refine List.map_congr_left fun m hm => ?_
  obtain ⟨hlow, hhigh⟩ := h.parts hm
  simp only [renamed]
  rw [numberIn_cons_of_met hnew (.inr ⟨m.2, hm⟩), numberIn_cons_of_met hnew hlow,
    numberIn_cons_of_met hnew hhigh]

/-! ### The walk through a table that was read -/

/-- What a numbering is after some nodes were gathered. -/
structure Follows (t : Table) (met : List (Nat × Branch)) (n : Native.Numbering) : Prop where
  found : ∀ {id}, 2 ≤ id → Met met id → n.numbers.get? id = some (numberIn met id)
  missing : ∀ {id}, ¬ Met met id → n.numbers.get? id = none
  nodes_eq : n.nodes = met.map (t.renamed met)

theorem follows_empty (t : Table) : t.Follows [] .empty where
  found hle hid := by
    rcases hid with hlt | ⟨n, hn⟩
    · omega
    · exact absurd hn (by simp)
  missing _ := rfl
  nodes_eq := rfl

theorem Follows.resolve {n : Native.Numbering} (h : t.Follows met n) (hmet : t.Gathered met)
    {id : Nat} (hid : Met met id) :
    n.resolve (Native.Buddy.edge id) = .ok ⟨false, numberIn met id⟩ := by
  by_cases hlt : id < 2
  · rw [hmet.numberIn_terminal hlt]
    have : id = 0 ∨ id = 1 := by omega
    rcases this with rfl | rfl <;> rfl
  · have h0 : id ≠ 0 := by omega
    have h1 : id ≠ 1 := by omega
    simp [Native.Numbering.resolve, Native.Buddy.edge, h0, h1, h.found (by omega) hid]

theorem Follows.add {n : Native.Numbering} (h : t.Follows met n) (hmet : t.Gathered met) {id : Nat}
    {b : Branch} (hnew : ¬ Met met id) (hlow : Met met b.low)
    (hhigh : Met met b.high) :
    ∃ n', n.add id (t.native (id, b)).2 = .ok n' ∧ t.Follows ((id, b) :: met) n' := by
  have hnumber : n.nodes.length + Edge.firstNodeId = numberIn ((id, b) :: met) id := by
    rw [h.nodes_eq, List.length_map, numberIn, if_pos rfl]
  let number := n.nodes.length + Edge.firstNodeId
  refine ⟨⟨n.numbers.insert id number, ⟨number, t.varAt b.level, ⟨false, numberIn met b.low⟩,
    ⟨false, numberIn met b.high⟩⟩ :: n.nodes⟩, ?_, ?_⟩
  · rw [Native.Numbering.add, native, h.resolve hmet hlow, h.resolve hmet hhigh]
    rfl
  · refine ⟨fun {other} hle' hother => ?_, fun {other} hother => ?_, ?_⟩
    · simp only [Dictionary.get?_insert]
      split
      · next heq => rw [← heq, ← hnumber]
      · next hne =>
        have hmem := (met_cons_iff.1 hother).resolve_left hne
        rw [h.found hle' hmem, numberIn_cons_of_met hnew hmem]
    · rw [met_cons_iff, not_or] at hother
      simp only [Dictionary.get?_insert]
      rw [if_neg hother.1]
      exact h.missing hother.2
    · rw [List.map_cons, hmet.map_renamed_cons hnew, ← h.nodes_eq, renamed]
      simp only
      rw [numberIn_cons_of_met hnew hlow, numberIn_cons_of_met hnew hhigh, ← hnumber]

theorem entries_terminal {id : Nat} (hid : id < 2) :
    Native.entries (Native.Buddy.edge id) = [] := by
  have : id = 0 ∨ id = 1 := by omega
  rcases this with rfl | rfl <;> rfl

theorem entries_node {id : Nat} (hid : 2 ≤ id) :
    Native.entries (Native.Buddy.edge id) = [.enter id] := by
  have h0 : id ≠ 0 := by omega
  have h1 : id ≠ 1 := by omega
  simp [Native.entries, Native.Buddy.edge, h0, h1]

section Visit

variable {full fresh : Dictionary Nat Native.NativeNode} {n : Native.Numbering} {id : Nat}

theorem Follows.visit_known (h : t.Follows met n) (hid : Met met id)
    (rest : List Native.Visit) :
    Native.visit full (Native.entries (Native.Buddy.edge id) ++ rest) fresh n =
      Native.visit full rest fresh n := by
  by_cases hlt : id < 2
  · rw [entries_terminal hlt, List.nil_append]
  · rw [entries_node (by omega), List.singleton_append,
      Native.visit_enter_known (h.found (by omega) hid)]

theorem Follows.visit_new (h : t.Follows met n) (hle : 2 ≤ id) (hid : ¬ Met met id) {b : Branch}
    (hfresh : fresh.get? id = some (t.native (id, b)).2) (rest : List Native.Visit) :
    Native.visit full (Native.entries (Native.Buddy.edge id) ++ rest) fresh n =
      Native.visit full (Native.entries (Native.Buddy.edge b.low) ++
        (Native.entries (Native.Buddy.edge b.high) ++ .leave id (t.native (id, b)).2 :: rest))
        (fresh.erase id) n := by
  rw [entries_node hle, List.singleton_append, Native.visit_enter_fresh (h.missing hid) hfresh]
  rfl

theorem Follows.visit_leave (full fresh : Dictionary Nat Native.NativeNode)
    (h : t.Follows met n) (hmet : t.Gathered met) (hid : ¬ Met met id)
    {b : Branch} (hlow : Met met b.low) (hhigh : Met met b.high) (rest : List Native.Visit) :
    ∃ n', Native.visit full (.leave id (t.native (id, b)).2 :: rest) fresh n =
      Native.visit full rest fresh n' ∧ t.Follows ((id, b) :: met) n' := by
  obtain ⟨n', hadd, hfollows⟩ := h.add hmet hid hlow hhigh
  exact ⟨n', Native.visit_leave hadd rest, hfollows⟩

end Visit

/-- The nodes that a walk has yet to enter are those that the other walk has yet to gather. -/
def Unvisited (t : Table) (all met : List (Nat × Branch)) (id : Nat)
    (fresh : Dictionary Nat Native.NativeNode) : Prop :=
  ∀ m ∈ all, m.1 ≤ id → ¬ Met met m.1 → fresh.get? m.1 = some (t.native m).2

section Unvisited

variable {all met' : List (Nat × Branch)} {id : Nat}
  {fresh fresh' : Dictionary Nat Native.NativeNode}

theorem Unvisited.enter (h : t.Unvisited all met id fresh) {part : Nat} (hlt : part < id) :
    t.Unvisited all met part (fresh.erase id) := by
  intro m hm hle hnew
  rw [Dictionary.get?_erase, if_neg (by omega)]
  exact h m hm (by omega) hnew

/-- A walk that enters only what is gathered leaves the rest. -/
theorem Unvisited.after (h : t.Unvisited all met id fresh) (hmore : met ⊆ met')
    (hkeep : ∀ i, ¬ Met met' i → fresh'.get? i = fresh.get? i) :
    t.Unvisited all met' id fresh' := by
  intro m hm hle hnew
  rw [hkeep m.1 hnew]
  exact h m hm hle fun hmet => hnew (hmet.mono hmore)

end Unvisited

theorem Sound.visit_gather (ht : t.Sound) {all : List (Nat × Branch)} (hall : t.Gathered all)
    (full : Dictionary Nat Native.NativeNode) (fuel : Nat) (hmet : t.Gathered met) {id : Nat}
    (hid : Met all id) (hfuel : t.order.length < fuel + t.level id) {n : Native.Numbering}
    (hn : t.Follows met n) {fresh : Dictionary Nat Native.NativeNode}
    (hfresh : t.Unvisited all met id fresh) (rest : List Native.Visit) :
    ∃ n' fresh', Native.visit full (Native.entries (Native.Buddy.edge id) ++ rest) fresh n =
        Native.visit full rest fresh' n' ∧
      t.Follows (t.gather fuel met id) n' ∧
      ∀ i, ¬ Met (t.gather fuel met id) i → fresh'.get? i = fresh.get? i := by
  induction fuel generalizing met id n fresh rest with
  | zero =>
    have := ht.level_le id
    omega
  | succ fuel ih =>
    by_cases hold : Met met id
    · refine ⟨n, fresh, hn.visit_known hold rest, ?_, fun i _ => rfl⟩
      rwa [gather_of_met _ hold]
    · have hle : 2 ≤ id := by
        by_contra hlt
        exact hold (.inl (by omega))
      obtain ⟨b, hmem⟩ := hid.resolve_left (by omega)
      have hnode : t.node? id = some b := hall.node?_eq hmem
      have hp := ht.placed hnode
      obtain ⟨hallLow, hallHigh⟩ := hall.parts hmem
      have hall' := ht.gathers (fuel + 1) hmet (le_and_holds_of_node? hnode).2 hfuel
      rw [level_of_node? hnode] at hfuel
      have hfuelLow : t.order.length < fuel + t.level b.low := by
        have := hp.above_low
        omega
      have hfuelHigh : t.order.length < fuel + t.level b.high := by
        have := hp.above_high
        omega
      have glow := ht.gathers fuel hmet (ht.holds_low hnode) hfuelLow
      have ghigh := ht.gathers fuel glow.gathered (ht.holds_high hnode) hfuelHigh
      rw [gather_of_not_met fuel hnode hold] at hall' ⊢
      obtain ⟨hgathered, _, _, _⟩ := hall'
      cases hgathered with
      | cons _ _ hnew hlow hhigh =>
        obtain ⟨n₁, fresh₁, hvisit₁, hn₁, hkeep₁⟩ := ih hmet hallLow hfuelLow hn
          (hfresh.enter hp.low_lt)
          (Native.entries (Native.Buddy.edge b.high) ++ .leave id (t.native (id, b)).2 :: rest)
        have hfreshHigh : t.Unvisited all (t.gather fuel met b.low) b.high fresh₁ :=
          (hfresh.enter hp.high_lt).after glow.suffix.subset hkeep₁
        obtain ⟨n₂, fresh₂, hvisit₂, hn₂, hkeep₂⟩ := ih glow.gathered hallHigh hfuelHigh hn₁
          hfreshHigh (.leave id (t.native (id, b)).2 :: rest)
        obtain ⟨n₃, hvisit₃, hn₃⟩ := hn₂.visit_leave full fresh₂ ghigh.gathered hnew hlow hhigh rest
        refine ⟨n₃, fresh₂, ?_, hn₃, fun i hi => ?_⟩
        · rw [hn.visit_new hle hold (hfresh (id, b) hmem (Nat.le_refl _) hold), hvisit₁, hvisit₂,
            hvisit₃]
        · rw [met_cons_iff, not_or] at hi
          rw [hkeep₂ i hi.2, hkeep₁ i fun h => hi.2 (h.mono ghigh.suffix.subset),
            Dictionary.get?_erase, if_neg hi.1]

/-- The nodes of a diagram under their new numbers, in the order in which they get them. -/
def renumbered (t : Table) (id : Nat) : List Node :=
  ((t.gathered id).map (t.renamed (t.gathered id))).reverse

/-- The table that the text of a diagram is read as has the numbers of the walk. -/
theorem Sound.number_nativeTable (ht : t.Sound) {id : Nat} (hid : t.Holds id) :
    (t.nativeTable id).number =
      .ok ⟨⟨false, numberIn (t.gathered id) id⟩, t.renumbered id⟩ := by
  have h := ht.gathers_gathered hid
  have hfresh : t.Unvisited (t.gathered id) [] id (t.nativeTable id).nodes := by
    intro m hm _ _
    refine Dictionary.get?_insertAll_of_mem (e := t.native m) .empty (ht.nodup_native hid) ?_
    rw [← reverse_gathered]
    exact List.mem_map_of_mem (List.mem_reverse.2 hm)
  obtain ⟨n, fresh, hvisit, hn, _⟩ := ht.visit_gather h.gathered (t.nativeTable id).nodes
    (t.order.length + 1) .nil h.reached (by omega) (follows_empty t) hfresh []
  rw [List.append_nil] at hvisit
  have hdone : Native.visit (t.nativeTable id).nodes (Native.entries (t.nativeTable id).root)
      (t.nativeTable id).nodes .empty = .ok n := by
    rw [← Native.visit, ← hvisit]
    rfl
  have hroot : n.resolve (t.nativeTable id).root = .ok ⟨false, numberIn (t.gathered id) id⟩ :=
    hn.resolve h.gathered h.reached
  rw [Native.Table.number, hdone]
  simp only [Bind.bind, Except.bind, hroot]
  rw [hn.nodes_eq]
  rfl

end Table
end Reference
end DiagramCompiler
