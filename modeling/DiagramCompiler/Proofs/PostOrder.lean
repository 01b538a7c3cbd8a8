import DiagramCompiler.Proofs.SharedNodes

/-! Nodes in post-order.
Going through a diagram gathers each of its nodes once and after its parts. The list that is built
up has the last node first; `Gathered` is what holds of it at any time, and `Gathers` what one walk
does to it. Two equations say all that later proofs need of a walk: nothing is added for a diagram
that was met before, and a new node comes after what its parts add. -/
namespace DiagramCompiler
namespace Reference
namespace Table

def Met (met : List (Nat × Branch)) (id : Nat) : Prop := id < 2 ∨ ∃ n, (id, n) ∈ met

/-- Whether a list, read from its end, holds nodes of a table once and after their parts. -/
inductive Gathered (t : Table) : List (Nat × Branch) → Prop where
  | nil : Gathered t []
  | cons {met : List (Nat × Branch)} {id : Nat} {n : Branch} (rest : Gathered t met)
      (node : t.node? id = some n) (new : ¬ Met met id) (low : Met met n.low)
      (high : Met met n.high) : Gathered t ((id, n) :: met)

/-- What a walk through a diagram comes to. -/
structure Gathers (t : Table) (met : List (Nat × Branch)) (id : Nat)
    (result : List (Nat × Branch)) : Prop where
  gathered : t.Gathered result
  suffix : met <:+ result
  reached : Met result id
  le : ∀ m ∈ result, m ∈ met ∨ m.1 ≤ id

theorem Met.mono {met met' : List (Nat × Branch)} (h : met ⊆ met') {id : Nat} (hid : Met met id) :
    Met met' id := hid.imp_right fun ⟨n, hn⟩ => ⟨n, h hn⟩

theorem met_cons_iff {met : List (Nat × Branch)} {m : Nat × Branch} {id : Nat} :
    Met (m :: met) id ↔ m.1 = id ∨ Met met id := by
  constructor
  · rintro (hlt | ⟨n, hn⟩)
    · exact .inr (.inl hlt)
    · rcases List.mem_cons.1 hn with rfl | hn
      · exact .inl rfl
      · exact .inr (.inr ⟨n, hn⟩)
  · rintro (rfl | h)
    · exact .inr ⟨m.2, List.mem_cons_self⟩
    · exact h.mono (List.subset_cons_self m met)

variable {t : Table}

theorem Gathered.of_cons {met : List (Nat × Branch)} {m : Nat × Branch}
    (h : t.Gathered (m :: met)) : t.Gathered met := by
  cases h
  assumption

theorem Gathered.node?_eq {met : List (Nat × Branch)} (h : t.Gathered met) {m : Nat × Branch}
    (hm : m ∈ met) : t.node? m.1 = some m.2 := by
  induction h with
  | nil => exact absurd hm (by simp)
  | cons rest node new low high ih =>
    rcases List.mem_cons.1 hm with rfl | hm
    · exact node
    · exact ih hm

theorem Gathered.parts {met : List (Nat × Branch)} (h : t.Gathered met) {m : Nat × Branch}
    (hm : m ∈ met) : Met met m.2.low ∧ Met met m.2.high := by
  induction h with
  | nil => exact absurd hm (by simp)
  | @cons met id n rest node new low high ih =>
    have hmono : ∀ {part}, Met met part → Met ((id, n) :: met) part :=
      fun hpart => hpart.mono (List.subset_cons_self _ met)
    rcases List.mem_cons.1 hm with rfl | hm
    · exact ⟨hmono low, hmono high⟩
    · exact ⟨hmono (ih hm).1, hmono (ih hm).2⟩

theorem Gathered.nodup {met : List (Nat × Branch)} (h : t.Gathered met) :
    (met.map Prod.fst).Nodup := by
  induction h with
  | nil => exact List.nodup_nil
  | cons rest node new low high ih =>
    refine List.nodup_cons.2 ⟨fun hmem => ?_, ih⟩
    obtain ⟨⟨other, n'⟩, hm, rfl⟩ := List.mem_map.1 hmem
    exact new (.inr ⟨n', hm⟩)

/-! ### The walk -/

theorem any_iff_met {met : List (Nat × Branch)} {id : Nat} (hid : 2 ≤ id) :
    met.any (·.1 = id) = true ↔ Met met id := by
  rw [List.any_eq_true]
  constructor
  · rintro ⟨m, hm, heq⟩
    rw [decide_eq_true_eq] at heq
    exact .inr ⟨m.2, heq ▸ hm⟩
  · rintro (hlt | ⟨n, hn⟩)
    · omega
    · exact ⟨(id, n), hn, by simp⟩

theorem gather_of_met (fuel : Nat) {met : List (Nat × Branch)} {id : Nat} (h : Met met id) :
    t.gather fuel met id = met := by
  cases fuel with
  | zero => rfl
  | succ fuel =>
    rw [gather]
    cases hn : t.node? id with
    | none => rfl
    | some n => simp only [(any_iff_met (le_and_holds_of_node? hn).1).2 h, if_true]

theorem gather_of_not_met (fuel : Nat) {met : List (Nat × Branch)} {id : Nat} {n : Branch}
    (hn : t.node? id = some n) (h : ¬ Met met id) :
    t.gather (fuel + 1) met id = (id, n) :: t.gather fuel (t.gather fuel met n.low) n.high := by
  have hany : ¬ met.any (·.1 = id) = true :=
    mt (any_iff_met (le_and_holds_of_node? hn).1).1 h
  rw [gather]
  simp only [hn, hany]
  rfl

/-- A walk gathers what it should. The induction is on the fuel, which exceeds the levels that are
left; that a node is not met while its parts are gathered is due to their smaller numbers. -/
theorem Sound.gathers (ht : t.Sound) (fuel : Nat) {met : List (Nat × Branch)}
    (hmet : t.Gathered met) {id : Nat} (hid : t.Holds id)
    (hfuel : t.order.length < fuel + t.level id) : t.Gathers met id (t.gather fuel met id) := by
  induction fuel generalizing met id with
  | zero =>
    have := ht.level_le id
    omega
  | succ fuel ih =>
    by_cases hold : Met met id
    · rw [gather_of_met _ hold]
      exact ⟨hmet, List.suffix_refl met, hold, fun m hm => .inl hm⟩
    · have hle : 2 ≤ id := by
        by_contra hlt
        exact hold (.inl (by omega))
      obtain ⟨n, hn⟩ := exists_node?_of_holds hle hid
      have hp := ht.placed hn
      rw [level_of_node? hn] at hfuel
      have hlow := ih hmet (ht.holds_low hn) (by
        have := hp.above_low
        omega)
      have hhigh := ih hlow.gathered (ht.holds_high hn) (by
        have := hp.above_high
        omega)
      rw [gather_of_not_met fuel hn hold]
      have hnew : ∀ m ∈ t.gather fuel (t.gather fuel met n.low) n.high, m ∈ met ∨ m.1 < id := by
        intro m hm
        have hlt := hp.low_lt
        have hlt' := hp.high_lt
        rcases hhigh.le m hm with hm | hm
        · rcases hlow.le m hm with hm | hm
          · exact .inl hm
          · exact .inr (by omega)
        · exact .inr (by omega)
      refine ⟨.cons hhigh.gathered hn ?_ (hlow.reached.mono hhigh.suffix.subset) hhigh.reached,
        (hlow.suffix.trans hhigh.suffix).trans (List.suffix_cons _ _),
        .inr ⟨n, List.mem_cons_self⟩, fun m hm => ?_⟩
      · rintro (hlt | ⟨n', hn'⟩)
        · omega
        · rcases hnew _ hn' with hmem | hlt
          · exact hold (.inr ⟨n', hmem⟩)
          · exact absurd hlt (Nat.lt_irrefl id)
      · rcases List.mem_cons.1 hm with rfl | hm
        · exact .inr (Nat.le_refl _)
        · exact (hnew m hm).imp_right Nat.le_of_lt

def gathered (t : Table) (id : Nat) : List (Nat × Branch) := t.gather (t.order.length + 1) [] id

theorem reverse_gathered (t : Table) (id : Nat) : (t.gathered id).reverse = t.postOrder id := rfl

theorem Sound.gathers_gathered (ht : t.Sound) {id : Nat} (hid : t.Holds id) :
    t.Gathers [] id (t.gathered id) := ht.gathers _ .nil hid (by omega)

theorem head?_gathered {id : Nat} {n : Branch} (hn : t.node? id = some n) :
    (t.gathered id).head? = some (id, n) := by
  have hid := (le_and_holds_of_node? hn).1
  have hnew : ¬ Met [] id := by
    rintro (hlt | ⟨n, hn⟩)
    · omega
    · exact absurd hn (by simp)
  rw [gathered, gather_of_not_met _ hn hnew]
  rfl

theorem gathered_terminal {id : Nat} (h : id < 2) : t.gathered id = [] :=
  gather_of_met _ (.inl h)

end Table
end Reference
end DiagramCompiler
