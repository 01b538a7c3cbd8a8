import DiagramCompiler.Proofs.NativeTables
import DiagramCompiler.Proofs.ReadDumps

/-! Numbered tables.
The walk through a table numbers each node after the nodes that it leads to. Each node of the table
is fresh, numbered, or open, that is on the path from the root to where the walk is. So a node that
is entered and not fresh is a node that was open already, and the path from it leads back to it. -/
namespace DiagramCompiler
namespace Native

/-! ### Numberings -/

namespace Numbering

variable {t : Table} {n n' : Numbering}

theorem resolve_terminal (n : Numbering) (complemented value : Bool) :
    n.resolve ⟨complemented, .terminal value⟩ =
      .ok ⟨complemented, if value then Edge.trueId else Edge.falseId⟩ := by
  cases value <;> rfl

theorem resolve_node {complemented : Bool} {id : Nat} {f : Edge} :
    n.resolve ⟨complemented, .node id⟩ = .ok f ↔
      n.numbers.get? id = some f.id ∧ f.complemented = complemented := by
  simp only [resolve]
  cases n.numbers.get? id with
  | none => simp
  | some number =>
    simp only [Except.ok.injEq, Option.some.injEq]
    constructor
    · rintro rfl
      exact ⟨rfl, rfl⟩
    · rintro ⟨rfl, rfl⟩
      rfl

def Extends (n n' : Numbering) : Prop :=
  ∀ id number, n.numbers.get? id = some number → n'.numbers.get? id = some number

theorem Extends.resolve (h : n.Extends n') {e : NativeEdge} {f : Edge} (he : n.resolve e = .ok f) :
    n'.resolve e = .ok f := by
  obtain ⟨complemented, target⟩ := e
  cases target with
  | terminal value => rwa [resolve_terminal] at he ⊢
  | node id =>
    rw [resolve_node] at he ⊢
    exact ⟨h _ _ he.1, he.2⟩

/-- Whether a node stands for a native one. -/
structure Renames (n : Numbering) (native : NativeNode) (m : Node) : Prop where
  var : m.var = native.var
  low : n.resolve native.low = .ok m.low
  high : n.resolve native.high = .ok m.high
  low_lt : m.low.id < m.id
  high_lt : m.high.id < m.id

theorem Renames.extend {native : NativeNode} {m : Node} (h : n.Renames native m)
    (hext : n.Extends n') : n'.Renames native m :=
  ⟨h.var, hext.resolve h.low, hext.resolve h.high, h.low_lt, h.high_lt⟩

/-- Whether the numbered nodes stand for nodes of a table. -/
structure Follows (n : Numbering) (t : Table) : Prop where
  ids : n.nodes.reverse.map Node.id = List.range' Edge.firstNodeId n.nodes.length
  size : n.numbers.entries.length = n.nodes.length
  reachable {id number : Nat} : n.numbers.get? id = some number → t.Reachable id
  stands {id number : Nat} : n.numbers.get? id = some number →
    ∃ native, ∃ m ∈ n.nodes, t.nodes.get? id = some native ∧ m.id = number ∧ n.Renames native m
  named {m : Node} : m ∈ n.nodes → ∃ id, n.numbers.get? id = some m.id

theorem follows_empty (t : Table) : empty.Follows t where
  ids := rfl
  size := rfl
  reachable h := absurd h (by simp [empty])
  stands h := absurd h (by simp [empty])
  named h := absurd h (by simp [empty])

theorem Follows.mem_range (h : n.Follows t) {m : Node} (hm : m ∈ n.nodes) :
    Edge.firstNodeId ≤ m.id ∧ m.id < n.nodes.length + Edge.firstNodeId := by
  have hid : m.id ∈ n.nodes.reverse.map Node.id := List.mem_map_of_mem (List.mem_reverse.2 hm)
  rw [h.ids, List.mem_range'_1] at hid
  omega

theorem Follows.resolve_lt (h : n.Follows t) {e : NativeEdge} {f : Edge}
    (he : n.resolve e = .ok f) : f.id < n.nodes.length + Edge.firstNodeId := by
  obtain ⟨complemented, target⟩ := e
  cases target with
  | terminal value =>
    rw [resolve_terminal] at he
    obtain rfl := Except.ok.inj he
    cases value <;> simp [Edge.trueId, Edge.falseId, Edge.firstNodeId]
  | node id =>
    obtain ⟨hid, -⟩ := resolve_node.1 he
    obtain ⟨_, m, hm, _, hnumber, _⟩ := h.stands hid
    exact hnumber ▸ (h.mem_range hm).2

def withNode (n : Numbering) (id : Nat) (native : NativeNode) (low high : Edge) : Numbering :=
  ⟨n.numbers.insert id (n.nodes.length + Edge.firstNodeId),
    ⟨n.nodes.length + Edge.firstNodeId, native.var, low, high⟩ :: n.nodes⟩

theorem add_eq {id : Nat} {native : NativeNode} {low high : Edge}
    (hlow : n.resolve native.low = .ok low) (hhigh : n.resolve native.high = .ok high) :
    n.add id native = .ok (n.withNode id native low high) := by
  rw [add, hlow, hhigh]
  rfl

section WithNode

variable {id : Nat} {native : NativeNode} {low high : Edge}

theorem get?_withNode (n : Numbering) (other : Nat) :
    (n.withNode id native low high).numbers.get? other =
      if id = other then some (n.nodes.length + Edge.firstNodeId) else n.numbers.get? other :=
  Dictionary.get?_insert ..

theorem extends_withNode (hnew : n.numbers.get? id = none) :
    n.Extends (n.withNode id native low high) := by
  intro other number hother
  rw [get?_withNode, if_neg]
  · exact hother
  · rintro rfl
    exact absurd (hother.symm.trans hnew) (by simp)

theorem Follows.withNode (h : n.Follows t) (hid : t.Reachable id)
    (hnative : t.nodes.get? id = some native) (hnew : n.numbers.get? id = none)
    (hlow : n.resolve native.low = .ok low) (hhigh : n.resolve native.high = .ok high) :
    (n.withNode id native low high).Follows t where
  ids := by
    have hlength : (n.withNode id native low high).nodes.length = n.nodes.length + 1 := rfl
    rw [hlength, List.range'_concat, ← h.ids]
    simp [Numbering.withNode, Nat.add_comm]
  size := by
    have hlength := Dictionary.length_insert (n.nodes.length + Edge.firstNodeId) hnew
    rw [h.size] at hlength
    exact hlength
  reachable {other number} hother := by
    rw [get?_withNode] at hother
    split at hother
    · next heq => exact heq ▸ hid
    · exact h.reachable hother
  stands {other number} hother := by
    have hext : n.Extends (n.withNode id native low high) := extends_withNode hnew
    rw [get?_withNode] at hother
    split at hother
    · next heq =>
      subst heq
      exact ⟨native, _, List.mem_cons_self, hnative, Option.some.inj hother,
        rfl, hext.resolve hlow, hext.resolve hhigh, h.resolve_lt hlow, h.resolve_lt hhigh⟩
    · obtain ⟨other', m, hm, hget, hnumber, hrenames⟩ := h.stands hother
      exact ⟨other', m, List.mem_cons_of_mem _ hm, hget, hnumber, hrenames.extend hext⟩
  named {m} hm := by
    rcases List.mem_cons.1 hm with rfl | hm
    · exact ⟨id, by rw [get?_withNode, if_pos rfl]⟩
    · obtain ⟨other, hother⟩ := h.named hm
      exact ⟨other, extends_withNode hnew _ _ hother⟩

end WithNode
end Numbering

/-! ### Walks -/

/-- What holds on the way: each node of the table is fresh, numbered or open. -/
structure Walks (t : Table) (opened : List Nat) (fresh : Dictionary Nat NativeNode)
    (n : Numbering) : Prop where
  follows : n.Follows t
  get?_of_fresh {id : Nat} {native : NativeNode} :
    fresh.get? id = some native → t.nodes.get? id = some native
  not_mem_of_fresh {id : Nat} {native : NativeNode} : fresh.get? id = some native → id ∉ opened
  unnumbered {id : Nat} : id ∈ opened → n.numbers.get? id = none
  cases {id : Nat} {native : NativeNode} : t.nodes.get? id = some native →
    fresh.get? id = some native ∨ (∃ number, n.numbers.get? id = some number) ∨ id ∈ opened

namespace Walks

variable {t : Table} {opened : List Nat} {fresh : Dictionary Nat NativeNode} {n : Numbering}

theorem start (t : Table) : Walks t [] t.nodes .empty where
  follows := Numbering.follows_empty t
  get?_of_fresh h := h
  not_mem_of_fresh _ := by simp
  unnumbered h := absurd h (by simp)
  cases h := .inl h

theorem enter (h : Walks t opened fresh n) {id : Nat} {native : NativeNode}
    (hfresh : fresh.get? id = some native) (hnew : n.numbers.get? id = none) :
    Walks t (id :: opened) (fresh.erase id) n where
  follows := h.follows
  get?_of_fresh hget := h.get?_of_fresh (Dictionary.get?_of_get?_erase hget)
  not_mem_of_fresh {other _} hget := by
    rw [Dictionary.get?_erase] at hget
    split at hget
    · exact absurd hget (by simp)
    · next hne =>
      rw [List.mem_cons, not_or]
      exact ⟨Ne.symm hne, h.not_mem_of_fresh hget⟩
  unnumbered {other} hother := by
    rcases List.mem_cons.1 hother with rfl | hother
    · exact hnew
    · exact h.unnumbered hother
  cases {other _} hother := by
    by_cases heq : id = other
    · exact .inr (.inr (heq ▸ List.mem_cons_self))
    · rcases h.cases hother with hget | hnumbered | hopened
      · refine .inl ?_
        rw [Dictionary.get?_erase, if_neg heq]
        exact hget
      · exact .inr (.inl hnumbered)
      · exact .inr (.inr (List.mem_cons_of_mem id hopened))

theorem leave {id : Nat} (h : Walks t (id :: opened) fresh n) (hid : t.Reachable id)
    (hopened : id ∉ opened) {native : NativeNode} (hnative : t.nodes.get? id = some native)
    {low high : Edge} (hlow : n.resolve native.low = .ok low)
    (hhigh : n.resolve native.high = .ok high) :
    Walks t opened fresh (n.withNode id native low high) where
  follows := h.follows.withNode hid hnative (h.unnumbered List.mem_cons_self) hlow hhigh
  get?_of_fresh := h.get?_of_fresh
  not_mem_of_fresh hget := fun hmem => h.not_mem_of_fresh hget (List.mem_cons_of_mem id hmem)
  unnumbered {other} hother := by
    rw [Numbering.get?_withNode, if_neg]
    · exact h.unnumbered (List.mem_cons_of_mem id hother)
    · rintro rfl
      exact hopened hother
  cases {other _} hother := by
    rcases h.cases hother with hget | ⟨number, hnumber⟩ | hmem
    · exact .inl hget
    · have hnew := h.unnumbered List.mem_cons_self
      exact .inr (.inl ⟨number, Numbering.extends_withNode hnew other number hnumber⟩)
    · rcases List.mem_cons.1 hmem with rfl | hmem
      · exact .inr (.inl ⟨_, by rw [Numbering.get?_withNode, if_pos rfl]⟩)
      · exact .inr (.inr hmem)

def Continues (t : Table) (opened : List Nat) (e : NativeEdge) : Prop :=
  ∀ id, e.target = .node id →
    t.Reachable id ∧ ∀ above ∈ opened, Relation.TransGen t.Child above id

theorem Continues.part {id : Nat} {native : NativeNode} {part : NativeEdge}
    (h : Continues t opened ⟨false, .node id⟩) (hnative : t.nodes.get? id = some native)
    (hpart : part = native.low ∨ part = native.high) : Continues t (id :: opened) part := by
  intro child hchild
  obtain ⟨hid, hopened⟩ := h id rfl
  have hedge : t.Child id child := by
    refine ⟨native, hnative, ?_⟩
    rcases hpart with rfl | rfl
    · exact .inl hchild
    · exact .inr hchild
  refine ⟨hid.child hedge, fun above habove => ?_⟩
  rcases List.mem_cons.1 habove with rfl | habove
  · exact .single hedge
  · exact (hopened above habove).tail hedge

/-- What the visit of an edge comes to: it ends in a fault that names a node, or the edge has its
number and the other visits follow. -/
def Works (t : Table) (opened : List Nat) (fresh : Dictionary Nat NativeNode) (n : Numbering)
    (e : NativeEdge) (visits : List Visit) : Prop :=
  (∃ fault, visit t.nodes (entries e ++ visits) fresh n = .error fault ∧ t.Blames fault) ∨
  ∃ fresh' n', visit t.nodes (entries e ++ visits) fresh n = visit t.nodes visits fresh' n' ∧
    Walks t opened fresh' n' ∧ fresh'.entries.length ≤ fresh.entries.length ∧
    n.Extends n' ∧ ∃ f, n'.resolve e = .ok f

theorem works_of_fresh (h : Walks t opened fresh n) {id : Nat} {native : NativeNode}
    (hedge : Continues t opened ⟨false, .node id⟩) (complemented : Bool)
    (hfresh : fresh.get? id = some native) (hnew : n.numbers.get? id = none)
    (ih : ∀ {opened fresh' n e}, fresh'.entries.length < fresh.entries.length →
      Walks t opened fresh' n → Continues t opened e → ∀ visits, Works t opened fresh' n e visits)
    (visits : List Visit) : Works t opened fresh n ⟨complemented, .node id⟩ visits := by
  have hnative := h.get?_of_fresh hfresh
  have hless := Dictionary.length_erase_lt hfresh
  rw [Works, entries, List.singleton_append, visit_enter_fresh hnew hfresh]
  rcases ih hless (h.enter hfresh hnew) (hedge.part hnative (.inl rfl))
    (entries native.high ++ .leave id native :: visits) with
    hfault | ⟨fresh₁, n₁, hvisit₁, h₁, hle₁, hext₁, low, hlow⟩
  · exact .inl hfault
  rw [hvisit₁]
  rcases ih (Nat.lt_of_le_of_lt hle₁ hless) h₁ (hedge.part hnative (.inr rfl))
    (.leave id native :: visits) with
    hfault | ⟨fresh₂, n₂, hvisit₂, h₂, hle₂, hext₂, high, hhigh⟩
  · exact .inl hfault
  have hlow₂ := hext₂.resolve hlow
  have hnew₂ := h₂.unnumbered List.mem_cons_self
  have hext : n₂.Extends (n₂.withNode id native low high) := Numbering.extends_withNode hnew₂
  refine .inr ⟨fresh₂, n₂.withNode id native low high, ?_,
    h₂.leave (hedge id rfl).1 (h.not_mem_of_fresh hfresh) hnative hlow₂ hhigh,
    by omega, fun other number hother => hext _ _ (hext₂ _ _ (hext₁ _ _ hother)),
    ⟨complemented, n₂.nodes.length + Edge.firstNodeId⟩, ?_⟩
  · rw [hvisit₂, visit_leave (Numbering.add_eq hlow₂ hhigh)]
  · rw [Numbering.resolve_node, Numbering.get?_withNode, if_pos rfl]
    exact ⟨rfl, rfl⟩

/-- A node that is neither fresh nor numbered is missing, or open and so on a cycle. -/
theorem works_of_not_fresh (h : Walks t opened fresh n) {id : Nat}
    (hedge : Continues t opened ⟨false, .node id⟩) (complemented : Bool)
    (hfresh : fresh.get? id = none) (hnew : n.numbers.get? id = none) (visits : List Visit) :
    Works t opened fresh n ⟨complemented, .node id⟩ visits := by
  obtain ⟨hid, hopened⟩ := hedge id rfl
  refine .inl ⟨_, visit_enter_stale hnew hfresh visits, ?_⟩
  cases hnative : t.nodes.get? id with
  | none =>
    rw [if_neg (by simp [Dictionary.contains, hnative])]
    exact ⟨hid, hnative⟩
  | some native =>
    rw [if_pos (by simp [Dictionary.contains, hnative])]
    rcases h.cases hnative with hget | ⟨number, hnumber⟩ | hmem
    · exact absurd (hget.symm.trans hfresh) (by simp)
    · exact absurd (hnumber.symm.trans hnew) (by simp)
    · exact ⟨hid, hopened id hmem⟩

/-- A visit works off an edge or finds a node that is missing or on a cycle. The induction is on the
nodes that are fresh, one less with each node that is entered. -/
theorem works {size : Nat} (h : Walks t opened fresh n) (hsize : fresh.entries.length < size)
    {e : NativeEdge} (he : Continues t opened e) (visits : List Visit) :
    Works t opened fresh n e visits := by
  induction size generalizing opened fresh n e visits with
  | zero => exact absurd hsize (by simp)
  | succ size ih =>
    obtain ⟨complemented, target⟩ := e
    cases target with
    | terminal value =>
      exact .inr ⟨fresh, n, rfl, h, Nat.le_refl _, fun _ _ hother => hother, _,
        n.resolve_terminal complemented value⟩
    | node id =>
      cases hget : n.numbers.get? id with
      | some number =>
        exact .inr ⟨fresh, n, visit_enter_known hget visits, h, Nat.le_refl _,
          fun _ _ hother => hother, ⟨complemented, number⟩, Numbering.resolve_node.2 ⟨hget, rfl⟩⟩
      | none =>
        cases hfresh : fresh.get? id with
        | some native =>
          exact h.works_of_fresh he complemented hfresh hget
            (fun hless h' he' visits' => ih h' (by omega) he' visits') visits
        | none => exact h.works_of_not_fresh he complemented hfresh hget visits

end Walks

/-! ### Numbered tables -/

/-- Whether all that the root of a table leads to is numbered. -/
structure Numbering.Completes (n : Numbering) (t : Table) (root : Edge) : Prop where
  follows : n.Follows t
  root : n.resolve t.root = .ok root

/-- A table is numbered, or one of its nodes is missing or on a cycle. -/
theorem Table.number_cases (t : Table) :
    (∃ fault, t.number = .error fault ∧ t.Blames fault) ∨
      ∃ n root, Numbering.Completes n t root ∧ t.number = .ok ⟨root, n.nodes.reverse⟩ := by
  have hroot : Walks.Continues t [] t.root := fun id hid => ⟨⟨id, hid, .refl⟩, by simp⟩
  have hworks := (Walks.start t).works (Nat.lt_succ_self _) hroot []
  rw [Walks.Works, List.append_nil] at hworks
  rcases hworks with ⟨fault, hvisit, hblames⟩ | ⟨fresh, n, hvisit, hwalks, -, -, root, hresolve⟩
  · exact .inl ⟨fault, by rw [number, hvisit]; rfl, hblames⟩
  · have hdone : visit t.nodes [] fresh n = .ok n := by rw [visit]
    refine .inr ⟨n, root, ⟨hwalks.follows, hresolve⟩, ?_⟩
    rw [number, hvisit, hdone]
    simp only [bind, Except.bind, hresolve]
    rfl

namespace Numbering
namespace Completes

variable {t : Table} {n : Numbering} {root : Edge}

theorem nodup_ids (h : n.Completes t root) : (n.nodes.reverse.map Node.id).Nodup := by
  rw [h.follows.ids]
  exact List.nodup_range'

theorem get?_table (h : n.Completes t root) {id number : Nat}
    (hid : n.numbers.get? id = some number) :
    ∃ native m, t.nodes.get? id = some native ∧ m.id = number ∧ n.Renames native m ∧
      (Numbered.table ⟨root, n.nodes.reverse⟩).nodes.get? number = some (.ofNode m) := by
  obtain ⟨native, m, hm, hnative, rfl, hrenames⟩ := h.follows.stands hid
  exact ⟨native, m, hnative, rfl, hrenames,
    Numbered.get?_table h.nodup_ids (List.mem_reverse.2 hm)⟩

theorem target_ofEdge (h : n.Completes t root) {e : NativeEdge} {f : Edge} {id : Nat}
    (he : n.resolve e = .ok f) (hid : e.target = .node id) :
    n.numbers.get? id = some f.id ∧ (NativeEdge.ofEdge f).target = .node f.id := by
  obtain ⟨complemented, target⟩ := e
  obtain rfl : target = .node id := hid
  obtain ⟨hnumber, -⟩ := resolve_node.1 he
  obtain ⟨_, m, hm, _, hm', _⟩ := h.follows.stands hnumber
  exact ⟨hnumber, NativeEdge.target_ofEdge (hm' ▸ (h.follows.mem_range hm).1)⟩

theorem child (h : n.Completes t root) {parent child number : Nat}
    (hparent : n.numbers.get? parent = some number) (hchild : t.Child parent child) :
    ∃ number', n.numbers.get? child = some number' ∧ number' < number ∧
      (Numbered.table ⟨root, n.nodes.reverse⟩).Child number number' := by
  obtain ⟨native, m, hnative, rfl, hrenames, hget⟩ := h.get?_table hparent
  obtain ⟨native', hnative', hedge⟩ := hchild
  obtain rfl := Option.some.inj (hnative.symm.trans hnative')
  rcases hedge with hlow | hhigh
  · obtain ⟨hnumber, htarget⟩ := h.target_ofEdge hrenames.low hlow
    exact ⟨m.low.id, hnumber, hrenames.low_lt, _, hget, .inl htarget⟩
  · obtain ⟨hnumber, htarget⟩ := h.target_ofEdge hrenames.high hhigh
    exact ⟨m.high.id, hnumber, hrenames.high_lt, _, hget, .inr htarget⟩

/-- What is reached is numbered, and its number is reached. -/
theorem reachable (h : n.Completes t root) {id : Nat} (hid : t.Reachable id) :
    ∃ number, n.numbers.get? id = some number ∧
      (Numbered.table ⟨root, n.nodes.reverse⟩).Reachable number := by
  obtain ⟨first, hfirst, hpath⟩ := hid
  induction hpath with
  | refl =>
    obtain ⟨hnumber, htarget⟩ := h.target_ofEdge h.root hfirst
    exact ⟨root.id, hnumber, root.id, htarget, .refl⟩
  | tail _ hchild ih =>
    obtain ⟨number, hnumber, hreached⟩ := ih
    obtain ⟨number', hnumber', -, hchild'⟩ := h.child hnumber hchild
    exact ⟨number', hnumber', hreached.child hchild'⟩

theorem isClosed (h : n.Completes t root) : t.IsClosed := by
  intro id hid
  obtain ⟨number, hnumber, -⟩ := h.reachable hid
  obtain ⟨native, _, hnative, -⟩ := h.get?_table hnumber
  exact ⟨native, hnative⟩

theorem number_lt (h : n.Completes t root) {id id' number : Nat}
    (hpath : Relation.TransGen t.Child id id') (hid : n.numbers.get? id = some number) :
    ∃ number', n.numbers.get? id' = some number' ∧ number' < number := by
  induction hpath with
  | single hchild =>
    obtain ⟨number', hnumber', hlt, -⟩ := h.child hid hchild
    exact ⟨number', hnumber', hlt⟩
  | tail _ hchild ih =>
    obtain ⟨number', hnumber', hlt⟩ := ih
    obtain ⟨number'', hnumber'', hlt', -⟩ := h.child hnumber' hchild
    exact ⟨number'', hnumber'', Nat.lt_trans hlt' hlt⟩

theorem isAcyclic (h : n.Completes t root) : t.IsAcyclic := by
  intro id hid hcycle
  obtain ⟨number, hnumber, -⟩ := h.reachable hid
  obtain ⟨number', hnumber', hlt⟩ := h.number_lt hcycle hnumber
  obtain rfl := Option.some.inj (hnumber.symm.trans hnumber')
  exact Nat.lt_irrefl _ hlt

theorem encard_reachable (h : n.Completes t root) :
    {id | t.Reachable id}.encard = n.nodes.length := by
  have hkeys : n.numbers.keys.Nodup :=
    List.pairwise_map.2 (n.numbers.ascending.imp Nat.ne_of_lt)
  have hset : {id | t.Reachable id} = n.numbers.keys.toFinset := by
    ext id
    simp only [Set.mem_ofPred_eq, List.coe_toFinset, Dictionary.keys, List.mem_map]
    constructor
    · intro hid
      obtain ⟨number, hnumber, -⟩ := h.reachable hid
      exact ⟨(id, number), Dictionary.mem_entries_iff.2 hnumber, rfl⟩
    · rintro ⟨e, he, rfl⟩
      exact h.follows.reachable (Dictionary.mem_entries_iff.1 he)
  rw [hset, Set.encard_coe_eq_coe_finsetCard, List.toFinset_card_of_nodup hkeys, Dictionary.keys,
    List.length_map, h.follows.size]

/-! ### Values -/

variable {values : Nat → Bool} {e : NativeEdge} {f : Edge} {found : Bool}

theorem resolve_branch {native : NativeNode} {m : Node} (h : n.Renames native m)
    (values : Nat → Bool) :
    n.resolve (if values native.var then native.high else native.low) =
        .ok (if values m.var then m.high else m.low) ∧
      (if values m.var then m.high else m.low).id < m.id := by
  rw [h.var]
  split
  · exact ⟨h.high, h.high_lt⟩
  · exact ⟨h.low, h.low_lt⟩

/-- Following an edge finds a value, by induction on its number. -/
theorem exists_finds (h : n.Completes t root) (values : Nat → Bool) (bound : Nat)
    (he : n.resolve e = .ok f) (hf : f.id < bound) : ∃ found, t.Finds values e found := by
  induction bound generalizing e f with
  | zero => exact absurd hf (by simp)
  | succ bound ih =>
    obtain ⟨complemented, target⟩ := e
    cases target with
    | terminal value => exact ⟨_, .terminal complemented value⟩
    | node id =>
      obtain ⟨hnumber, -⟩ := resolve_node.1 he
      obtain ⟨native, m, hnative, hm, hrenames, -⟩ := h.get?_table hnumber
      obtain ⟨hbranch, hlt⟩ := resolve_branch hrenames values
      obtain ⟨found, hfound⟩ := ih hbranch (by omega)
      exact ⟨_, .node complemented hnative hfound⟩

/-- Following the numbered edge finds what following the native one finds. -/
theorem finds_numbered (h : n.Completes t root) (he : n.resolve e = .ok f)
    (hfound : t.Finds values e found) :
    (Numbered.table ⟨root, n.nodes.reverse⟩).Finds values (.ofEdge f) found := by
  induction hfound generalizing f with
  | terminal complemented value =>
    rw [resolve_terminal] at he
    obtain rfl := Except.ok.inj he
    cases value <;> exact .terminal complemented _
  | @node complemented id native found hnative _ ih =>
    obtain ⟨hnumber, hcomplemented⟩ := resolve_node.1 he
    obtain ⟨native', m, hnative', hm, hrenames, hget⟩ := h.get?_table hnumber
    obtain rfl := Option.some.inj (hnative.symm.trans hnative')
    have hbranch := ih (resolve_branch hrenames values).1
    have htarget := (h.target_ofEdge he rfl).2
    have hedge : NativeEdge.ofEdge f = ⟨complemented, .node f.id⟩ := by
      rw [← htarget, ← hcomplemented]
      rfl
    rw [apply_ite NativeEdge.ofEdge] at hbranch
    rw [hedge]
    exact .node complemented hget hbranch

end Completes
end Numbering
end Native
end DiagramCompiler
