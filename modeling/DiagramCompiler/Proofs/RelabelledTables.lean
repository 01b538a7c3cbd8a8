import DiagramCompiler.Proofs.NumberedTables

/-! Tables under other numbers.
Two tables have the same shape if what their roots lead to differs only in the numbers of the nodes.
Numbering a table does not look at these numbers except to tell them apart, so that the walks through
two tables of the same shape go side by side. In turn the numbered nodes of a table tell its shape,
because no two of its nodes get the same number. -/
namespace DiagramCompiler
namespace Native

def Target.relabel (rename : Nat → Nat) : Target → Target
  | .terminal value => .terminal value
  | .node id => .node (rename id)

def NativeEdge.relabel (rename : Nat → Nat) (e : NativeEdge) : NativeEdge :=
  ⟨e.complemented, e.target.relabel rename⟩

def NativeNode.relabel (rename : Nat → Nat) (n : NativeNode) : NativeNode :=
  ⟨n.var, n.low.relabel rename, n.high.relabel rename⟩

def Visit.relabel (rename : Nat → Nat) : Visit → Visit
  | .enter id => .enter (rename id)
  | .leave id node => .leave (rename id) (node.relabel rename)

theorem entries_relabel (rename : Nat → Nat) (e : NativeEdge) :
    entries (e.relabel rename) = (entries e).map (Visit.relabel rename) := by
  obtain ⟨complemented, target⟩ := e
  cases target <;> rfl

theorem Target.relabel_eq_node_iff {rename : Nat → Nat} {target : Target} {id : Nat} :
    target.relabel rename = .node id ↔ ∃ id', target = .node id' ∧ rename id' = id := by
  cases target <;> simp [relabel]

namespace Table

/-- Whether what the root of a table leads to is that of another one with each number replaced. The
edges lead to the replaced numbers and keep their marks, and the nodes keep their variables. -/
structure Relabels (t t' : Table) (rename : Nat → Nat) : Prop where
  bijOn : Set.BijOn rename {id | t.Reachable id} {id | t'.Reachable id}
  root : t'.root = t.root.relabel rename
  nodes {id : Nat} {node : NativeNode} : t.Reachable id → t.nodes.get? id = some node →
    t'.nodes.get? (rename id) = some (node.relabel rename)

/-- Whether two tables differ only in the numbers of the nodes, as far as their roots lead. -/
def SameShape (t t' : Table) : Prop := ∃ rename, t.Relabels t' rename

end Table

/-! ### Walks side by side -/

/-- Whether what is fresh and what is numbered is the same in two walks, up to the numbers. -/
structure Matches (t : Table) (rename : Nat → Nat) (fresh fresh' : Dictionary Nat NativeNode)
    (n n' : Numbering) : Prop where
  fresh {id : Nat} : t.Reachable id →
    fresh'.get? (rename id) = (fresh.get? id).map (NativeNode.relabel rename)
  numbers {id : Nat} : t.Reachable id → n'.numbers.get? (rename id) = n.numbers.get? id
  nodes : n'.nodes = n.nodes

namespace Matches

variable {t t' : Table} {rename : Nat → Nat} {fresh fresh' : Dictionary Nat NativeNode}
  {n n' : Numbering}

theorem resolve (h : Matches t rename fresh fresh' n n') {e : NativeEdge}
    (he : ∀ id, e.target = .node id → t.Reachable id) :
    n'.resolve (e.relabel rename) = n.resolve e ∨
      ∃ id, n.resolve e = .error (.missing id) := by
  obtain ⟨complemented, target⟩ := e
  cases target with
  | terminal value => exact .inl (by cases value <;> rfl)
  | node id =>
    have hid := h.numbers (he id rfl)
    cases hget : n.numbers.get? id with
    | none => exact .inr ⟨id, by simp [Numbering.resolve, hget]⟩
    | some number =>
      rw [hget] at hid
      exact .inl (by simp [Numbering.resolve, NativeEdge.relabel, Target.relabel, hget, hid])

theorem resolve_ok (h : Matches t rename fresh fresh' n n') {e : NativeEdge} {f : Edge}
    (he : ∀ id, e.target = .node id → t.Reachable id) (hf : n.resolve e = .ok f) :
    n'.resolve (e.relabel rename) = .ok f := by
  rcases h.resolve he with hsame | ⟨id, herror⟩
  · exact hsame.trans hf
  · exact absurd (hf.symm.trans herror) (by simp)

theorem enter (h : Matches t rename fresh fresh' n n')
    (hinj : Set.InjOn rename {id | t.Reachable id}) {id : Nat} (hid : t.Reachable id) :
    Matches t rename (fresh.erase id) (fresh'.erase (rename id)) n n' where
  fresh {other} hother := by
    rw [Dictionary.get?_erase, Dictionary.get?_erase]
    by_cases heq : id = other
    · simp [heq]
    · have hne : rename id ≠ rename other := fun hsame => heq (hinj hid hother hsame)
      rw [if_neg heq, if_neg hne, h.fresh hother]
  numbers := h.numbers
  nodes := h.nodes

theorem leave (h : Matches t rename fresh fresh' n n')
    (hinj : Set.InjOn rename {id | t.Reachable id}) {id : Nat} (hid : t.Reachable id)
    (native : NativeNode) (low high : Edge) :
    Matches t rename fresh fresh' (n.withNode id native low high)
      (n'.withNode (rename id) (native.relabel rename) low high) where
  fresh := h.fresh
  numbers {other} hother := by
    rw [Numbering.get?_withNode, Numbering.get?_withNode, h.nodes]
    by_cases heq : id = other
    · simp [heq]
    · have hne : rename id ≠ rename other := fun hsame => heq (hinj hid hother hsame)
      rw [if_neg heq, if_neg hne, h.numbers hother]
  nodes := by
    rw [Numbering.withNode, Numbering.withNode, h.nodes]
    rfl

end Matches

def Visit.IsOf (t : Table) : Visit → Prop
  | .enter id => t.Reachable id
  | .leave id node => t.Reachable id ∧ t.nodes.get? id = some node

namespace Table

variable {t t' : Table} {rename : Nat → Nat}

theorem Reachable.part {id child : Nat} {native : NativeNode} {part : NativeEdge}
    (hid : t.Reachable id) (hnative : t.nodes.get? id = some native)
    (hpart : part = native.low ∨ part = native.high) (hchild : part.target = .node child) :
    t.Reachable child := by
  refine hid.child ⟨native, hnative, ?_⟩
  rcases hpart with rfl | rfl
  · exact .inl hchild
  · exact .inr hchild

theorem isOf_entries {e : NativeEdge} (he : ∀ id, e.target = .node id → t.Reachable id) :
    ∀ v ∈ entries e, v.IsOf t := by
  obtain ⟨complemented, target⟩ := e
  cases target with
  | terminal value => simp [entries]
  | node id =>
    intro v hv
    obtain rfl := List.mem_singleton.1 hv
    exact he id rfl

theorem isOf_entered {id : Nat} {native : NativeNode} {visits : List Visit}
    (hid : t.Reachable id) (hnative : t.nodes.get? id = some native)
    (hvisits : ∀ v ∈ visits, v.IsOf t) :
    ∀ v ∈ entries native.low ++ (entries native.high ++ .leave id native :: visits), v.IsOf t := by
  intro v hv
  rcases List.mem_append.1 hv with hlow | hv
  · exact isOf_entries (fun _ => hid.part hnative (.inl rfl)) v hlow
  rcases List.mem_append.1 hv with hhigh | hv
  · exact isOf_entries (fun _ => hid.part hnative (.inr rfl)) v hhigh
  rcases List.mem_cons.1 hv with rfl | hv
  · exact ⟨hid, hnative⟩
  · exact hvisits v hv

/-- A walk that succeeds has one beside it in a table of the same shape. The induction follows the
visits; each of them comes to the same in both walks. -/
theorem Relabels.visit (h : t.Relabels t' rename) {visits : List Visit}
    {fresh fresh' : Dictionary Nat NativeNode} {n n' out : Numbering}
    (hvisits : ∀ v ∈ visits, v.IsOf t)
    (hfresh : ∀ {id node}, fresh.get? id = some node → t.nodes.get? id = some node)
    (hmatches : Matches t rename fresh fresh' n n')
    (hout : Native.visit t.nodes visits fresh n = .ok out) :
    ∃ out' rest rest', Native.visit t'.nodes (visits.map (Visit.relabel rename)) fresh' n' =
      .ok out' ∧ Matches t rename rest rest' out out' := by
  have hinj := h.bijOn.injOn
  induction visits, fresh, n using visit.induct generalizing fresh' n' with
  | case1 fresh n =>
    rw [Native.visit] at hout
    obtain rfl := Except.ok.inj hout
    exact ⟨n', fresh, fresh', by rw [List.map_nil, Native.visit], hmatches⟩
  | case2 id node visits fresh n fault hadd =>
    rw [Native.visit, hadd] at hout
    exact absurd hout (by simp)
  | case3 id node visits fresh n added hadd ih =>
    obtain ⟨hid, hnative⟩ := hvisits _ List.mem_cons_self
    obtain ⟨low, hlow, hadd'⟩ := bind_eq_ok_iff.1 hadd
    obtain ⟨high, hhigh, -⟩ := bind_eq_ok_iff.1 hadd'
    obtain rfl := Except.ok.inj (hadd.symm.trans (Numbering.add_eq hlow hhigh))
    have hlow' := hmatches.resolve_ok (fun _ => hid.part hnative (.inl rfl)) hlow
    have hhigh' := hmatches.resolve_ok (fun _ => hid.part hnative (.inr rfl)) hhigh
    rw [visit_leave hadd] at hout
    rw [List.map_cons, Visit.relabel, visit_leave (Numbering.add_eq hlow' hhigh')]
    exact ih (fun v hv => hvisits v (List.mem_cons_of_mem _ hv)) hfresh
      (hmatches.leave hinj hid node low high) hout
  | case4 id visits fresh n hknown ih =>
    obtain ⟨number, hnumber⟩ := Option.isSome_iff_exists.1 hknown
    have hnumber' := (hmatches.numbers (hvisits _ List.mem_cons_self)).trans hnumber
    rw [visit_enter_known hnumber] at hout
    rw [List.map_cons, Visit.relabel, visit_enter_known hnumber']
    exact ih (fun v hv => hvisits v (List.mem_cons_of_mem _ hv)) hfresh hmatches hout
  | case5 id visits fresh n hunknown node hnode ih =>
    have hid : t.Reachable id := hvisits _ List.mem_cons_self
    have hnew : n.numbers.get? id = none := Option.not_isSome_iff_eq_none.1 hunknown
    have hnew' := (hmatches.numbers hid).trans hnew
    have hnode' : fresh'.get? (rename id) = some (node.relabel rename) := by
      rw [hmatches.fresh hid, hnode]
      rfl
    have hlabels : entries (node.relabel rename).low ++
          (entries (node.relabel rename).high ++
            .leave (rename id) (node.relabel rename) :: visits.map (Visit.relabel rename)) =
        (entries node.low ++ entries node.high ++ .leave id node :: visits).map
          (Visit.relabel rename) := by
      simp [NativeNode.relabel, entries_relabel, Visit.relabel]
    rw [visit_enter_fresh hnew hnode, ← List.append_assoc] at hout
    rw [List.map_cons, Visit.relabel, visit_enter_fresh hnew' hnode', hlabels]
    refine ih ?_ (fun hget => hfresh (Dictionary.get?_of_get?_erase hget))
      (hmatches.enter hinj hid) hout
    rw [List.append_assoc]
    exact isOf_entered hid (hfresh hnode) fun v hv => hvisits v (List.mem_cons_of_mem _ hv)
  | case6 id visits fresh n hunknown hnone =>
    rw [visit_enter_stale (Option.not_isSome_iff_eq_none.1 hunknown) hnone] at hout
    exact absurd hout (by simp)

theorem Relabels.number (h : t.Relabels t' rename) {num : Numbered} (hnum : t.number = .ok num) :
    t'.number = .ok num := by
  obtain ⟨out, hout, hnum⟩ := bind_eq_ok_iff.1 hnum
  obtain ⟨root, hroot, hnum⟩ := bind_eq_ok_iff.1 hnum
  have hreach : ∀ id, t.root.target = .node id → t.Reachable id := fun id hid => ⟨id, hid, .refl⟩
  have hclosed : t.IsClosed := by
    rcases t.number_cases with ⟨fault, hfault, -⟩ | ⟨n, root', hn, -⟩
    · rw [Table.number, hout] at hfault
      simp only [bind, Except.bind, hroot] at hfault
      exact absurd hfault (by simp [pure, Except.pure])
    · exact hn.isClosed
  have hstart : Matches t rename t.nodes t'.nodes .empty .empty := by
    refine ⟨fun {id} hid => ?_, fun _ => rfl, rfl⟩
    obtain ⟨node, hnode⟩ := hclosed id hid
    rw [hnode, h.nodes hid hnode]
    rfl
  obtain ⟨out', rest, rest', hout', hmatches⟩ := h.visit (isOf_entries hreach) id hstart hout
  rw [← entries_relabel, ← h.root] at hout'
  have hroot' := hmatches.resolve_ok hreach hroot
  rw [← h.root] at hroot'
  rw [Table.number, hout']
  simp only [bind, Except.bind, hroot', hmatches.nodes]
  exact hnum

end Table

/-! ### Shapes of numbered tables -/

namespace Numbering

variable {t t' : Table} {n n' : Numbering} {root : Edge}

/-- No two nodes get the same number: there are as many numbers as nodes. -/
theorem Follows.eq_of_number (h : n.Follows t) {id id' number : Nat}
    (hid : n.numbers.get? id = some number) (hid' : n.numbers.get? id' = some number) :
    id = id' := by
  have hsubset : n.nodes.reverse.map Node.id ⊆ n.numbers.values := by
    intro k hk
    obtain ⟨m, hm, rfl⟩ := List.mem_map.1 hk
    obtain ⟨id, hid⟩ := h.named (List.mem_reverse.1 hm)
    exact List.mem_map.2 ⟨(id, m.id), Dictionary.mem_entries_iff.2 hid, rfl⟩
  have hids : (n.nodes.reverse.map Node.id).Nodup := by
    rw [h.ids]
    exact List.nodup_range'
  have hnodup : n.numbers.values.Nodup := by
    refine ((hids.subperm hsubset).perm_of_length_le ?_).nodup_iff.1 hids
    rw [Dictionary.values, List.length_map, h.size, List.length_map, List.length_reverse]
  have hsame : (id, number) = (id', number) :=
    List.inj_on_of_nodup_map hnodup (Dictionary.mem_entries_iff.2 hid)
      (Dictionary.mem_entries_iff.2 hid') rfl
  exact (Prod.mk.inj hsame).1

theorem Follows.two_le (h : n.Follows t) {id number : Nat}
    (hid : n.numbers.get? id = some number) : Edge.firstNodeId ≤ number := by
  obtain ⟨_, m, hm, _, rfl, _⟩ := h.stands hid
  exact (h.mem_range hm).1

/-- Native edges that become the same edge differ only in the number they lead to. -/
theorem Follows.relabel_of_resolve (h : n.Follows t) (h' : n'.Follows t') {rename : Nat → Nat}
    (hrename : ∀ {id number}, n.numbers.get? id = some number →
      n'.numbers.get? (rename id) = some number) {e e' : NativeEdge} {f : Edge}
    (he : n.resolve e = .ok f) (he' : n'.resolve e' = .ok f) : e' = e.relabel rename := by
  obtain ⟨complemented, target⟩ := e
  obtain ⟨complemented', target'⟩ := e'
  have hterminal (value : Bool) :
      (if value then Edge.trueId else Edge.falseId) < Edge.firstNodeId := by
    cases value <;> decide
  cases target with
  | terminal value =>
    rw [resolve_terminal] at he
    obtain rfl := Except.ok.inj he
    cases target' with
    | terminal value' =>
      rw [resolve_terminal] at he'
      obtain ⟨rfl, hvalue⟩ := Edge.mk.inj (Except.ok.inj he')
      obtain rfl : value' = value := by
        cases value <;> cases value' <;> first | rfl | exact absurd hvalue (by decide)
      rfl
    | node id' => exact absurd (h'.two_le (resolve_node.1 he').1) (Nat.not_le_of_lt (hterminal _))
  | node id =>
    obtain ⟨hid, rfl⟩ := resolve_node.1 he
    cases target' with
    | terminal value' =>
      rw [resolve_terminal] at he'
      have hid' : (if value' then Edge.trueId else Edge.falseId) = f.id :=
        congrArg Edge.id (Except.ok.inj he')
      have hlt := hterminal value'
      rw [hid'] at hlt
      exact absurd (h.two_le hid) (Nat.not_le_of_lt hlt)
    | node id' =>
      obtain ⟨hid', rfl⟩ := resolve_node.1 he'
      rw [h'.eq_of_number hid' (hrename hid)]
      rfl

/-- Whatever has a number among the nodes of one table has a namesake among the same nodes of another
one. -/
theorem Follows.exists_rename (h : n.Follows t) (h' : n'.Follows t') (hnodes : n.nodes = n'.nodes) :
    ∃ rename : Nat → Nat, ∀ {id number}, n.numbers.get? id = some number →
      n'.numbers.get? (rename id) = some number := by
  have hmatch : ∀ id, ∃ id', ∀ number, n.numbers.get? id = some number →
      n'.numbers.get? id' = some number := by
    intro id
    cases hid : n.numbers.get? id with
    | none => exact ⟨0, fun number hnumber => absurd hnumber (by simp)⟩
    | some number =>
      obtain ⟨_, m, hm, _, rfl, _⟩ := h.stands hid
      obtain ⟨id', hid'⟩ := h'.named (hnodes ▸ hm)
      exact ⟨id', fun number hnumber => Option.some.inj hnumber ▸ hid'⟩
  choose rename hrename using hmatch
  exact ⟨rename, fun hnumber => hrename _ _ hnumber⟩

/-- Nodes with the same number are the same but for the numbers that they lead to. -/
theorem Completes.node_relabel (h : n.Completes t root) (h' : n'.Completes t' root)
    (hnodes : n.nodes = n'.nodes) {rename : Nat → Nat}
    (hrename : ∀ {id number}, n.numbers.get? id = some number →
      n'.numbers.get? (rename id) = some number) {id number : Nat} {node : NativeNode}
    (hnumber : n.numbers.get? id = some number) (hnode : t.nodes.get? id = some node) :
    t'.nodes.get? (rename id) = some (node.relabel rename) := by
  obtain ⟨native, m, hm, hnative, rfl, hrenames⟩ := h.follows.stands hnumber
  obtain rfl := Option.some.inj (hnode.symm.trans hnative)
  obtain ⟨native', m', hm', hnative', heq, hrenames'⟩ := h'.follows.stands (hrename hnumber)
  obtain rfl : m' = m := List.inj_on_of_nodup_map h'.nodup_ids (List.mem_reverse.2 hm')
    (List.mem_reverse.2 (hnodes ▸ hm)) heq
  have hlow := h.follows.relabel_of_resolve h'.follows hrename hrenames.low hrenames'.low
  have hhigh := h.follows.relabel_of_resolve h'.follows hrename hrenames.high hrenames'.high
  have hvar := hrenames'.var.symm.trans hrenames.var
  have hsame : native' = node.relabel rename := by
    cases native'
    simp_all [NativeNode.relabel]
  rw [hnative', hsame]

theorem Completes.sameShape (h : n.Completes t root) (h' : n'.Completes t' root)
    (hnodes : n.nodes = n'.nodes) : t.SameShape t' := by
  obtain ⟨rename, hrename⟩ := h.follows.exists_rename h'.follows hnodes
  refine ⟨rename, ⟨fun id hid => ?_, fun id hid id' hid' heq => ?_, fun id' hid' => ?_⟩,
    h.follows.relabel_of_resolve h'.follows hrename h.root h'.root, fun {id node} hid hnode => ?_⟩
  · obtain ⟨number, hnumber, -⟩ := h.reachable hid
    exact h'.follows.reachable (hrename hnumber)
  · obtain ⟨number, hnumber, -⟩ := h.reachable hid
    obtain ⟨number', hnumber', -⟩ := h.reachable hid'
    have hsame := hrename hnumber
    rw [heq, hrename hnumber'] at hsame
    exact h.follows.eq_of_number hnumber (Option.some.inj hsame ▸ hnumber')
  · obtain ⟨number, hnumber, -⟩ := h'.reachable hid'
    obtain ⟨_, m, hm, _, rfl, _⟩ := h'.follows.stands hnumber
    obtain ⟨id, hid⟩ := h.follows.named (hnodes.symm ▸ hm)
    exact ⟨id, h.follows.reachable hid, h'.follows.eq_of_number (hrename hid) hnumber⟩
  · obtain ⟨number, hnumber, -⟩ := h.reachable hid
    exact h.node_relabel h' hnodes hrename hnumber hnode

end Numbering

theorem Table.number_eq_iff {t t' : Table} {num num' : Numbered} (h : t.number = .ok num)
    (h' : t'.number = .ok num') : num = num' ↔ t.SameShape t' := by
  constructor
  · rintro rfl
    rcases t.number_cases with ⟨fault, hfault, -⟩ | ⟨n, root, hn, hnum⟩
    · exact absurd (h.symm.trans hfault) (by simp)
    rcases t'.number_cases with ⟨fault, hfault, -⟩ | ⟨n', root', hn', hnum'⟩
    · exact absurd (h'.symm.trans hfault) (by simp)
    obtain rfl := Except.ok.inj (h.symm.trans hnum)
    obtain ⟨rfl, hnodes⟩ := Numbered.mk.inj (Except.ok.inj (h'.symm.trans hnum'))
    exact hn.sameShape hn' (List.reverse_injective hnodes)
  · rintro ⟨rename, hrename⟩
    exact Except.ok.inj ((hrename.number h).symm.trans h')

end Native
end DiagramCompiler
