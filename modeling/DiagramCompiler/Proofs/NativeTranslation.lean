import Mathlib.Data.List.Permutation
import DiagramCompiler.Proofs.NativeTexts
import DiagramCompiler.Proofs.NumberedTables

/-! The translation of native texts.
A text that is read as a table is translated exactly if all that the root leads to is defined and no
path comes back to where it started; otherwise the fault names a node. What it is translated to has
the function of the text. -/
namespace DiagramCompiler
namespace Native

def NativeEdge.renamed (number : Nat → Nat) (e : NativeEdge) : Edge where
  complemented := e.complemented
  id := match e.target with
    | .terminal false => Edge.falseId
    | .terminal true => Edge.trueId
    | .node id => number id

def NativeNode.renamed (number : Nat → Nat) (id : Nat) (n : NativeNode) : Node :=
  ⟨number id, n.var, n.low.renamed number, n.high.renamed number⟩

/-- Whether a numbered table is one of the nodes that another table leads to. The numbers go from 2
on, each edge leads to a terminal or to a smaller number, and the root leads to each node. The nodes
keep their variables and the marks of their edges, and following the root finds what following the
root of the other table finds. -/
structure Numbered.Renumbers (num : Numbered) (t : Table) : Prop where
  ids : num.nodes.map Node.id = List.range' Edge.firstNodeId num.nodes.length
  size : {id | t.Reachable id}.encard = num.nodes.length
  edges : ∀ m ∈ num.nodes, ∀ e, e = m.low ∨ e = m.high → e.isTerminal = true ∨
    (e.id < m.id ∧ ∃ m' ∈ num.nodes, m'.id = e.id)
  reachable : ∀ m ∈ num.nodes, num.table.Reachable m.id
  kept : ∃ number : Nat → Nat, num.root = t.root.renamed number ∧
    ∀ id native, t.Reachable id → t.nodes.get? id = some native →
      native.renamed number id ∈ num.nodes
  finds : ∀ values, ∃ value, ∀ found,
    (t.Finds values t.root found ↔ found = value) ∧
      (num.table.Finds values num.table.root found ↔ found = value)

theorem Table.exists_number_iff (t : Table) :
    (∃ num, t.number = .ok num) ↔ t.IsClosed ∧ t.IsAcyclic := by
  rcases t.number_cases with ⟨fault, hnumber, hblames⟩ | ⟨n, root, hn, hnumber⟩
  · rw [hnumber]
    constructor
    · rintro ⟨num, hnum⟩
      exact absurd hnum (by simp)
    · rintro ⟨hclosed, hacyclic⟩
      exact absurd hblames (not_blames hclosed hacyclic)
  · exact ⟨fun _ => ⟨hn.isClosed, hn.isAcyclic⟩, fun _ => ⟨_, hnumber⟩⟩

theorem Table.blames_of_number {t : Table} {fault : Fault} (h : t.number = .error fault) :
    t.Blames fault := by
  rcases t.number_cases with ⟨fault', hnumber, hblames⟩ | ⟨n, root, hn, hnumber⟩
  · obtain rfl := Except.error.inj (h.symm.trans hnumber)
    exact hblames
  · exact absurd (h.symm.trans hnumber) (by simp)

namespace Numbering

def numberOf (n : Numbering) (id : Nat) : Nat := (n.numbers.get? id).getD 0

theorem eq_renamed {n : Numbering} {e : NativeEdge} {f : Edge} (he : n.resolve e = .ok f) :
    f = e.renamed n.numberOf := by
  obtain ⟨complemented, target⟩ := e
  cases target with
  | terminal value =>
    rw [resolve_terminal] at he
    obtain rfl := Except.ok.inj he
    cases value <;> rfl
  | node id =>
    obtain ⟨hid, rfl⟩ := resolve_node.1 he
    simp [NativeEdge.renamed, numberOf, hid]

namespace Completes

variable {t : Table} {n : Numbering} {root : Edge}

theorem isTerminal_or_mem (h : n.Completes t root) {e : NativeEdge} {f : Edge}
    (he : n.resolve e = .ok f) : f.isTerminal = true ∨ ∃ m ∈ n.nodes, m.id = f.id := by
  obtain ⟨complemented, target⟩ := e
  cases target with
  | terminal value =>
    rw [resolve_terminal] at he
    obtain rfl := Except.ok.inj he
    cases value <;> exact .inl rfl
  | node id =>
    obtain ⟨_, m, hm, _, hnumber, _⟩ := h.follows.stands (resolve_node.1 he).1
    exact .inr ⟨m, hm, hnumber⟩

theorem exists_renames (h : n.Completes t root) {m : Node} (hm : m ∈ n.nodes) :
    ∃ native, n.Renames native m := by
  obtain ⟨id, hid⟩ := h.follows.named hm
  obtain ⟨native, m', hm', _, heq, hrenames⟩ := h.follows.stands hid
  have hsame : m' = m :=
    List.inj_on_of_nodup_map h.nodup_ids (List.mem_reverse.2 hm') (List.mem_reverse.2 hm) heq
  exact ⟨native, hsame ▸ hrenames⟩

theorem renamed_mem (h : n.Completes t root) {id : Nat} {native : NativeNode}
    (hid : t.Reachable id) (hnative : t.nodes.get? id = some native) :
    native.renamed n.numberOf id ∈ n.nodes := by
  obtain ⟨number, hnumber, -⟩ := h.reachable hid
  obtain ⟨native', m, hm, hnative', rfl, hrenames⟩ := h.follows.stands hnumber
  obtain rfl := Option.some.inj (hnative.symm.trans hnative')
  have heq : native.renamed n.numberOf id = m := by
    rw [NativeNode.renamed, ← eq_renamed hrenames.low, ← eq_renamed hrenames.high, ← hrenames.var,
      numberOf, hnumber]
    rfl
  exact heq ▸ hm

theorem renumbers (h : n.Completes t root) :
    Numbered.Renumbers ⟨root, n.nodes.reverse⟩ t where
  ids := by
    rw [List.length_reverse]
    exact h.follows.ids
  size := by
    rw [List.length_reverse]
    exact h.encard_reachable
  edges m hm e he := by
    have hm' := List.mem_reverse.1 hm
    obtain ⟨native, hrenames⟩ := h.exists_renames hm'
    have hedge : e.id < m.id ∧ ∃ part, n.resolve part = .ok e := by
      rcases he with rfl | rfl
      · exact ⟨hrenames.low_lt, _, hrenames.low⟩
      · exact ⟨hrenames.high_lt, _, hrenames.high⟩
    obtain ⟨hlt, part, hpart⟩ := hedge
    refine (h.isTerminal_or_mem hpart).imp_right fun ⟨child, hchild, hid⟩ => ?_
    exact ⟨hlt, child, List.mem_reverse.2 hchild, hid⟩
  reachable m hm := by
    obtain ⟨id, hid⟩ := h.follows.named (List.mem_reverse.1 hm)
    obtain ⟨number, hnumber, hreached⟩ := h.reachable (h.follows.reachable hid)
    obtain rfl := Option.some.inj (hid.symm.trans hnumber)
    exact hreached
  kept := ⟨n.numberOf, eq_renamed h.root, fun _ _ hid hnative =>
    List.mem_reverse.2 (h.renamed_mem hid hnative)⟩
  finds values := by
    obtain ⟨value, hvalue⟩ := h.exists_finds values _ h.root (Nat.lt_succ_self _)
    have hvalue' := h.finds_numbered h.root hvalue
    refine ⟨value, fun found => ⟨⟨fun hfound => hfound.unique hvalue, ?_⟩,
      ⟨fun hfound => hfound.unique hvalue', ?_⟩⟩⟩
    · rintro rfl
      exact hvalue
    · rintro rfl
      exact hvalue'

end Completes
end Numbering

/-- A text that is read as a table is what its lines say; it is translated exactly if all that the
root leads to is defined and no path comes back to where it started. What it is translated to are
the nodes that the root leads to, with the function of the root. -/
theorem translation_exact {format : Format} {text : String} {t : Table}
    (h : format.parse text = .ok t) :
    format.Tells text t ∧
    ((∃ num, format.translate text = .ok num) ↔ t.IsClosed ∧ t.IsAcyclic) ∧
    (∀ num, format.translate text = .ok num → num.Renumbers t) ∧
    ∀ fault, format.translate text = .error fault → t.Blames fault := by
  have htranslate : format.translate text = t.number := by rw [Format.translate, h]; rfl
  rw [htranslate]
  refine ⟨Format.tells_of_parse h, t.exists_number_iff, fun num hnum => ?_,
    fun fault => t.blames_of_number⟩
  rcases t.number_cases with ⟨fault, hnumber, -⟩ | ⟨n, root, hn, hnumber⟩
  · exact absurd (hnum.symm.trans hnumber) (by simp)
  · obtain rfl := Except.ok.inj (hnum.symm.trans hnumber)
    exact hn.renumbers

/-- A text whose root is complemented, and whose node 32 leads to node 48 along both edges. -/
def sharedText : String :=
  ": 3 nodes 1 leaves 4 minterms\nID = !0x20\tindex = 0\tT =  0x30\tE = !0x30\n" ++
  "ID =  0x30\tindex = 1\tT = 1        \tE = !1\n"

def sharedTable : Table where
  root := ⟨true, .node 32⟩
  nodes := .ofList [(32, ⟨0, ⟨true, .node 48⟩, ⟨false, .node 48⟩⟩),
    (48, ⟨1, ⟨true, .terminal true⟩, ⟨false, .terminal true⟩⟩)]

def sharedNumbered : Numbered where
  root := ⟨true, 3⟩
  nodes := [⟨2, 1, ⟨true, 1⟩, ⟨false, 1⟩⟩, ⟨3, 0, ⟨true, 2⟩, ⟨false, 2⟩⟩]

theorem translation_of_shared_node :
    Format.cudd.parse sharedText = .ok sharedTable ∧
      Format.cudd.translate sharedText = .ok sharedNumbered ∧
      sharedTable.IsClosed ∧ sharedTable.IsAcyclic ∧ sharedNumbered.Renumbers sharedTable := by
  have hparse : Format.cudd.parse sharedText = .ok sharedTable := by decide +kernel
  have htranslate : Format.cudd.translate sharedText = .ok sharedNumbered := by
    rw [Format.translate, hparse]
    cbv
  obtain ⟨-, hiff, hrenumbers, -⟩ := translation_exact hparse
  obtain ⟨hclosed, hacyclic⟩ := hiff.1 ⟨_, htranslate⟩
  exact ⟨hparse, htranslate, hclosed, hacyclic, hrenumbers _ htranslate⟩

end Native
end DiagramCompiler
