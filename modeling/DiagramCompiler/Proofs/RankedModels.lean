import Mathlib.Data.List.Permutation
import DiagramCompiler.Diagram.Sample
import DiagramCompiler.Proofs.ModelCounts

/-! Ranks of models.
The bits below an edge are listed in lexicographic order, those that start with false first. A walk
from the root compares the rank with the number of bits of the false branch, so that it ends at the
bits of that rank. -/
namespace DiagramCompiler
namespace Diagram

variable {d : Diagram} {level : Nat} {e : Edge} {c : Counter}

theorem choices_eq {vars : List Nat} (hvars : d.order.toList.drop level = vars)
    (he : d.StartsAt level e) (hc : c.IsExact d) {rank : Nat} {bits : List Bool}
    (hrank : (d.modelBits vars e)[rank]? = some bits) :
    (d.choices vars level e rank c).1 = vars.zip bits := by
  induction vars generalizing level e rank c bits with
  | nil => rfl
  | cons var vars ih =>
    have hlevel : level < d.varCount := by
      by_contra hge
      rw [List.drop_eq_nil_of_le (Nat.le_of_not_lt hge)] at hvars
      exact absurd hvars (by simp)
    have hrest : d.order.toList.drop (level + 1) = vars := by
      rw [← List.tail_drop, hvars, List.tail_cons]
    obtain ⟨hcount, hexact⟩ := countEdge_exact (d.branches e level).1 hc
    have hlow : (d.countEdge (d.branches e level).1 c).1 / Nat.pow 2 (level + 1) =
        (d.modelBits vars (d.branch e level false)).length := by
      rw [hcount, ← hrest]
      show d.weight 0 (d.branch e level false) / 2 ^ (level + 1) = _
      rw [(he.branch false).weight_zero hlevel, Nat.mul_div_cancel_left _ (Nat.two_pow_pos _)]
      rfl
    rw [he.modelBits_cons hvars, List.getElem?_append, List.length_map] at hrank
    rw [choices]
    simp only [hlow]
    split
    · next hlt =>
      rw [if_pos hlt, List.getElem?_map] at hrank
      obtain ⟨rest, hrest', rfl⟩ := Option.map_eq_some_iff.1 hrank
      exact congrArg _ (ih hrest (he.branch false) hexact hrest')
    · next hge =>
      rw [if_neg hge, List.getElem?_map] at hrank
      obtain ⟨rest, hrest', rfl⟩ := Option.map_eq_some_iff.1 hrank
      exact congrArg _ (ih hrest (he.branch true) hexact hrest')

/-- Choices for different variables take their places in the list of values. -/
theorem getElem?_foldl_zip {vars : List Nat} (hn : vars.Nodup) (hpos : ∀ var ∈ vars, 1 ≤ var)
    {bits : List Bool} (hbits : bits.length = vars.length) (values : Array Bool) (i : Nat) :
    ((vars.zip bits).foldl (fun values c => values.setIfInBounds (c.1 - 1) c.2) values)[i]? =
      values[i]?.map fun old => if i + 1 ∈ vars then assigned vars bits (i + 1) else old := by
  induction vars generalizing bits values with
  | nil => simp
  | cons var vars ih =>
    obtain ⟨bit, bits, rfl⟩ := List.exists_cons_of_length_eq_add_one hbits
    obtain ⟨hnew, hrest⟩ := List.nodup_cons.1 hn
    have hvar := hpos var List.mem_cons_self
    rw [List.zip_cons_cons, List.foldl_cons,
      ih hrest (fun other hother => hpos other (List.mem_cons_of_mem var hother))
        (by simpa using hbits), Array.getElem?_setIfInBounds]
    by_cases hi : var = i + 1
    · subst hi
      have hmem : i + 1 ∈ (i + 1) :: vars := List.mem_cons_self
      simp only [Nat.add_sub_cancel, if_true, hnew, hmem, assigned_cons_self]
      by_cases hi : i < values.size
      · simp [hi]
      · simp [hi]
    · have hplace : var - 1 ≠ i := by omega
      have hmem : i + 1 ∈ var :: vars ↔ i + 1 ∈ vars :=
        ⟨fun h => (List.mem_cons.1 h).resolve_left (Ne.symm hi), List.mem_cons_of_mem var⟩
      simp only [if_neg hplace, hmem, assigned_cons_of_ne hi]

theorem valuesOf_zip {bits : List Bool} (h : bits.length = d.order.toList.length) :
    valuesOf d.varCount (d.order.toList.zip bits) = d.arranged bits := by
  refine List.ext_getElem? fun i => ?_
  rw [valuesOf, Array.getElem?_toList, getElem?_foldl_zip d.order.nodup
    (fun var hvar => (d.order.inRange var hvar).1) h]
  by_cases hi : i < d.varCount
  · have hvar : i + 1 ∈ d.order.toList := d.order.mem_toList_iff.2 ⟨by omega, hi⟩
    have hcomm : 1 + i = i + 1 := Nat.add_comm 1 i
    simp [arranged, hi, hvar, hcomm]
  · simp [arranged, hi]

theorem unrank_eq (rank : Nat) (hc : c.IsExact d) :
    (d.unrank rank c).1 = (d.modelBits d.order.toList d.root)[rank]?.map d.arranged := by
  obtain ⟨hcount, hexact⟩ := countEdge_exact d.root hc
  rw [unrank]
  simp only [hcount]
  split
  · next hlt =>
    rw [weight, List.drop_zero] at hlt
    obtain ⟨bits, hbits⟩ : ∃ bits, (d.modelBits d.order.toList d.root)[rank]? = some bits :=
      ⟨_, List.getElem?_eq_getElem hlt⟩
    have hlength := (mem_modelBits.1 (List.mem_of_getElem? hbits)).1
    rw [hbits, Option.map_some, choices_eq List.drop_zero (d.startsAt_zero _) hexact hbits,
      valuesOf_zip hlength]
  · next hge =>
    rw [weight, List.drop_zero] at hge
    rw [List.getElem?_eq_none (Nat.le_of_not_lt hge)]
    rfl

/-! ### Models by rank -/

theorem unrank_after (d : Diagram) (questions : List Counter.Question) (rank : Nat) :
    (d.unrank rank (Counter.after d questions)).1 = d.model? rank := by
  rw [model?, unrank_eq rank (Counter.isExact_after d questions),
    unrank_eq rank (Counter.isExact_fresh d)]

theorem model?_eq (d : Diagram) (rank : Nat) :
    d.model? rank = (d.modelBits d.order.toList d.root)[rank]?.map d.arranged :=
  unrank_eq rank (Counter.isExact_fresh d)

theorem count_eq (d : Diagram) : d.count = (d.modelBits d.order.toList d.root).length :=
  (countEdge_exact d.root (Counter.isExact_fresh d)).1.trans (by rw [weight, List.drop_zero])

theorem inOrder_mem {values : List Bool} (h : values.length = d.varCount) :
    d.inOrder values ∈ d.modelBits d.order.toList d.root ↔ d.holds values = true :=
  inOrder_mem_modelBits h

theorem model?_eq_some_iff {rank : Nat} {values : List Bool} :
    d.model? rank = some values ↔
      values.length = d.varCount ∧
        (d.modelBits d.order.toList d.root)[rank]? = some (d.inOrder values) := by
  rw [model?_eq, Option.map_eq_some_iff]
  constructor
  · rintro ⟨bits, hbits, rfl⟩
    have hlength := (mem_modelBits.1 (List.mem_of_getElem? hbits)).1
    exact ⟨d.length_arranged bits, by rw [hbits, inOrder_arranged hlength]⟩
  · rintro ⟨hlength, hbits⟩
    exact ⟨d.inOrder values, hbits, arranged_inOrder hlength⟩

theorem holds_of_model? {rank : Nat} {values : List Bool} (h : d.model? rank = some values) :
    values.length = d.varCount ∧ d.holds values = true := by
  obtain ⟨hlength, hbits⟩ := model?_eq_some_iff.1 h
  exact ⟨hlength, (inOrder_mem hlength).1 (List.mem_of_getElem? hbits)⟩

theorem exists_model? {rank : Nat} (h : rank < d.count) :
    ∃ values, d.model? rank = some values := by
  rw [count_eq] at h
  exact ⟨_, by rw [model?_eq, List.getElem?_eq_getElem h, Option.map_some]⟩

theorem inOrder_lt {r s : Nat} (h : r < s) {values values' : List Bool}
    (hr : d.model? r = some values) (hs : d.model? s = some values') :
    d.inOrder values < d.inOrder values' := by
  obtain ⟨_, hbits⟩ := model?_eq_some_iff.1 hr
  obtain ⟨_, hbits'⟩ := model?_eq_some_iff.1 hs
  obtain ⟨hlt, heq⟩ := List.getElem?_eq_some_iff.1 hbits
  obtain ⟨hlt', heq'⟩ := List.getElem?_eq_some_iff.1 hbits'
  rw [← heq, ← heq']
  exact List.pairwise_iff_getElem.1 (d.sorted_modelBits d.order.toList d.root) r s hlt hlt' h

/-! ### Samples -/

end Diagram

theorem Random.Generator.belowWide_lt {bound : Nat} (hbound : 0 < bound)
    (g : Random.Generator) : (g.belowWide bound hbound).1 < bound := by
  fun_induction belowWide bound hbound g with
  | case1 g drawn haccepted => exact haccepted
  | case2 g drawn hrejected ih => exact ih

namespace Diagram

theorem length_drawRanks {total : Nat} (htotal : 0 < total) (k : Nat) (g : Random.Generator) :
    (drawRanks total htotal k g).1.length = k := by
  induction k generalizing g with
  | zero => rfl
  | succ k ih => rw [drawRanks, List.length_cons, ih]

theorem lt_of_mem_drawRanks {total : Nat} {htotal : 0 < total} {k : Nat} {g : Random.Generator}
    {rank : Nat} (hrank : rank ∈ (drawRanks total htotal k g).1) : rank < total := by
  induction k generalizing g with
  | zero => exact absurd hrank (by simp [drawRanks])
  | succ k ih =>
    rw [drawRanks, List.mem_cons] at hrank
    rcases hrank with rfl | hrank
    · exact g.belowWide_lt htotal
    · exact ih hrank

/-- Ranks that are asked for one after the other have the same models as alone. -/
theorem unrankAll_eq (ranks : List Nat) {c : Counter} (hc : c.IsExact d) :
    (d.unrankAll ranks c).1 = ranks.map d.model? := by
  induction ranks generalizing c with
  | nil => rfl
  | cons rank ranks ih =>
    rw [unrankAll, List.map_cons, ih (unrank_isExact rank hc), model?_eq, unrank_eq rank hc]

theorem sample_models (d : Diagram) (k : Nat) (g : Random.Generator) :
    (d.sample k g).models.length = (if d.count = 0 then 0 else k) ∧
      ∀ values ∈ (d.sample k g).models, values.length = d.varCount ∧ d.holds values = true := by
  obtain ⟨hcount, hexact⟩ := countEdge_exact d.root (Counter.isExact_fresh d)
  have htotal : (d.countEdge d.root .fresh).1 = d.count := rfl
  rw [sample]
  simp only [htotal]
  split
  · simp [Samples.ofModels]
  · next hpos =>
    let ranks := (drawRanks d.count (Nat.pos_of_ne_zero hpos) k g).1
    have hranks : ∀ rank ∈ ranks, ∃ values, d.model? rank = some values := fun rank hrank =>
      exists_model? (lt_of_mem_drawRanks hrank)
    have hdrawn : (d.unrankAll ranks (d.countEdge d.root .fresh).2).1.filterMap id =
        ranks.filterMap d.model? := by
      rw [unrankAll_eq ranks hexact, List.filterMap_map, Function.id_comp]
    rw [hdrawn, Samples.ofModels]
    constructor
    · have hall : ∀ rank ∈ ranks, (d.model? rank).isSome = true := fun rank hrank =>
        Option.isSome_iff_exists.2 (hranks rank hrank)
      rw [List.length_mergeSort, List.length_filterMap_eq_countP, List.countP_eq_length.2 hall]
      exact length_drawRanks (Nat.pos_of_ne_zero hpos) k g
    · intro values hvalues
      obtain ⟨rank, _, hrank⟩ := List.mem_filterMap.1 (List.mem_mergeSort.1 hvalues)
      exact holds_of_model? hrank

/-- Ranks below the number of models are in an order-preserving correspondence with the models,
which are compared by their values in diagram order, false before true. Earlier questions to the
same counter do not matter, larger ranks have no model, and a sample is made up of as many models as
are drawn, unless there is none. -/
theorem model_order_isomorphism (d : Diagram) :
    (∀ questions rank, (d.unrank rank (Counter.after d questions)).1 = d.model? rank) ∧
      (∀ rank < d.count, ∃ values,
        d.model? rank = some values ∧ values.length = d.varCount ∧ d.holds values = true) ∧
      (∀ r s, r < s → s < d.count → ∃ values values',
        d.model? r = some values ∧ d.model? s = some values' ∧
          d.inOrder values < d.inOrder values') ∧
      (∀ values, values.length = d.varCount → d.holds values = true →
        ∃! rank, rank < d.count ∧ d.model? rank = some values) ∧
      (∀ rank, d.count ≤ rank → d.model? rank = none) ∧
      ∀ k g, (d.sample k g).models.length = (if d.count = 0 then 0 else k) ∧
        ∀ values ∈ (d.sample k g).models, values.length = d.varCount ∧ d.holds values = true := by
  refine ⟨d.unrank_after, fun rank hrank => ?_, fun r s hlt hs => ?_, fun values hlength hholds => ?_,
    fun rank hrank => ?_, d.sample_models⟩
  · obtain ⟨values, hvalues⟩ := exists_model? hrank
    exact ⟨values, hvalues, holds_of_model? hvalues⟩
  · obtain ⟨values, hvalues⟩ := exists_model? (Nat.lt_trans hlt hs)
    obtain ⟨values', hvalues'⟩ := exists_model? hs
    exact ⟨values, values', hvalues, hvalues', inOrder_lt hlt hvalues hvalues'⟩
  · obtain ⟨rank, hrank⟩ := List.mem_iff_getElem?.1 ((inOrder_mem hlength).2 hholds)
    have hmodel := model?_eq_some_iff.2 ⟨hlength, hrank⟩
    have hlt : rank < d.count := by
      rw [count_eq]
      exact (List.getElem?_eq_some_iff.1 hrank).1
    refine ⟨rank, ⟨hlt, hmodel⟩, fun other hother => ?_⟩
    rcases Nat.lt_trichotomy other rank with h | h | h
    · exact absurd (inOrder_lt h hother.2 hmodel) (List.lt_irrefl _)
    · exact h
    · exact absurd (inOrder_lt h hmodel hother.2) (List.lt_irrefl _)
  · rw [model?_eq, List.getElem?_eq_none (by rwa [← count_eq])]
    rfl

theorem models_of_two_clauses :
    let d := twoClauses
    d.count = 4 ∧ d.holds [true, true, true] = true ∧
      (∃ values values', d.model? 1 = some values ∧ d.model? 3 = some values' ∧
        d.inOrder values < d.inOrder values') ∧
      (∃! rank, rank < d.count ∧ d.model? rank = some [true, true, true]) ∧
      d.model? 4 = none := by
  have hcount : twoClauses.count = 4 := by cbv
  have hholds : twoClauses.holds [true, true, true] = true := by cbv
  obtain ⟨_, _, hless, hunique, hnone, _⟩ := model_order_isomorphism twoClauses
  exact ⟨hcount, hholds, hless 1 3 (by decide) (by rw [hcount]; decide),
    hunique _ rfl hholds, hnone 4 (by rw [hcount])⟩

end Diagram
end DiagramCompiler
