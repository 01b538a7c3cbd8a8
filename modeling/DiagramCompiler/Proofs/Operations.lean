import DiagramCompiler.Proofs.SharedNodes

/-! Operations on shared nodes.
Combining and negating walk through diagrams level by level and remember what they found. Each of
them leaves a sound table that has all earlier nodes, and its answer means what the operation says.
Both walks are induction on the fuel: the levels that are left are fewer than it. -/
namespace DiagramCompiler
namespace Reference
namespace Table

/-- Whether a number of a table has a meaning and does not depend on the levels above one. -/
structure Represents (t : Table) (level : Nat) (meaning : (Nat → Bool) → Bool) (id : Nat) :
    Prop where
  holds : t.Holds id
  level_le : level ≤ t.level id
  eval_eq : ∀ values, t.eval values id = meaning values

theorem Represents.extend {t t' : Table} {level id : Nat} {meaning : (Nat → Bool) → Bool}
    (h : t.Represents level meaning id) (he : Extends t t') (ht : t.Sound) (ht' : t'.Sound) :
    t'.Represents level meaning id where
  holds := he.holds h.holds
  level_le := by rw [he.level_eq h.holds]; exact h.level_le
  eval_eq values := by rw [he.eval_eq ht ht' h.holds]; exact h.eval_eq values

theorem Sound.represents_terminal {t : Table} {level : Nat} (h : level ≤ t.order.length)
    (value : Bool) : t.Represents level (fun _ => value) (terminal value) := by
  have hlt : terminal value < 2 := by cases value <;> decide
  refine ⟨t.holds_of_lt hlt, by rw [t.level_terminal hlt]; exact h, fun values => ?_⟩
  rw [t.eval_terminal values hlt]
  cases value <;> rfl

theorem Sound.represents_make {t : Table} (ht : t.Sound) {level low high : Nat}
    {ifLow ifHigh : (Nat → Bool) → Bool} (hlevel : level < t.order.length)
    (hlow : t.Represents (level + 1) ifLow low) (hhigh : t.Represents (level + 1) ifHigh high) :
    (t.make level low high).2.Sound ∧ Extends t (t.make level low high).2 ∧
      (t.make level low high).2.Represents level
        (fun values => if values (t.varAt level) then ifHigh values else ifLow values)
        (t.make level low high).1 := by
  have hm := ht.makes (b := ⟨level, low, high⟩)
    ⟨hlevel, hlow.holds, hhigh.holds, hlow.level_le, hhigh.level_le⟩
  refine ⟨hm.sound, hm.grows, hm.holds, hm.level_le, fun values => ?_⟩
  rw [hm.eval_eq values, hlow.eval_eq, hhigh.eval_eq]

/-- What the parts of a diagram for a level are. -/
structure Splits (t : Table) (id level : Nat) (parts : Nat × Nat) : Prop where
  holds_low : t.Holds parts.1
  holds_high : t.Holds parts.2
  lt_low : level < t.level parts.1
  lt_high : level < t.level parts.2
  eval_eq : ∀ values, t.eval values id =
    if values (t.varAt level) then t.eval values parts.2 else t.eval values parts.1

theorem Sound.splits {t : Table} (ht : t.Sound) {id level : Nat} (hid : t.Holds id)
    (hle : level ≤ t.level id) (hlevel : level < t.order.length) :
    t.Splits id level (t.cofactors id level) := by
  rw [cofactors]
  split
  · next n hn =>
    have hp := ht.placed hn
    split
    · next heq =>
      subst heq
      exact ⟨hp.holds_low hid, hp.holds_high hid, hp.above_low, hp.above_high, eval_branch hn hp⟩
    · next hne =>
      have hlt : level < t.level id := by
        rw [level_of_node? hn] at hle ⊢
        omega
      exact ⟨hid, hid, hlt, hlt, fun values => by split <;> rfl⟩
  · next hn =>
    have hlt : level < t.level id := by simpa [Table.level, hn] using hlevel
    exact ⟨hid, hid, hlt, hlt, fun values => by split <;> rfl⟩

/-! ### Remembered results -/

namespace Work

variable {κ : Type} [BEq κ] [Hashable κ]

/-- A sound table together with results that are all right in it. -/
structure Sound (Right : Table → κ → Nat → Prop) (w : Work κ) : Prop where
  table : w.table.Sound
  known : ∀ {key id}, w.known[key]? = some id → Right w.table key id

/-- What a walk comes to: more nodes, only right results, and a right answer. -/
structure Computes (Right : Table → κ → Nat → Prop) (w : Work κ) (key : κ)
    (answer : Nat × Work κ) : Prop where
  sound : answer.2.Sound Right
  grows : w.table.Extends answer.2.table
  right : Right answer.2.table key answer.1

def Lasting (Right : Table → κ → Nat → Prop) : Prop :=
  ∀ (t t' : Table) (key : κ) (id : Nat), t.Extends t' → t.Sound → t'.Sound →
    Right t key id → Right t' key id

theorem Computes.of_right {Right : Table → κ → Nat → Prop} {w : Work κ} (hw : w.Sound Right)
    {key : κ} {id : Nat} (h : Right w.table key id) : Computes Right w key (id, w) :=
  ⟨hw, .refl _, h⟩

theorem Sound.remember [LawfulBEq κ] [LawfulHashable κ] {Right : Table → κ → Nat → Prop}
    (hlast : Lasting Right) {w : Work κ} (hw : w.Sound Right) {t : Table} (ht : t.Sound)
    (he : w.table.Extends t) {key : κ} {id : Nat} (h : Right t key id) :
    Sound Right ⟨t, w.known.insert key id⟩ where
  table := ht
  known {key' id'} hknown := by
    rw [Std.HashMap.getElem?_insert] at hknown
    split at hknown
    · next heq =>
      rw [beq_iff_eq] at heq
      obtain rfl := Option.some.inj hknown
      exact heq ▸ h
    · exact hlast _ _ _ _ he hw.table ht (hw.known hknown)

end Work

/-! ### Combining -/

def Combined (op : BinaryOp) (t : Table) (operands : Nat × Nat) (id : Nat) : Prop :=
  t.Holds operands.1 ∧ t.Holds operands.2 ∧
    t.Represents (min (t.level operands.1) (t.level operands.2))
      (fun values => op.eval (t.eval values operands.1) (t.eval values operands.2)) id

theorem lasting_combined (op : BinaryOp) : Work.Lasting (Combined op) := by
  rintro t t' ⟨a, b⟩ id he ht ht' ⟨ha, hb, h⟩
  refine ⟨he.holds ha, he.holds hb, ?_⟩
  have hmeaning := h.extend he ht ht'
  simp only at ha hb hmeaning ⊢
  rw [he.level_eq ha, he.level_eq hb]
  refine ⟨hmeaning.holds, hmeaning.level_le, fun values => ?_⟩
  rw [hmeaning.eval_eq, he.eval_eq ht ht' ha, he.eval_eq ht ht' hb]

theorem combined_terminals (op : BinaryOp) {t : Table} (ht : t.Sound) {a b : Nat} (ha : a < 2)
    (hb : b < 2) : Combined op t (a, b) (terminal (op.eval (a = 1) (b = 1))) := by
  refine ⟨t.holds_of_lt ha, t.holds_of_lt hb, ?_⟩
  have hlevel : min (t.level a) (t.level b) ≤ t.order.length :=
    Nat.le_trans (Nat.min_le_left _ _) (ht.level_le a)
  have h := Sound.represents_terminal hlevel (op.eval (decide (a = 1)) (decide (b = 1)))
  refine ⟨h.holds, h.level_le, fun values => ?_⟩
  rw [h.eval_eq, t.eval_terminal values ha, t.eval_terminal values hb]

/-- The answer for two diagrams from the answers for their low and for their high parts. -/
theorem combine_step {op : BinaryOp} {w low high : Work (Nat × Nat)} {a b level idLow idHigh : Nat}
    {pa pb : Nat × Nat} (hw : w.Sound (Combined op)) (ha : w.table.Holds a)
    (hb : w.table.Holds b) (hlevel : level < w.table.order.length)
    (hmin : min (w.table.level a) (w.table.level b) = level) (sa : w.table.Splits a level pa)
    (sb : w.table.Splits b level pb)
    (hlow : Work.Computes (Combined op) w (pa.1, pb.1) (idLow, low))
    (hhigh : Work.Computes (Combined op) low (pa.2, pb.2) (idHigh, high)) :
    Work.Computes (Combined op) w (a, b)
      ((high.table.make level idLow idHigh).1, ⟨(high.table.make level idLow idHigh).2,
        high.known.insert (a, b) (high.table.make level idLow idHigh).1⟩) := by
  have htable := hw.table
  have hgrows := hlow.grows.trans hhigh.grows
  have rlow := (lasting_combined op _ _ _ _ hhigh.grows hlow.sound.table hhigh.sound.table
    hlow.right).2.2
  have rhigh := hhigh.right.2.2
  simp only at rlow rhigh
  rw [hgrows.level_eq sa.holds_low, hgrows.level_eq sb.holds_low] at rlow
  rw [hgrows.level_eq sa.holds_high, hgrows.level_eq sb.holds_high] at rhigh
  have above_low : level + 1 ≤ min (w.table.level pa.1) (w.table.level pb.1) :=
    Nat.le_min.2 ⟨sa.lt_low, sb.lt_low⟩
  have above_high : level + 1 ≤ min (w.table.level pa.2) (w.table.level pb.2) :=
    Nat.le_min.2 ⟨sa.lt_high, sb.lt_high⟩
  obtain ⟨msound, mgrows, mrep⟩ := hhigh.sound.table.represents_make
    (hgrows.order_eq ▸ hlevel)
    ⟨rlow.holds, Nat.le_trans above_low rlow.level_le, rlow.eval_eq⟩
    ⟨rhigh.holds, Nat.le_trans above_high rhigh.level_le, rhigh.eval_eq⟩
  have hall := hgrows.trans mgrows
  have hright : Combined op (high.table.make level idLow idHigh).2 (a, b)
      (high.table.make level idLow idHigh).1 := by
    refine ⟨hall.holds ha, hall.holds hb, mrep.holds, ?_, fun values => ?_⟩
    · simp only
      rw [hall.level_eq ha, hall.level_eq hb, hmin]
      exact mrep.level_le
    · rw [mrep.eval_eq]
      simp only
      rw [hall.eval_eq htable msound ha, hall.eval_eq htable msound hb, sa.eval_eq, sb.eval_eq,
        hgrows.varAt_eq, hgrows.eval_eq htable hhigh.sound.table sa.holds_low,
        hgrows.eval_eq htable hhigh.sound.table sb.holds_low,
        hgrows.eval_eq htable hhigh.sound.table sa.holds_high,
        hgrows.eval_eq htable hhigh.sound.table sb.holds_high]
      split <;> rfl
  exact ⟨hhigh.sound.remember (lasting_combined op) msound mgrows hright, hall, hright⟩

theorem combine_succ (op : BinaryOp) (fuel : Nat) (w : Work (Nat × Nat)) (a b : Nat) :
    combine op (fuel + 1) w a b =
      if isTerminal a && isTerminal b then (terminal (op.eval (a = 1) (b = 1)), w)
      else
        match w.known[(a, b)]? with
        | some id => (id, w)
        | none =>
          let level := min (w.table.level a) (w.table.level b)
          let low := combine op fuel w (w.table.cofactors a level).1 (w.table.cofactors b level).1
          let high :=
            combine op fuel low.2 (w.table.cofactors a level).2 (w.table.cofactors b level).2
          let made := high.2.table.make level low.1 high.1
          (made.1, ⟨made.2, high.2.known.insert (a, b) made.1⟩) :=
  (combine.eq_def op (fuel + 1) w a b).trans rfl

theorem combine_computes (op : BinaryOp) (fuel : Nat) {w : Work (Nat × Nat)}
    (hw : w.Sound (Combined op)) {a b : Nat} (ha : w.table.Holds a) (hb : w.table.Holds b)
    (hfuel : w.table.order.length < fuel + min (w.table.level a) (w.table.level b)) :
    Work.Computes (Combined op) w (a, b) (combine op fuel w a b) := by
  induction fuel generalizing w a b with
  | zero =>
    have := hw.table.level_le a
    omega
  | succ fuel ih =>
    rw [combine_succ]
    split
    · next hterm =>
      rw [Bool.and_eq_true, isTerminal_iff, isTerminal_iff] at hterm
      exact .of_right hw (combined_terminals op hw.table hterm.1 hterm.2)
    · next hterm =>
      rw [Bool.and_eq_true, isTerminal_iff, isTerminal_iff] at hterm
      split
      · next id hknown => exact .of_right hw (hw.known hknown)
      · -- one of the diagrams is no terminal, so the first level of the two is one of the order
        have hlevel : min (w.table.level a) (w.table.level b) < w.table.order.length := by
          by_cases h : 2 ≤ a
          · have := hw.table.level_lt ha h
            omega
          · have := hw.table.level_lt hb (by omega)
            omega
        have sa := hw.table.splits ha (Nat.min_le_left _ _) hlevel
        have sb := hw.table.splits hb (Nat.min_le_right _ _) hlevel
        have hlow := ih hw sa.holds_low sb.holds_low (by
          have := sa.lt_low
          have := sb.lt_low
          omega)
        have hhigh := ih hlow.sound (hlow.grows.holds sa.holds_high)
          (hlow.grows.holds sb.holds_high) (by
            rw [hlow.grows.level_eq sa.holds_high, hlow.grows.level_eq sb.holds_high,
              hlow.grows.order_eq]
            have := sa.lt_high
            have := sb.lt_high
            omega)
        exact combine_step hw ha hb hlevel rfl sa sb hlow hhigh

theorem Sound.apply {t : Table} (ht : t.Sound) (op : BinaryOp) {a b : Nat} (ha : t.Holds a)
    (hb : t.Holds b) :
    (t.apply op a b).2.Sound ∧ Extends t (t.apply op a b).2 ∧
      (t.apply op a b).2.Holds (t.apply op a b).1 ∧
      ∀ values, (t.apply op a b).2.eval values (t.apply op a b).1 =
        op.eval (t.eval values a) (t.eval values b) := by
  have hw : Work.Sound (Combined op) ⟨t, ∅⟩ := ⟨ht, fun h => by simp at h⟩
  have h := combine_computes op (t.order.length + 1) hw ha hb (by simp only; omega)
  refine ⟨h.sound.table, h.grows, h.right.2.2.holds, fun values => ?_⟩
  rw [← h.grows.eval_eq ht h.sound.table ha, ← h.grows.eval_eq ht h.sound.table hb]
  exact h.right.2.2.eval_eq values

/-! ### Negating -/

def Negated (t : Table) (operand : Nat) (id : Nat) : Prop :=
  t.Holds operand ∧ t.Represents (t.level operand) (fun values => !t.eval values operand) id

theorem lasting_negated : Work.Lasting Negated := by
  rintro t t' a id he ht ht' ⟨ha, h⟩
  have hmeaning := h.extend he ht ht'
  refine ⟨he.holds ha, hmeaning.holds, ?_, fun values => ?_⟩
  · rw [he.level_eq ha]
    exact hmeaning.level_le
  · rw [hmeaning.eval_eq, he.eval_eq ht ht' ha]

theorem negated_terminal {t : Table} (ht : t.Sound) {a : Nat} (ha : a < 2) :
    Negated t a (1 - a) := by
  have hb : 1 - a < 2 := by omega
  refine ⟨t.holds_of_lt ha, t.holds_of_lt hb, ?_, fun values => ?_⟩
  · rw [t.level_terminal hb]
    exact ht.level_le a
  · rw [t.eval_terminal values ha, t.eval_terminal values hb]
    have : a = 0 ∨ a = 1 := by omega
    rcases this with rfl | rfl <;> rfl

theorem complement_step {w low high : Work Nat} {a idLow idHigh : Nat} {n : Branch}
    (hw : w.Sound Negated) (hn : w.table.node? a = some n)
    (hlow : Work.Computes Negated w n.low (idLow, low))
    (hhigh : Work.Computes Negated low n.high (idHigh, high)) :
    Work.Computes Negated w a
      ((high.table.make n.level idLow idHigh).1, ⟨(high.table.make n.level idLow idHigh).2,
        high.known.insert a (high.table.make n.level idLow idHigh).1⟩) := by
  have htable := hw.table
  have hp := htable.placed hn
  have ha := (le_and_holds_of_node? hn).2
  have hgrows := hlow.grows.trans hhigh.grows
  have rlow := (lasting_negated _ _ _ _ hhigh.grows hlow.sound.table hhigh.sound.table hlow.right).2
  have rhigh := hhigh.right.2
  rw [hgrows.level_eq (hp.holds_low ha)] at rlow
  rw [hgrows.level_eq (hp.holds_high ha)] at rhigh
  obtain ⟨msound, mgrows, mrep⟩ := hhigh.sound.table.represents_make
    (hgrows.order_eq ▸ hp.level_lt)
    ⟨rlow.holds, Nat.le_trans hp.above_low rlow.level_le, rlow.eval_eq⟩
    ⟨rhigh.holds, Nat.le_trans hp.above_high rhigh.level_le, rhigh.eval_eq⟩
  have hall := hgrows.trans mgrows
  have hright : Negated (high.table.make n.level idLow idHigh).2 a
      (high.table.make n.level idLow idHigh).1 := by
    refine ⟨hall.holds ha, mrep.holds, ?_, fun values => ?_⟩
    · rw [hall.level_eq ha, level_of_node? hn]
      exact mrep.level_le
    · rw [mrep.eval_eq]
      simp only
      rw [hall.eval_eq htable msound ha, eval_branch hn hp, hgrows.varAt_eq,
        hgrows.eval_eq htable hhigh.sound.table (hp.holds_low ha),
        hgrows.eval_eq htable hhigh.sound.table (hp.holds_high ha)]
      split <;> rfl
  exact ⟨hhigh.sound.remember lasting_negated msound mgrows hright, hall, hright⟩

theorem complement_succ (fuel : Nat) (w : Work Nat) (a : Nat) {n : Branch}
    (hn : w.table.node? a = some n) :
    complement (fuel + 1) w a =
      match w.known[a]? with
      | some negated => (negated, w)
      | none =>
        let low := complement fuel w n.low
        let high := complement fuel low.2 n.high
        let made := high.2.table.make n.level low.1 high.1
        (made.1, ⟨made.2, high.2.known.insert a made.1⟩) := by
  have hid := (le_and_holds_of_node? hn).1
  have hterm : isTerminal a = false := by simp [isTerminal]; omega
  rw [complement.eq_def]
  simp only [hterm, hn]
  rfl

theorem complement_computes (fuel : Nat) {w : Work Nat} (hw : w.Sound Negated) {a : Nat}
    (ha : w.table.Holds a) (hfuel : w.table.order.length < fuel + w.table.level a) :
    Work.Computes Negated w a (complement fuel w a) := by
  induction fuel generalizing w a with
  | zero =>
    have := hw.table.level_le a
    omega
  | succ fuel ih =>
    by_cases hterm : a < 2
    · have hcomp : complement (fuel + 1) w a = (1 - a, w) := by
        rw [complement.eq_def]
        exact if_pos (isTerminal_iff.2 hterm)
      rw [hcomp]
      exact .of_right hw (negated_terminal hw.table hterm)
    · obtain ⟨n, hn⟩ := exists_node?_of_holds (by omega) ha
      have hp := hw.table.placed hn
      rw [level_of_node? hn] at hfuel
      rw [complement_succ fuel w a hn]
      split
      · next id hknown => exact .of_right hw (hw.known hknown)
      · have hlow := ih hw (hp.holds_low ha) (by
          have := hp.above_low
          omega)
        have hhigh := ih hlow.sound (hlow.grows.holds (hp.holds_high ha)) (by
          rw [hlow.grows.level_eq (hp.holds_high ha), hlow.grows.order_eq]
          have := hp.above_high
          omega)
        exact complement_step hw hn hlow hhigh

theorem Sound.negate {t : Table} (ht : t.Sound) {a : Nat} (ha : t.Holds a) :
    (t.negate a).2.Sound ∧ Extends t (t.negate a).2 ∧ (t.negate a).2.Holds (t.negate a).1 ∧
      ∀ values, (t.negate a).2.eval values (t.negate a).1 = !t.eval values a := by
  have hw : Work.Sound Negated ⟨t, ∅⟩ := ⟨ht, fun h => by simp at h⟩
  have h := complement_computes (t.order.length + 1) hw ha (by simp only; omega)
  refine ⟨h.sound.table, h.grows, h.right.2.holds, fun values => ?_⟩
  rw [← h.grows.eval_eq ht h.sound.table ha]
  exact h.right.2.eval_eq values

end Table
end Reference
end DiagramCompiler
