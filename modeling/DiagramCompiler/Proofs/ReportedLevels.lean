import Mathlib.Data.Set.Function
import DiagramCompiler.Library.Binding
import DiagramCompiler.Library.Recorder
import DiagramCompiler.Proofs.Actions
import DiagramCompiler.Proofs.LevelledTables

/-! Levels that a library reports.
An order is passed to a library as the variables from the top level down, and comes back as the
levels of the variables from the first one on. Sorting the variables by their levels inverts that,
so that the order of a dump lists the variable of each level, whatever levels the library reports.
If they are those on which it was told to put the variables, the order is the one that was set. -/
namespace DiagramCompiler

namespace VariableOrder

theorem getElem?_position (o : VariableOrder) {var : Nat} (h : var < o.length) :
    o.toList[o.position (var + 1)]? = some (var + 1) :=
  List.getElem?_idxOf (o.mem_toList_iff.2 ⟨Nat.succ_pos var, h⟩)

theorem position_of_getElem? (o : VariableOrder) {var level : Nat}
    (h : o.toList[level]? = some (var + 1)) : o.position (var + 1) = level := by
  obtain ⟨hlevel, hget⟩ := List.getElem?_eq_some_iff.1 h
  rw [← hget]
  exact o.nodup.idxOf_getElem level hlevel

theorem position_lt (o : VariableOrder) {var : Nat} (h : var < o.length) :
    o.position (var + 1) < o.length :=
  List.idxOf_lt_length_iff.2 (o.mem_toList_iff.2 ⟨Nat.succ_pos var, h⟩)

theorem eq_of_position {o o' : VariableOrder} (hlength : o'.length = o.length)
    (h : ∀ var < o.length, o'.toList[o.position (var + 1)]? = some (var + 1)) : o' = o := by
  have htoList : o'.toList = o.toList := by
    refine List.ext_getElem? fun level => ?_
    by_cases hlevel : level < o.toList.length
    · obtain ⟨hpos, hle⟩ := o.inRange _ (List.getElem_mem hlevel)
      obtain ⟨var, hvar⟩ : ∃ var, o.toList[level] = var + 1 := ⟨_, (Nat.sub_add_cancel hpos).symm⟩
      have hget : o.toList[level]? = some (var + 1) := by
        rw [List.getElem?_eq_getElem hlevel, hvar]
      rw [hget, ← h var (by rw [hvar] at hle; exact hle), o.position_of_getElem? hget]
    · rw [List.getElem?_eq_none (Nat.le_of_not_lt hlevel),
        List.getElem?_eq_none (hlength.trans_le (Nat.le_of_not_lt hlevel))]
  cases o
  cases o'
  congr

/-- The variables counted from 0 are at the same positions. -/
theorem idxOf_map_pred (o : VariableOrder) {var : Nat} (h : var < o.length) :
    (o.toList.map (· - 1)).idxOf var = o.position (var + 1) := by
  have hnodup : (o.toList.map (· - 1)).Nodup := by
    refine List.Nodup.map_on (fun v hv w hw heq => ?_) o.nodup
    have hpos := (o.inRange v hv).1
    have hpos' := (o.inRange w hw).1
    omega
  have hget : (o.toList.map (· - 1))[o.position (var + 1)]? = some var := by
    rw [List.getElem?_map, o.getElem?_position h]
    rfl
  obtain ⟨hposition, hvar⟩ := List.getElem?_eq_some_iff.1 hget
  have hindex := hnodup.idxOf_getElem _ hposition
  rwa [hvar] at hindex

theorem bijOn_position (o : VariableOrder) :
    Set.BijOn (fun var => o.position (var + 1)) (Set.Iio o.length) (Set.Iio o.length) := by
  refine ⟨fun var h => o.position_lt h, fun var h var' h' heq => ?_, fun level h => ?_⟩
  · have hget := o.getElem?_position h
    rw [show o.position (var + 1) = o.position (var' + 1) from heq, o.getElem?_position h'] at hget
    exact (Nat.succ.inj (Option.some.inj hget)).symm
  · obtain ⟨hpos, hle⟩ := o.inRange _ (List.getElem_mem h)
    refine ⟨o.toList[level] - 1, show _ < o.toList.length by omega, ?_⟩
    show o.position (o.toList[level] - 1 + 1) = level
    rw [Nat.sub_add_cancel hpos]
    exact o.nodup.idxOf_getElem level h

end VariableOrder

namespace Library

/-! ### Sorting by levels -/

section Levels

variable {n : Nat} {level : Nat → Nat}

theorem perm_map_level (h : Set.BijOn level (Set.Iio n) (Set.Iio n)) :
    ((List.range n).map level).Perm (List.range n) := by
  have hnodup : ((List.range n).map level).Nodup :=
    List.Nodup.map_on (fun v hv w hw heq => h.injOn (List.mem_range.1 hv) (List.mem_range.1 hw) heq)
      List.nodup_range
  refine (List.perm_ext_iff_of_nodup hnodup List.nodup_range).2 fun l => ?_
  rw [List.mem_map, List.mem_range]
  constructor
  · rintro ⟨var, hvar, rfl⟩
    exact h.mapsTo (List.mem_range.1 hvar)
  · intro hl
    obtain ⟨var, hvar, rfl⟩ := h.surjOn hl
    exact ⟨var, List.mem_range.2 hvar, rfl⟩

/-- The variables sorted by their levels have the levels from the top down. -/
theorem sortByLevel_levels (h : Set.BijOn level (Set.Iio n) (Set.Iio n)) :
    let vars := sortByLevel ((List.range n).map fun var => ((level var : Int), var))
    vars.Perm (List.range n) ∧ vars.map level = List.range n := by
  intro vars
  let pairs := (List.range n).map fun var => ((level var : Int), var)
  let sorted := pairs.mergeSort fun a b => a.1 < b.1 || (a.1 = b.1 && a.2 ≤ b.2)
  have hperm : sorted.Perm pairs := List.mergeSort_perm ..
  have hvars : vars.Perm (List.range n) := by
    have hsnd : pairs.map Prod.snd = List.range n := by simp [pairs, Function.comp_def]
    exact hsnd ▸ hperm.map Prod.snd
  have hlevels : vars.map level = sorted.map fun e => e.1.toNat := by
    rw [show vars = sorted.map Prod.snd from rfl, List.map_map]
    refine List.map_congr_left fun e he => ?_
    obtain ⟨var, -, rfl⟩ := List.mem_map.1 (hperm.mem_iff.1 he)
    simp
  have hsorted : (vars.map level).Pairwise (· ≤ ·) := by
    rw [hlevels, List.pairwise_map]
    refine List.Pairwise.imp (fun {a b} hab => ?_) (List.pairwise_mergeSort ?_ ?_ pairs)
    · simp only [Bool.or_eq_true, Bool.and_eq_true, decide_eq_true_eq] at hab
      omega
    · intro a b c hab hbc
      simp only [Bool.or_eq_true, Bool.and_eq_true, decide_eq_true_eq] at hab hbc ⊢
      omega
    · intro a b
      simp only [Bool.or_eq_true, Bool.and_eq_true, decide_eq_true_eq]
      omega
  refine ⟨hvars, List.Perm.eq_of_pairwise (fun a b _ _ hab hba => Nat.le_antisymm hab hba) hsorted
    (List.pairwise_lt_range.imp Nat.le_of_lt) ?_⟩
  exact (hvars.map level).trans (perm_map_level h)

theorem exists_sorted (h : Set.BijOn level (Set.Iio n) (Set.Iio n)) :
    ∃ o : VariableOrder, o.length = n ∧
      sortByLevel ((List.range n).map fun var => ((level var : Int), var)) =
        o.toList.map (· - 1) ∧
      ∀ var < n, o.toList[level var]? = some (var + 1) := by
  obtain ⟨hperm, hlevels⟩ := sortByLevel_levels h
  generalize sortByLevel ((List.range n).map fun var => ((level var : Int), var)) = vars
    at hperm hlevels ⊢
  have hlength : vars.length = n := by simpa using hperm.length_eq
  refine ⟨⟨vars.map (· + 1), ?_, ?_⟩, ?_, ?_, fun var hvar => ?_⟩
  · exact (hperm.nodup_iff.2 List.nodup_range).map Nat.succ_injective
  · intro v hv
    obtain ⟨var, hvar, rfl⟩ := List.mem_map.1 hv
    have hlt := List.mem_range.1 (hperm.mem_iff.1 hvar)
    rw [List.length_map, hlength]
    omega
  · simpa [VariableOrder.length] using hlength
  · simp [Function.comp_def]
  · obtain ⟨i, hi, rfl⟩ := List.mem_iff_getElem.1 (hperm.mem_iff.2 (List.mem_range.2 hvar))
    have hlevel : level vars[i] = i := by
      have hget : (vars.map level)[i]? = some i := by
        rw [hlevels, List.getElem?_range (hlength ▸ hi)]
      simpa [hi] using hget
    simp [hlevel, hi]

end Levels

/-! ### Calls and answers -/

def formatOf : EngineKind → Native.Format
  | .buddy => .buddy
  | .cudd => .cudd

def countCall : EngineKind → Call
  | .buddy => .buddy .varNum
  | .cudd => .cudd .readSize

/-- The call that puts variables on the levels from the top down. -/
def placeCall (kind : EngineKind) (vars : List Nat) : Call :=
  match kind with
  | .buddy => .buddy (.setVarOrder vars)
  | .cudd => .cudd (.shuffleHeap vars)

def levelCall (kind : EngineKind) (var : Nat) : Call :=
  match kind with
  | .buddy => .buddy (.varToLevel var)
  | .cudd => .cudd (.readPerm var)

def writeCalls (kind : EngineKind) (root : NodeRef) (count : Nat) : List Call :=
  match kind with
  | .buddy => [.buddy (.save (Buddy.raw root)), countCall .buddy]
  | .cudd => [.cudd .readOutput, .cudd (.setOutput .capture), countCall .cudd,
      .cudd (.printDebug root.number count 3), .cudd (.setOutput .own)]

/-- The calls in which a diagram of some variables is dumped. -/
def dumpCalls (kind : EngineKind) (root : NodeRef) (count : Nat) : List Call :=
  writeCalls kind root count ++ (List.range count).map (levelCall kind)

/-- Whether a call is answered as by a library that writes a text and reports a number of variables
and their levels. -/
def Shows (text : String) (count : Nat) (level : Nat → Nat) : Call → Answer → Prop
  | .buddy (.save _), answer => 0 ≤ answer.value ∧ answer.content = some (Bytes.ofText text)
  | .buddy .varNum, answer => answer.value = count
  | .buddy (.varToLevel var), answer => answer.value = level var
  | .cudd (.printDebug ..), answer => answer.value = 1 ∧ answer.content = some (Bytes.ofText text)
  | .cudd .readSize, answer => answer.value = count
  | .cudd (.readPerm var), answer => answer.value = level var
  | _, _ => True

variable {σ : Type}

/-- Whether calls that are made one after the other are answered in some way. -/
def Host.Answers (h : Host σ) (fits : Call → Answer → Prop) : List Call → σ → Prop
  | [], _ => True
  | c :: cs, s => fits c (h.perform c s).1 ∧ h.Answers fits cs (h.perform c s).2

section Answers

variable {h : Host σ} {text : String} {count : Nat} {level : Nat → Nat} {p : Session σ}

theorem run_levels (kind : EngineKind) {vars : List Nat}
    (hanswers : h.Answers (Shows text count level) (vars.map (levelCall kind)) p.library) :
    ∃ p', (vars.mapM fun var => do
        return ((← h.answer (levelCall kind var)).value, var) : Action (Session σ) _).run p =
      (.ok (vars.map fun var => ((level var : Int), var)), p') := by
  induction vars generalizing p with
  | nil => exact ⟨p, rfl⟩
  | cons var vars ih =>
    obtain ⟨hfirst, hrest⟩ := hanswers
    have hvalue : (h.perform (levelCall kind var) p.library).1.value = level var := by
      cases kind <;> exact hfirst
    obtain ⟨p', hp'⟩ := ih (p := (h.call (levelCall kind var) p).2) hrest
    refine ⟨p', ?_⟩
    rw [List.mapM_cons, List.map_cons, ← hvalue, bind_assoc]
    exact Action.run_bind_of_ok hp' _

theorem nativeText_ofText (name text : String) :
    nativeText name (some (Bytes.ofText text)) = .ok text := by
  simp [nativeText, Bytes.text?_ofText]

theorem Buddy.run_check {code : Int} (hcode : 0 ≤ code) (p : Session σ) :
    (check h code).run p = (.ok code, p) := by
  rw [check, if_pos hcode]
  rfl

/-- BuDDy dumps its text and the variables sorted by the levels that it reports. -/
theorem Buddy.run_dump {root : NodeRef}
    (hanswers : h.Answers (Shows text count level) (dumpCalls .buddy root count) p.library) :
    ∃ p', (dump h root).run p = (.ok ⟨.buddy, text,
      sortByLevel ((List.range count).map fun var => ((level var : Int), var))⟩, p') := by
  let saved := h.call (.buddy (.save (raw root))) p
  let counted := h.call (.buddy .varNum) saved.2
  have hsave : (answer h (.save (raw root))).run p = (.ok saved.1, saved.2) := rfl
  have hsaved : 0 ≤ saved.1.value ∧ saved.1.content = some (Bytes.ofText text) := hanswers.1
  have hcounted : (ask h .varNum).run saved.2 = (.ok count, counted.2) := by
    rw [← show counted.1.value = count from hanswers.2.1]
    rfl
  obtain ⟨p', hp'⟩ := run_levels (p := counted.2) .buddy hanswers.2.2
  have hlevels : levels h (List.range count) = (List.range count).mapM fun var => do
      return ((← h.answer (levelCall .buddy var)).value, var) := by
    simp [levels, ask, answer, levelCall]
  refine ⟨p', ?_⟩
  rw [dump, Action.run_bind_of_ok hsave, Action.run_bind_of_ok (run_check hsaved.1 _),
    Action.run_bind_of_ok hcounted, Int.toNat_natCast, hlevels, Action.run_bind_of_ok hp', hsaved.2,
    nativeText_ofText]
  rfl

/-- CUDD dumps its text and the variables sorted by the levels that it reports. -/
theorem Cudd.run_dump {root : NodeRef}
    (hanswers : h.Answers (Shows text count level) (dumpCalls .cudd root count) p.library) :
    ∃ p', (dump h root).run p = (.ok ⟨.cudd, text,
      sortByLevel ((List.range count).map fun var => ((level var : Int), var))⟩, p') := by
  let captured := h.effect (.cudd (.setOutput .capture)) (h.effect (.cudd .readOutput) p)
  let counted := h.call (.cudd .readSize) captured
  let printed := h.call (.cudd (.printDebug root.number count 3)) counted.2
  let restored := h.effect (.cudd (.setOutput .own)) printed.2
  obtain ⟨-, -, hcount, hprinted, -, hlevels⟩ := hanswers
  have hcapture : (doing h (.setOutput .capture)).run (h.effect (.cudd .readOutput) p) =
      (.ok (), captured) := rfl
  have hcounted : (ask h .readSize).run captured = (.ok count, counted.2) := by
    rw [← show counted.1.value = count from hcount]
    rfl
  have hprint : (answer h (.printDebug root.number count 3)).run counted.2 =
      (.ok printed.1, printed.2) := rfl
  have hprinted : printed.1.value = 1 ∧ printed.1.content = some (Bytes.ofText text) := hprinted
  have hrestore : (doing h (.setOutput .own)).run printed.2 = (.ok (), restored) := rfl
  obtain ⟨p', hp'⟩ := run_levels (p := restored) .cudd hlevels
  have hlevels : levels h (List.range count) = (List.range count).mapM fun var => do
      return ((← h.answer (levelCall .cudd var)).value, var) := by
    simp [levels, ask, answer, levelCall]
  refine ⟨p', ?_⟩
  rw [dump, Action.run_bind_of_ok (a := doing h .readOutput) rfl, Action.run_bind_of_ok hcapture,
    Action.run_bind_of_ok hcounted, Action.run_bind_of_ok hprint, Action.run_bind_of_ok hrestore,
    if_neg (not_not.2 hprinted.1), Int.toNat_natCast, hlevels, Action.run_bind_of_ok hp',
    hprinted.2, nativeText_ofText]
  rfl

/-- What is dumped is the text and the variables sorted by the levels that the library reports. -/
theorem run_dump (kind : EngineKind) {root : NodeRef}
    (hanswers : h.Answers (Shows text count level) (dumpCalls kind root count) p.library) :
    ∃ p', ((h.engine kind).dump root).run p = (.ok ⟨formatOf kind, text,
      sortByLevel ((List.range count).map fun var => ((level var : Int), var))⟩, p') := by
  cases kind with
  | buddy => exact Buddy.run_dump hanswers
  | cudd => exact Cudd.run_dump hanswers

/-- An order that is set is passed on as its variables, counted from 0, from the top level down. -/
theorem calls_of_setOrder (kind : EngineKind) (bound : Option Duration) {o : VariableOrder}
    {p' : Session σ} (hlength : o.length ≤ maxInt)
    (hset : (Manager.setOrder ⟨h.engine kind, bound⟩ o).run p = (.ok (), p')) :
    p'.calls = placeCall kind (o.toList.map (· - 1)) :: countCall kind :: p.calls := by
  have hvars (number raw : Nat → Nat) (hnumber : ∀ var, number var = var - 1)
      (hraw : ∀ var, raw var = min var maxInt) :
      (o.toList.map number).map raw = o.toList.map (· - 1) := by
    rw [List.map_map]
    refine List.map_congr_left fun var hvar => ?_
    have hle := (o.mem_toList_iff.1 hvar).2
    rw [Function.comp_apply, hnumber, hraw]
    omega
  cases kind with
  | buddy =>
    obtain ⟨declared, counted, hask, hplaced⟩ := Action.exists_of_run_bind hset
    obtain rfl : (h.call (.buddy .varNum) p).2 = counted := (Prod.mk.inj hask).2
    split at hplaced
    · exact absurd (congrArg Prod.fst hplaced) (by simp)
    · rw [hvars (Manager.engineVar ⟨h.engine .buddy, bound⟩) Buddy.rawVar (fun _ => rfl)
        fun _ => rfl] at hplaced
      obtain ⟨-, rfl⟩ := Prod.mk.inj hplaced
      rfl
  | cudd =>
    obtain ⟨size, counted, hask, hplaced⟩ := Action.exists_of_run_bind hset
    obtain rfl : (h.call (.cudd .readSize) p).2 = counted := (Prod.mk.inj hask).2
    split at hplaced
    · exact absurd (congrArg Prod.fst hplaced) (by simp)
    · rw [hvars (Manager.engineVar ⟨h.engine .cudd, bound⟩) Cudd.rawVar (fun _ => rfl)
        fun _ => rfl] at hplaced
      obtain ⟨shuffled, placed, hask', hplaced⟩ := Action.exists_of_run_bind hplaced
      obtain ⟨-, rfl⟩ := Prod.mk.inj hask'
      split at hplaced
      · obtain ⟨-, rfl⟩ := Prod.mk.inj hplaced
        rfl
      · obtain ⟨code, _, -, hfail⟩ := Action.exists_of_run_bind hplaced
        exact absurd (congrArg Prod.fst hfail) (by simp)

/-- A diagram is dumped with the order in which the variables stand on the levels that the library
reports, if it is dumped at all; it is if its text goes down these levels. -/
theorem dump_of_answers (kind : EngineKind) (bound : Option Duration) {root : NodeRef}
    (hcount : count ≤ maxInt) (hlevel : Set.BijOn level (Set.Iio count) (Set.Iio count))
    (hanswers : h.Answers (Shows text count level) (dumpCalls kind root count) p.library) :
    ∃ o : VariableOrder, o.length = count ∧
      (∀ var < count, o.toList[level var]? = some (var + 1)) ∧
      (∀ d p', (Manager.dump ⟨h.engine kind, bound⟩ root).run p = (.ok d, p') →
        d.diagram.order = o) ∧
      ∀ t, (formatOf kind).parse text = .ok t → t.Descends count level →
        ∃ d p', (Manager.dump ⟨h.engine kind, bound⟩ root).run p = (.ok d, p') := by
  obtain ⟨o, rfl, hsorted, hget⟩ := exists_sorted hlevel
  obtain ⟨p', hdump⟩ := run_dump kind hanswers
  have hzero : (Manager.capabilities ⟨h.engine kind, bound⟩).zeroBased = true := by
    cases kind <;> rfl
  rw [hsorted] at hdump
  have hrun : (Manager.dump ⟨h.engine kind, bound⟩ root).run p =
      (Manager.dumpOf ⟨h.engine kind, bound⟩ ⟨formatOf kind, text, o.toList.map (· - 1)⟩, p') :=
    Action.run_bind_of_ok hdump _
  have hlength : o.length < UInt32.size := by
    have hmax : maxInt < UInt32.size := by decide
    omega
  refine ⟨o, rfl, hget, fun d p'' hd => ?_, fun t hparse ht => ?_⟩
  · have horder := Manager.formulaOrder_of_dumpOf (Prod.mk.inj (hrun.symm.trans hd)).1
    exact Except.ok.inj (horder.symm.trans (Manager.formulaOrder_map hzero hlength))
  · have ht' : t.Descends o.length fun var => o.position (var + 1) :=
      ht.congr fun var hvar => o.position_of_getElem? (hget var hvar)
    obtain ⟨d, hd⟩ := Manager.exists_dumpOf hzero hlength hparse ht'
    exact ⟨d, p', hrun.trans (by rw [hd])⟩

end Answers

/-- Let an order be set on a binding without a failure. Then the library was given the variables,
counted from 0, from the top level down; and once it reports those levels, any diagram whose text
goes down under the order is dumped with this order. More generally, if the library reports any
numbering of the variables as their levels, the order of a dump has on each level the variable,
counted from 1, that the library reports there; and a dump is made of every text that goes down
these levels. Variables are counted in machine integers. -/
theorem reported_order_dumped (h : Host σ) (kind : EngineKind) (bound : Option Duration) {n : Nat}
    (hn : n ≤ maxInt) :
    let m : Manager (Session σ) := ⟨h.engine kind, bound⟩
    (∀ (o : VariableOrder) (p p' : Session σ), o.length = n →
      (m.setOrder o).run p = (.ok (), p') →
      let vars := o.toList.map (· - 1)
      p'.calls = placeCall kind vars :: countCall kind :: p.calls ∧
        ∀ (later : Session σ) (root : NodeRef) (text : String) (t : Native.Table),
          h.Answers (Shows text n vars.idxOf) (dumpCalls kind root n) later.library →
          (formatOf kind).parse text = .ok t → (t.Descends n fun var => o.position (var + 1)) →
          ∃ d later', (m.dump root).run later = (.ok d, later') ∧ d.diagram.order = o) ∧
    ∀ (level : Nat → Nat) (p : Session σ) (root : NodeRef) (text : String),
      Set.BijOn level (Set.Iio n) (Set.Iio n) →
      h.Answers (Shows text n level) (dumpCalls kind root n) p.library →
      ∃ o : VariableOrder, o.length = n ∧ (∀ var < n, o.toList[level var]? = some (var + 1)) ∧
        (∀ d p', (m.dump root).run p = (.ok d, p') → d.diagram.order = o) ∧
        ∀ t, (formatOf kind).parse text = .ok t → t.Descends n level →
          ∃ d p', (m.dump root).run p = (.ok d, p') := by
  refine ⟨fun o p p' hlength hset => ⟨calls_of_setOrder kind bound (hlength ▸ hn) hset, ?_⟩,
    fun level p root text hlevel hanswers => dump_of_answers kind bound hn hlevel hanswers⟩
  intro later root text t hanswers hparse ht
  subst hlength
  have hlevel : Set.BijOn (o.toList.map (· - 1)).idxOf (Set.Iio o.length) (Set.Iio o.length) :=
    o.bijOn_position.congr fun var hvar => (o.idxOf_map_pred hvar).symm
  obtain ⟨o', hlength', hget, horder, hdump⟩ := dump_of_answers kind bound hn hlevel hanswers
  obtain rfl : o' = o := VariableOrder.eq_of_position hlength' fun var hvar =>
    o.idxOf_map_pred hvar ▸ hget var hvar
  obtain ⟨d, later', hd⟩ := hdump t hparse (ht.congr fun var hvar => o'.idxOf_map_pred hvar)
  exact ⟨d, later', hd, horder d later' hd⟩

namespace Rotated

def order : VariableOrder := (VariableOrder.identity 3).reorder [2, 3, 1] (by decide)

/-- The conjunction of the first two variables, of which the second one is on top. -/
def text : EngineKind → String
  | .buddy => "2 3\n2 0 1\n2 0 0 1\n3 1 0 2\n"
  | .cudd => ": 3 nodes 1 leaves 2 minterms\nID =  0x30\tindex = 1\tT =  0x20\tE = !1\n" ++
      "ID =  0x20\tindex = 0\tT =  1\tE = !1\n"

def table : EngineKind → Native.Table
  | .buddy =>
    ⟨⟨false, .node 3⟩, .ofList [(2, ⟨0, ⟨false, .terminal false⟩, ⟨false, .terminal true⟩⟩),
      (3, ⟨1, ⟨false, .terminal false⟩, ⟨false, .node 2⟩⟩)]⟩
  | .cudd =>
    ⟨⟨false, .node 48⟩, .ofList [(32, ⟨0, ⟨true, .terminal true⟩, ⟨false, .terminal true⟩⟩),
      (48, ⟨1, ⟨true, .terminal true⟩, ⟨false, .node 32⟩⟩)]⟩

theorem parse_text (kind : EngineKind) : (formatOf kind).parse (text kind) = .ok (table kind) := by
  cases kind <;> decide +kernel

theorem descends_table (kind : EngineKind) :
    (table kind).Descends 3 fun var => order.position (var + 1) := by
  cases kind with
  | buddy =>
    refine .of_entries 3 (by simp [table]) (by decide) fun e he => ?_
    rcases List.mem_pair.1 he with rfl | rfl <;>
      refine ⟨by decide, fun id hid => ?_⟩ <;> rcases hid with hid | hid <;> cases hid
    exact ⟨_, rfl, by decide⟩
  | cudd =>
    refine .of_entries 48 (by simp [table]) (by decide) fun e he => ?_
    rcases List.mem_pair.1 he with rfl | rfl <;>
      refine ⟨by decide, fun id hid => ?_⟩ <;> rcases hid with hid | hid <;> cases hid
    exact ⟨_, rfl, by decide⟩

def host : Host Recorder.State := Recorder.host fun _ => none

/-- A session in which the variables are on some levels and a text is to be dumped. -/
def sessionWith (vars : List Nat) (text : String) : Session Recorder.State :=
  .fresh { Recorder.fresh [] (Bytes.ofText text) with order := vars }

theorem exists_set (kind : EngineKind) :
    ∃ p, (Manager.setOrder ⟨host.engine kind, none⟩ order).run (sessionWith [0, 1, 2] (text kind)) =
        (.ok (), p) ∧
      host.Answers (Shows (text kind) 3 (order.toList.map (· - 1)).idxOf) (dumpCalls kind ⟨3⟩ 3)
        p.library := by
  cases kind with
  | buddy => exact ⟨_, rfl, ⟨by decide, rfl⟩, rfl, rfl, rfl, rfl, trivial⟩
  | cudd => exact ⟨_, rfl, trivial, trivial, rfl, ⟨rfl, rfl⟩, trivial, rfl, rfl, rfl, trivial⟩

def inverse : VariableOrder := (VariableOrder.identity 3).reorder [3, 1, 2] (by decide)

/-- The rotated order comes back, and not its inverse; and levels that were never set are found to
be those of the inverse, also for a diagram that is a constant. -/
theorem rotated_order_dumped :
    3 ≤ maxInt ∧
      (∃ p d p', (Manager.setOrder ⟨host.engine .buddy, none⟩ order).run
            (sessionWith [0, 1, 2] (text .buddy)) = (.ok (), p) ∧
          (Manager.dump ⟨host.engine .buddy, none⟩ ⟨3⟩).run p = (.ok d, p') ∧
          d.diagram.order = order) ∧
      (∃ p d p', (Manager.setOrder ⟨host.engine .cudd, none⟩ order).run
            (sessionWith [0, 1, 2] (text .cudd)) = (.ok (), p) ∧
          (Manager.dump ⟨host.engine .cudd, none⟩ ⟨3⟩).run p = (.ok d, p') ∧
          d.diagram.order = order) ∧
      ∃ d p', (Manager.dump ⟨host.engine .buddy, none⟩ ⟨1⟩).run
          (sessionWith [2, 0, 1] "0 0 1\n") = (.ok d, p') ∧ d.diagram.order = inverse := by
  have hset (kind : EngineKind) : ∃ p d p',
      (Manager.setOrder ⟨host.engine kind, none⟩ order).run (sessionWith [0, 1, 2] (text kind)) =
          (.ok (), p) ∧
        (Manager.dump ⟨host.engine kind, none⟩ ⟨3⟩).run p = (.ok d, p') ∧
        d.diagram.order = order := by
    obtain ⟨p, hset, hanswers⟩ := exists_set kind
    obtain ⟨d, p', hd, horder⟩ :=
      ((reported_order_dumped host kind none (n := 3) (by decide)).1 order _ p rfl hset).2 p ⟨3⟩ _ _
        hanswers (parse_text kind) (descends_table kind)
    exact ⟨p, d, p', hset, hd, horder⟩
  have hanswers : host.Answers (Shows "0 0 1\n" 3 fun var => inverse.position (var + 1))
      (dumpCalls .buddy ⟨1⟩ 3) (sessionWith [2, 0, 1] "0 0 1\n").library :=
    ⟨⟨by decide, rfl⟩, rfl, rfl, rfl, rfl, trivial⟩
  have hconstant : (⟨⟨false, .terminal true⟩, .empty⟩ : Native.Table).Descends 3
      fun var => inverse.position (var + 1) := by
    refine ⟨fun id hid => ?_, fun hid => ?_, fun hid => ?_⟩ <;>
      exact absurd hid.choose_spec.1 (by simp)
  obtain ⟨o, hlength, hget, horder, hdump⟩ :=
    (reported_order_dumped host .buddy none (n := 3) (by decide)).2 _ _ _ _ inverse.bijOn_position
      hanswers
  obtain ⟨d, p', hd⟩ := hdump _ (by decide) hconstant
  have heq : o = inverse := VariableOrder.eq_of_position hlength hget
  exact ⟨by decide, hset .buddy, hset .cudd, d, p', hd, (horder d p' hd).trans heq⟩

end Rotated

end Library
end DiagramCompiler
