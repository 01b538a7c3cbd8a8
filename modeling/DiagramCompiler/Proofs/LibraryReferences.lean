import DiagramCompiler.Library.Binding
import DiagramCompiler.Proofs.HeldReferences

/-! References to nodes of native libraries.
A library may reuse a node that nothing refers to, so that a binding has to take a reference to each
node that it goes on using, and to give it back once. Whatever the libraries answer, what was taken
and not given back is what handles refer to, at no time has more been given back than taken, and no
library is given a node without a reference to work on. -/
namespace DiagramCompiler
namespace Library

def Call.taken? : Call → Option Nat
  | .buddy (.addRef node) => some node
  | .cudd (.ref node) => some node
  | _ => none

def Call.returned? : Call → Option Nat
  | .buddy (.delRef node) => some node
  | .cudd (.recursiveDeref node) => some node
  | _ => none

/-- The nodes that a call combines, negates or writes. -/
def Call.operands : Call → List Nat
  | .buddy (.and lhs rhs) => [lhs, rhs]
  | .buddy (.or lhs rhs) => [lhs, rhs]
  | .buddy (.xor lhs rhs) => [lhs, rhs]
  | .buddy (.not node) => [node]
  | .buddy (.save node) => [node]
  | .cudd (.and lhs rhs) => [lhs, rhs]
  | .cudd (.or lhs rhs) => [lhs, rhs]
  | .cudd (.xor lhs rhs) => [lhs, rhs]
  | .cudd (.printDebug node _ _) => [node]
  | _ => []

/-- How many references to a node some calls took and did not give back. -/
def balance (calls : List Call) (node : Nat) : Int :=
  (calls.map Call.taken?).count (some node) - (calls.map Call.returned?).count (some node)

@[simp] theorem balance_nil (node : Nat) : balance [] node = 0 := rfl

theorem balance_cons (c : Call) (calls : List Call) (node : Nat) :
    balance (c :: calls) node = balance calls node + (if c.taken? = some node then 1 else 0) -
      (if c.returned? = some node then 1 else 0) := by
  simp only [balance, List.map_cons, List.count_cons, beq_iff_eq]
  split <;> split <;> push_cast <;> omega

/-- Whether calls, the last first, leave some references taken, never gave back what was not taken,
and were only given nodes with references. -/
structure Orderly (calls : List Call) (refs : Multiset NodeRef) : Prop where
  balance_eq (node : Nat) : balance calls node = refs.count ⟨node⟩
  nonneg {earlier : List Call} (h : earlier <:+ calls) (node : Nat) : 0 ≤ balance earlier node
  operands {c : Call} {earlier : List Call} (h : c :: earlier <:+ calls) {node : Nat}
    (hnode : node ∈ c.operands) : 0 < balance earlier node

namespace Orderly

variable {calls : List Call} {refs refs' : Multiset NodeRef} {c : Call}

theorem nil : Orderly [] 0 where
  balance_eq _ := rfl
  nonneg h node := by rw [List.suffix_nil.1 h, balance_nil]
  operands h := absurd (List.suffix_nil.1 h) (by simp)

theorem pos (h : Orderly calls refs) {node : Nat} (hnode : ⟨node⟩ ∈ refs) :
    0 < balance calls node := by
  have hcount := h.balance_eq node
  have hpos := Multiset.count_pos.2 hnode
  omega

theorem cons (h : Orderly calls refs) (hoperands : ∀ node ∈ c.operands, ⟨node⟩ ∈ refs)
    (hbalance : ∀ node, balance (c :: calls) node = refs'.count ⟨node⟩) :
    Orderly (c :: calls) refs' where
  balance_eq := hbalance
  nonneg {earlier} hearlier node := by
    rcases List.suffix_cons_iff.1 hearlier with rfl | hearlier
    · have hnode := hbalance node
      omega
    · exact h.nonneg hearlier node
  operands {c' earlier} hearlier {node} hnode := by
    rcases List.suffix_cons_iff.1 hearlier with heq | hearlier
    · obtain ⟨rfl, rfl⟩ := List.cons.inj heq
      exact h.pos (hoperands node hnode)
    · exact h.operands hearlier hnode

theorem other (h : Orderly calls refs) (htaken : c.taken? = none) (hreturned : c.returned? = none)
    (hoperands : ∀ node ∈ c.operands, ⟨node⟩ ∈ refs) : Orderly (c :: calls) refs :=
  h.cons hoperands fun node => by simp [balance_cons, htaken, hreturned, h.balance_eq]

theorem take (h : Orderly calls refs) {node : Nat} (htaken : c.taken? = some node)
    (hreturned : c.returned? = none) (hoperands : c.operands = []) :
    Orderly (c :: calls) (⟨node⟩ ::ₘ refs) := by
  refine h.cons (by simp [hoperands]) fun other => ?_
  rw [balance_cons, htaken, hreturned, h.balance_eq, Multiset.count_cons]
  by_cases hother : node = other <;> simp [hother, eq_comm]

theorem giveBack {node : Nat} (h : Orderly calls (⟨node⟩ ::ₘ refs)) (htaken : c.taken? = none)
    (hreturned : c.returned? = some node) (hoperands : c.operands = []) :
    Orderly (c :: calls) refs := by
  refine h.cons (by simp [hoperands]) fun other => ?_
  rw [balance_cons, htaken, hreturned, h.balance_eq, Multiset.count_cons]
  by_cases hother : node = other <;> simp [hother, eq_comm]

end Orderly

variable {σ : Type} {h : Host σ} {p : Session σ} {refs : Multiset NodeRef}

/-- Whether the calls of a session leave some references taken, to nodes that fit a library. -/
def Session.Leaves (fits : Nat → Prop) (p : Session σ) (refs : Multiset NodeRef) : Prop :=
  Orderly p.calls refs ∧ ∀ node ∈ refs, fits node.number

namespace Session.Leaves

variable {fits : Nat → Prop} {c : Call}

theorem of_orderly (hp : Orderly p.calls 0) : p.Leaves fits 0 :=
  ⟨hp, fun _ hnode => absurd hnode (Multiset.notMem_zero _)⟩

theorem other (hp : p.Leaves fits refs) (htaken : c.taken? = none) (hreturned : c.returned? = none)
    (hoperands : ∀ node ∈ c.operands, ⟨node⟩ ∈ refs) : (h.effect c p).Leaves fits refs :=
  ⟨hp.1.other htaken hreturned hoperands, hp.2⟩

theorem take (hp : p.Leaves fits refs) {node : Nat} (hfits : fits node)
    (htaken : c.taken? = some node) (hreturned : c.returned? = none) (hoperands : c.operands = []) :
    (h.effect c p).Leaves fits (⟨node⟩ ::ₘ refs) := by
  refine ⟨hp.1.take htaken hreturned hoperands, fun other hother => ?_⟩
  rcases Multiset.mem_cons.1 hother with rfl | hother
  · exact hfits
  · exact hp.2 other hother

theorem giveBack {node : Nat} (hp : p.Leaves fits (⟨node⟩ ::ₘ refs)) (htaken : c.taken? = none)
    (hreturned : c.returned? = some node) (hoperands : c.operands = []) :
    (h.effect c p).Leaves fits refs :=
  ⟨hp.1.giveBack htaken hreturned hoperands,
    fun other hother => hp.2 other (Multiset.mem_cons_of_mem hother)⟩

/-- A call on nodes that are held, which leaves taken what was. -/
theorem answer (hp : p.Leaves fits refs) (htaken : c.taken? = none)
    (hreturned : c.returned? = none) (hoperands : ∀ node ∈ c.operands, ⟨node⟩ ∈ refs) :
    (h.answer c).Ends p (Leaves fits · refs) fun answer p' =>
      p'.Leaves fits refs ∧ ∃ library, answer = (h.perform c library).1 :=
  .of_ok rfl ⟨hp.other htaken hreturned hoperands, p.library, rfl⟩

theorem doing (hp : p.Leaves fits refs) (htaken : c.taken? = none) (hreturned : c.returned? = none)
    (hoperands : ∀ node ∈ c.operands, ⟨node⟩ ∈ refs) : (h.doing c).Keeps (Leaves fits) p refs :=
  .of_ok rfl (hp.other htaken hreturned hoperands)

end Session.Leaves

/-! ### BuDDy -/

namespace Buddy

def AnswersInts (h : Host σ) : Prop :=
  ∀ c library, (h.perform (.buddy c) library).1.value ≤ maxInt

/-- What the calls of a session leave taken, by nodes that are machine integers. -/
abbrev Leaves : Session σ → Multiset NodeRef → Prop := Session.Leaves (· ≤ maxInt)

theorem raw_of_mem (hp : Leaves p refs) {node : NodeRef} (hnode : node ∈ refs) :
    raw node = node.number :=
  Nat.min_eq_left (hp.2 node hnode)

theorem ends_ask (hints : AnswersInts h) (hp : Leaves p refs) {c : BuddyCall}
    (htaken : (Call.buddy c).taken? = none) (hreturned : (Call.buddy c).returned? = none)
    (hoperands : ∀ node ∈ (Call.buddy c).operands, ⟨node⟩ ∈ refs) :
    (ask h c).Ends p (Leaves · refs) fun value p' => Leaves p' refs ∧ value ≤ maxInt := by
  refine .bind (hp.answer htaken hreturned hoperands) fun answer p' hp' => .pure ?_
  obtain ⟨hp', library, rfl⟩ := hp'
  exact ⟨hp', hints c library⟩

theorem ends_check (hp : Leaves p refs) (code : Int) :
    (check h code).Ends p (Leaves · refs) fun value p' =>
      Leaves p' refs ∧ value = code ∧ 0 ≤ code := by
  rw [check]
  split
  · next hcode => exact .pure ⟨hp, rfl, hcode⟩
  · refine .bind (hp.answer rfl rfl (by simp [Call.operands])) fun answer p' hp' => ?_
    cases answer.content with
    | some message => exact .of_error (Action.run_fail _ p') hp'.1
    | none => exact .of_error (Action.run_fail _ p') hp'.1

theorem ends_checked (hints : AnswersInts h) (hp : Leaves p refs) {c : BuddyCall}
    (htaken : (Call.buddy c).taken? = none) (hreturned : (Call.buddy c).returned? = none)
    (hoperands : ∀ node ∈ (Call.buddy c).operands, ⟨node⟩ ∈ refs) :
    (checked h c).Ends p (Leaves · refs) fun value p' =>
      Leaves p' refs ∧ 0 ≤ value ∧ value ≤ maxInt := by
  refine .bind (ends_ask hints hp htaken hreturned hoperands) fun code p' hp' => ?_
  refine (ends_check hp'.1 code).mono (fun _ => id) fun value p'' hvalue => ?_
  obtain ⟨hp'', rfl, hcode⟩ := hvalue
  exact ⟨hp'', hcode, hp'.2⟩

theorem keeps_checked (hints : AnswersInts h) (hp : Leaves p refs) {c : BuddyCall}
    (htaken : (Call.buddy c).taken? = none) (hreturned : (Call.buddy c).returned? = none)
    (hoperands : ∀ node ∈ (Call.buddy c).operands, ⟨node⟩ ∈ refs) :
    (do let _ ← checked h c : Action (Session σ) Unit).Keeps Leaves p refs :=
  .bind (ends_checked hints hp htaken hreturned hoperands) fun _ _ hp' => .pure hp'.1

/-- A node that is no failure is referred to once before it is handed out. -/
theorem hands_referenced (hints : AnswersInts h) (hp : Leaves p refs) {c : BuddyCall}
    (htaken : (Call.buddy c).taken? = none) (hreturned : (Call.buddy c).returned? = none)
    (hoperands : ∀ node ∈ (Call.buddy c).operands, ⟨node⟩ ∈ refs) :
    (referenced h c).Hands Leaves p refs := by
  refine .bind (ends_checked hints hp htaken hreturned hoperands) fun node p' hnode => ?_
  obtain ⟨hp', hnonneg, hle⟩ := hnode
  have htake : Leaves (h.effect (.buddy (.addRef node.toNat)) p') (⟨node.toNat⟩ ::ₘ refs) :=
    hp'.take (by omega) rfl rfl rfl
  exact .bind (.of_ok rfl htake) fun _ _ htake => .pure htake

theorem hands_apply (hints : AnswersInts h) (hp : Leaves p refs) (op : BinaryOp)
    {lhs rhs : NodeRef} (hlhs : lhs ∈ refs) (hrhs : rhs ∈ refs) :
    (apply h op lhs rhs).Hands Leaves p refs := by
  have hlhs' := raw_of_mem hp hlhs
  have hrhs' := raw_of_mem hp hrhs
  cases op <;>
    exact hands_referenced hints hp rfl rfl (by simp [Call.operands, hlhs', hrhs', hlhs, hrhs])

theorem keeps_declare (hints : AnswersInts h) (hp : Leaves p refs) (count : Nat) :
    (declare h count).Keeps Leaves p refs := by
  rw [declare]
  split
  · exact .of_error (Action.run_fail _ p) hp
  · exact keeps_checked hints hp rfl rfl (by simp [Call.operands])

theorem keeps_setOrder (hints : AnswersInts h) (hp : Leaves p refs) (order : List Nat) :
    (setOrder h order).Keeps Leaves p refs := by
  refine .bind (ends_ask hints hp rfl rfl (by simp [Call.operands])) fun declared p' hp' => ?_
  split
  · exact .of_error (Action.run_fail _ p') hp'.1
  · exact hp'.1.doing rfl rfl (by simp [Call.operands])

theorem keeps_levels (hints : AnswersInts h) (hp : Leaves p refs) (vars : List Nat) :
    (levels h vars).Keeps Leaves p refs := by
  refine Action.Ends.mapM ?_ (fun var hp => ?_) vars
  · exact hp
  · exact .bind (ends_ask hints hp rfl rfl (by simp [Call.operands])) fun _ _ hp' => .pure hp'.1

theorem keeps_dump (hints : AnswersInts h) (hp : Leaves p refs) {root : NodeRef}
    (hroot : root ∈ refs) : (dump h root).Keeps Leaves p refs := by
  have hsave : ∀ node ∈ (Call.buddy (.save (raw root))).operands, ⟨node⟩ ∈ refs := by
    simpa [Call.operands, raw_of_mem hp hroot] using hroot
  refine .bind (hp.answer rfl rfl hsave) fun saved p' hp' => ?_
  refine .bind (ends_check hp'.1 _) fun _ p' hp' => ?_
  refine .bind (ends_ask hints hp'.1 rfl rfl (by simp [Call.operands])) fun count p' hp' => ?_
  refine .bind (keeps_levels hints hp'.1 _) fun _ p' hp' => ?_
  exact .bind (Action.keeps_ofExcept hp' _) fun _ _ hp' => .pure hp'

def custody (hints : AnswersInts h) : (engine h).Custody where
  holds := Leaves
  zero hp := hands_referenced hints hp rfl rfl (by simp [Call.operands])
  one hp := hands_referenced hints hp rfl rfl (by simp [Call.operands])
  var hp _ := hands_referenced hints hp rfl rfl (by simp [Call.operands])
  negatedVar hp _ := hands_referenced hints hp rfl rfl (by simp [Call.operands])
  negate hp _ hnode :=
    hands_referenced hints hp rfl rfl (by simpa [Call.operands, raw_of_mem hp hnode] using hnode)
  apply hp op _ _ hlhs hrhs _ := hands_apply hints hp op hlhs hrhs
  release {p refs node} hp := by
    have hraw := raw_of_mem hp (Multiset.mem_cons_self node refs)
    exact hp.giveBack rfl (congrArg some hraw) rfl
  declare hp count := keeps_declare hints hp count
  setOrder hp order _ := keeps_setOrder hints hp order
  enableReordering hp _ := .bind (hp.doing rfl rfl (by simp [Call.operands])) fun _ _ hp' =>
    keeps_checked hints hp' rfl rfl (by simp [Call.operands])
  disableReordering hp := keeps_checked hints hp rfl rfl (by simp [Call.operands])
  dump hp _ hnode := keeps_dump hints hp hnode

end Buddy

/-! ### CUDD -/

namespace Cudd

/-- What the calls of a session leave taken, by addresses of any kind. -/
abbrev Leaves : Session σ → Multiset NodeRef → Prop := Session.Leaves fun _ => True

theorem keeps_ask (hp : Leaves p refs) {c : CuddCall} (htaken : (Call.cudd c).taken? = none)
    (hreturned : (Call.cudd c).returned? = none)
    (hoperands : ∀ node ∈ (Call.cudd c).operands, ⟨node⟩ ∈ refs) :
    (ask h c).Keeps Leaves p refs :=
  .bind (hp.answer htaken hreturned hoperands) fun _ _ hp' => .pure hp'.1

theorem ends_failing {α : Type} {gives : α → Session σ → Prop} (hp : Leaves p refs)
    (what : String) : (failing h what : Action (Session σ) α).Ends p (Leaves · refs) gives :=
  .bind (keeps_ask hp rfl rfl (by simp [Call.operands])) fun _ p' hp' =>
    .of_error (Action.run_fail _ p') hp'

/-- A node that is no failure is referred to once before it is handed out. -/
theorem hands_referenced (hp : Leaves p refs) (node : Int) (what : String) :
    (referenced h node what).Hands Leaves p refs := by
  rw [referenced]
  split
  · exact ends_failing hp what
  · have htake : Leaves (h.effect (.cudd (.ref node.toNat)) p) (⟨node.toNat⟩ ::ₘ refs) :=
      hp.take trivial rfl rfl rfl
    exact .bind (.of_ok rfl htake) fun _ _ htake => .pure htake

theorem hands_making (hp : Leaves p refs) {c : CuddCall} (htaken : (Call.cudd c).taken? = none)
    (hreturned : (Call.cudd c).returned? = none) (hoperands : (Call.cudd c).operands = []) :
    (making h c).Hands Leaves p refs :=
  .bind (keeps_ask hp htaken hreturned (by simp [hoperands])) fun node _ hp' =>
    hands_referenced hp' node _

theorem keeps_limited (hp : Leaves p refs) (limit : Option Duration) {c : CuddCall}
    (htaken : (Call.cudd c).taken? = none) (hreturned : (Call.cudd c).returned? = none)
    (hoperands : ∀ node ∈ (Call.cudd c).operands, ⟨node⟩ ∈ refs) :
    (limited h limit c).Keeps Leaves p refs := by
  cases limit with
  | none => exact keeps_ask hp htaken hreturned hoperands
  | some limit =>
    refine .bind (hp.doing rfl rfl (by simp [Call.operands])) fun _ p' hp' => ?_
    refine .bind (hp'.doing rfl rfl (by simp [Call.operands])) fun _ p' hp' => ?_
    refine .bind (keeps_ask hp' htaken hreturned hoperands) fun node p' hp' => ?_
    exact .bind (hp'.doing rfl rfl (by simp [Call.operands])) fun _ _ hp' => .pure hp'

theorem hands_apply (hp : Leaves p refs) (op : BinaryOp) {lhs rhs : NodeRef} (hlhs : lhs ∈ refs)
    (hrhs : rhs ∈ refs) (limit : Option Duration) :
    (apply h op lhs rhs limit).Hands Leaves p refs := by
  have htaken : (Call.cudd (applyCall op lhs rhs)).taken? = none := by cases op <;> rfl
  have hreturned : (Call.cudd (applyCall op lhs rhs)).returned? = none := by cases op <;> rfl
  have hoperands : ∀ node ∈ (Call.cudd (applyCall op lhs rhs)).operands, ⟨node⟩ ∈ refs := by
    cases op <;> simp [applyCall, Call.operands, hlhs, hrhs]
  refine .reading_bind (.bind (keeps_limited hp limit htaken hreturned hoperands)
    fun node p' hp' => ?_)
  split
  · exact hands_referenced hp' node _
  · refine .bind (keeps_ask hp' rfl rfl (by simp [Call.operands])) fun code p' hp' => ?_
    split
    · refine .bind (hp'.doing rfl rfl (by simp [Call.operands])) fun _ p' hp' => ?_
      exact .reading_bind (.of_error (Action.run_fail _ p') hp')
    · exact hands_referenced hp' node _

theorem keeps_declareUpTo (hp : Leaves p refs) (count fuel : Nat) :
    (declareUpTo h count fuel).Keeps Leaves p refs := by
  induction fuel generalizing p with
  | zero => exact .of_error (Action.run_fail _ p) hp
  | succ fuel ih =>
    refine .bind (keeps_ask hp rfl rfl (by simp [Call.operands])) fun size p' hp' => ?_
    split
    · exact .pure hp'
    · refine .bind (keeps_ask hp' rfl rfl (by simp [Call.operands])) fun node p' hp' => ?_
      split
      · exact ends_failing hp' _
      · exact ih hp'

theorem keeps_setOrder (hp : Leaves p refs) (order : List Nat) :
    (setOrder h order).Keeps Leaves p refs := by
  refine .bind (keeps_ask hp rfl rfl (by simp [Call.operands])) fun size p' hp' => ?_
  split
  · exact .of_error (Action.run_fail _ p') hp'
  · refine .bind (keeps_ask hp' rfl rfl (by simp [Call.operands])) fun shuffled p' hp' => ?_
    split
    · exact .pure hp'
    · exact ends_failing hp' _

theorem keeps_levels (hp : Leaves p refs) (vars : List Nat) :
    (levels h vars).Keeps Leaves p refs := by
  refine Action.Ends.mapM ?_ (fun var hp => ?_) vars
  · exact hp
  · exact .bind (keeps_ask hp rfl rfl (by simp [Call.operands])) fun _ _ hp' => .pure hp'

theorem keeps_dump (hp : Leaves p refs) {root : NodeRef} (hroot : root ∈ refs) :
    (dump h root).Keeps Leaves p refs := by
  refine .bind (hp.doing rfl rfl (by simp [Call.operands])) fun _ p' hp' => ?_
  refine .bind (hp'.doing rfl rfl (by simp [Call.operands])) fun _ p' hp' => ?_
  refine .bind (keeps_ask hp' rfl rfl (by simp [Call.operands])) fun size p' hp' => ?_
  refine .bind (hp'.answer rfl rfl (by simp [Call.operands, hroot])) fun printed p' hp' => ?_
  refine .bind (hp'.1.doing rfl rfl (by simp [Call.operands])) fun _ p' hp' => ?_
  split
  · exact ends_failing hp' _
  · refine .bind (keeps_levels hp' _) fun _ p' hp' => ?_
    exact .bind (Action.keeps_ofExcept hp' _) fun _ _ hp' => .pure hp'

def custody (h : Host σ) : (engine h).Custody where
  holds := Leaves
  zero hp := hands_making hp rfl rfl rfl
  one hp := hands_making hp rfl rfl rfl
  var hp _ := hands_making hp rfl rfl rfl
  negatedVar hp _ := hands_negateConsuming (hands_making hp rfl rfl rfl)
    (fun hp _ => hands_referenced hp _ _) fun hp => hp.giveBack rfl rfl rfl
  negate hp _ _ := hands_referenced hp _ _
  apply hp op _ _ hlhs hrhs limit := hands_apply hp op hlhs hrhs limit
  release hp := hp.giveBack rfl rfl rfl
  declare hp count := keeps_declareUpTo hp count _
  setOrder hp order _ := keeps_setOrder hp order
  enableReordering hp _ := hp.doing rfl rfl (by simp [Call.operands])
  disableReordering hp := hp.doing rfl rfl (by simp [Call.operands])
  dump hp _ hnode := keeps_dump hp hnode

end Cudd

/-! ### Bindings -/

variable {directory : Option Path}

theorem Buddy.keeps_start (hints : AnswersInts h) (hp : Leaves p refs) :
    (start h).Keeps Leaves p refs := by
  refine .bind (hp.doing rfl rfl (by simp [Call.operands])) fun _ p' hp' => ?_
  have hinit : (checked h (.init 100000 100000)).Ends p' (Leaves · refs) fun value p' =>
      Leaves p' refs ∧ 0 ≤ value ∧ value ≤ maxInt :=
    ends_checked hints hp' rfl rfl (by simp [Call.operands])
  refine .bind (.mono (.attempt hinit) (fun _ => False.elim) fun _ _ => id) ?_
  rintro answer p' (⟨failure, rfl, hp'⟩ | ⟨value, rfl, hp', -⟩)
  · have hclosed : Leaves (h.effect (.buddy .done) p') refs :=
      hp'.other rfl rfl (by simp [Call.operands])
    exact .ensuring (.of_error (Action.run_fail failure p') hclosed)
  · refine .bind (hp'.doing rfl rfl (by simp [Call.operands])) fun _ p' hp' => ?_
    refine .bind (hp'.doing rfl rfl (by simp [Call.operands])) fun _ p' hp' => ?_
    exact hp'.doing rfl rfl (by simp [Call.operands])

/-- Launching BuDDy takes no references, also if that fails. -/
theorem Buddy.keeps_launch (hints : AnswersInts h) (hp : Leaves p refs) :
    (launch h directory).Keeps Leaves p refs := by
  refine .bind (Action.keeps_ofExcept hp _) fun _ p' hp' => .reading_bind ?_
  split
  · exact .of_error (Action.run_fail _ p') hp'
  · have hopening : (Action.change fun p : Session σ => { p with buddyOpen := true }).Keeps
        Leaves p' refs := .of_ok rfl hp'
    exact .bind hopening fun _ _ hp' => keeps_start hints hp'

theorem Cudd.keeps_launch (hp : Leaves p refs) : (launch h directory).Keeps Leaves p refs := by
  refine .bind (Action.keeps_ofExcept hp _) fun _ p' hp' => ?_
  refine .bind (keeps_ask hp' rfl rfl (by simp [Call.operands])) fun manager p' hp' => ?_
  split
  · exact .of_error (Action.run_fail _ p') hp'
  · exact .pure hp'

theorem Host.launched (hints : Buddy.AnswersInts h) (kind : EngineKind) (bound : Option Duration)
    (library : σ) {m : Manager (Session σ)}
    (hopen : (h.manager kind directory bound).run (.fresh library) = (.ok m, p)) :
    m = ⟨h.engine kind, bound⟩ ∧ Orderly p.calls 0 := by
  have hfresh : Orderly (Session.fresh library).calls 0 := .nil
  cases kind with
  | buddy =>
    obtain ⟨_, _, hlaunch, hm⟩ := Action.exists_of_run_bind hopen
    obtain ⟨rfl, rfl⟩ : _ = m ∧ _ = p := by simpa using hm
    exact ⟨rfl, ((Buddy.keeps_launch hints (.of_orderly hfresh)).ok hlaunch).1⟩
  | cudd =>
    obtain ⟨_, _, hlaunch, hm⟩ := Action.exists_of_run_bind hopen
    obtain ⟨rfl, rfl⟩ : _ = m ∧ _ = p := by simpa using hm
    exact ⟨rfl, ((Cudd.keeps_launch (.of_orderly hfresh)).ok hlaunch).1⟩

/-- The references that the calls of a binding leave taken are those that are held. -/
theorem Host.accounts (hints : Buddy.AnswersInts h) (kind : EngineKind) (bound : Option Duration)
    (hp : Orderly p.calls 0) :
    Manager.Accounts ⟨h.engine kind, bound⟩ p fun p refs => Orderly p.calls refs := by
  have hbuddy : Buddy.Leaves p 0 := .of_orderly hp
  have hcudd : Cudd.Leaves p 0 := .of_orderly hp
  cases kind with
  | buddy =>
    exact (Manager.accounts ⟨Buddy.engine h, bound⟩ (Buddy.custody hints) hbuddy).mono
      fun _ _ hp => hp.1
  | cudd =>
    exact (Manager.accounts ⟨Cudd.engine h, bound⟩ (Cudd.custody h) hcudd).mono
      fun _ _ hp => hp.1

/-- Let a binding be launched and any tasks be done with its manager, beginning without handles, and
then a formula be compiled, whatever the libraries answer and however long each call takes, so that
some operations are timely and others late. For every node, the references taken to it and not given
back are the handles on it. By any of the calls so far, no more references to a node had been given
back than taken; and every node that a call combined, negated or wrote had a reference at that
call. -/
theorem calls_match_handles (h : Host σ)
    (hints : ∀ c library, (h.perform (.buddy c) library).1.value ≤ maxInt) (kind : EngineKind)
    (directory : Option Path) (bound : Option Duration) (library : σ) {m : Manager (Session σ)}
    {p : Session σ} (hopen : (h.manager kind directory bound).run (.fresh library) = (.ok m, p)) :
    m.Accounts p fun p refs =>
      (∀ node, balance p.calls node = refs.count ⟨node⟩) ∧
      (∀ earlier, earlier <:+ p.calls → ∀ node, 0 ≤ balance earlier node) ∧
      ∀ c earlier, c :: earlier <:+ p.calls → ∀ node ∈ c.operands, 0 < balance earlier node := by
  obtain ⟨rfl, hp⟩ := Host.launched hints kind bound library hopen
  exact (Host.accounts hints kind bound hp).mono fun _ _ hp =>
    ⟨hp.balance_eq, fun _ h => hp.nonneg h, fun _ _ h _ hnode => hp.operands h hnode⟩

/-- What BuDDy answers as long as there are no variables, so that all diagrams are constants. -/
def constantAnswer : BuddyCall → Int
  | .trueNode => 1
  | .not node => if node = 0 then 1 else 0
  | .and lhs rhs => if lhs = 1 ∧ rhs = 1 then 1 else 0
  | .or lhs rhs => if lhs = 1 ∨ rhs = 1 then 1 else 0
  | .xor lhs rhs => if lhs = rhs then 0 else 1
  | .var _ => -2
  | .negatedVar _ => -2
  | _ => 0

/-- How long the calls of BuDDy last; of those that combine diagrams one is late. -/
def constantTime : BuddyCall → Duration
  | .and _ _ => ⟨9⟩
  | _ => ⟨1⟩

def constantHost : Host Unit where
  load _ := some fun _ => true
  perform
    | .buddy c, s => (.ofInt (constantAnswer c), s)
    | .cudd _, s => (.ofInt 0, s)
  time
    | .buddy c, _ => constantTime c
    | .cudd _, _ => .zero
  patience := 0

theorem constantAnswer_le (c : BuddyCall) : constantAnswer c ≤ maxInt := by
  have hle : constantAnswer c ≤ 1 := by
    cases c <;> simp only [constantAnswer] <;> (try split) <;> decide
  exact hle.trans (by decide)

/-- Conjunctions are late there and disjunctions are not. -/
theorem calls_match_handles_on_constants :
    ∃ m p, (constantHost.manager .buddy none (some ⟨4⟩)).run (.fresh ()) = (.ok m, p) ∧
      p.calls.length = 5 ∧
      (∃ p', (m.applyRetaining .and ⟨1⟩ ⟨1⟩).run p = (.error (.timeout ⟨10⟩ ⟨4⟩), p')) ∧
      (∃ p', (m.applyRetaining .or ⟨1⟩ ⟨1⟩).run p = (.ok ⟨1⟩, p')) ∧
      m.Accounts p fun p refs =>
        (∀ node, balance p.calls node = refs.count ⟨node⟩) ∧
        (∀ earlier, earlier <:+ p.calls → ∀ node, 0 ≤ balance earlier node) ∧
        ∀ c earlier, c :: earlier <:+ p.calls → ∀ node ∈ c.operands, 0 < balance earlier node :=
  ⟨_, _, rfl, rfl, ⟨_, rfl⟩, ⟨_, rfl⟩, calls_match_handles constantHost
    (fun c _ => constantAnswer_le c) .buddy none (some ⟨4⟩) () rfl⟩

end Library
end DiagramCompiler
