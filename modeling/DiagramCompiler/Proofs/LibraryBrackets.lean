import DiagramCompiler.Library.Binding
import DiagramCompiler.Library.Recorder
import DiagramCompiler.Proofs.HeldReferences

/-! Starts and ends of BuDDy.
BuDDy keeps its state in one place for a whole process, between a call that starts it and a call
that ends it. However managers are launched, used and closed, no more than one is open, the library
is running at each call that works on diagrams, and it is started only while it is not running. It
is ended once after each start that succeeded; but it is ended too after a start that failed. -/
namespace DiagramCompiler
namespace Library

variable {σ : Type}

namespace Host

/-- The state of the libraries after some calls, the last first. -/
def after (h : Host σ) (library : σ) : List Call → σ
  | [] => library
  | c :: calls => (h.perform c (h.after library calls)).2

def valueAfter (h : Host σ) (library : σ) (calls : List Call) (c : BuddyCall) : Int :=
  (h.perform (.buddy c) (h.after library calls)).1.value

/-- Whether some calls started BuDDy, with success, and did not end it since. -/
def Running (h : Host σ) (library : σ) (calls : List Call) : Prop :=
  ∃ later nodes cache earlier, calls = later ++ .buddy (.init nodes cache) :: earlier ∧
    .buddy .done ∉ later ∧ 0 ≤ h.valueAfter library earlier (.init nodes cache)

/-- Whether the last calls tried to start BuDDy and asked why it failed. -/
def FailedStart (h : Host σ) (library : σ) (calls : List Call) : Prop :=
  ∃ code nodes cache earlier,
    calls = .buddy (.errorString code) :: .buddy (.init nodes cache) :: earlier ∧
      h.valueAfter library earlier (.init nodes cache) = code ∧ code < 0

end Host

namespace BuddyCall

def isBracket : BuddyCall → Bool
  | .init _ _ => true
  | .done => true
  | _ => false

/-- Whether a call needs the library to be running: all but those that start and end it, set the
error handler and ask for the text of an error. -/
def needsRunning : BuddyCall → Bool
  | .setErrorHook => false
  | .errorString _ => false
  | c => !c.isBracket

end BuddyCall

namespace Host

def Permits (h : Host σ) (library : σ) (calls : List Call) : BuddyCall → Prop
  | .init _ _ => ¬ h.Running library calls
  | .done => h.Running library calls ∨ h.FailedStart library calls
  | c => c.needsRunning = true → h.Running library calls

def Brackets (h : Host σ) (library : σ) (calls : List Call) : Prop :=
  ∀ c earlier, .buddy c :: earlier <:+ calls → h.Permits library earlier c

variable {h : Host σ} {library : σ} {calls : List Call} {c : BuddyCall}

theorem permits_of_running (hc : c.isBracket = false) (hrunning : h.Running library calls) :
    h.Permits library calls c := by
  cases c with
  | init nodes cache => exact absurd hc (by simp [BuddyCall.isBracket])
  | done => exact .inl hrunning
  | _ => exact fun _ => hrunning

theorem Permits.running (hpermits : h.Permits library calls c) (hc : c.needsRunning = true) :
    h.Running library calls := by
  cases c with
  | init nodes cache => exact absurd hc (by simp [BuddyCall.needsRunning, BuddyCall.isBracket])
  | done => exact absurd hc (by simp [BuddyCall.needsRunning, BuddyCall.isBracket])
  | _ => exact hpermits hc

theorem brackets_nil : h.Brackets library [] := fun _ _ hearlier =>
  absurd (List.suffix_nil.1 hearlier) (by simp)

theorem Brackets.cons (hcalls : h.Brackets library calls) (hc : h.Permits library calls c) :
    h.Brackets library (.buddy c :: calls) := by
  intro c' earlier hearlier
  rcases List.suffix_cons_iff.1 hearlier with heq | hearlier
  · obtain ⟨hhead, rfl⟩ := List.cons.inj heq
    cases hhead
    exact hc
  · exact hcalls c' earlier hearlier

theorem not_running_nil : ¬ h.Running library [] := by
  rintro ⟨later, nodes, cache, earlier, hcalls, -⟩
  simp at hcalls

/-- The library is running after a start that succeeds, and stays so until it is ended. -/
theorem running_cons_iff : h.Running library (.buddy c :: calls) ↔
    (∃ nodes cache, c = .init nodes cache ∧ 0 ≤ h.valueAfter library calls (.init nodes cache)) ∨
      c ≠ .done ∧ h.Running library calls := by
  constructor
  · rintro ⟨later, nodes, cache, earlier, hcalls, hdone, hvalue⟩
    cases later with
    | nil =>
      obtain ⟨hhead, rfl⟩ := List.cons.inj hcalls
      exact .inl ⟨nodes, cache, Call.buddy.inj hhead, hvalue⟩
    | cons c' later =>
      obtain ⟨rfl, rfl⟩ := List.cons.inj hcalls
      rw [List.mem_cons, not_or] at hdone
      exact .inr ⟨fun hc => hdone.1 (hc ▸ rfl), later, nodes, cache, earlier, rfl, hdone.2, hvalue⟩
  · rintro (⟨nodes, cache, rfl, hvalue⟩ | ⟨hc, later, nodes, cache, earlier, rfl, hdone, hvalue⟩)
    · exact ⟨[], nodes, cache, calls, rfl, List.not_mem_nil, hvalue⟩
    · refine ⟨.buddy c :: later, nodes, cache, earlier, rfl, ?_, hvalue⟩
      rw [List.mem_cons, not_or]
      exact ⟨fun heq => hc (Call.buddy.inj heq).symm, hdone⟩

theorem not_running_done : ¬ h.Running library (.buddy .done :: calls) := by
  simp [running_cons_iff]

theorem running_init_iff {nodes cache : Nat} :
    h.Running library (.buddy (.init nodes cache) :: calls) ↔
      0 ≤ h.valueAfter library calls (.init nodes cache) ∨ h.Running library calls := by
  simp [running_cons_iff]

theorem running_other_iff (hc : c.isBracket = false) :
    h.Running library (.buddy c :: calls) ↔ h.Running library calls := by
  rw [running_cons_iff]
  cases c <;> simp_all [BuddyCall.isBracket]

end Host

/-! ### Sessions -/

namespace Session

variable {h : Host σ} {library : σ} {p : Session σ} {c : BuddyCall}

/-- Whether the calls of a session that began with some libraries came when they may. -/
structure Traced (h : Host σ) (library : σ) (p : Session σ) : Prop where
  library_eq : p.library = h.after library p.calls
  brackets : h.Brackets library p.calls

theorem Traced.effect (hp : p.Traced h library) (hc : h.Permits library p.calls c) :
    (h.effect (.buddy c) p).Traced h library where
  library_eq := congrArg (fun s => (h.perform (.buddy c) s).2) hp.library_eq
  brackets := hp.brackets.cons hc

theorem Traced.valueAfter (hp : p.Traced h library) (c : BuddyCall) :
    (h.perform (.buddy c) p.library).1.value = h.valueAfter library p.calls c := by
  rw [Host.valueAfter, hp.library_eq]

/-- Whether BuDDy is running and taken. -/
structure InUse (h : Host σ) (library : σ) (p : Session σ) : Prop where
  traced : p.Traced h library
  running : h.Running library p.calls
  taken : p.buddyOpen = true

/-- Whether BuDDy is not running and free. -/
structure Idle (h : Host σ) (library : σ) (p : Session σ) : Prop where
  traced : p.Traced h library
  notRunning : ¬ h.Running library p.calls
  free : p.buddyOpen = false

theorem idle_fresh (h : Host σ) (library : σ) : (Session.fresh library).Idle h library :=
  ⟨⟨rfl, Host.brackets_nil⟩, Host.not_running_nil, rfl⟩

theorem InUse.effect (hp : p.InUse h library) (hc : c.isBracket = false) :
    (h.effect (.buddy c) p).InUse h library where
  traced := hp.traced.effect (Host.permits_of_running hc hp.running)
  running := (Host.running_other_iff hc).2 hp.running
  taken := hp.taken

theorem InUse.close (hp : p.InUse h library) : (Buddy.close h p).Idle h library where
  traced :=
    have hdone := hp.traced.effect (c := .done) (.inl hp.running)
    ⟨hdone.library_eq, hdone.brackets⟩
  notRunning := Host.not_running_done
  free := rfl

end Session

/-! ### Work on diagrams -/

namespace Buddy

variable {h : Host σ} {library : σ} {p : Session σ}

abbrev Stays {α : Type} (h : Host σ) (library : σ) (a : Action (Session σ) α) : Prop :=
  ∀ {p}, p.InUse h library → a.Ends p (Session.InUse h library) fun _ => Session.InUse h library

theorem stays_answer {c : BuddyCall} (hc : c.isBracket = false) : Stays h library (answer h c) :=
  fun hp => .of_ok rfl (hp.effect hc)

theorem stays_ask {c : BuddyCall} (hc : c.isBracket = false) : Stays h library (ask h c) := by
  intro p hp
  refine (stays_answer hc hp).bind fun answer p' hanswered => ?_
  exact .pure hanswered

theorem ends_doing {c : BuddyCall} {fails : Session σ → Prop} (hc : c.isBracket = false)
    (hp : p.InUse h library) : (doing h c).Ends p fails fun _ p' => p'.InUse h library :=
  .of_ok rfl (hp.effect hc)

theorem stays_check (code : Int) : Stays h library (check h code) := by
  intro p hp
  rw [check]
  split
  · exact .pure hp
  · refine .bind (stays_answer rfl hp) fun answer p' hp' => ?_
    split
    · exact .of_error (Action.run_fail _ p') hp'
    · exact .of_error (Action.run_fail _ p') hp'

theorem stays_checked {c : BuddyCall} (hc : c.isBracket = false) :
    Stays h library (checked h c) := by
  intro p hp
  refine (stays_ask hc hp).bind fun code p' hasked => ?_
  exact stays_check code hasked

theorem stays_checking {c : BuddyCall} (hc : c.isBracket = false) :
    Stays h library (do let _ ← checked h c : Action (Session σ) Unit) := by
  intro p hp
  refine (stays_checked hc hp).bind fun value p' hchecked => ?_
  exact .pure hchecked

theorem stays_referenced {c : BuddyCall} (hc : c.isBracket = false) :
    Stays h library (referenced h c) := by
  intro p hp
  refine (stays_checked hc hp).bind fun node p₁ hchecked => ?_
  refine (ends_doing rfl hchecked).bind fun _ p₂ hreferenced => ?_
  exact .pure hreferenced

theorem stays_apply (op : BinaryOp) (lhs rhs : NodeRef) : Stays h library (apply h op lhs rhs) := by
  cases op <;> exact stays_referenced rfl

theorem stays_declare (count : Nat) : Stays h library (declare h count) := by
  intro p hp
  rw [declare]
  split
  · exact .of_error (Action.run_fail _ p) hp
  · exact stays_checking rfl hp

theorem stays_setOrder (order : List Nat) : Stays h library (setOrder h order) := by
  intro p hp
  refine (stays_ask rfl hp).bind fun declared p' hasked => ?_
  split
  · exact .of_error (Action.run_fail _ p') hasked
  · exact ends_doing rfl hasked

theorem stays_level (var : Nat) : Stays h library
    (do return (← ask h (.varToLevel var), var) : Action (Session σ) (Int × Nat)) := by
  intro p hp
  refine (stays_ask rfl hp).bind fun level p' hasked => ?_
  exact .pure hasked

theorem stays_levels (vars : List Nat) : Stays h library (levels h vars) := by
  intro p hp
  exact .mapM hp (fun var hp' => stays_level var hp') vars

theorem stays_dump (root : NodeRef) : Stays h library (dump h root) := by
  intro p hp
  refine (stays_answer rfl hp).bind fun saved p₁ hsaved => ?_
  refine (stays_check saved.value hsaved).bind fun _ p₂ hchecked => ?_
  refine (stays_ask rfl hchecked).bind fun count p₃ hcounted => ?_
  refine (stays_levels _ hcounted).bind fun byLevel p₄ hlevels => ?_
  have htext : (Action.ofExcept (nativeText name saved.content)).Ends p₄ (Session.InUse h library)
      fun _ => Session.InUse h library := .ofExcept hlevels fun _ _ => hlevels
  refine htext.bind fun text p₅ hp₅ => ?_
  exact .pure hp₅

def useCustody (h : Host σ) (library : σ) : (engine h).Custody where
  holds p _ := p.InUse h library
  zero hp := stays_referenced rfl hp
  one hp := stays_referenced rfl hp
  var hp _ := stays_referenced rfl hp
  negatedVar hp _ := stays_referenced rfl hp
  negate hp _ _ := stays_referenced rfl hp
  apply hp op _ _ _ _ _ := stays_apply op _ _ hp
  release hp := hp.effect rfl
  declare hp count := stays_declare count hp
  setOrder hp order _ := stays_setOrder order hp
  enableReordering hp _ := .bind (ends_doing rfl hp) fun _ _ hp => stays_checking rfl hp
  disableReordering hp := stays_checking rfl hp
  dump hp _ _ := stays_dump _ hp

/-! ### Launches -/

def initCall : BuddyCall := .init 100000 100000

/-- What the library answers to a start after some calls. -/
def startValue (h : Host σ) (library : σ) (calls : List Call) : Int :=
  h.valueAfter library (.buddy .setErrorHook :: calls) initCall

/-- Whether BuDDy can be launched after some calls: the library is there with all its functions, and
starts. -/
@[mk_iff]
structure Opens (h : Host σ) (library : σ) (directory : Option Path) (calls : List Call) :
    Prop where
  available : h.require file hint symbols directory = .ok ()
  starts : 0 ≤ startValue h library calls

section Start

variable (hp : p.Traced h library) (hidle : ¬ h.Running library p.calls)
  (htaken : p.buddyOpen = true)
include hp hidle htaken

theorem ends_init : (checked h initCall).Ends p
    (fun p' => (close h p').Idle h library ∧ h.valueAfter library p.calls initCall < 0)
    fun _ p' => p'.InUse h library ∧ 0 ≤ h.valueAfter library p.calls initCall := by
  have htraced := hp.effect (c := initCall) hidle
  have hask : (ask h initCall).run p =
      (.ok (h.valueAfter library p.calls initCall), h.effect (.buddy initCall) p) :=
    hp.valueAfter initCall ▸ rfl
  refine .bind_of_ok hask ?_
  rw [check]
  split
  · next hvalue => exact .pure ⟨⟨htraced, Host.running_init_iff.2 (.inl hvalue), htaken⟩, hvalue⟩
  · next hnot =>
    have hvalue := not_le.1 hnot
    have hasked := htraced.effect (c := .errorString (h.valueAfter library p.calls initCall))
      fun hneeds => absurd hneeds Bool.false_ne_true
    have hdone := hasked.effect (c := .done) (.inr ⟨_, _, _, _, rfl, rfl, hvalue⟩)
    have hclosed : (close h (h.effect _ (h.effect (.buddy initCall) p))).Idle h library :=
      ⟨⟨hdone.library_eq, hdone.brackets⟩, Host.not_running_done, rfl⟩
    refine .bind_of_ok rfl ?_
    split
    · exact .of_error (Action.run_fail _ _) ⟨hclosed, hvalue⟩
    · exact .of_error (Action.run_fail _ _) ⟨hclosed, hvalue⟩

theorem ends_start : (start h).Ends p
    (fun p' => p'.Idle h library ∧ startValue h library p.calls < 0)
    fun _ p' => p'.InUse h library ∧ 0 ≤ startValue h library p.calls := by
  have hhooked := hp.effect (c := .setErrorHook) fun hneeds => absurd hneeds (by decide)
  have hinit := ends_init hhooked (fun hrunning => hidle ((Host.running_other_iff rfl).1 hrunning))
    htaken
  refine .bind_of_ok rfl (.bind (.mono (.attempt hinit) (fun _ => False.elim) fun _ _ => id) ?_)
  rintro answer p' (⟨failure, rfl, hclosed, hvalue⟩ | ⟨value, rfl, huse, hvalue⟩)
  · exact .ensuring (.of_error (Action.run_fail failure p') ⟨hclosed, hvalue⟩)
  · refine .bind (ends_doing rfl huse) fun _ p' huse => ?_
    refine .bind (ends_doing rfl huse) fun _ p' huse => ?_
    exact (ends_doing rfl huse).mono (fun _ => id) fun _ _ huse => ⟨huse, hvalue⟩

end Start

variable {directory : Option Path}

/-- A launch while BuDDy is free takes it, or leaves it free. -/
theorem ends_launch_of_idle (hp : p.Idle h library) : (launch h directory).Ends p
    (fun p' => p'.Idle h library ∧ ¬ Opens h library directory p.calls)
    fun _ p' => p'.InUse h library ∧ Opens h library directory p.calls := by
  rw [launch]
  cases hrequire : h.require file hint symbols directory with
  | error failure =>
    refine .of_error rfl ⟨hp, fun hopens => ?_⟩
    exact absurd (hrequire.symm.trans hopens.available) (by simp)
  | ok _ =>
    refine .bind_of_ok rfl (.reading_bind ?_)
    rw [if_neg (by simp [hp.free])]
    have htraced : ({ p with buddyOpen := true } : Session σ).Traced h library :=
      ⟨hp.traced.library_eq, hp.traced.brackets⟩
    refine .bind_of_ok rfl ((ends_start htraced hp.notRunning rfl).mono (fun p' hends => ?_)
      fun _ p' hends => ⟨hends.1, hrequire, hends.2⟩)
    exact ⟨hends.1, fun hopens => absurd hopens.starts (not_le.2 hends.2)⟩

theorem ends_launch_of_taken (htaken : p.buddyOpen = true) :
    (launch h directory).Ends p (p = ·) fun _ _ => False := by
  rw [launch]
  cases h.require file hint symbols directory with
  | error failure => exact .of_error rfl rfl
  | ok _ =>
    refine .bind_of_ok rfl (.reading_bind ?_)
    rw [if_pos htaken]
    exact .of_error (Action.run_fail _ _) rfl

theorem ends_manager_of_idle (hp : p.Idle h library) (directory : Option Path)
    (bound : Option Duration) : (h.manager .buddy directory bound).Ends p
      (fun p' => p'.Idle h library ∧ ¬ Opens h library directory p.calls)
      fun m p' => m = ⟨engine h, bound⟩ ∧ p'.InUse h library ∧ Opens h library directory p.calls :=
  .bind (ends_launch_of_idle hp) fun _ _ hends => .pure ⟨rfl, hends⟩

theorem exists_run_manager_of_taken (h : Host σ) (htaken : p.buddyOpen = true)
    (directory : Option Path) (bound : Option Duration) :
    ∃ failure, (h.manager .buddy directory bound).run p = (.error failure, p) := by
  have hends : (h.manager .buddy directory bound).Ends p (p = ·) fun _ _ => False :=
    .bind (ends_launch_of_taken htaken) fun _ _ => False.elim
  obtain ⟨failure, _, hrun, rfl⟩ | ⟨_, _, _, hfalse⟩ := hends.cases
  · exact ⟨failure, hrun⟩
  · exact hfalse.elim

end Buddy

/-! ### Processes -/

/-- A session and the managers of BuDDy in it that are open, each with its diagrams. -/
structure Process (σ : Type) where
  session : Session σ
  live : List (Manager (Session σ) × Slots)

/-- What happens in a process. A manager is closed after its diagrams are released. -/
inductive Event where
  | launch (directory : Option Path) (bound : Option Duration)
  | work (index : Nat) (task : Task)
  | close (index : Nat)

namespace Process

def fresh (library : σ) : Process σ := ⟨.fresh library, []⟩

def step (h : Host σ) (p : Process σ) : Event → Process σ
  | .launch directory bound =>
    match (h.manager .buddy directory bound).run p.session with
    | (.ok m, session) => ⟨session, (m, .empty) :: p.live⟩
    | (.error _, session) => ⟨session, p.live⟩
  | .work index task =>
    match p.live[index]? with
    | some (m, slots) =>
      let (slots, session) := task.run m slots p.session
      ⟨session, p.live.set index (m, slots)⟩
    | none => p
  | .close index =>
    match p.live[index]? with
    | some (m, slots) =>
      ⟨h.close .buddy (Workbench.clear m slots p.session), p.live.eraseIdx index⟩
    | none => p

def run (h : Host σ) (p : Process σ) (events : List Event) : Process σ := events.foldl (step h) p

/-- Whether a process has no manager and BuDDy is idle, or one manager that uses it. -/
inductive Sound (h : Host σ) (library : σ) : Process σ → Prop
  | idle {session : Session σ} (hsession : session.Idle h library) : Sound h library ⟨session, []⟩
  | inUse {session : Session σ} {bound : Option Duration} {slots : Slots}
      (hsession : session.InUse h library) :
      Sound h library ⟨session, [(⟨Buddy.engine h, bound⟩, slots)]⟩

variable {h : Host σ} {library : σ} {p : Process σ}

theorem sound_fresh : (fresh library).Sound h library := .idle (Session.idle_fresh h library)

theorem sound_launch (hp : p.Sound h library) (directory : Option Path) (bound : Option Duration) :
    (p.step h (.launch directory bound)).Sound h library := by
  cases hp with
  | idle hsession =>
    rcases (Buddy.ends_manager_of_idle hsession directory bound).cases with
      ⟨failure, session, hrun, hidle, -⟩ | ⟨_, session, hrun, rfl, huse, -⟩
    · rw [step, hrun]
      exact .idle hidle
    · rw [step, hrun]
      exact .inUse huse
  | inUse hsession =>
    obtain ⟨failure, hrun⟩ := Buddy.exists_run_manager_of_taken h hsession.taken directory bound
    rw [step, hrun]
    exact .inUse hsession

theorem inUse_runTask {session : Session σ} (hsession : session.InUse h library)
    (bound : Option Duration) (slots : Slots) (task : Task) :
    (task.run ⟨Buddy.engine h, bound⟩ slots session).2.InUse h library := by
  have hheld : (Buddy.useCustody h library).holds session (slots.handles + 0) := hsession
  exact Task.holds_run (m := ⟨Buddy.engine h, bound⟩) hheld task

theorem inUse_clear {session : Session σ} (hsession : session.InUse h library)
    (bound : Option Duration) (slots : Slots) :
    (Workbench.clear ⟨Buddy.engine h, bound⟩ slots session).InUse h library := by
  rw [Workbench.clear]
  generalize slots.entries = entries
  induction entries generalizing session with
  | nil => exact hsession
  | cons e entries ih => exact ih (hsession.effect (c := .delRef (Buddy.raw e.2)) rfl)

theorem Sound.step (hp : p.Sound h library) (e : Event) : (p.step h e).Sound h library := by
  cases e with
  | launch directory bound => exact sound_launch hp directory bound
  | work index task =>
    cases hp with
    | idle hsession => exact .idle hsession
    | inUse hsession =>
      cases index with
      | zero => exact .inUse (inUse_runTask hsession _ _ task)
      | succ index => exact .inUse hsession
  | close index =>
    cases hp with
    | idle hsession => exact .idle hsession
    | inUse hsession =>
      cases index with
      | zero => exact .idle (inUse_clear hsession _ _).close
      | succ index => exact .inUse hsession

theorem Sound.traced (hp : p.Sound h library) : p.session.Traced h library := by
  cases hp with
  | idle hsession => exact hsession.traced
  | inUse hsession => exact hsession.traced

theorem Sound.length_live_le (hp : p.Sound h library) : p.live.length ≤ 1 := by
  cases hp <;> simp

/-- A launch gives a manager exactly if there is none and BuDDy can be launched. -/
theorem Sound.exists_manager_iff (hp : p.Sound h library) (directory : Option Path)
    (bound : Option Duration) :
    (∃ m, ((h.manager .buddy directory bound).run p.session).1 = .ok m) ↔
      p.live = [] ∧ Buddy.Opens h library directory p.session.calls := by
  cases hp with
  | idle hsession =>
    rcases (Buddy.ends_manager_of_idle hsession directory bound).cases with
      ⟨failure, session, hrun, -, hnot⟩ | ⟨m, session, hrun, -, -, hopens⟩
    · simp [hrun, hnot]
    · simp [hrun, hopens]
  | inUse hsession =>
    obtain ⟨failure, hrun⟩ := Buddy.exists_run_manager_of_taken h hsession.taken directory bound
    simp [hrun]

theorem Sound.run_manager_of_live (hp : p.Sound h library) (hlive : p.live ≠ [])
    (directory : Option Path) (bound : Option Duration) :
    ((h.manager .buddy directory bound).run p.session).2 = p.session := by
  cases hp with
  | idle hsession => exact absurd rfl hlive
  | inUse hsession =>
    obtain ⟨failure, hrun⟩ := Buddy.exists_run_manager_of_taken h hsession.taken directory bound
    rw [hrun]

theorem Sound.run (hp : p.Sound h library) (events : List Event) :
    (p.run h events).Sound h library := by
  induction events generalizing p with
  | nil => exact hp
  | cons e events ih => exact ih (hp.step e)

end Process

/-- Let managers of BuDDy be launched, used and closed in a process in any order, whatever the
library answers. No more than one is open at a time. A launch succeeds exactly if none is open, the
library is there with all its functions and its start is answered with no negative code, so that
nothing before it stands in its way; with one open it changes nothing. The library is started only
while it is not running and is running at every call that needs it. Where it is ended it is running
too, with one exception: the last calls were a start that failed and the question why. -/
theorem launches_bracketed (h : Host σ) (library : σ) (events : List Event) :
    let p := (Process.fresh library).run h events
    p.live.length ≤ 1 ∧
      (∀ directory bound, (∃ m, ((h.manager .buddy directory bound).run p.session).1 = .ok m) ↔
        p.live = [] ∧ h.require Buddy.file Buddy.hint Buddy.symbols directory = .ok () ∧
          0 ≤ Buddy.startValue h library p.session.calls) ∧
      (p.live ≠ [] → ∀ directory bound,
        ((h.manager .buddy directory bound).run p.session).2 = p.session) ∧
      (∀ nodes cache earlier, .buddy (.init nodes cache) :: earlier <:+ p.session.calls →
        ¬ h.Running library earlier) ∧
      (∀ c earlier, .buddy c :: earlier <:+ p.session.calls → c.needsRunning = true →
        h.Running library earlier) ∧
      ∀ earlier, .buddy .done :: earlier <:+ p.session.calls →
        h.Running library earlier ∨ h.FailedStart library earlier := by
  intro p
  have hp : p.Sound h library := Process.sound_fresh.run events
  have hbrackets := hp.traced.brackets
  refine ⟨hp.length_live_le, fun directory bound => ?_, hp.run_manager_of_live,
    fun nodes cache earlier hearlier => hbrackets _ _ hearlier,
    fun c earlier hearlier hc => (hbrackets c earlier hearlier).running hc,
    fun earlier hearlier => hbrackets _ _ hearlier⟩
  rw [hp.exists_manager_iff, Buddy.opens_iff]

namespace Unstarted

def host : Host Recorder.State := Recorder.host fun _ => some fun _ => true

def library : Recorder.State := Recorder.fresh [("bdd_init", 1, -1)] []

theorem calls_launch : ((Process.fresh library).run host [.launch none none]).session.calls =
    [.buddy .done, .buddy (.errorString (-1)), .buddy Buddy.initCall, .buddy .setErrorHook] := by
  decide +kernel

/-- The library is ended though no start succeeded. -/
theorem ended_without_start :
    ¬ ∀ (σ : Type) (h : Host σ) (library : σ) (events : List Event) (earlier : List Call),
      .buddy .done :: earlier <:+ ((Process.fresh library).run h events).session.calls →
        h.Running library earlier := by
  intro hall
  have hrunning := hall _ host library [.launch none none]
    [.buddy (.errorString (-1)), .buddy Buddy.initCall, .buddy .setErrorHook]
    (calls_launch ▸ List.suffix_refl _)
  have hvalue : ¬ 0 ≤ host.valueAfter library [.buddy .setErrorHook] Buddy.initCall := by
    decide +kernel
  rw [Host.running_other_iff rfl, Buddy.initCall, Host.running_init_iff,
    Host.running_other_iff rfl] at hrunning
  exact hrunning.elim hvalue Host.not_running_nil

end Unstarted
end Library
end DiagramCompiler
