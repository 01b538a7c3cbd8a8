import DiagramCompiler.Library.Session

/-! The binding to BuDDy.
BuDDy reports failures as negative values, numbers variables from 0 and negates by building. Its
state is shared by the whole session, so that only one manager can be open at a time. -/
namespace DiagramCompiler
namespace Library
namespace Buddy

def file : String := "libbuddy.so"

def hint : String :=
  "install BuDDy (e.g. `apt install libbdd-dev`) or point --lib-dir at a directory containing " ++
    file

def name : String := "BuDDy 2.4"

def stub : String := "buddy"

def symbols : List String :=
  ["bdd_init", "bdd_done", "bdd_setminfreenodes", "bdd_setmaxincrease", "bdd_gbc_hook",
    "bdd_error_hook", "bdd_errstring", "bdd_setvarnum", "bdd_varnum", "bdd_var2level",
    "bdd_setvarorder", "bdd_varblockall", "bdd_autoreorder", "bdd_ithvar", "bdd_nithvar",
    "bdd_true", "bdd_false", "bdd_not", "bdd_and", "bdd_or", "bdd_xor", "bdd_addref",
    "bdd_delref", "bdd_save"]

def capabilities : Capabilities where
  zeroBased := true
  declaresVars := true
  negation := .rebuild
  reorderings :=
    [("lib-default", 4), ("win2", 1), ("win2-conv", 2), ("sift", 3), ("sift-conv", 4),
      ("win3", 5), ("win3-conv", 6), ("random", 7)]

variable {σ : Type}

def answer (h : Host σ) (c : BuddyCall) : Action (Session σ) Answer := h.answer (.buddy c)

def ask (h : Host σ) (c : BuddyCall) : Action (Session σ) Int := do
  return (← answer h c).value

def doing (h : Host σ) (c : BuddyCall) : Action (Session σ) Unit := h.doing (.buddy c)

def check (h : Host σ) (code : Int) : Action (Session σ) Int := do
  if 0 ≤ code then return code
  match (← answer h (.errorString code)).content with
  | some message => .fail (.engine name message.lossyText)
  | none => .fail (.engine name ("error " ++ Numeral.intText code))

def checked (h : Host σ) (c : BuddyCall) : Action (Session σ) Int := do
  let code ← ask h c
  check h code

def referenced (h : Host σ) (c : BuddyCall) : Action (Session σ) NodeRef := do
  let node ← checked h c
  doing h (.addRef node.toNat)
  return ⟨node.toNat⟩

def raw (node : NodeRef) : Nat := min node.number maxInt

def rawVar (var : Nat) : Nat := min var maxInt

def release (h : Host σ) (node : NodeRef) : Session σ → Session σ :=
  h.effect (.buddy (.delRef (raw node)))

def apply (h : Host σ) (op : BinaryOp) (lhs rhs : NodeRef) : Action (Session σ) NodeRef :=
  referenced h <| match op with
    | .and => .and (raw lhs) (raw rhs)
    | .or => .or (raw lhs) (raw rhs)
    | .xor => .xor (raw lhs) (raw rhs)

def declare (h : Host σ) (count : Nat) : Action (Session σ) Unit := do
  if maxInt < count then
    .fail (.engine name (Numeral.text count ++ " variables exceed BuDDy's limit"))
  else
    let _ ← checked h (.setVarNum count)

def setOrder (h : Host σ) (order : List Nat) : Action (Session σ) Unit := do
  let declared ← ask h .varNum
  if declared ≠ order.length then
    .fail (.invalidOrder ("order has " ++ Numeral.text order.length ++
      " variables but BuDDy declares " ++ Numeral.intText declared))
  else doing h (.setVarOrder (order.map rawVar))

def enableReordering (h : Host σ) (method : Int) : Action (Session σ) Unit := do
  doing h .varBlockAll
  let _ ← checked h (.autoReorder method)

def disableReordering (h : Host σ) : Action (Session σ) Unit := do
  let _ ← checked h (.autoReorder 0)

def levels (h : Host σ) (vars : List Nat) : Action (Session σ) (List (Int × Nat)) :=
  vars.mapM fun var => do return (← ask h (.varToLevel var), var)

def dump (h : Host σ) (root : NodeRef) : Action (Session σ) NativeDump := do
  let saved ← answer h (.save (raw root))
  let _ ← check h saved.value
  let count ← ask h .varNum
  let byLevel ← levels h (List.range count.toNat)
  let text ← .ofExcept (nativeText name saved.content)
  return ⟨.buddy, text, sortByLevel byLevel⟩

def engine (h : Host σ) : Engine (Session σ) where
  name := name
  stub := stub
  capabilities := capabilities
  zero := referenced h .falseNode
  one := referenced h .trueNode
  var v := referenced h (.var (rawVar v))
  negatedVar v := referenced h (.negatedVar (rawVar v))
  negate node := referenced h (.not (raw node))
  apply op lhs rhs _ := apply h op lhs rhs
  release := release h
  declare := declare h
  setOrder := setOrder h
  enableReordering := enableReordering h
  disableReordering := disableReordering h
  dump := dump h
  now p := p.clock

def close (h : Host σ) (p : Session σ) : Session σ :=
  { h.effect (.buddy .done) p with buddyOpen := false }

def start (h : Host σ) : Action (Session σ) Unit := do
  doing h .setErrorHook
  match ← (checked h (.init 100000 100000)).attempt with
  | .error failure => (Action.fail failure).ensuring (close h)
  | .ok _ =>
    doing h (.setMinFreeNodes 33)
    doing h (.setMaxIncrease 100000)
    doing h .clearCollectionHook

/-- Loads and starts the library, of which nothing else in the session may make use. -/
def launch (h : Host σ) (directory : Option Path) : Action (Session σ) Unit := do
  .ofExcept (h.require file hint symbols directory)
  if ← .reading Session.buddyOpen then
    .fail (.engine name "only one BuDDy manager can be open per process")
  else
    Action.change fun p => { p with buddyOpen := true }
    start h

end Buddy
end Library
end DiagramCompiler
