import DiagramCompiler.Library.Session

/-! The binding to CUDD.
CUDD answers with addresses of nodes; zero tells of a failure, and an odd address is complemented;
negation changes only that. It numbers variables from 0, makes them one by one, and keeps to a limit
on the time of an operation by itself. -/
namespace DiagramCompiler
namespace Library
namespace Cudd

def file : String := "libcudd.so"

def hint : String :=
  "build CUDD 3.0.0 with --enable-shared and install it, or point --lib-dir at a directory " ++
    "containing " ++ file

def name : String := "CUDD 3.0.0"

def stub : String := "cudd"

def symbols : List String :=
  ["Cudd_Init", "Cudd_Quit", "Cudd_bddNewVar", "Cudd_ReadSize", "Cudd_ReadPerm",
    "Cudd_ReadLogicZero", "Cudd_ReadOne", "Cudd_bddIthVar", "Cudd_bddAnd", "Cudd_bddOr",
    "Cudd_bddXor", "Cudd_Ref", "Cudd_RecursiveDeref", "Cudd_ShuffleHeap", "Cudd_AutodynEnable",
    "Cudd_AutodynDisable", "Cudd_PrintDebug", "Cudd_SetStdout", "Cudd_ReadStdout",
    "Cudd_SetTimeLimit", "Cudd_UnsetTimeLimit", "Cudd_ResetStartTime", "Cudd_ReadErrorCode",
    "Cudd_ClearErrorCode"]

def capabilities : Capabilities where
  zeroBased := true
  declaresVars := true
  negation := .complementEdge
  reorderings := [("lib-default", 4), ("sift", 4), ("sift-conv", 5)]

def timeoutExpired : Int := 4

variable {σ : Type}

def answer (h : Host σ) (c : CuddCall) : Action (Session σ) Answer := h.answer (.cudd c)

def ask (h : Host σ) (c : CuddCall) : Action (Session σ) Int := do
  return (← answer h c).value

def doing (h : Host σ) (c : CuddCall) : Action (Session σ) Unit := h.doing (.cudd c)

def failing {α : Type} (h : Host σ) (what : String) : Action (Session σ) α := do
  let code ← ask h .readErrorCode
  .fail (.engine name (what ++ " failed with error code " ++ Numeral.intText code))

def referenced (h : Host σ) (node : Int) (what : String) : Action (Session σ) NodeRef := do
  if node = 0 then failing h what
  else
    doing h (.ref node.toNat)
    return ⟨node.toNat⟩

def making (h : Host σ) (c : CuddCall) : Action (Session σ) NodeRef := do
  let node ← ask h c
  referenced h node c.symbol

def negate (h : Host σ) (node : NodeRef) : Action (Session σ) NodeRef :=
  referenced h (node.number ^^^ 1 : Nat) "Cudd_Not"

def release (h : Host σ) (node : NodeRef) : Session σ → Session σ :=
  h.effect (.cudd (.recursiveDeref node.number))

def limited (h : Host σ) (limit : Option Duration) (c : CuddCall) : Action (Session σ) Int := do
  match limit with
  | none => ask h c
  | some limit =>
    doing h .resetStartTime
    doing h (.setTimeLimit limit.milliseconds)
    let node ← ask h c
    doing h .unsetTimeLimit
    return node

def applyCall (op : BinaryOp) (lhs rhs : NodeRef) : CuddCall :=
  match op with
  | .and => .and lhs.number rhs.number
  | .or => .or lhs.number rhs.number
  | .xor => .xor lhs.number rhs.number

def apply (h : Host σ) (op : BinaryOp) (lhs rhs : NodeRef) (limit : Option Duration) :
    Action (Session σ) NodeRef := do
  let started ← .reading Session.clock
  let node ← limited h limit (applyCall op lhs rhs)
  if node ≠ 0 then referenced h node (applyCall op lhs rhs).symbol
  else
    let code ← ask h .readErrorCode
    if code = timeoutExpired then
      doing h .clearErrorCode
      let ended ← .reading Session.clock
      .fail (.timeout (ended - started) (limit.getD .zero))
    else referenced h node (applyCall op lhs rhs).symbol

def declareUpTo (h : Host σ) (count : Nat) : Nat → Action (Session σ) Unit
  | 0 => .fail (.overflow (.uncounted count))
  | fuel + 1 => do
    let size ← ask h .readSize
    if (count : Int) ≤ max size 0 then return
    let node ← ask h .newVar
    if node = 0 then failing h CuddCall.newVar.symbol else declareUpTo h count fuel

def declare (h : Host σ) (count : Nat) : Action (Session σ) Unit :=
  declareUpTo h count (count + h.patience)

def rawVar (var : Nat) : Nat := min var maxInt

def setOrder (h : Host σ) (order : List Nat) : Action (Session σ) Unit := do
  let size ← ask h .readSize
  if size ≠ order.length then
    .fail (.invalidOrder ("order has " ++ Numeral.text order.length ++
      " variables but CUDD declares " ++ Numeral.intText size))
  else
    let call := CuddCall.shuffleHeap (order.map rawVar)
    let shuffled ← ask h call
    if shuffled = 1 then return else failing h call.symbol

def levels (h : Host σ) (vars : List Nat) : Action (Session σ) (List (Int × Nat)) :=
  vars.mapM fun var => do return (← ask h (.readPerm var), var)

def dump (h : Host σ) (root : NodeRef) : Action (Session σ) NativeDump := do
  doing h .readOutput
  doing h (.setOutput .capture)
  let size ← ask h .readSize
  let call := CuddCall.printDebug root.number size 3
  let printed ← answer h call
  doing h (.setOutput .own)
  if printed.value ≠ 1 then failing h call.symbol
  else
    let byLevel ← levels h (List.range size.toNat)
    let text ← .ofExcept (nativeText name printed.content)
    return ⟨.cudd, text, sortByLevel byLevel⟩

def engine (h : Host σ) : Engine (Session σ) where
  name := name
  stub := stub
  capabilities := capabilities
  zero := making h .readLogicZero
  one := making h .readOne
  var v := making h (.var (rawVar v))
  negatedVar v := negateConsuming (making h (.var (rawVar v))) (negate h) (release h)
  negate := negate h
  apply := apply h
  release := release h
  declare := declare h
  setOrder := setOrder h
  enableReordering method := doing h (.enableReordering method)
  disableReordering := doing h .disableReordering
  dump := dump h
  now p := p.clock

def close (h : Host σ) : Session σ → Session σ := h.effect (.cudd .quit)

def launch (h : Host σ) (directory : Option Path) : Action (Session σ) Unit := do
  .ofExcept (h.require file hint symbols directory)
  let manager ← ask h (.init 0 0 256 262144 0)
  if manager = 0 then .fail (.engine name (CuddCall.symbol (.init 0 0 256 262144 0) ++ " failed"))

end Cudd
end Library
end DiagramCompiler
