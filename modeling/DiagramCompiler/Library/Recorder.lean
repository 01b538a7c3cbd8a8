import DiagramCompiler.Dictionary
import DiagramCompiler.Library.Session

/-! Recorders.
A recorder stands for the libraries where they are not at hand. It builds no diagrams: it numbers
the nodes that it is asked for, keeps the order of the variables, writes a given dump, and fails
where its script says so. -/
namespace DiagramCompiler
namespace Library
namespace Recorder

/-- A failure to come. -/
structure Failing where
  symbol : String
  /-- Which call fails, counted from 1; with 0 every call does. -/
  nth : Nat
  code : Int
  /-- The calls counted so far. -/
  seen : Nat
  deriving DecidableEq, Repr

structure State where
  /-- The last node. -/
  last : Nat
  /-- The variable at every level. -/
  order : List Nat
  errorCode : Int
  script : List Failing
  dump : Bytes
  deriving DecidableEq, Repr

def fresh (script : List (String × Nat × Int)) (dump : Bytes) : State :=
  ⟨1, [], 0, script.map fun f => ⟨f.1, f.2.1, f.2.2, 0⟩, dump⟩

def counted (symbol : String) : List Failing → Option Int × List Failing
  | [] => (none, [])
  | f :: fs =>
    if f.symbol = symbol then
      let f := { f with seen := f.seen + 1 }
      if f.nth = 0 ∨ f.nth = f.seen then (some f.code, f :: fs)
      else
        let (code, fs) := counted symbol fs
        (code, f :: fs)
    else
      let (code, fs) := counted symbol fs
      (code, f :: fs)

/-- The order of the first variables; new ones come below the others. -/
def resized (order : List Nat) (count : Nat) : List Nat :=
  order.take count ++ List.range' order.length (count - order.length)

def levelOf (order : List Nat) (var : Nat) : Int :=
  if var ∈ order then order.idxOf var else -1

/-- The text of a BuDDy error; the code -99 has none, and that of -98 is broken. -/
def errorText (code : Int) : Option Bytes :=
  if code = -99 then none
  else if code = -98 then some (Bytes.ofText "bad " ++ [0xFF] ++ Bytes.ofText " text")
  else some (Bytes.ofText ("native error " ++ Numeral.intText (-code)))

def buddyNode (s : State) : Answer × State :=
  (.ofInt (s.last + 1), { s with last := s.last + 1 })

def buddy (c : BuddyCall) (s : State) : Answer × State :=
  match c with
  | .errorString code => (⟨0, errorText code⟩, s)
  | .setVarNum count => (.ofInt 0, { s with order := resized s.order count })
  | .varNum => (.ofInt s.order.length, s)
  | .varToLevel var => (.ofInt (levelOf s.order var), s)
  | .setVarOrder vars => (.ofInt 0, { s with order := vars })
  | .trueNode => (.ofInt 1, s)
  | .var _ => buddyNode s
  | .negatedVar _ => buddyNode s
  | .not _ => buddyNode s
  | .and _ _ => buddyNode s
  | .or _ _ => buddyNode s
  | .xor _ _ => buddyNode s
  | .save _ => (⟨0, some s.dump⟩, s)
  | _ => (.ofInt 0, s)

def buddyFails : BuddyCall → Bool
  | .init _ _ | .setVarNum _ | .varNum | .autoReorder _ | .save _ => true
  | .trueNode | .falseNode | .var _ | .negatedVar _ | .not _ => true
  | .and _ _ | .or _ _ | .xor _ _ => true
  | _ => false

def address (id : Nat) (complemented : Bool) : Nat := 16 * id + if complemented then 1 else 0

def cuddNode (s : State) : Answer × State :=
  (.ofInt (address (s.last + 1) false), { s with last := s.last + 1 })

def cudd (c : CuddCall) (s : State) : Answer × State :=
  match c with
  | .init .. => (.ofInt 1, { s with errorCode := 0 })
  | .newVar =>
    let (answer, s) := cuddNode s
    (answer, { s with order := resized s.order (s.order.length + 1) })
  | .readSize => (.ofInt s.order.length, s)
  | .readPerm var => (.ofInt (levelOf s.order var), s)
  | .readLogicZero => (.ofInt (address 1 true), s)
  | .readOne => (.ofInt (address 1 false), s)
  | .var _ => cuddNode s
  | .and _ _ => cuddNode s
  | .or _ _ => cuddNode s
  | .xor _ _ => cuddNode s
  | .shuffleHeap vars => (.ofInt 1, { s with order := vars })
  | .printDebug .. => (⟨1, some s.dump⟩, s)
  | .readErrorCode => (.ofInt s.errorCode, s)
  | .clearErrorCode => (.ofInt 0, { s with errorCode := 0 })
  | _ => (.ofInt 0, s)

/-- What CUDD does in a call that fails, or nothing if it cannot fail. An order is kept even so. -/
def cuddFailure? (c : CuddCall) (code : Int) (s : State) : Option (Answer × State) :=
  match c with
  | .init .. => some (.ofInt 0, s)
  | .readSize => some (.ofInt code, s)
  | .newVar | .readLogicZero | .readOne | .var _ => some (.ofInt 0, { s with errorCode := code })
  | .and _ _ | .or _ _ | .xor _ _ => some (.ofInt 0, { s with errorCode := code })
  | .shuffleHeap vars => some (.ofInt 0, { s with errorCode := code, order := vars })
  | .printDebug .. => some (.ofInt 0, { s with errorCode := code })
  | _ => none

/-- What the libraries do in a call that fails, or nothing if it cannot fail. -/
def failure? (c : Call) (code : Int) (s : State) : Option (Answer × State) :=
  match c with
  | .buddy c => if buddyFails c then some (.ofInt code, s) else none
  | .cudd c => cuddFailure? c code s

def perform (c : Call) (s : State) : Answer × State :=
  let (code, script) := counted c.symbol s.script
  let s := { s with script := script }
  match code.bind fun code => failure? c code s with
  | some result => result
  | none =>
    match c with
    | .buddy c => buddy c s
    | .cudd c => cudd c s

/-- A host on which some libraries are recorders with some functions. Every call takes a moment. -/
def host (load : Path → Option (String → Bool)) : Host State where
  load := load
  perform := perform
  time _ _ := ⟨1⟩
  patience := 65536

def cuddNodeText (node : Nat) : String :=
  (if node % 2 = 1 then "!" else "") ++ Numeral.text (node / 16)

def buddyArguments : BuddyCall → List String
  | .init nodes cache => [Numeral.text nodes, Numeral.text cache]
  | .setMinFreeNodes n | .setMaxIncrease n | .setVarNum n | .varToLevel n => [Numeral.text n]
  | .var n | .negatedVar n | .not n | .addRef n | .delRef n | .save n => [Numeral.text n]
  | .clearCollectionHook => ["null"]
  | .setErrorHook => ["set"]
  | .errorString code => [Numeral.intText code]
  | .autoReorder method => [Numeral.intText method]
  | .setVarOrder vars => vars.map Numeral.text
  | .and a b | .or a b | .xor a b => [Numeral.text a, Numeral.text b]
  | .done | .varNum | .varBlockAll | .trueNode | .falseNode => []

def outputText : Output → String
  | .own => "original"
  | .capture => "capture"

def cuddArguments : CuddCall → List String
  | .init a b c d e => [a, b, c, d, e].map Numeral.text
  | .readPerm n | .var n | .setTimeLimit n => [Numeral.text n]
  | .and a b | .or a b | .xor a b => [cuddNodeText a, cuddNodeText b]
  | .ref n | .recursiveDeref n => [cuddNodeText n]
  | .shuffleHeap vars => vars.map Numeral.text
  | .enableReordering method => [Numeral.intText method]
  | .printDebug node vars verbosity =>
    [cuddNodeText node, Numeral.intText vars, Numeral.intText verbosity, "to", "capture"]
  | .setOutput output => [outputText output]
  | _ => []

def callText (c : Call) : String :=
  Text.joined " " (c.symbol :: match c with
    | .buddy c => buddyArguments c
    | .cudd c => cuddArguments c)

end Recorder
end Library
end DiagramCompiler
