import DiagramCompiler.Files.Bytes

/-! Calls of native libraries.
What the bindings ask of the libraries of decision diagrams, with the numbers that they pass. A call
is answered with a number, of which a node function returns its node, and sometimes with bytes. -/
namespace DiagramCompiler
namespace Library

/-- A function of BuDDy with its arguments. -/
inductive BuddyCall where
  | init (nodes cache : Nat)
  | done
  | setMinFreeNodes (percent : Nat)
  | setMaxIncrease (nodes : Nat)
  /-- Takes the handler of garbage collections away. -/
  | clearCollectionHook
  /-- Sets an error handler that does nothing. -/
  | setErrorHook
  | errorString (code : Int)
  | setVarNum (count : Nat)
  | varNum
  | varToLevel (var : Nat)
  | setVarOrder (vars : List Nat)
  | varBlockAll
  | autoReorder (method : Int)
  | var (var : Nat)
  | negatedVar (var : Nat)
  | trueNode
  | falseNode
  | not (node : Nat)
  | and (lhs rhs : Nat)
  | or (lhs rhs : Nat)
  | xor (lhs rhs : Nat)
  | addRef (node : Nat)
  | delRef (node : Nat)
  /-- Writes a diagram into the capture file. -/
  | save (node : Nat)
  deriving DecidableEq, Repr

/-- Where the output of CUDD goes. -/
inductive Output where
  | own
  | capture
  deriving DecidableEq, Repr

/-- A function of CUDD with its arguments, without the manager. -/
inductive CuddCall where
  | init (vars zddVars slots cacheSlots memory : Nat)
  | quit
  | newVar
  | readSize
  | readPerm (var : Nat)
  | readLogicZero
  | readOne
  | var (var : Nat)
  | and (lhs rhs : Nat)
  | or (lhs rhs : Nat)
  | xor (lhs rhs : Nat)
  | ref (node : Nat)
  | recursiveDeref (node : Nat)
  | shuffleHeap (vars : List Nat)
  | enableReordering (method : Int)
  | disableReordering
  /-- Prints a diagram to the current output. -/
  | printDebug (node : Nat) (vars verbosity : Int)
  | setOutput (output : Output)
  | readOutput
  | setTimeLimit (milliseconds : Nat)
  | unsetTimeLimit
  | resetStartTime
  | readErrorCode
  | clearErrorCode
  deriving DecidableEq, Repr

inductive Call where
  | buddy (call : BuddyCall)
  | cudd (call : CuddCall)
  deriving DecidableEq, Repr

/-- What a library answers: a number, and the bytes of a text if it points to one. -/
structure Answer where
  value : Int
  content : Option Bytes
  deriving DecidableEq, Repr

def Answer.ofInt (value : Int) : Answer := ⟨value, none⟩

def BuddyCall.symbol : BuddyCall → String
  | .init _ _ => "bdd_init"
  | .done => "bdd_done"
  | .setMinFreeNodes _ => "bdd_setminfreenodes"
  | .setMaxIncrease _ => "bdd_setmaxincrease"
  | .clearCollectionHook => "bdd_gbc_hook"
  | .setErrorHook => "bdd_error_hook"
  | .errorString _ => "bdd_errstring"
  | .setVarNum _ => "bdd_setvarnum"
  | .varNum => "bdd_varnum"
  | .varToLevel _ => "bdd_var2level"
  | .setVarOrder _ => "bdd_setvarorder"
  | .varBlockAll => "bdd_varblockall"
  | .autoReorder _ => "bdd_autoreorder"
  | .var _ => "bdd_ithvar"
  | .negatedVar _ => "bdd_nithvar"
  | .trueNode => "bdd_true"
  | .falseNode => "bdd_false"
  | .not _ => "bdd_not"
  | .and _ _ => "bdd_and"
  | .or _ _ => "bdd_or"
  | .xor _ _ => "bdd_xor"
  | .addRef _ => "bdd_addref"
  | .delRef _ => "bdd_delref"
  | .save _ => "bdd_save"

def CuddCall.symbol : CuddCall → String
  | .init .. => "Cudd_Init"
  | .quit => "Cudd_Quit"
  | .newVar => "Cudd_bddNewVar"
  | .readSize => "Cudd_ReadSize"
  | .readPerm _ => "Cudd_ReadPerm"
  | .readLogicZero => "Cudd_ReadLogicZero"
  | .readOne => "Cudd_ReadOne"
  | .var _ => "Cudd_bddIthVar"
  | .and _ _ => "Cudd_bddAnd"
  | .or _ _ => "Cudd_bddOr"
  | .xor _ _ => "Cudd_bddXor"
  | .ref _ => "Cudd_Ref"
  | .recursiveDeref _ => "Cudd_RecursiveDeref"
  | .shuffleHeap _ => "Cudd_ShuffleHeap"
  | .enableReordering _ => "Cudd_AutodynEnable"
  | .disableReordering => "Cudd_AutodynDisable"
  | .printDebug .. => "Cudd_PrintDebug"
  | .setOutput _ => "Cudd_SetStdout"
  | .readOutput => "Cudd_ReadStdout"
  | .setTimeLimit _ => "Cudd_SetTimeLimit"
  | .unsetTimeLimit => "Cudd_UnsetTimeLimit"
  | .resetStartTime => "Cudd_ResetStartTime"
  | .readErrorCode => "Cudd_ReadErrorCode"
  | .clearErrorCode => "Cudd_ClearErrorCode"

def Call.symbol : Call → String
  | .buddy call => call.symbol
  | .cudd call => call.symbol

end Library
end DiagramCompiler
