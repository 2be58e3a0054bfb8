import CS24.Subpython.Dispatch

/-!
# The evaluator

`eval.c`, and `eval` of `repl.c`. What a call of `gc()` does is a parameter, which is
`collectGarbage` in the program. Fuel bounds the depth of the recursion and the number of
iterations of each loop. Where the code lets a new reference go out of scope, the model says
`lose`; where a nested call runs while references are in local variables, it says `holding`.
-/

namespace CS24.Subpython
open Machine Mem

def maxDepth : Nat := 4

variable (collect : M Unit) (n : Nat)

def globalsGet (name : String) : M Int := do
  let globals ← reads State.globals
  match globals.lookup name with
  | some ref =>
    incref ref
    pure ref
  | none =>
    exceptionSetFormat .nameError s!"name '{name}' is not defined"
    pure nullRef

/-- The position of a variable in `global_vars` -/
def globalIndex (name : String) : M (Option Nat) := do
  let globals ← reads State.globals
  pure (globals.findIdx? fun entry => entry.1 = name)

def globalsSet (name : String) (value : Int) : M Unit := do
  match ← globalIndex name with
  | some i =>
    let globals ← reads State.globals
    decref n ((globals.map Prod.snd).getD i nullRef)
    incref value
    modify fun s => { s with globals := s.globals.set i (name, value) }
  | none =>
    incref value
    modify fun s => { s with globals := s.globals ++ [(name, value)] }

def globalsDelete (name : String) : M Unit := do
  match ← globalIndex name with
  | some i =>
    let globals ← reads State.globals
    decref n ((globals.map Prod.snd).getD i nullRef)
    modify fun s => { s with globals := s.globals.eraseIdx i }
  | none => exceptionSetFormat .nameError s!"name '{name}' is not defined"

def arityError (expected : String) (arity : Nat) : M Int := do
  exceptionSetFormat .typeError s!"{expected} but {arity} were given"
  pure nullRef

def evalCallExit (args : List Int) : M Int :=
  match args with
  | [] => throw (.exit 0)
  | [codeReference] => do
    let codeValue ← deref codeReference
    let m ← reads State.mem
    if typeOf m codeValue = some .integer then
      throw (.exit ((integerValue m codeValue).toInt.bmod (2 ^ 32)))
    else
      refPrintln n codeReference .stderr maxDepth
      throw (.exit 1)
  | args => arityError "exit() takes from 0 to 1 positional arguments" args.length

def evalCallMem (args : List Int) : M Int := do
  if args.length > 0 then arityError "mem() takes 0 positional arguments" args.length
  else
    let used ← memUsed n
    let refs ← refsUsed
    fprintf .stdout (bytesOf s!"{used} bytes in use; {refs} refs in use\n")
    let none ← reads State.noneRef
    incref none
    pure none

/-- `eval_call_gc`; after a collection, what was lost before is gone or counted again. -/
def evalCallGc (args : List Int) : M Int := do
  if args.length > 0 then arityError "gc() takes 0 positional arguments" args.length
  else
    collect
    modify fun s => { s with leaked := [] }
    let none ← reads State.noneRef
    incref none
    pure none

/-- The arguments after the first, printed by `eval_call_print` -/
def printRest : List Int → M Unit
  | [] => pure ()
  | arg :: rest => do
    fprintf .stdout (bytesOf " ")
    refPrint n arg .stdout maxDepth
    printRest rest

def evalCallPrint (args : List Int) : M Int := do
  (match args with
  | [] => pure ()
  | arg :: rest => do
    refPrint n arg .stdout maxDepth
    printRest n rest)
  fprintf .stdout (bytesOf "\n")
  let none ← reads State.noneRef
  incref none
  pure none

def evalCallLen (args : List Int) : M Int :=
  match args with
  | [arg] => do
    let length ← refLen n arg
    makeReferenceInt n (Int64.ofInt length)
  | args => arityError "len() takes 1 positional argument" args.length

def evalCallBool (args : List Int) : M Int :=
  match args with
  | [arg] => do
    let truth ← refBool arg
    boolRef truth
  | args => arityError "bool() takes 1 positional argument" args.length

/-- The functions that `eval_call` knows -/
def callFunction (name : String) (args : List Int) : M Int :=
  if name = "exit" ∨ name = "quit" then evalCallExit n args
  else if name = "mem" then evalCallMem n args
  else if name = "gc" then evalCallGc collect args
  else if name = "print" then evalCallPrint n args
  else if name = "len" then evalCallLen n args
  else if name = "bool" then evalCallBool args
  else do
    exceptionSetFormat .nameError s!"no such function '{name}'"
    pure nullRef

section
variable (evalExpr : Node → M Int)

def evalNotTest (operand : Node) : M Int := do
  let operand ← evalExpr operand
  if ← exceptionOccurred then
    lose operand
    pure nullRef
  else
    let truth ← refBool operand
    let result ← boolRef (!truth)
    decref n operand
    pure result

/-- `eval_and_test`, and `eval_or_test` with `true` -/
def evalShortCircuit (stop : Bool) (left right : Node) : M Int := do
  let left ← evalExpr left
  if ← exceptionOccurred then
    lose left
    pure nullRef
  else
    let truth ← refBool left
    if truth = stop then pure left
    else
      decref n left
      evalExpr right

def evalAndTest : Node → Node → M Int := evalShortCircuit n evalExpr false

def evalOrTest : Node → Node → M Int := evalShortCircuit n evalExpr true

/-- The operation of `eval_builtin`, once the operands are there -/
def applyBuiltin (type : BuiltinType) (left right : Int) : M Int := do
  if type = .equals then
    let equal ← refEq n left right
    boolRef equal
  else if type.isComparison then refCompare n type left right
  else refBuiltin n type left right

/-- The right operand of `eval_builtin`, which is the left one again in a unary operation -/
def evalRight (left : Int) : Option Node → M Int
  | some right => holding [left] (evalExpr right)
  | none => do
    incref left
    pure left

def evalBuiltin (type : BuiltinType) (left : Node) (right : Option Node) : M Int := do
  let left ← evalExpr left
  if ← exceptionOccurred then
    lose left
    pure nullRef
  else
    let rightRef ← evalRight evalExpr left right
    let failed ← exceptionOccurred
    if right.isSome ∧ failed then
      lose rightRef
      decref n left
      pure nullRef
    else
      let result ← applyBuiltin n type left rightRef
      decref n left
      decref n rightRef
      pure result

def evalSubscript (obj index : Node) : M Int := do
  let target ← evalExpr obj
  if ← exceptionOccurred then
    lose target
    pure nullRef
  else
    let index ← holding [target] (evalExpr index)
    if ← exceptionOccurred then
      lose index
      decref n target
      pure nullRef
    else
      let result ← refSubscrGet n target index
      decref n target
      decref n index
      pure result

/-- The loop of `eval_literal_list`; it returns whether it came to the end. -/
def storeElements (refArray : Int) (valArray : Nat) : List Node → Nat → M Bool
  | [], _ => pure true
  | value :: values, idx => do
    let ref ← evalExpr value
    checkCurrent refArray valArray
    overwriteSlot valArray idx ref
    if ← exceptionOccurred then pure false
    else storeElements refArray valArray values (idx + 1)

def evalLiteralList (values : List Node) : M Int := do
  let refArray ← makeReferenceRefarray n values.length
  if ← exceptionOccurred then
    lose refArray
    pure nullRef
  else
    let valArray ← deref refArray
    let refList ← makeReferenceList n
    if ← exceptionOccurred then
      lose refList
      decref n refArray
      pure nullRef
    else
      let valList ← deref refList
      modifyMem fun m => storeListValues m valList refArray
      modifyMem fun m => storeSizeField m valList values.length
      if ← holding [refList] (storeElements evalExpr refArray valArray values 0) then
        pure refList
      else
        decref n refList
        pure nullRef

/-- The loop of `eval_literal_dict`; it returns whether it came to the end. -/
def storeEntries (refDict : Int) (valDict : Nat) : List (Node × Node) → M Bool
  | [] => pure true
  | (keyNode, valueNode) :: entries => do
    let key ← holding [refDict] (evalExpr keyNode)
    (if ← exceptionOccurred then lose key
    else do
      let value ← holding [key, refDict] (evalExpr valueNode)
      (if ← exceptionOccurred then lose value
      else do
        checkCurrent refDict valDict
        dictSubscrSet (refHash n) (refEq n) n valDict key value
        decref n value)
      decref n key)
    if ← exceptionOccurred then pure false else storeEntries refDict valDict entries

def evalLiteralDict (entries : List (Node × Node)) : M Int := do
  let capacity := max (entries.length * 2) 16
  let refKeyArray ← makeReferenceRefarray n capacity
  if ← exceptionOccurred then
    lose refKeyArray
    pure nullRef
  else
    let refValueArray ← makeReferenceRefarray n capacity
    if ← exceptionOccurred then
      lose refValueArray
      decref n refKeyArray
      pure nullRef
    else
      let refDict ← makeReferenceDict n
      if ← exceptionOccurred then
        lose refDict
        decref n refValueArray
        decref n refKeyArray
        pure nullRef
      else
        let valDict ← deref refDict
        modifyMem fun m => storeDictKeys m valDict refKeyArray
        modifyMem fun m => storeDictValues m valDict refValueArray
        modifyMem fun m => storeSizeField m valDict 0
        modifyMem fun m => storeDictOccupied m valDict 0
        if ← storeEntries n evalExpr refDict valDict entries then pure refDict
        else
          decref n refDict
          pure nullRef

def evalArgs : List Node → List Int → M (List Int)
  | [], args => pure args
  | arg :: rest, args => do
    let ref ← holding args (evalExpr arg)
    if ← exceptionOccurred then
      lose ref
      pure args
    else evalArgs rest (args ++ [ref])

def releaseAll : List Int → M Unit
  | [] => pure ()
  | ref :: refs => do
    decref n ref
    releaseAll refs

def evalCall (func : Node) (args : List Node) : M Int := do
  (match func with
  | .identifier _ => pure ()
  | _ => exceptionSet .syntaxError "calling non-identifiers not supported")
  let args ← evalArgs evalExpr args []
  let result ← (do
    if ← exceptionOccurred then pure nullRef
    else
      match func with
      | .identifier name => callFunction collect n name args
      | _ => throw .outOfBounds)
  releaseAll n args.reverse
  pure result

end

def evalExpr : Nat → Node → M Int
  | 0, _ => throw .outOfFuel
  | n + 1, node =>
    match node with
    | .literalString value => makeReferenceString n value.bytes
    | .literalInteger value => makeReferenceInt n value
    | .literalList values => evalLiteralList n (evalExpr n) values
    | .literalDict entries => evalLiteralDict n (evalExpr n) entries
    | .literalSingleton singleton => singletonToRef singleton
    | .identifier name => globalsGet name
    | .notTest operand => evalNotTest n (evalExpr n) operand
    | .andTest left right => evalAndTest n (evalExpr n) left right
    | .orTest left right => evalOrTest n (evalExpr n) left right
    | .builtin type left right => evalBuiltin n (evalExpr n) type left right
    | .call func args => evalCall collect n (evalExpr n) func args
    | .subscript obj index => evalSubscript n (evalExpr n) obj index
    | node => do
      exceptionSetFormat .internal s!"ast node type '{node.type}' not implemented"
      pure nullRef

section
variable (evalExpr evalStmt : Node → M Int)

/-- `eval_stmt_sequence`, with the result of the last statement -/
def evalStmtSequence : List Node → Int → M Int
  | [], result => pure result
  | stmt :: stmts, result => do
    (if result ≠ nullRef then decref n result else pure ())
    let result ← evalStmt stmt
    if ← exceptionOccurred then
      lose result
      pure nullRef
    else evalStmtSequence stmts result

def assignSubscript (obj index right : Node) : M Unit := do
  let right ← evalExpr right
  if ← exceptionOccurred then lose right
  else
    let target ← holding [right] (evalExpr obj)
    (if ← exceptionOccurred then lose target
    else do
      let index ← holding [target, right] (evalExpr index)
      (if ← exceptionOccurred then lose index
      else do
        refSubscrSet n target index right
        decref n index)
      decref n target)
    decref n right

def evalStmtAssign (left right : Node) : M Unit :=
  match left with
  | .literalString _ | .literalInteger _ | .literalSingleton _ =>
    exceptionSet .syntaxError "can't assign to literal"
  | .literalDict _ | .literalList _ =>
    exceptionSet .syntaxError "assignment destructuring not implemented"
  | .identifier name => do
    let right ← evalExpr right
    if ← exceptionOccurred then lose right
    else
      globalsSet n name right
      decref n right
  | .notTest _ | .andTest .. | .orTest .. | .builtin .. =>
    exceptionSet .syntaxError "can't assign to operator"
  | .call .. => exceptionSet .syntaxError "can't assign to function call"
  | .subscript obj index => assignSubscript n evalExpr obj index right
  | left =>
    exceptionSetFormat .internal s!"assignment target node type '{left.type}' not implemented"

def evalStmtDel (arg : Node) : M Unit :=
  match arg with
  | .literalString _ | .literalInteger _ | .literalSingleton _ =>
    exceptionSet .syntaxError "can't delete literal"
  | .literalDict _ | .literalList _ =>
    exceptionSet .syntaxError "deletion destructuring not implemented"
  | .identifier name => globalsDelete n name
  | .notTest _ | .andTest .. | .orTest .. | .builtin .. =>
    exceptionSet .syntaxError "can't delete operator"
  | .call .. => exceptionSet .syntaxError "can't delete function call"
  | .subscript obj index => do
    let target ← evalExpr obj
    if ← exceptionOccurred then lose target
    else
      let index ← holding [target] (evalExpr index)
      (if ← exceptionOccurred then lose index
      else do
        refSubscrDel n target index
        decref n index)
      decref n target
  | arg =>
    exceptionSetFormat .internal s!"deletion target node type '{arg.type}' not implemented"

def evalStmtIf (cond left : Node) (right : Option Node) : M Unit := do
  let condRef ← evalExpr cond
  if ← exceptionOccurred then lose condRef
  else
    let cond ← refBool condRef
    decref n condRef
    if cond then lose (← evalStmt left)
    else
      match right with
      | some right => lose (← evalStmt right)
      | none => pure ()

def evalStmtWhile (cond body : Node) : Nat → M Unit
  | 0 => throw .outOfFuel
  | k + 1 => do
    let condRef ← evalExpr cond
    if ← exceptionOccurred then lose condRef
    else
      let cond' ← refBool condRef
      decref n condRef
      if cond' then
        lose (← evalStmt body)
        evalStmtWhile cond body k
      else pure ()

end

def evalStmt : Nat → Node → M Int
  | 0, _ => throw .outOfFuel
  | n + 1, node =>
    match node with
    | .sequence statements => evalStmtSequence n (evalStmt n) statements nullRef
    | .assign left right => do
      evalStmtAssign n (evalExpr collect n) left right
      pure nullRef
    | .del arg => do
      evalStmtDel n (evalExpr collect n) arg
      pure nullRef
    | .ifStmt cond left right => do
      evalStmtIf n (evalExpr collect n) (evalStmt n) cond left right
      pure nullRef
    | .whileStmt cond body => do
      evalStmtWhile n (evalExpr collect n) (evalStmt n) cond body n
      pure nullRef
    | node => evalExpr collect n node

def evalRoot (root : Node) : M Int := do
  let result ← evalStmt collect n root
  if result = nullRef then
    let none ← reads State.noneRef
    incref none
    pure none
  else pure result

/-- What `eval` does once the evaluation is over -/
def report (result : Int) : M Bool := do
  if ← exceptionOccurred then
    exceptionClear
    pure false
  else
    let none ← reads State.noneRef
    (if result = none then pure () else refPrintlnRepr n result .stdout maxDepth)
    pure true

/-- `eval`; the exception is printed to `stderr`. -/
def eval (root : Option Node) : M Bool :=
  match root with
  | none => pure true
  | some root => do
    let result ← evalRoot collect n root
    let completed ← report n result
    decref n result
    pure completed

end CS24.Subpython
