import CS24.Machine.Program
import CS24.TeenyBasic.Compile

/-!
# The TeenyBASIC parser

`parser.c`, the constructors of `ast.c` and the loop of `main` in `compiler.c`. The bytes of
the file are characters, and the functions of `ctype.h` are those of the C locale. A loop
that consumes a character each time is bounded by what is left of the file; the others take
the number of calls they may make.
-/

namespace CS24.TeenyBasic
open Machine

/-- `FILE`: the bytes before the position, the last one first, those after it, and the
end-of-file indicator. -/
structure Stream where
  before : List Char
  after : List Char
  eof : Bool

def fopen (text : List Char) : Stream := ⟨[], text, false⟩

/-- Why a call does not return: the end of the fuel, a write past the end of a token's
buffer, or `strcmp` of a null pointer. -/
inductive Fault where
  | outOfFuel
  | overflow
  | nullString

abbrev Parse := StateT Stream (Except Fault)

def fgetc : Parse (Option Char) := fun s =>
  match s.after with
  | [] => .ok (none, { s with eof := true })
  | c :: rest => .ok (some c, ⟨c :: s.before, rest, s.eof⟩)

def isspace (c : Char) : Bool := c ∈ [' ', '\t', '\n', '\x0b', '\x0c', '\r']

def maxKeywordLength : Nat := 100

def isVariableName (c : Char) : Bool := c.isUpper

def isNumberStart (c : Char) : Bool := c == '+' || c == '-' || c.isDigit

def isExpressionStart (c : Char) : Bool := c == '(' || isVariableName c || isNumberStart c

def isOperator (c : Char) : Bool := c ∈ ['+', '-', '*', '/', '<', '=', '>', '(', ')']

def advanceLoop : Nat → Parse Char
  | 0 => throw .outOfFuel
  | n + 1 => do
    match ← fgetc with
    | none => pure '\x00'
    | some c => if isspace c then advanceLoop n else pure c

def advance : Parse Char := do advanceLoop ((← reads Stream.after).length + 1)

def rewindOne : Parse Unit := modify fun s =>
  match s.before with
  | [] => s
  | c :: before => ⟨before, c :: s.after, false⟩

def peek : Parse Char := do
  let result ← advance
  rewindOne
  pure result

def cString (s : List Char) : List Char := s.takeWhile (· != '\x00')

/-- `result[index] = '\0'` -/
def terminate (result : List Char) : Parse (Option (List Char)) :=
  if result.length ≤ maxKeywordLength then pure (some (cString result)) else throw .overflow

def advanceUntilSeparatorLoop : Nat → List Char → Parse (Option (List Char))
  | 0, _ => throw .outOfFuel
  | n + 1, result => do
    match ← fgetc with
    | none => pure none
    | some c =>
      if isOperator c ∧ 0 < result.length then do
        rewindOne
        terminate result
      else if isspace c then terminate result
      else if result.length ≤ maxKeywordLength then advanceUntilSeparatorLoop n (result ++ [c])
      else throw .overflow

def advanceUntilSeparator : Parse (Option (List Char)) := do
  advanceUntilSeparatorLoop ((← reads Stream.after).length + 1) []

def skipLineLoop : Nat → Parse Unit
  | 0 => throw .outOfFuel
  | n + 1 => do
    match ← fgetc with
    | none => pure ()
    | some c => if c = '\n' then pure () else skipLineLoop n

def skipLine : Parse Unit := do
  rewindOne
  skipLineLoop ((← reads Stream.after).length + 1)

def digitValue (c : Char) : Nat :=
  if c.isDigit then c.toNat - '0'.toNat
  else if c.isLower then c.toNat - 'a'.toNat + 10
  else if c.isUpper then c.toNat - 'A'.toNat + 10
  else 36

def readDigits (base : Nat) (s : List Char) : Nat :=
  (s.takeWhile fun c => digitValue c < base).foldl (fun n c => n * base + digitValue c) 0

def readSign : List Char → Int × List Char
  | '-' :: s => (-1, s)
  | '+' :: s => (1, s)
  | s => (1, s)

def readMagnitude : List Char → Nat
  | '0' :: 'x' :: s => readDigits 16 s
  | '0' :: 'X' :: s => readDigits 16 s
  | '0' :: s => readDigits 8 s
  | s => readDigits 10 s

/-- `strtol(s, NULL, 0)`: a value out of range is replaced by the nearest one. -/
def strtol (s : List Char) : Int64 :=
  let (sign, digits) := readSign (s.dropWhile isspace)
  .ofInt (max (-2 ^ 63) (min (2 ^ 63 - 1) (sign * readMagnitude digits)))

def initNumNode (numAsStr : Option (List Char)) : Option Node :=
  numAsStr.map fun s => .num (strtol s)

def initBinaryNode (op : Char) (left right : Option Node) : Option Node := do
  return .binaryOp op (← left) (← right)

def initVarNode (name : Char) : Option Node := if name = '\x00' then none else some (.var name)

def initPrintNode (expr : Option Node) : Option Node := expr.map .print

def initLetNode (name : Char) (value : Option Node) : Option Node :=
  if name = '\x00' then none else value.map (.letVar name)

def initLabelNode (label : Option (List Char)) : Option Node :=
  label.map fun l => .label (String.ofList l)

def initGotoNode (label : Option (List Char)) : Option Node :=
  label.map fun l => .goto (String.ofList l)

def initCondNode (condition ifBranch : Option Node) : Option Node := do
  return .cond (← condition) (← ifBranch)

mutual

def factor : Nat → Parse (Option Node)
  | 0 => throw .outOfFuel
  | n + 1 => do
    let next ← peek
    if next = '\x00' then pure none
    else if next = '(' then do
      let _ ← advance
      let node ← expression n
      let next ← advance
      if next ≠ ')' then do
        rewindOne
        pure none
      else pure node
    else if isVariableName next then do
      let name ← advance
      pure (initVarNode name)
    else if isNumberStart next then do
      let numAsStr ← advanceUntilSeparator
      pure (initNumNode numAsStr)
    else pure none

def term : Nat → Parse (Option Node)
  | 0 => throw .outOfFuel
  | n + 1 => do
    let result ← factor n
    termLoop n result

/-- The loop of `term` -/
def termLoop : Nat → Option Node → Parse (Option Node)
  | 0, _ => throw .outOfFuel
  | n + 1, result => do
    let next ← advance
    if ¬ (next = '*' ∨ next = '/') then do
      rewindOne
      pure result
    else do
      let right ← factor n
      termLoop n (initBinaryNode next result right)

def expression : Nat → Parse (Option Node)
  | 0 => throw .outOfFuel
  | n + 1 => do
    let next ← peek
    if ¬ isExpressionStart next then pure none
    else do
      let result ← term n
      expressionLoop n result

/-- The loop of `expression` -/
def expressionLoop : Nat → Option Node → Parse (Option Node)
  | 0, _ => throw .outOfFuel
  | n + 1, result => do
    let next ← advance
    if ¬ (next = '+' ∨ next = '-') then do
      rewindOne
      pure result
    else do
      let right ← term n
      expressionLoop n (initBinaryNode next result right)

end

def comparison (n : Nat) : Parse (Option Node) := do
  let left ← expression n
  let op ← advance
  if ¬ (op = '<' ∨ op = '=' ∨ op = '>') then pure none
  else do
    let right ← expression n
    pure (initBinaryNode op left right)

def statement : Nat → Parse (Option Node)
  | 0 => throw .outOfFuel
  | n + 1 => do
    match ← advanceUntilSeparator with
    | none => pure none
    | some next =>
      if next = [] then pure none
      else if next.head? = some '#' then do
        skipLine
        pure none
      else if next = "GOTO".toList then do
        let label ← advanceUntilSeparator
        pure (initGotoNode label)
      else if next = "PRINT".toList then do
        let expr ← expression n
        pure (initPrintNode expr)
      else if next = "LET".toList then do
        let var ← advance
        if isVariableName var then do
          let op ← advance
          if op = '=' then do
            let value ← expression n
            pure (initLetNode var value)
          else pure none
        else pure none
      else if next = "IF".toList then do
        let cond ← comparison n
        match ← advanceUntilSeparator with
        | none => throw .nullString
        | some next =>
          if next ≠ "THEN".toList then pure none
          else do
            let ifBranch ← statement n
            pure (initCondNode cond ifBranch)
      else pure (initLabelNode (some next))

def parse (n : Nat) : Parse (Option Node) := statement n

/-- The loop of `main`: the statements that were parsed, and whether all of them compiled. -/
def mainLoop : Nat → Nat → Parse (List Node × Bool)
  | 0, _ => throw .outOfFuel
  | n + 1, labelNo => do
    if ← reads Stream.eof then pure ([], true)
    else
      match ← parse n with
      | none => mainLoop n labelNo
      | some ast =>
        let (_, labelNo, compiles) := compileAst ast labelNo
        if compiles then do
          let (asts, compiled) ← mainLoop n labelNo
          pure (ast :: asts, compiled)
        else pure ([ast], false)

end CS24.TeenyBasic
