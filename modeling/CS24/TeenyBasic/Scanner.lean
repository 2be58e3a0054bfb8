import CS24.TeenyBasic.Grammar

/-!
# Scanning a program

Where the parser is in a file, told by the characters alone: in which token, and what for.
Nothing of what was parsed is kept but the characters of the word that is being read and the
number of open parentheses.
-/

namespace CS24.TeenyBasic

/-- What an expression is read for: the value of a `PRINT` or `LET`, or a side of the
comparison of an `IF`. -/
inductive Goal where
  | value
  | left
  | right

/-- What a word is read for: the first word of a statement, the label of a `GOTO`, the `THEN`
of an `IF`, or a number in so many parentheses. -/
inductive Word where
  | statement
  | target
  | branch
  | number (depth : Nat) (goal : Goal)

/-- Where the parser is. The last of the modes that belong to an expression are the place of
the expression, of an operand, and after an operand. -/
inductive Mode where
  | word (kind : Word) (read : List Char)
  | comment
  | letName
  | letEquals
  | start (depth : Nat) (goal : Goal)
  | operand (depth : Nat) (goal : Goal)
  | after (depth : Nat) (goal : Goal)
  | overflow

def isArithmetic (c : Char) : Bool := c ∈ ['+', '-', '*', '/']

def finish : Goal → Char → Mode
  | .value, c => .word .statement [c]
  | .left, c => if c = '<' ∨ c = '=' ∨ c = '>' then .start 0 .right else .word .branch []
  | .right, c => .word .branch [c]

def close : Nat → Goal → Char → Mode
  | 0, g, c => finish g c
  | d + 1, g, c =>
    if c = ')' then .after d g else if isArithmetic c then .operand d g else close d g c

def stepAfter (d : Nat) (g : Goal) (c : Char) : Mode :=
  if isArithmetic c then .operand d g else close d g c

def stepOperand (d : Nat) (g : Goal) (c : Char) : Mode :=
  if c = '(' then .start (d + 1) g
  else if isVariableName c then .after d g
  else if isNumberStart c then .word (.number d g) [c]
  else stepAfter d g c

def stepStart (d : Nat) (g : Goal) (c : Char) : Mode :=
  if isExpressionStart c then stepOperand d g c else close d g c

def afterWord : Word → List Char → Mode
  | .statement, w =>
    if w = [] then .word .statement []
    else if w.head? = some '#' then .comment
    else if w = "GOTO".toList then .word .target []
    else if w = "PRINT".toList then .start 0 .value
    else if w = "LET".toList then .letName
    else if w = "IF".toList then .start 0 .left
    else .word .statement []
  | .target, _ => .word .statement []
  | .branch, _ => .word .statement []
  | .number d g, _ => .after d g

def endWord (kind : Word) (w : List Char) : Mode :=
  if w.length ≤ maxKeywordLength then afterWord kind (cString w) else .overflow

def stepToken : Mode → Char → Mode
  | .word kind _, c => .word kind [c]
  | .comment, _ => .comment
  | .letName, c => if isVariableName c then .letEquals else .word .statement []
  | .letEquals, c => if c = '=' then .start 0 .value else .word .statement []
  | .start d g, c => stepStart d g c
  | .operand d g, c => stepOperand d g c
  | .after d g, c => stepAfter d g c
  | .overflow, _ => .overflow

def stepComment (c : Char) : Mode := if c = '\n' then .word .statement [] else .comment

def afterBlank : Mode → Char → Mode
  | .comment, c => stepComment c
  | m, _ => m

def stepWord (kind : Word) (w : List Char) (c : Char) : Mode :=
  if isOperator c ∧ 0 < w.length then stepToken (endWord kind w) c
  else if isspace c then afterBlank (endWord kind w) c
  else if w.length ≤ maxKeywordLength then .word kind (w ++ [c])
  else .overflow

def skipBlank (m : Mode) (c : Char) : Mode := if isspace c then m else stepToken m c

def scanStep : Mode → Char → Mode
  | .word kind w, c => stepWord kind w c
  | .comment, c => stepComment c
  | .letName, c => skipBlank .letName c
  | .letEquals, c => skipBlank .letEquals c
  | .start d g, c => skipBlank (.start d g) c
  | .operand d g, c => skipBlank (.operand d g) c
  | .after d g, c => skipBlank (.after d g) c
  | .overflow, _ => .overflow

def scan (text : List Char) : Mode := text.foldl scanStep (.word .statement [])

def Goal.complete : Goal → Char → Bool
  | .value, _ => true
  | .left, _ => false
  | .right, last => isspace last

/-- The file may end here: no `IF` lacks its `THEN`, and no expression ends with an operator
of it. The exception is a blank at the end of a comparison, which is taken for the `THEN`. -/
def Mode.endsWell (last : Char) : Mode → Bool
  | .word .statement _ | .word .target _ | .comment | .letName | .letEquals => true
  | .word .branch _ | .overflow => false
  | .word (.number _ g) _ | .start _ g | .operand _ g | .after _ g =>
    !isArithmetic last && g.complete last

def endsWell (text : List Char) : Bool := (scan text).endsWell (text.getLast?.getD '\n')

example : endsWell "PRINT A+".toList = false := by decide

end CS24.TeenyBasic
