import CS24.Subpython.Types

/-!
# Syntax trees

The nodes of `ast.h`. The parser makes no node of type `EXPR_LITERAL_FLOAT`.
-/

namespace CS24.Subpython

structure CString where
  bytes : List UInt8
  terminated : (0 : UInt8) ∉ bytes
  deriving DecidableEq

inductive SingletonType where
  | none | true | false
  deriving DecidableEq

/-- `NodeExprBuiltinType` -/
inductive BuiltinType where
  | negate | identity
  | add | subtract | multiply | divide | modulo
  | equals | lt | gt | le | ge
  deriving DecidableEq

/-- `is_unary_builtin` -/
def BuiltinType.isUnary : BuiltinType → Bool
  | .negate | .identity => true
  | _ => false

/-- `type > COMP_EQUALS` -/
def BuiltinType.isComparison : BuiltinType → Bool
  | .lt | .gt | .le | .ge => true
  | _ => false

inductive Node where
  | sequence (statements : List Node)
  | assign (left right : Node)
  | del (arg : Node)
  | ifStmt (cond left : Node) (right : Option Node)
  | whileStmt (cond body : Node)
  | literalString (value : CString)
  | literalInteger (value : Int64)
  | literalList (values : List Node)
  | literalDict (entries : List (Node × Node))
  | literalSingleton (singleton : SingletonType)
  | identifier (name : String)
  | notTest (operand : Node)
  | andTest (left right : Node)
  | orTest (left right : Node)
  | builtin (type : BuiltinType) (left : Node) (right : Option Node)
  | call (func : Node) (args : List Node)
  | subscript (obj index : Node)

/-- `node->type` -/
def Node.type : Node → Nat
  | .sequence _ => 0
  | .assign .. => 1
  | .del _ => 2
  | .ifStmt .. => 3
  | .whileStmt .. => 4
  | .literalString _ => 6
  | .literalInteger _ => 7
  | .literalList _ => 9
  | .literalDict _ => 10
  | .literalSingleton _ => 11
  | .identifier _ => 12
  | .notTest _ => 13
  | .andTest .. => 14
  | .orTest .. => 15
  | .builtin .. => 16
  | .call .. => 17
  | .subscript .. => 18

end CS24.Subpython
