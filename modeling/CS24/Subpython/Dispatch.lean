import CS24.Subpython.Containers

/-!
# Operations on references

The dispatch functions of `eval_types.c`. Each field of `func_table_t` is a function of the
type that gives the entry of `table`, if it is set. Functions that call each other through
the table take fuel, and give what is left of it to the entries.
-/

namespace CS24.Subpython
open Machine Mem

variable (n : Nat)

/-- `obj->type` as an index of `table`, which has no entry for `VAL_REF_ARRAY`. -/
def tableIndex (obj : Nat) : M ValueType := do
  match typeOf (← reads State.mem) obj with
  | some .refArray | some .free | none => throw .outOfBounds
  | some type => pure type

/-- `type_to_str(obj->type)` -/
def typestr (obj : Nat) : M String :=
  reads fun s => ((typeOf s.mem obj).map typeToStr).getD "<unknown>"

def fBool : ValueType → Option (Nat → M Bool)
  | .none | .bool => some singletonBool
  | .integer => some integerBool
  | .string => some stringBool
  | .list => some listBool
  | .dict => some dictBool
  | _ => none

def refBool (r : Int) : M Bool := do
  let obj ← deref r
  match fBool (← tableIndex obj) with
  | some f => f obj
  | none =>
    exceptionSetFormat .typeError s!"object of type '{← typestr obj}' has no bool()"
    pure true

def fLen : ValueType → Option (Nat → M Int)
  | .string => some (stringLen n)
  | .list => some listLen
  | .dict => some dictLen
  | _ => none

def refLen (r : Int) : M Int := do
  let obj ← deref r
  match fLen n (← tableIndex obj) with
  | some f => f obj
  | none =>
    exceptionSetFormat .typeError s!"object of type '{← typestr obj}' has no len()"
    pure nullRef

def fHash : ValueType → Option (Nat → M Nat)
  | .none | .bool => some singletonHash
  | .integer => some integerHash
  | .string => some (stringHash n)
  | _ => none

def refHash (r : Int) : M Nat := do
  let obj ← deref r
  match fHash n (← tableIndex obj) with
  | some f => f obj
  | none =>
    exceptionSetFormat .typeError s!"unhashable type: '{← typestr obj}'"
    pure (hashOfRef nullRef)

def builtinToStr : BuiltinType → String
  | .negate => "-"
  | .identity => "+"
  | .equals => "=="
  | .lt => "<"
  | .gt => ">"
  | .le => "<="
  | .ge => ">="
  | .add => "+"
  | .subtract => "-"
  | .multiply => "*"
  | .divide => "/"
  | .modulo => "%"

/-- `f_builtins.f_table` -/
def fBuiltin : ValueType → BuiltinType → Option (Nat → Nat → M Int)
  | .integer, .negate => some (integerUnaryopNegate n)
  | .integer, .identity => some (integerUnaryopIdentity n)
  | .integer, .add => some (integerBinopAdd n)
  | .integer, .subtract => some (integerBinopSubtract n)
  | .integer, .multiply => some (integerBinopMultiply n)
  | .integer, .divide => some (integerBinopDivide n)
  | .integer, .modulo => some (integerBinopModulo n)
  | .string, .add => some (stringBinopAdd n)
  | _, _ => none

/-- The error of `ref_builtin` -/
def builtinError (type : BuiltinType) (lobj robj : Nat) : M Int := do
  let l ← typestr lobj
  let r ← typestr robj
  exceptionSetFormat .typeError
    (if type.isUnary then s!"bad operand type for unary {builtinToStr type}: '{l}'"
    else s!"unsupported operand type(s) for {builtinToStr type}: '{l}' and '{r}'")
  pure nullRef

def refBuiltin (type : BuiltinType) (l r : Int) : M Int := do
  let lobj ← deref l
  let robj ← deref r
  let m ← reads State.mem
  if typeOf m lobj ≠ typeOf m robj then builtinError type lobj robj
  else
    match fBuiltin n (← tableIndex lobj) type with
    | some f => f lobj robj
    | none => builtinError type lobj robj

def fCmp (compare : Int → Int → M Int) : ValueType → Option (Nat → Nat → M Int)
  | .none | .bool => some singletonCmp
  | .integer => some integerCmp
  | .string => some (stringCmp n)
  | .list => some (listCmp compare)
  | _ => none

/-- The error of `compare` -/
def compareError (lobj robj : Nat) : M Int := do
  let l ← typestr lobj
  let r ← typestr robj
  exceptionSetFormat .typeError s!"type(s) are not comparable: '{l}' and '{r}'"
  pure 0

def compare : Nat → Int → Int → M Int
  | 0, _, _ => throw .outOfFuel
  | n + 1, l, r => do
    let lobj ← deref l
    let robj ← deref r
    let m ← reads State.mem
    match fCmp n (compare n) (← tableIndex lobj) with
    | some f => if typeOf m lobj ≠ typeOf m robj then compareError lobj robj else f lobj robj
    | none => compareError lobj robj

/-- What `ref_compare` makes of a comparison; `exit(-1)` in a branch not reached -/
def comparisonHolds (comparison : Int) : BuiltinType → Option Bool
  | .equals => some (comparison == 0)
  | .lt => some (comparison < 0)
  | .gt => some (0 < comparison)
  | .le => some (comparison ≤ 0)
  | .ge => some (0 ≤ comparison)
  | _ => none

def refCompare (type : BuiltinType) (l r : Int) : M Int := do
  let comparison ← compare n l r
  if ← exceptionOccurred then pure nullRef
  else
    match comparisonHolds comparison type with
    | some holds => boolRef holds
    | none => throw (.exit (-1))

def fEq (eq : Int → Int → M Bool) : ValueType → Option (Nat → Nat → M Bool)
  | .none | .bool => some singletonEq
  | .integer => some integerEq
  | .string => some (stringEq n)
  | .list => some (listEq eq)
  | .dict => some (dictEq (refHash n) eq)
  | _ => none

def refEq : Nat → Int → Int → M Bool
  | 0, _, _ => throw .outOfFuel
  | n + 1, l, r => do
    let lobj ← deref l
    let robj ← deref r
    let m ← reads State.mem
    if typeOf m lobj ≠ typeOf m robj then pure false
    else
      match fEq n (refEq n) (← tableIndex lobj) with
      | some f => f lobj robj
      | none =>
        let lstr ← typestr lobj
        let rstr ← typestr robj
        exceptionSetFormat .typeError
          s!"unsupported operand types for '==': '{lstr}' and '{rstr}'"
        pure false

def subscrError (obj : Nat) (problem : String) : M Unit := do
  exceptionSetFormat .typeError s!"'{← typestr obj}' object {problem}"

def fSubscrGet : ValueType → Option (Nat → Int → M Int)
  | .list => some listSubscrGet
  | .dict => some (dictSubscrGet (refHash n) (refEq n))
  | _ => none

def refSubscrGet (r subscr : Int) : M Int := do
  let obj ← deref r
  match fSubscrGet n (← tableIndex obj) with
  | some f => f obj subscr
  | none =>
    subscrError obj "is not subscriptable"
    pure nullRef

def fSubscrSet : ValueType → Option (Nat → Int → Int → M Unit)
  | .list => some (listSubscrSet n)
  | .dict => some (dictSubscrSet (refHash n) (refEq n) n)
  | _ => none

def refSubscrSet (r subscr value : Int) : M Unit := do
  let obj ← deref r
  match fSubscrSet n (← tableIndex obj) with
  | some f => f obj subscr value
  | none => subscrError obj "does not support item assignment"

def fSubscrDel : ValueType → Option (Nat → Int → M Unit)
  | .list => some (listSubscrDel n)
  | .dict => some (dictSubscrDel n (refHash n) (refEq n))
  | _ => none

def refSubscrDel (r subscr : Int) : M Unit := do
  let obj ← deref r
  match fSubscrDel n (← tableIndex obj) with
  | some f => f obj subscr
  | none => subscrError obj "does not support item deletion"

def fPrintRepr (print : Int → Stream → Nat → M Unit) :
    ValueType → Option (Nat → Stream → Nat → M Unit)
  | .none | .bool => some singletonPrint
  | .integer => some integerPrint
  | .string => some (stringPrintRepr n)
  | .list => some (listPrint print)
  | .dict => some (dictPrint print)
  | _ => none

/-- The error of `ref_print_repr` and `ref_print` -/
def printError (obj : Nat) : M Unit := do
  exceptionSetFormat .typeError s!"cannot print value of type '{← typestr obj}'"

def refPrintRepr : Nat → Int → Stream → Nat → M Unit
  | 0, _, _, _ => throw .outOfFuel
  | n + 1, r, stream, depth => do
    let obj ← deref r
    match fPrintRepr n (refPrintRepr n) (← tableIndex obj) with
    | some f => f obj stream depth
    | none => printError obj

def fPrint : ValueType → Option (Nat → Stream → Nat → M Unit)
  | .string => some (stringPrint n)
  | type => fPrintRepr n (refPrintRepr n) type

def refPrint (r : Int) (stream : Stream) (depth : Nat) : M Unit := do
  let obj ← deref r
  match fPrint n (← tableIndex obj) with
  | some f => f obj stream depth
  | none => printError obj

def refPrintlnRepr (r : Int) (stream : Stream) (depth : Nat) : M Unit := do
  refPrintRepr n r stream depth
  fprintf stream (bytesOf "\n")

def refPrintln (r : Int) (stream : Stream) (depth : Nat) : M Unit := do
  refPrint n r stream depth
  fprintf stream (bytesOf "\n")

end CS24.Subpython
