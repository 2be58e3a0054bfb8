import CS24.Subpython.Values

/-!
# Singletons, integers and strings

The functions of `eval_types.c` for values that refer to no other value.
-/

namespace CS24.Subpython
open Machine Mem

def typeToStr : ValueType → String
  | .none => "NoneType"
  | .bool => "bool"
  | .integer => "int"
  | .string => "str"
  | .list => "list"
  | .dict => "dict"
  | _ => "<unknown>"

inductive Stream where
  | stdout | stderr
  deriving DecidableEq

def bytesOf (text : String) : List UInt8 := text.toList.map fun c => UInt8.ofNat c.toNat

/-- `fprintf`, given the formatted text; only what goes to `stdout` is kept. -/
def fprintf : Stream → List UInt8 → M Unit
  | .stdout, text => modify fun s => { s with output := s.output ++ text }
  | .stderr, _ => pure ()

def placeholder : List UInt8 := bytesOf "..."

def singletonToRefBorrow (type : SingletonType) : M Int :=
  reads fun s => match type with
    | .none => s.noneRef
    | .true => s.trueRef
    | .false => s.falseRef

def singletonToRef (type : SingletonType) : M Int := do
  let result ← singletonToRefBorrow type
  incref result
  pure result

def boolRef (value : Bool) : M Int := do
  let s ← reads id
  let result := if value then s.trueRef else s.falseRef
  incref result
  pure result

def singletonBool (obj : Nat) : M Bool := do
  coerce obj [.none, .bool]
  let isTrue ← deref (← reads State.trueRef)
  pure (obj == isTrue)

/-- A `reference_t` as a `uint64_t` -/
def hashOfRef (ref : Int) : Nat := (ref % 2 ^ 64).toNat

/-- `singleton_hash`; `bool_ref` makes a new reference, and only its number is used. -/
def singletonHash (obj : Nat) : M Nat := do
  let s ← reads id
  if typeOf s.mem obj = some .none then pure (hashOfRef s.noneRef)
  else
    let ref ← boolRef (← singletonBool obj)
    lose ref
    pure (hashOfRef ref)

def singletonCmp (l r : Nat) : M Int := do
  coerce l [.none, .bool]
  let m ← reads State.mem
  assert (typeOf m l = typeOf m r)
  let lval ← singletonBool l
  let rval ← singletonBool r
  pure ((if lval then 1 else 0) - (if rval then 1 else 0))

def singletonEq (l r : Nat) : M Bool := do
  coerce l [.none, .bool]
  coerce r [.none, .bool]
  pure (l == r)

def singletonPrint (obj : Nat) (stream : Stream) (depth : Nat) : M Unit := do
  coerce obj [.none, .bool]
  if depth = 0 then fprintf stream placeholder
  else
    let s ← reads id
    if obj = (← deref s.noneRef) then fprintf stream (bytesOf "None")
    else if obj = (← deref s.trueRef) then fprintf stream (bytesOf "True")
    else if obj = (← deref s.falseRef) then fprintf stream (bytesOf "False")
    else throw (.exit (-1))

/-- `integer_coerce` and a load of `integer_value` -/
def integerOf (obj : Nat) : M Int64 := do
  coerce obj [.integer]
  reads fun s => integerValue s.mem obj

def integerBool (obj : Nat) : M Bool := do
  let value ← integerOf obj
  pure (value != 0)

def integerHash (obj : Nat) : M Nat := do
  let value ← integerOf obj
  pure value.toUInt64.toNat

def integerCmp (l r : Nat) : M Int := do
  let lval ← integerOf l
  let rval ← integerOf r
  pure ((if rval < lval then 1 else 0) - (if lval < rval then 1 else 0))

def integerEq (l r : Nat) : M Bool := do
  let comparison ← integerCmp l r
  pure (comparison == 0)

def integerUnaryop (n : Nat) (op : Int64 → Int64) (l _r : Nat) : M Int := do
  let value ← integerOf l
  makeReferenceInt n (op value)

def integerUnaryopNegate (n : Nat) : Nat → Nat → M Int := integerUnaryop n fun i => -i
def integerUnaryopIdentity (n : Nat) : Nat → Nat → M Int := integerUnaryop n id

/-- A binary operation; `none` is a trap. -/
def integerBinop (n : Nat) (op : Int64 → Int64 → Option Int64) (l r : Nat) : M Int := do
  let lval ← integerOf l
  let rval ← integerOf r
  match op lval rval with
  | some result => makeReferenceInt n result
  | none => throw .divisionTrap

def divides (l r : Int64) : Bool := r != 0 && !(l == Int64.minValue && r == -1)

def integerBinopAdd (n : Nat) : Nat → Nat → M Int := integerBinop n fun l r => some (l + r)
def integerBinopSubtract (n : Nat) : Nat → Nat → M Int := integerBinop n fun l r => some (l - r)
def integerBinopMultiply (n : Nat) : Nat → Nat → M Int := integerBinop n fun l r => some (l * r)
def integerBinopDivide (n : Nat) : Nat → Nat → M Int :=
  integerBinop n fun l r => if divides l r then some (l / r) else none
def integerBinopModulo (n : Nat) : Nat → Nat → M Int :=
  integerBinop n fun l r => if divides l r then some (l % r) else none

def integerPrint (obj : Nat) (stream : Stream) (depth : Nat) : M Unit := do
  if depth = 0 then fprintf stream placeholder
  else
    let value ← integerOf obj
    fprintf stream (bytesOf (toString value.toInt))

def stringFrom : Nat → Nat → M (List UInt8)
  | 0, _ => throw .outOfFuel
  | n + 1, a => do
    let m ← reads State.mem
    if m a = 0 then pure []
    else
      let rest ← stringFrom n (a + 1)
      pure (m a :: rest)

/-- `string_coerce` and the bytes of `string_value` -/
def stringOf (n obj : Nat) : M (List UInt8) := do
  coerce obj [.string]
  stringFrom n (obj + 24)

def stringBool (obj : Nat) : M Bool := do
  coerce obj [.string]
  reads fun s => s.mem (obj + 24) != 0

/-- `string_hash`; a `char` is signed. -/
def stringHash (n obj : Nat) : M Nat := do
  let value ← stringOf n obj
  pure (value.foldl (fun hash c => ((31 * hash + c.toInt8.toInt) % 2 ^ 64).toNat) 1125899906842597)

def stringLen (n obj : Nat) : M Int := do
  let value ← stringOf n obj
  pure value.length

/-- `strcmp`, of which only the sign matters -/
def strcmp : List UInt8 → List UInt8 → Int
  | [], [] => 0
  | [], c :: _ => -c.toNat
  | c :: _, [] => c.toNat
  | c :: l, d :: r => if c = d then strcmp l r else (c.toNat : Int) - d.toNat

def stringCmp (n l r : Nat) : M Int := do
  let lval ← stringOf n l
  let rval ← stringOf n r
  pure (strcmp lval rval)

def stringEq (n l r : Nat) : M Bool := do
  let comparison ← stringCmp n l r
  pure (comparison == 0)

def stringBinopAdd (n l r : Nat) : M Int := do
  let lval ← stringOf n l
  let rval ← stringOf n r
  makeReferenceStringConcat n lval rval

/-- `string_print_gen`, given what the format puts around the string -/
def stringPrintGen (n : Nat) (quote : List UInt8) (obj : Nat) (stream : Stream) (depth : Nat) :
    M Unit := do
  if depth = 0 then fprintf stream placeholder
  else
    let value ← stringOf n obj
    fprintf stream (quote ++ value ++ quote)

def stringPrintRepr (n : Nat) : Nat → Stream → Nat → M Unit := stringPrintGen n (bytesOf "\"")
def stringPrint (n : Nat) : Nat → Stream → Nat → M Unit := stringPrintGen n []

end CS24.Subpython
