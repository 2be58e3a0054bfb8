import CS24.Machine.Memory
import CS24.Machine.Program

/-!
# Values and the state of the interpreter

The structures of `types.h` as they lie in memory, and the static variables of `mm.c`,
`refs.c`, `exception.c` and `eval.c` in one record. A null pointer is 0. Two fields of
the record are not in the program: they record which references the evaluator keeps in
local variables and which it has dropped without releasing them.
-/

namespace CS24.Subpython
open Machine Mem

/-- `value_type_t` -/
inductive ValueType where
  | none | bool | integer | string | list | dict | refArray | free
  deriving DecidableEq

def ValueType.code : ValueType → Nat
  | .none => 0
  | .bool => 1
  | .integer => 2
  | .string => 3
  | .list => 4
  | .dict => 5
  | .refArray => 7
  | .free => 8

def ValueType.ofCode : Nat → Option ValueType
  | 0 => some .none
  | 1 => some .bool
  | 2 => some .integer
  | 3 => some .string
  | 4 => some .list
  | 5 => some .dict
  | 7 => some .refArray
  | 8 => some .free
  | _ => .none

theorem ValueType.ofCode_code (t : ValueType) : ofCode t.code = some t := by
  cases t <;> rfl

theorem ValueType.code_lt (t : ValueType) : t.code < 2 ^ 32 := by
  cases t <;> decide

/-- `NULL_REF`; a `reference_t` is an `Int`. -/
def nullRef : Int := -1
def tombstoneRef : Int := -2

def loadRef (m : Mem) (a : Nat) : Int := (load32 m a : Int).bmod (2 ^ 32)
def storeRef (m : Mem) (a : Nat) (ref : Int) : Mem := store32 m a (ref % 2 ^ 32).toNat

section
variable (m : Mem) (v : Nat)

/-- `v->type` -/
def typeOf : Option ValueType := ValueType.ofCode (load32 m v)
/-- `v->ref_count` -/
def refCount : Nat := load64 m (v + 8)
/-- `v->value_size` -/
def valueSize : Nat := load64 m (v + 16)
/-- `next` of a `free_value_t` -/
def nextFree : Nat := load64 m (v + 8)
/-- `sizeof(value_t)` -/
def headerSize : Nat := 24
/-- `value->value_size - sizeof(value_t)` -/
def dataSize : Nat := (valueSize m v + (2 ^ 64 - headerSize)) % 2 ^ 64

/-- `size` of a `list_value_t` or a `dict_value_t` -/
def sizeField : Int := (load64 m (v + 24) : Int).bmod (2 ^ 64)
/-- `values` of a `list_value_t` -/
def listValues : Int := loadRef m (v + 32)
/-- `occupied` of a `dict_value_t` -/
def dictOccupied : Int := (load64 m (v + 32) : Int).bmod (2 ^ 64)
/-- `keys` of a `dict_value_t` -/
def dictKeys : Int := loadRef m (v + 40)
/-- `values` of a `dict_value_t` -/
def dictValues : Int := loadRef m (v + 44)
/-- `capacity` of a `ref_array_value_t` -/
def capacity : Nat := load64 m (v + 24)
/-- The address of `values[i]` of a `ref_array_value_t` -/
def slotAddress (i : Nat) : Nat := v + 32 + 4 * i
/-- `values[i]` of a `ref_array_value_t` -/
def slot (i : Nat) : Int := loadRef m (slotAddress v i)

end

def storeType (m : Mem) (v : Nat) (type : ValueType) : Mem := store32 m v type.code
def storeCount (m : Mem) (v n : Nat) : Mem := store64 m (v + 8) (n % 2 ^ 64)
def storeSize (m : Mem) (v n : Nat) : Mem := store64 m (v + 16) (n % 2 ^ 64)
def storeNext (m : Mem) (v next : Nat) : Mem := store64 m (v + 8) next

/-- `exception_t`, without `EXC_NONE` -/
inductive ExceptionType where
  | syntaxError | nameError | typeError | valueError | indexError | keyError | memoryError
  | internal
  deriving DecidableEq

structure State where
  mem : Mem
  memorySize : Nat
  memoryPool : Nat
  freeList : Nat
  pool : Nat
  /-- "from" is the first half of the pool, "to" the second -/
  f : Bool
  halfwayPoint : Nat
  actualSize : Nat
  /-- `ref_table`, of length `num_refs` -/
  refTable : List Nat
  exception : Option (ExceptionType × String)
  /-- `global_vars`, of length `num_vars` -/
  globals : List (String × Int)
  noneRef : Int
  trueRef : Int
  falseRef : Int
  /-- What was written to `stdout`. -/
  output : List UInt8
  /-- Ghost: the references in local variables of evaluator calls that wait for a nested one. -/
  held : List Int
  /-- Ghost: the references that no code will release any more. -/
  leaked : List Int

/-- Why a run does not go on: a failed assertion or an `abort`, an access outside of an
array or through a pointer that is not one to a value, a write through a null pointer, a
trap at a division, a call of `exit`, or the end of the fuel or of the observation. -/
inductive Stop where
  | assertion
  | outOfBounds
  | nullPointer
  | divisionTrap
  | exit (code : Int)
  | outOfFuel
  | paused (s : State)

abbrev M := StateT State (Except Stop)

def modifyMem (g : Mem → Mem) : M Unit := modify fun s => { s with mem := g s.mem }

def assert (p : Prop) [Decidable p] : M Unit := if p then pure () else throw .assertion

def exceptionOccurred : M Bool := reads fun s => s.exception.isSome

def exceptionSet (type : ExceptionType) (message : String) : M Unit :=
  modify fun s => { s with exception := some (type, message) }

/-- `exception_set_format`, given the formatted text. Of a text of 256 characters
`vsnprintf` leaves the first 255 in the buffer, and they are all that is copied. -/
def exceptionSetFormat (type : ExceptionType) (text : String) : M Unit :=
  exceptionSet type (if text.length = 256 then (text.take 255).toString else text)

def exceptionClear : M Unit := modify fun s => { s with exception := none }

end CS24.Subpython
