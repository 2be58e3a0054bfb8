import CS24.Subpython.Scalars

/-!
# Lists and dictionaries

`eval_list.c` and `eval_dict.c`. The functions of `eval_types.c` that call them, and which
they call again for what they contain, are parameters here.
-/

namespace CS24.Subpython
open Machine Mem

variable (n : Nat)

def listCoerce (obj : Nat) : M Unit := coerce obj [.list]

def listCoerceSubscript (list obj : Nat) : M Int := do
  let m ← reads State.mem
  if typeOf m obj ≠ some .integer then
    exceptionSet .typeError "list indices must be integers"
    pure 0
  else
    let size := sizeField m list
    let value := (integerValue m obj).toInt
    let idx := if value < 0 then value + size else value
    if idx < 0 ∨ size ≤ idx then
      exceptionSet .indexError "list index out of bounds"
      pure 0
    else pure idx

/-- `list_refarray`, and `dict_keyarray` and `dict_valuearray` for the other fields -/
def refarrayOf (field : Mem → Nat → Int) (obj : Nat) : M Nat := do
  let m ← reads State.mem
  let array ← deref (field m obj)
  coerce array [.refArray]
  pure array

def listRefarray : Nat → M Nat := refarrayOf listValues

def listLen (obj : Nat) : M Int := do
  listCoerce obj
  reads fun s => sizeField s.mem obj

def listBool (obj : Nat) : M Bool := do
  let length ← listLen obj
  pure (0 < length)

/-- The loop of `list_cmp`, with `k` elements left before `minSize` -/
def listCmpFrom (compare : Int → Int → M Int) (lvals rvals minSize : Nat) : Nat → M (Option Int)
  | 0 => pure none
  | k + 1 => do
    let l ← readSlot lvals (minSize - (k + 1))
    let r ← readSlot rvals (minSize - (k + 1))
    let comparison ← compare l r
    if ← exceptionOccurred then pure (some 0)
    else if comparison ≠ 0 then pure (some comparison)
    else listCmpFrom compare lvals rvals minSize k

def listCmp (compare : Int → Int → M Int) (lobj robj : Nat) : M Int := do
  listCoerce lobj
  listCoerce robj
  let lvals ← listRefarray lobj
  let rvals ← listRefarray robj
  let m ← reads State.mem
  let lsize := sizeField m lobj
  let rsize := sizeField m robj
  let minSize := (if lsize < rsize then lsize else rsize).toNat
  match ← listCmpFrom compare lvals rvals minSize minSize with
  | some comparison => pure comparison
  | none => pure ((if rsize < lsize then 1 else 0) - (if lsize < rsize then 1 else 0))

/-- The loop of `list_eq`, with `k` elements left -/
def listEqFrom (eq : Int → Int → M Bool) (lvals rvals size : Nat) : Nat → M Bool
  | 0 => pure true
  | k + 1 => do
    let l ← readSlot lvals (size - (k + 1))
    let r ← readSlot rvals (size - (k + 1))
    let equals ← eq l r
    let failed ← exceptionOccurred
    if ¬equals ∨ failed then pure false else listEqFrom eq lvals rvals size k

def listEq (eq : Int → Int → M Bool) (lobj robj : Nat) : M Bool := do
  listCoerce lobj
  listCoerce robj
  let m ← reads State.mem
  if sizeField m lobj ≠ sizeField m robj then pure false
  else
    let lvals ← listRefarray lobj
    let rvals ← listRefarray robj
    let size := (sizeField m lobj).toNat
    listEqFrom eq lvals rvals size size

def listSubscrGet (obj : Nat) (subscr : Int) : M Int := do
  listCoerce obj
  let idx ← listCoerceSubscript obj (← deref subscr)
  if ← exceptionOccurred then pure nullRef
  else
    let array ← listRefarray obj
    let result ← readSlot array idx.toNat
    incref result
    pure result

def listSubscrSet (obj : Nat) (subscr value : Int) : M Unit := do
  listCoerce obj
  let idx ← listCoerceSubscript obj (← deref subscr)
  if ← exceptionOccurred then pure ()
  else
    let array ← listRefarray obj
    decref n (← readSlot array idx.toNat)
    incref value
    writeSlot array idx.toNat value

/-- The loop of `list_subscr_del` that moves the last `k` elements up by one slot -/
def shiftSlots (array size : Nat) : Nat → M Unit
  | 0 => pure ()
  | k + 1 => do
    let next ← readSlot array (size - (k + 1) + 1)
    writeSlot array (size - (k + 1)) next
    shiftSlots array size k

def listSubscrDel (obj : Nat) (subscr : Int) : M Unit := do
  listCoerce obj
  let idx ← listCoerceSubscript obj (← deref subscr)
  if ← exceptionOccurred then pure ()
  else
    let array ← listRefarray obj
    modifyMem fun m => storeSizeField m obj (sizeField m obj - 1)
    decref n (← readSlot array idx.toNat)
    let m ← reads State.mem
    let size := (sizeField m obj).toNat
    shiftSlots array size (size - idx.toNat)
    writeSlot array size nullRef

/-- The elements of a list after the first, printed by `list_print` -/
def listPrintFrom (print : Int → Stream → Nat → M Unit) (array : Nat) (stream : Stream)
    (depth size : Nat) : Nat → M Unit
  | 0 => pure ()
  | k + 1 => do
    fprintf stream (bytesOf ", ")
    let element ← readSlot array (size - (k + 1))
    print element stream depth
    listPrintFrom print array stream depth size k

def listPrint (print : Int → Stream → Nat → M Unit) (obj : Nat) (stream : Stream) (depth : Nat) :
    M Unit := do
  if depth = 0 then fprintf stream placeholder
  else
    listCoerce obj
    let array ← listRefarray obj
    fprintf stream (bytesOf "[")
    let m ← reads State.mem
    let size := (sizeField m obj).toNat
    (if 1 ≤ size then do
      let element ← readSlot array 0
      print element stream (depth - 1)
      listPrintFrom print array stream (depth - 1) size (size - 1)
    else pure ())
    fprintf stream (bytesOf "]")

def dictCoerce (obj : Nat) : M Unit := coerce obj [.dict]

def dictKeyarray : Nat → M Nat := refarrayOf dictKeys

def dictValuearray : Nat → M Nat := refarrayOf dictValues

/-- The loop of `keys_find` from `bucket` on, with `k` of `capacity` slots left -/
def keysFindFrom (eq : Int → Int → M Bool) (keys bucket : Nat) (subscr : Int)
    (skipTombstones : Bool) (capacity : Nat) : Nat → M Int
  | 0 => pure (-1)
  | k + 1 => do
    let next := bucket + (capacity - (k + 1))
    let current := if capacity < next then next - capacity else next
    let key ← readSlot keys current
    if skipTombstones ∧ key = tombstoneRef then
      keysFindFrom eq keys bucket subscr skipTombstones capacity k
    else if key = nullRef ∨ key = tombstoneRef then pure current
    else if ← eq subscr key then pure current
    else keysFindFrom eq keys bucket subscr skipTombstones capacity k

def keysFind (eq : Int → Int → M Bool) (keys hash : Nat) (subscr : Int) (skipTombstones : Bool) :
    M Int := do
  let m ← reads State.mem
  let capacity := capacity m keys
  if capacity = 0 then throw .divisionTrap
  else keysFindFrom eq keys (hash % capacity) subscr skipTombstones capacity capacity

section
variable (hash : Int → M Nat) (eq : Int → Int → M Bool)

/-- The loop of `dict_upsize` that enters the keys into the new arrays, with `k` slots left; it
returns whether it came to the end. -/
def rehash (keys values newKeys newValues capacity : Nat) : Nat → M Bool
  | 0 => pure true
  | k + 1 => do
    let key ← readSlot keys (capacity - (k + 1))
    if key = tombstoneRef ∨ key = nullRef then rehash keys values newKeys newValues capacity k
    else
      let value ← readSlot values (capacity - (k + 1))
      let h ← hash key
      if ← exceptionOccurred then pure false
      else
        let idx ← keysFind eq newKeys h key false
        incref key
        incref value
        if idx < 0 then throw .outOfBounds
        else
          overwriteSlot newKeys idx.toNat key
          overwriteSlot newValues idx.toNat value
          rehash keys values newKeys newValues capacity k

def dictUpsize (dict : Nat) : M Unit := do
  let keys ← dictKeyarray dict
  let values ← dictValuearray dict
  let m ← reads State.mem
  let capacity := capacity m keys
  let refKeys ← makeReferenceRefarray n (capacity * 2)
  if ← exceptionOccurred then lose refKeys
  else
    let refValues ← makeReferenceRefarray n (capacity * 2)
    if ← exceptionOccurred then
      lose refValues
      decref n refKeys
    else
      let newKeys ← deref refKeys
      let newValues ← deref refValues
      if ← rehash hash eq keys values newKeys newValues capacity capacity then
        let m ← reads State.mem
        decref n (dictKeys m dict)
        let m ← reads State.mem
        decref n (dictValues m dict)
        modifyMem fun m => storeDictKeys m dict refKeys
        modifyMem fun m => storeDictValues m dict refValues
        modifyMem fun m => storeDictOccupied m dict (sizeField m dict)
      else
        decref n refKeys
        decref n refValues

def dictMaybeUpsize (dict : Nat) : M Unit := do
  let keys ← dictKeyarray dict
  let m ← reads State.mem
  if (capacity m keys : Int) ≤ dictOccupied m dict * 2 then dictUpsize n hash eq dict
  else pure ()

def dictLen (obj : Nat) : M Int := do
  dictCoerce obj
  reads fun s => sizeField s.mem obj

def dictBool (obj : Nat) : M Bool := do
  let length ← dictLen obj
  pure (0 < length)

/-- The condition `idx >= 0 && keys->values[idx] != NULL_REF` -/
def slotInUse (keys : Nat) (idx : Int) : M Bool := do
  if idx < 0 then pure false
  else
    let key ← readSlot keys idx.toNat
    pure (key != nullRef)

def dictSubscrGet (obj : Nat) (subscr : Int) : M Int := do
  dictCoerce obj
  let keys ← dictKeyarray obj
  let values ← dictValuearray obj
  let h ← hash subscr
  if ← exceptionOccurred then pure nullRef
  else
    let idx ← keysFind eq keys h subscr true
    if ← slotInUse keys idx then
      let result ← readSlot values idx.toNat
      incref result
      pure result
    else
      exceptionSet .keyError "no value found for key in dictionary"
      pure nullRef

/-- A new entry of `dict_subscr_set` -/
def dictInsert (dict keys values idx : Nat) (subscr value : Int) : M Unit := do
  let key ← readSlot keys idx
  assert (key = nullRef ∨ key = tombstoneRef)
  modifyMem fun m => storeSizeField m dict (sizeField m dict + 1)
  (if key = nullRef then modifyMem fun m => storeDictOccupied m dict (dictOccupied m dict + 1)
  else pure ())
  decref n key
  decref n (← readSlot values idx)
  incref subscr
  incref value
  writeSlot keys idx subscr
  writeSlot values idx value

/-- `dict_subscr_set`, which may call itself -/
def dictSubscrSet : Nat → Nat → Int → Int → M Unit
  | 0, _, _, _ => throw .outOfFuel
  | n + 1, obj, subscr, value => do
    dictCoerce obj
    let keys ← dictKeyarray obj
    let values ← dictValuearray obj
    let h ← hash subscr
    if ← exceptionOccurred then pure ()
    else
      let idx ← keysFind eq keys h subscr true
      if ← slotInUse keys idx then
        decref n (← readSlot values idx.toNat)
        incref value
        writeSlot values idx.toNat value
      else
        let idx ← keysFind eq keys h subscr false
        if 0 ≤ idx then
          dictInsert n obj keys values idx.toNat subscr value
          dictMaybeUpsize n hash eq obj
        else
          dictUpsize n hash eq obj
          dictSubscrSet n obj subscr value

def dictSubscrDel (obj : Nat) (subscr : Int) : M Unit := do
  dictCoerce obj
  let keys ← dictKeyarray obj
  let values ← dictValuearray obj
  let h ← hash subscr
  if ← exceptionOccurred then pure ()
  else
    let idx ← keysFind eq keys h subscr true
    if ← slotInUse keys idx then
      modifyMem fun m => storeSizeField m obj (sizeField m obj - 1)
      decref n (← readSlot keys idx.toNat)
      decref n (← readSlot values idx.toNat)
      writeSlot keys idx.toNat tombstoneRef
      writeSlot values idx.toNat nullRef
    else exceptionSet .keyError "can't delete nonexistant key in dictionary"

/-- The loop of `dict_eq`, with `k` slots left -/
def dictEqFrom (lkeys lvalues rkeys rvalues capacity : Nat) : Nat → M Bool
  | 0 => pure true
  | k + 1 => do
    let key ← readSlot lkeys (capacity - (k + 1))
    if key = nullRef ∨ key = tombstoneRef then dictEqFrom lkeys lvalues rkeys rvalues capacity k
    else
      let h ← hash key
      let ridx ← keysFind eq rkeys h key true
      let equals ← (do
        if ← slotInUse rkeys ridx then
          let l ← readSlot lvalues (capacity - (k + 1))
          let r ← readSlot rvalues ridx.toNat
          eq l r
        else pure false)
      let failed ← exceptionOccurred
      if failed ∨ ¬equals then pure false else dictEqFrom lkeys lvalues rkeys rvalues capacity k

def dictEq (l r : Nat) : M Bool := do
  dictCoerce l
  dictCoerce r
  let m ← reads State.mem
  if sizeField m l ≠ sizeField m r then pure false
  else
    let lkeys ← dictKeyarray l
    let lvalues ← dictValuearray l
    let rkeys ← dictKeyarray r
    let rvalues ← dictValuearray r
    let capacity := capacity m lkeys
    dictEqFrom hash eq lkeys lvalues rkeys rvalues capacity capacity

end

/-- The loop of `dict_print`, with `k` slots left -/
def dictPrintFrom (print : Int → Stream → Nat → M Unit) (keys values : Nat) (stream : Stream)
    (depth capacity : Nat) : Nat → Bool → M Unit
  | 0, _ => pure ()
  | k + 1, comma => do
    let key ← readSlot keys (capacity - (k + 1))
    if key = nullRef ∨ key = tombstoneRef then
      dictPrintFrom print keys values stream depth capacity k comma
    else
      (if comma then fprintf stream (bytesOf ", ") else pure ())
      print key stream depth
      fprintf stream (bytesOf ": ")
      let value ← readSlot values (capacity - (k + 1))
      print value stream depth
      dictPrintFrom print keys values stream depth capacity k true

def dictPrint (print : Int → Stream → Nat → M Unit) (obj : Nat) (stream : Stream) (depth : Nat) :
    M Unit := do
  if depth = 0 then fprintf stream placeholder
  else
    dictCoerce obj
    let keys ← dictKeyarray obj
    let values ← dictValuearray obj
    fprintf stream (bytesOf "\x7b")
    let m ← reads State.mem
    let capacity := capacity m keys
    dictPrintFrom print keys values stream (depth - 1) capacity capacity false
    fprintf stream (bytesOf "\x7d")

end CS24.Subpython
