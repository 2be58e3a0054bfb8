import CS24.Subpython.Comparing
import CS24.Subpython.Eval

/-!
# What is printed of a value

`ref_print_repr` writes the text of the tree a reference stands for, cut off at a depth, and
changes nothing else. Two trees that are not cut off and have no quotation mark in a string
have different texts unless they are equal, although the characters of a string are written
as they are.
-/

namespace CS24.Subpython
open Machine Mem

/-- The text of a tree, cut off at a depth. -/
def Val.text : Nat → Val → List UInt8
  | 0, _ => placeholder
  | _ + 1, .none => bytesOf "None"
  | _ + 1, .bool b => bytesOf (if b then "True" else "False")
  | _ + 1, .integer i => bytesOf (toString i.toInt)
  | _ + 1, .string str => bytesOf "\"" ++ str.bytes ++ bytesOf "\""
  | depth + 1, .list elements =>
    bytesOf "[" ++ (bytesOf ", ").intercalate (elements.map (Val.text depth)) ++ bytesOf "]"

/-- The tree has at most so many levels, and no quotation mark in a string. -/
def Val.Fits : Nat → Val → Prop
  | 0, _ => False
  | depth + 1, .list elements => ∀ v ∈ elements, Val.Fits depth v
  | _ + 1, .string str => 34 ∉ str.bytes
  | _ + 1, _ => True

variable {s : State} {l r : Int} {a n k d e depth : Nat} {v w : Val} {type : ValueType}
  {stream : Stream} {text out x y : List UInt8} {vs ws : List Val}

def Val.restText (depth : Nat) (vs : List Val) : List UInt8 :=
  vs.flatMap fun v => bytesOf ", " ++ v.text depth

theorem intercalate_text (v : Val) (vs : List Val) :
    (bytesOf ", ").intercalate ((v :: vs).map (Val.text depth)) =
      v.text depth ++ Val.restText depth vs := by
  induction vs generalizing v with
  | nil => exact List.intercalate_singleton.trans (List.append_nil _).symm
  | cons w vs ih =>
    rw [List.map_cons, List.map_cons, List.intercalate_cons_cons, ← List.map_cons, ih,
      List.append_assoc]
    exact congrArg _ (List.append_assoc ..).symm

/-- What may come after the text of a value. -/
def Ends (x : List UInt8) : Prop := ∀ c ∈ x.head?, c = 44 ∨ c = 93

def isNumeral (c : UInt8) : Bool := c == 45 || (48 ≤ c && c ≤ 57)

def Val.Begins (c : UInt8) : Val → Prop
  | .none => c = 78
  | .bool _ => c = 84 ∨ c = 70
  | .integer _ => isNumeral c = true
  | .string _ => c = 34
  | .list _ => c = 91

theorem prefix_unique {p : UInt8 → Bool} (hl : ∀ c ∈ text, p c = true)
    (hr : ∀ c ∈ out, p c = true) (hx : ∀ c ∈ x.head?, p c = false)
    (hy : ∀ c ∈ y.head?, p c = false) (h : text ++ x = out ++ y) : text = out ∧ x = y := by
  have hstop : ∀ {z : List UInt8}, (∀ c ∈ z.head?, p c = false) → z.takeWhile p = [] := by
    intro z hz
    cases z with
    | nil => rfl
    | cons c z => rw [List.takeWhile_cons_of_neg (by simp [hz c rfl])]
  have htake := congrArg (List.takeWhile p) h
  rw [List.takeWhile_append_of_pos hl, List.takeWhile_append_of_pos hr, hstop hx, hstop hy,
    List.append_nil, List.append_nil] at htake
  subst htake
  exact ⟨rfl, List.append_cancel_left h⟩

theorem chars_bytesOf {t : String} (h : ∀ c ∈ t.toList, c.toNat < 256) :
    (bytesOf t).map (fun b => Char.ofNat b.toNat) = t.toList := by
  rw [bytesOf, List.map_map]
  refine (List.map_congr_left fun c hc => ?_).trans (List.map_id _)
  have hc := h c hc
  simp only [Function.comp, UInt8.toNat_ofNat', id]
  rw [Nat.mod_eq_of_lt hc, Char.ofNat_toNat]

theorem numeral_chars (i : Int) : (toString i).toList ≠ [] ∧
    ∀ c ∈ (toString i).toList, c = '-' ∨ c.isDigit = true := by
  rw [Int.toString_eq_repr, Int.repr_eq_if]
  split_ifs
  · rw [Nat.toList_repr]
    exact ⟨Nat.toDigits_ne_nil, fun c hc => .inr
      (Nat.isDigit_of_mem_toDigits (by decide) (by decide) hc)⟩
  · rw [String.toList_append, Nat.toList_repr]
    refine ⟨nofun, fun c hc => ?_⟩
    rcases List.mem_cons.mp hc with rfl | hc
    · exact .inl rfl
    · exact .inr (Nat.isDigit_of_mem_toDigits (by decide) (by decide) hc)

theorem numeral_lt {c : Char} (h : c = '-' ∨ c.isDigit = true) :
    c.toNat < 256 ∧ isNumeral (UInt8.ofNat c.toNat) = true := by
  rcases h with rfl | h
  · decide
  · have hdigits : ∀ m < 58, 48 ≤ m → m < 256 ∧ isNumeral (UInt8.ofNat m) = true := by decide
    obtain ⟨hlow, hhigh⟩ := Char.isDigit_iff_toNat.mp h
    exact hdigits c.toNat (Nat.lt_succ_of_le hhigh) hlow

theorem numeral_bytes {i : Int} {c : UInt8} (hc : c ∈ bytesOf (toString i)) :
    isNumeral c = true := by
  obtain ⟨c, hmem, rfl⟩ := List.mem_map.mp hc
  exact (numeral_lt ((numeral_chars i).2 c hmem)).2

theorem bytesOf_numeral {i j : Int} (h : bytesOf (toString i) = bytesOf (toString j)) : i = j := by
  have hi := chars_bytesOf fun c hc => (numeral_lt ((numeral_chars i).2 c hc)).1
  have hj := chars_bytesOf fun c hc => (numeral_lt ((numeral_chars j).2 c hc)).1
  rw [h, hj] at hi
  exact Int.repr_inj.mp (String.toList_injective hi.symm)

theorem text_begins (h : v.Fits d) : ∃ c rest, v.text d = c :: rest ∧ v.Begins c := by
  cases d with
  | zero => cases h
  | succ d =>
    cases v with
    | none => exact ⟨78, _, rfl, rfl⟩
    | bool b =>
      cases b with
      | true => exact ⟨84, _, rfl, .inl rfl⟩
      | false => exact ⟨70, _, rfl, .inr rfl⟩
    | integer i =>
      obtain ⟨c, rest, hc⟩ := List.exists_cons_of_ne_nil (numeral_chars i.toInt).1
      have hbytes : bytesOf (toString i.toInt) =
          UInt8.ofNat c.toNat :: rest.map fun c => UInt8.ofNat c.toNat := by
        rw [bytesOf, hc]
        rfl
      refine ⟨_, _, hbytes, numeral_bytes (i := i.toInt) ?_⟩
      rw [hbytes]
      exact List.mem_cons_self
    | string str => exact ⟨34, _, rfl, rfl⟩
    | list vs => exact ⟨91, _, rfl, rfl⟩

def typeOfByte (c : UInt8) : ValueType :=
  if c = 78 then .none
  else if c = 84 ∨ c = 70 then .bool
  else if c = 34 then .string
  else if c = 91 then .list
  else .integer

theorem Val.Begins.typeOfByte_eq {c : UInt8} (h : v.Begins c) : typeOfByte c = v.type := by
  cases v with
  | none | string | list =>
    cases h
    rfl
  | bool => rcases h with rfl | rfl <;> rfl
  | integer =>
    have hne : ∀ b, isNumeral b = false → c ≠ b := by
      rintro b hb rfl
      exact absurd (hb.symm.trans h) Bool.false_ne_true
    rw [typeOfByte, if_neg (hne _ rfl), if_neg (not_or.mpr ⟨hne _ rfl, hne _ rfl⟩),
      if_neg (hne _ rfl), if_neg (hne _ rfl)]
    rfl

theorem Val.Begins.ne {c : UInt8} (hv : v.Begins c) : c ≠ 93 := by
  rintro rfl
  cases v with
  | none | string | list => cases hv
  | bool => rcases hv with h | h <;> cases h
  | integer => cases hv

theorem ends_nil : Ends [] := fun _ h => nomatch h

theorem ends_rest (depth : Nat) (vs : List Val) (x : List UInt8) :
    Ends (Val.restText depth vs ++ 93 :: x) := by
  intro c hc
  cases vs with
  | nil => exact .inr (Option.some.inj hc).symm
  | cons v vs => exact .inl (Option.some.inj hc).symm

theorem rest_unambiguous (hv : ∀ v ∈ vs, v.Fits d) (hw : ∀ w ∈ ws, w.Fits e)
    (htext : ∀ {v w : Val} {x y : List UInt8}, v.Fits d → w.Fits e → Ends x → Ends y →
      v.text d ++ x = w.text e ++ y → v = w ∧ x = y)
    (h : Val.restText d vs ++ 93 :: x = Val.restText e ws ++ 93 :: y) : vs = ws ∧ x = y := by
  induction vs generalizing ws with
  | nil =>
    cases ws with
    | nil => exact ⟨rfl, (List.cons.inj h).2⟩
    | cons w ws => exact absurd (List.cons.inj h).1 (by decide)
  | cons v vs ih =>
    cases ws with
    | nil => exact absurd (List.cons.inj h).1 (by decide)
    | cons w ws =>
      have hcons : v.text d ++ (Val.restText d vs ++ 93 :: x) =
          w.text e ++ (Val.restText e ws ++ 93 :: y) := by
        rw [Val.restText, Val.restText, List.flatMap_cons, List.flatMap_cons, List.append_assoc,
          List.append_assoc, List.append_assoc, List.append_assoc] at h
        exact List.append_cancel_left h
      obtain ⟨rfl, hrest⟩ := htext (hv v List.mem_cons_self) (hw w List.mem_cons_self)
        (ends_rest d vs x) (ends_rest e ws y) hcons
      obtain ⟨rfl, hxy⟩ := ih (fun v hmem => hv v (List.mem_cons_of_mem _ hmem))
        (fun w hmem => hw w (List.mem_cons_of_mem _ hmem)) hrest
      exact ⟨rfl, hxy⟩

theorem text_unambiguous (hv : v.Fits d) (hw : w.Fits e) (hx : Ends x) (hy : Ends y)
    (h : v.text d ++ x = w.text e ++ y) : v = w ∧ x = y := by
  induction d generalizing e v w x y with
  | zero => cases hv
  | succ d ih =>
    obtain ⟨c, rest, hc, hbegins⟩ := text_begins hv
    obtain ⟨c', rest', hc', hbegins'⟩ := text_begins hw
    have hhead : c = c' := by
      rw [hc, hc'] at h
      exact (List.cons.inj h).1
    have htype := hbegins.typeOfByte_eq.symm.trans (hhead ▸ hbegins'.typeOfByte_eq)
    cases e with
    | zero => cases hw
    | succ e =>
      cases v with
      | none =>
        cases w with
        | none => exact ⟨rfl, List.append_cancel_left h⟩
        | bool | integer | string | list => cases htype
      | bool b =>
        cases w with
        | bool b' =>
          cases b <;> cases b'
          · exact ⟨rfl, List.append_cancel_left h⟩
          · exact absurd (List.cons.inj h).1 (by decide)
          · exact absurd (List.cons.inj h).1 (by decide)
          · exact ⟨rfl, List.append_cancel_left h⟩
        | none | integer | string | list => cases htype
      | integer i =>
        cases w with
        | integer j =>
          have hstop : ∀ {z : List UInt8}, Ends z → ∀ c ∈ z.head?, isNumeral c = false := by
            intro z hz c hc
            rcases hz c hc with rfl | rfl <;> rfl
          obtain ⟨htext, hxy⟩ := prefix_unique (fun c => numeral_bytes) (fun c => numeral_bytes)
            (hstop hx) (hstop hy) h
          exact ⟨congrArg _ (Int64.toInt_inj.mp (bytesOf_numeral htext)), hxy⟩
        | none | bool | string | list => cases htype
      | string str =>
        cases w with
        | string str' =>
          have hquote : ∀ {bytes z : List UInt8}, bytesOf "\"" ++ bytes ++ bytesOf "\"" ++ z =
              34 :: (bytes ++ 34 :: z) := by
            intro bytes z
            simp [show bytesOf "\"" = [34] from rfl]
          have hne : ∀ {bytes : List UInt8}, 34 ∉ bytes → ∀ c ∈ bytes, (c != 34) = true := by
            intro bytes hnot c hc
            exact bne_iff_ne.mpr fun h34 => hnot (h34 ▸ hc)
          have h' : 34 :: (str.bytes ++ 34 :: x) = 34 :: (str'.bytes ++ 34 :: y) :=
            hquote.symm.trans (h.trans hquote)
          have hstop : ∀ {z : List UInt8}, ∀ c ∈ (34 :: z).head?, (c != 34) = false := by
            intro z c hc
            obtain rfl := Option.some.inj hc
            rfl
          obtain ⟨hbytes, hxy⟩ := prefix_unique (hne hv) (hne hw) hstop hstop
            (List.cons.inj h').2
          exact ⟨congrArg _ (CString.ext hbytes), (List.cons.inj hxy).2⟩
        | none | bool | integer | list => cases htype
      | list vs =>
        cases w with
        | list ws =>
          have hbracket : ∀ {inner z : List UInt8}, bytesOf "[" ++ inner ++ bytesOf "]" ++ z =
              91 :: (inner ++ 93 :: z) := by
            intro inner z
            simp [show bytesOf "[" = [91] from rfl, show bytesOf "]" = [93] from rfl]
          have h' := (List.cons.inj (hbracket.symm.trans (h.trans hbracket))).2
          cases vs with
          | nil =>
            cases ws with
            | nil => exact ⟨rfl, (List.cons.inj h').2⟩
            | cons w ws =>
              obtain ⟨c, rest, hc, hbegins⟩ := text_begins (hw w List.mem_cons_self)
              rw [intercalate_text, hc] at h'
              exact absurd (List.cons.inj h').1.symm hbegins.ne
          | cons v vs =>
            cases ws with
            | nil =>
              obtain ⟨c, rest, hc, hbegins⟩ := text_begins (hv v List.mem_cons_self)
              rw [intercalate_text, hc] at h'
              exact absurd (List.cons.inj h').1 hbegins.ne
            | cons w ws =>
              rw [intercalate_text, intercalate_text, List.append_assoc, List.append_assoc] at h'
              obtain ⟨rfl, hrest⟩ := ih (hv v List.mem_cons_self) (hw w List.mem_cons_self)
                (ends_rest d vs x) (ends_rest e ws y) h'
              obtain ⟨rfl, hxy⟩ := rest_unambiguous
                (fun v hmem => hv v (List.mem_cons_of_mem _ hmem))
                (fun w hmem => hw w (List.mem_cons_of_mem _ hmem)) ih hrest
              exact ⟨rfl, hxy⟩
        | none | bool | integer | string => cases htype

/-- The state after a text has been written. -/
def written (s : State) : Stream → List UInt8 → State
  | .stdout, out => { s with output := s.output ++ out }
  | .stderr, _ => s

theorem fprintf_ok (s : State) (stream : Stream) (out text : List UInt8) :
    fprintf stream text (written s stream out) = .ok ((), written s stream (out ++ text)) := by
  cases stream with
  | stdout =>
    have hout : s.output ++ out ++ text = s.output ++ (out ++ text) := List.append_assoc ..
    exact congrArg (fun o => (.ok ((), { s with output := o }) : Except Stop _)) hout
  | stderr => rfl

theorem mem_written : (written s stream out).mem = s.mem := by cases stream <;> rfl

theorem Refers.unique {b : Nat} {type' : ValueType} (h : Refers s r a type)
    (h' : Refers s r b type') : a = b := by
  have heq := h.deref.symm.trans h'.deref
  exact (Prod.mk.inj (Except.ok.inj heq)).1

theorem Refers.written (h : Refers s r a type) (stream : Stream) (out : List UInt8) :
    Refers (written s stream out) r a type := by
  refine ⟨?_, h.ne_zero, by rw [mem_written]; exact h.type⟩
  cases stream with
  | stderr => exact h.deref
  | stdout =>
    have hderef := h.deref
    rw [Subpython.deref, bind_of_ok (reads_eq _)] at hderef ⊢
    obtain ⟨_, s₁, hassert, hderef⟩ := bind_eq_ok.mp hderef
    obtain ⟨_, s₂, hpool, hderef⟩ := bind_eq_ok.mp hderef
    obtain ⟨rfl, -⟩ := Prod.mk.inj (Except.ok.inj hderef)
    rw [assert] at hassert hpool
    split_ifs at hassert with hrange
    · split_ifs at hpool with haddress
      · exact (bind_of_ok (assert_ok hrange)).trans (bind_of_ok (assert_ok haddress))
      · cases hpool
    · cases hassert

/-- The three singletons, as `init_singletons` makes them. -/
structure Singletons (s : State) : Prop where
  none : ∃ v, Refers s s.noneRef v .none
  bools : HasSingletons s

section
variable {print : Int → Stream → Nat → M Unit} {array : Nat}

theorem listPrintFrom_ok (harray : Refers s l array .refArray)
    (hroom : vs.length ≤ capacity s.mem array)
    (hprint : ∀ i v, vs[i]? = some v → ∀ out, print (slot s.mem array i) stream depth
      (written s stream out) = .ok ((), written s stream (out ++ v.text depth)))
    (hk : k ≤ vs.length) (out : List UInt8) :
    listPrintFrom print array stream depth vs.length k (written s stream out) =
      .ok ((), written s stream (out ++ Val.restText depth (vs.drop (vs.length - k)))) := by
  induction k generalizing out with
  | zero =>
    rw [Nat.sub_zero, List.drop_length, Val.restText, List.flatMap_nil, List.append_nil]
    rfl
  | succ k ih =>
    generalize hi : vs.length - (k + 1) = i
    obtain ⟨v, hv, hdrop⟩ := drop_step (L := vs) hk (Nat.le_refl _) hi.symm
    have hslot : readSlot array i (written s stream (out ++ bytesOf ", ")) =
        .ok (slot s.mem array i, written s stream (out ++ bytesOf ", ")) := by
      have h := readSlot_ok (k := i) (harray.written stream (out ++ bytesOf ", "))
        (by rw [mem_written]; omega)
      rwa [mem_written] at h
    rw [listPrintFrom, hi, bind_of_ok (fprintf_ok s stream out _), bind_of_ok hslot,
      bind_of_ok (hprint i v hv _), ih (by omega), hdrop, Val.restText, Val.restText,
      List.flatMap_cons]
    simp only [List.append_assoc]

theorem HasArray.written {length : Nat} (h : HasArray s a array length) :
    HasArray (written s stream out) a array length := by
  refine ⟨?_, ?_, ?_, ?_⟩
  · rw [mem_written]
    exact h.type
  · rw [mem_written]
    exact h.size
  · rw [mem_written]
    exact h.room
  · rw [mem_written]
    exact h.array.written _ _

theorem listPrint_ok {L : List Val} (ha : HasArray s a array L.length)
    (hprint : ∀ i v, L[i]? = some v → ∀ out, print (slot s.mem array i) stream depth
      (written s stream out) = .ok ((), written s stream (out ++ v.text depth)))
    (out : List UInt8) : listPrint print a stream (depth + 1) (written s stream out) =
      .ok ((), written s stream (out ++ (Val.list L).text (depth + 1))) := by
  have hcoerce : listCoerce a (written s stream out) = .ok ((), written s stream out) :=
    coerce_ok (by rw [mem_written]; exact ha.type) (List.mem_singleton_self _)
  have hsize : (sizeField (written s stream (out ++ bytesOf "[")).mem a).toNat = L.length := by
    rw [mem_written, ha.size]
    rfl
  rw [listPrint, if_neg (Nat.succ_ne_zero depth), bind_of_ok hcoerce,
    bind_of_ok (listRefarray_ok ha.written), bind_of_ok (fprintf_ok s stream out _),
    bind_of_ok (reads_eq _), hsize, Val.text]
  cases L with
  | nil =>
    rw [if_neg (by decide)]
    refine (bind_of_ok (show (pure () : M Unit) _ = .ok ((), _) from rfl)).trans ?_
    rw [fprintf_ok]
    simp [List.intercalate]
  | cons v vs =>
    have hone : 1 ≤ (v :: vs).length := Nat.succ_le_succ (Nat.zero_le _)
    have hslot : readSlot array 0 (written s stream (out ++ bytesOf "[")) =
        .ok (slot s.mem array 0, written s stream (out ++ bytesOf "[")) := by
      have h := readSlot_ok (k := 0) (ha.array.written stream (out ++ bytesOf "["))
        (by rw [mem_written]; exact hone.trans ha.room)
      rwa [mem_written] at h
    have hrest := listPrintFrom_ok (k := vs.length) ha.array ha.room hprint (Nat.le_succ _)
    have hdrop : (v :: vs).drop ((v :: vs).length - vs.length) = vs := by
      rw [List.length_cons, Nat.add_sub_cancel_left]
      rfl
    rw [if_pos hone, intercalate_text]
    have hinner : (do
        let element ← readSlot array 0
        print element stream depth
        listPrintFrom print array stream depth (v :: vs).length vs.length : M Unit)
          (written s stream (out ++ bytesOf "[")) =
        .ok ((), written s stream (out ++ bytesOf "[" ++ v.text depth ++
          Val.restText depth vs)) := by
      rw [bind_of_ok hslot, bind_of_ok (hprint 0 v rfl _), hrest, hdrop]
    refine (bind_of_ok hinner).trans ?_
    rw [fprintf_ok]
    simp only [List.append_assoc]

end

theorem singletonPrint_ok (hs : Singletons s) (h : Denotes s r v)
    (ha : Refers s r a v.type) (hv : v.type ∈ [ValueType.none, .bool]) (out : List UInt8) :
    singletonPrint a stream depth (written s stream out) =
      .ok ((), written s stream (out ++ v.text depth)) := by
  have hcoerce : coerce a [.none, .bool] (written s stream out) =
      .ok ((), written s stream out) := coerce_ok (by rw [mem_written]; exact ha.type) hv
  have href : ∀ {q b type}, Refers s q b type → deref q (written s stream out) =
      .ok (b, written s stream out) := fun h => (h.written stream out).deref
  have hrefs : (written s stream out).noneRef = s.noneRef ∧
      (written s stream out).trueRef = s.trueRef ∧
      (written s stream out).falseRef = s.falseRef := by
    cases stream <;> exact ⟨rfl, rfl, rfl⟩
  obtain ⟨hnone, htrue, hfalse⟩ := hrefs
  obtain ⟨⟨o, ho⟩, t, f, ht, hf, hne⟩ := hs
  rw [singletonPrint, bind_of_ok hcoerce]
  cases depth with
  | zero => exact fprintf_ok s stream out _
  | succ depth =>
    rw [if_neg (Nat.succ_ne_zero depth), bind_of_ok (reads_eq _), id, hnone, htrue, hfalse,
      bind_of_ok (href ho)]
    cases h with
    | none hr =>
      rw [if_pos (ha.unique ho)]
      exact fprintf_ok s stream out _
    | @bool b c hr =>
      have hnot : a ≠ o := by
        rintro rfl
        exact absurd (ha.type.symm.trans ho.type) nofun
      have hab := bool_eq ht hf (x := b) ha
      rw [if_neg hnot, bind_of_ok (href ht)]
      cases b with
      | true =>
        have hat : a = t := hab
        rw [if_pos hat]
        exact fprintf_ok s stream out _
      | false =>
        have haf : a = f := hab
        rw [if_neg (fun hat => hne (haf.symm.trans hat)), bind_of_ok (href hf), if_pos haf]
        exact fprintf_ok s stream out _
    | integer | string | list => simp [Val.type] at hv

def Prints (s : State) (stream : Stream) (r : Int) (v : Val) (n : Nat) : Prop :=
  ∀ depth out, refPrintRepr n r stream depth (written s stream out) =
    .ok ((), written s stream (out ++ v.text depth))

theorem refPrintRepr_succ (h : Refers s r a type) (hne : type ≠ .refArray ∧ type ≠ .free)
    {f : Nat → Stream → Nat → M Unit} (hf : fPrintRepr n (refPrintRepr n) type = some f)
    (out : List UInt8) : refPrintRepr (n + 1) r stream depth (written s stream out) =
      f a stream depth (written s stream out) := by
  have htype : typeOf (written s stream out).mem a = some type := by
    rw [mem_written]
    exact h.type
  rw [refPrintRepr, bind_of_ok (h.written stream out).deref,
    bind_of_ok (tableIndex_ok htype hne), hf]

theorem prints (hs : Singletons s) (h : Denotes s r v) (stream : Stream) :
    ∃ N, ∀ n, N ≤ n → Prints s stream r v n := by
  have hsucc : ∀ {r : Int} {v : Val} (N : Nat), (∀ n, N ≤ n → Prints s stream r v (n + 1)) →
      ∃ N, ∀ n, N ≤ n → Prints s stream r v n := by
    intro r v N h
    refine ⟨N + 1, fun n hn => ?_⟩
    obtain ⟨k, rfl⟩ : ∃ k, n = k + 1 := ⟨n - 1, by omega⟩
    exact h k (by omega)
  induction v using Val.inductOn generalizing r with
  | none =>
    refine hsucc 0 fun n _ depth out => ?_
    obtain ⟨a, ha⟩ := h.refers
    rw [refPrintRepr_succ ha ⟨nofun, nofun⟩ rfl]
    exact singletonPrint_ok hs h ha (by simp [Val.type]) out
  | bool b =>
    refine hsucc 0 fun n _ depth out => ?_
    obtain ⟨a, ha⟩ := h.refers
    rw [refPrintRepr_succ ha ⟨nofun, nofun⟩ rfl]
    exact singletonPrint_ok hs h ha (by simp [Val.type]) out
  | integer i =>
    refine hsucc 0 fun n _ depth out => ?_
    cases h with
    | integer ha =>
      rw [refPrintRepr_succ ha ⟨nofun, nofun⟩ rfl, integerPrint]
      cases depth with
      | zero => exact fprintf_ok s stream out _
      | succ depth =>
        have hvalue := integerOf_ok (ha.written stream out).type
        rw [if_neg (Nat.succ_ne_zero depth), bind_of_ok hvalue, mem_written]
        exact fprintf_ok s stream out _
  | string str =>
    refine hsucc (str.bytes.length + 1) fun n hn depth out => ?_
    cases h with
    | string ha hstr =>
      rw [refPrintRepr_succ ha ⟨nofun, nofun⟩ rfl, stringPrintRepr, stringPrintGen]
      cases depth with
      | zero => exact fprintf_ok s stream out _
      | succ depth =>
        have hbytes := stringOf_ok (n := n) (ha.written stream out).type
          (by rw [mem_written]; exact hstr) (by omega)
        rw [if_neg (Nat.succ_ne_zero depth), bind_of_ok hbytes]
        exact fprintf_ok s stream out _
  | list L ih =>
    obtain ⟨a, array, ha, harray, helements⟩ := h.elements
    have hall : ∀ i < L.length, ∃ N, ∀ n, N ≤ n → ∀ v, L[i]? = some v →
        Prints s stream (slot s.mem array i) v n := by
      intro i hi
      have hget : L[i]? = some L[i] := List.getElem?_eq_getElem hi
      obtain ⟨N, hN⟩ := ih L[i] (List.getElem_mem hi) (helements i _ hget)
      refine ⟨N, fun n hn v hv => ?_⟩
      obtain rfl := Option.some.inj (hget.symm.trans hv)
      exact hN n hn
    obtain ⟨N, hN⟩ := exists_bound hall
    refine hsucc N fun n hn depth out => ?_
    rw [refPrintRepr_succ ha ⟨nofun, nofun⟩ rfl]
    cases depth with
    | zero => exact fprintf_ok s stream out _
    | succ depth =>
      refine listPrint_ok harray (fun i v hv out => ?_) out
      exact hN n hn i (List.getElem?_eq_some_iff.mp hv).1 v hv depth out

/-- With enough fuel values of any depth print, and printing them changes nothing but the output.
Two values that are not cut off and have no quotation mark in a string print the same text exactly
if `ref_eq` holds of them. -/
theorem print_unambiguous (hexc : s.exception = none) (hs : Singletons s) (hl : Denotes s l v)
    (hr : Denotes s r w) (stream : Stream) :
    ∃ N, ∀ n, N ≤ n → ∀ depth, ∃ x y equal,
      refPrintRepr n l stream depth s = .ok ((), written s stream x) ∧
      refPrintRepr n r stream depth s = .ok ((), written s stream y) ∧
      refEq n l r s = .ok (equal, s) ∧
      (v.Fits depth → w.Fits depth → (x = y ↔ equal = true)) := by
  obtain ⟨N₁, h₁⟩ := prints hs hl stream
  obtain ⟨N₂, h₂⟩ := prints hs hr stream
  obtain ⟨N₃, h₃⟩ := settles hexc hs.bools hl hr
  refine ⟨N₁ + N₂ + N₃, fun n hn depth => ?_⟩
  have hstart : written s stream [] = s := by
    cases stream with
    | stdout => rw [written, List.append_nil]
    | stderr => rfl
  have hleft := h₁ n (by omega) depth []
  have hright := h₂ n (by omega) depth []
  rw [hstart] at hleft hright
  refine ⟨_, _, _, hleft, hright, (h₃ n (by omega)).2, fun hv hw => ?_⟩
  rw [beq_iff_eq, Val.cmp_eq_zero_iff]
  constructor
  · intro htext
    have htext : v.text depth ++ [] = w.text depth ++ [] := congrArg (· ++ []) htext
    exact (text_unambiguous hv hw ends_nil ends_nil htext).1
  · rintro rfl
    rfl

/-- A pool that holds the singletons and the list `[True]`. -/
def trueInList : State :=
  { singletonsOnly with
    mem x :=
      if x = 1024 ∨ x = 1048 ∨ x = 1096 ∨ x = 1136 ∨ x = 1144 then 1
      else if x = 1072 ∨ x = 1104 then 4
      else if x = 1112 then 7
      else 0
    memorySize := 160
    actualSize := 160
    halfwayPoint := 1080
    refTable := [1000, 1024, 1048, 1072, 1112]
    noneRef := 0
    trueRef := 1
    falseRef := 2 }

theorem print_unambiguous_list : ∃ N, ∀ n, N ≤ n → ∃ x y equal,
    refPrintRepr n 3 .stdout maxDepth trueInList =
      .ok ((), { trueInList with output := trueInList.output ++ x }) ∧
    refPrintRepr n 1 .stdout maxDepth trueInList =
      .ok ((), { trueInList with output := trueInList.output ++ y }) ∧
    refEq n 3 1 trueInList = .ok (equal, trueInList) ∧ (x = y ↔ equal = true) := by
  have hnone : Refers trueInList trueInList.noneRef 1000 .none :=
    ⟨rfl, by decide, by decide +kernel⟩
  have htrue : Refers trueInList trueInList.trueRef 1024 .bool :=
    ⟨rfl, by decide, by decide +kernel⟩
  have hfalse : Refers trueInList trueInList.falseRef 1048 .bool :=
    ⟨rfl, by decide, by decide +kernel⟩
  have hlist : Refers trueInList 3 1072 .list := ⟨rfl, by decide, by decide +kernel⟩
  have harray : Refers trueInList (listValues trueInList.mem 1072) 1112 .refArray :=
    ⟨by rw [show listValues trueInList.mem 1072 = 4 by decide +kernel]; rfl, by decide,
      by decide +kernel⟩
  have hone : Denotes trueInList 1 (.bool true) := Denotes.bool (b := true) htrue
  have hslot : slot trueInList.mem 1112 0 = 1 := by decide +kernel
  have hl : Denotes trueInList 3 (.list [.bool true]) := by
    refine .list hlist (by decide +kernel) harray (by decide +kernel) fun i x hx => ?_
    cases i with
    | zero =>
      obtain rfl := Option.some.inj hx
      rw [hslot]
      exact hone
    | succ i => cases hx
  have hfits : (Val.list [.bool true]).Fits maxDepth := by
    intro v hv
    obtain rfl := List.mem_singleton.mp hv
    trivial
  obtain ⟨N, hN⟩ := print_unambiguous rfl ⟨⟨1000, hnone⟩, 1024, 1048, htrue, hfalse, by decide⟩ hl
    hone .stdout
  refine ⟨N, fun n hn => ?_⟩
  obtain ⟨x, y, equal, hx, hy, hequal, hiff⟩ := hN n hn maxDepth
  exact ⟨x, y, equal, hx, hy, hequal, hiff hfits trivial⟩

end CS24.Subpython
