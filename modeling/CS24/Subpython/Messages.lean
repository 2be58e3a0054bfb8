import CS24.Subpython.Types

/-!
# Exception messages in their buffers

`exception_set_format` as it fills the two buffers. The text that the format and its
arguments produce is given. What a block of `malloc` or an array on the stack holds at first
is arbitrary, and `malloc` may return `NULL`.
-/

namespace CS24.Subpython.Messages

abbrev Bytes := List UInt8

def initialFormatBufsize : Nat := 256

/-- A value of type `int` -/
def toInt (n : Int) : Int := n.bmod (2 ^ 32)

/-- A value of type `int` as a `size_t` -/
def toSize (n : Int) : Nat := (n % 2 ^ 64).toNat

/-- `vsnprintf`: the buffer, and the length of the text or a negative number. -/
def vsnprintf (buf : Bytes) (size : Nat) (text : Bytes) : Bytes × Int :=
  let written := if size = 0 then [] else text.take (size - 1) ++ [0]
  (written ++ buf.drop written.length, if text.length < 2 ^ 31 then text.length else -1)

/-- `memcpy` to the start of `buf` -/
def memcpy (buf src : Bytes) (n : Nat) : Bytes := src.take n ++ buf.drop n

/-- `exception_set_format`; the result is the string it stores, or none after an `abort`. -/
def exceptionSetFormat (malloc : Nat → Option Bytes) (type : ExceptionType)
    (initialBuf text : Bytes) : Option (ExceptionType × Bytes) :=
  let (initialBuf, result) := vsnprintf initialBuf initialFormatBufsize text
  if result < 0 then none
  else
    (malloc (toSize (toInt (result + 1)))).map fun buf =>
      if result ≤ initialFormatBufsize then
        (type, (memcpy buf initialBuf result.toNat).set result.toNat 0)
      else (type, (vsnprintf buf (toSize (toInt (result + 1))) text).1)

/-- The string that starts at `buf` is the text. -/
def Holds (buf text : Bytes) : Prop := text ++ [0] <+: buf

variable {malloc : Nat → Option Bytes} {type : ExceptionType} {initialBuf text buf : Bytes}
  {e : ExceptionType × Bytes}

theorem vsnprintf_holds {size : Nat} (h : text.length < size) :
    Holds (vsnprintf buf size text).1 text := by
  have hsize : size ≠ 0 := by omega
  have htake : text.take (size - 1) = text := List.take_of_length_le (by omega)
  simp only [vsnprintf, if_neg hsize, htake]
  exact List.prefix_append _ _

theorem memcpy_set {n : Nat} {src : Bytes} (hsrc : n ≤ src.length) (hbuf : n < buf.length) :
    ∃ rest, (memcpy buf src n).set n 0 = src.take n ++ 0 :: rest := by
  obtain ⟨b, rest, hdrop⟩ := List.exists_cons_of_length_pos (l := buf.drop n) (by simp; omega)
  refine ⟨rest, ?_⟩
  have hlength : (src.take n).length = n := by simp [hsrc]
  rw [memcpy, hdrop, List.set_append_right _ _ hlength.le, hlength, Nat.sub_self,
    List.set_cons_zero]

theorem lt_toSize {n : Nat} (h : n < 2 ^ 31) : n < toSize (toInt (n + 1)) := by
  rw [toSize, toInt, Int.bmod]
  split_ifs <;> omega

theorem take_vsnprintf (h : text.length < initialFormatBufsize) :
    (vsnprintf buf initialFormatBufsize text).1.take text.length = text := by
  obtain ⟨rest, hrest⟩ := @vsnprintf_holds text buf initialFormatBufsize h
  rw [← hrest, List.append_assoc, List.take_left]

theorem take_vsnprintf_full (h : text.length = initialFormatBufsize) :
    (vsnprintf buf initialFormatBufsize text).1.take text.length = text.take 255 ++ [0] := by
  have hlength : text.length = (text.take 255 ++ [0]).length := by
    simp [h, initialFormatBufsize]
  rw [hlength]
  exact List.take_left

theorem append_zero_eq_iff (h : text.length = 256) : text.take 255 ++ [0] = text ↔
    text[255]? = some 0 := by
  obtain ⟨c, hc⟩ : ∃ c, text[255]? = some c := ⟨_, List.getElem?_eq_getElem (by omega)⟩
  have hsplit : text = text.take 255 ++ [c] := by
    conv_lhs => rw [← List.take_append_drop 255 text]
    rw [List.drop_eq_getElem_cons (by omega), List.drop_of_length_le (by omega)]
    rw [List.getElem?_eq_getElem (by omega), Option.some_inj] at hc
    rw [hc]
  rw [hc, Option.some_inj]
  constructor
  · intro heq
    have hboth := heq.trans hsplit
    exact (List.singleton_inj.mp (List.append_cancel_left hboth)).symm
  · rintro rfl
    exact hsplit.symm

theorem exceptionSetFormat_stores
    (hmalloc : ∀ n block, malloc n = some block → block.length = n)
    (h : exceptionSetFormat malloc type initialBuf text = some e) :
    e.1 = type ∧ ∃ rest, e.2 =
      if text.length = 256 then text.take 255 ++ 0 :: 0 :: rest else text ++ 0 :: rest := by
  have hint : text.length < 2 ^ 31 := by
    by_contra hlong
    have hresult : (vsnprintf initialBuf initialFormatBufsize text).2 = -1 := if_neg hlong
    rw [exceptionSetFormat] at h
    dsimp only at h
    rw [hresult, if_pos (by decide)] at h
    cases h
  have hresult : (vsnprintf initialBuf initialFormatBufsize text).2 = text.length :=
    if_pos hint
  rw [exceptionSetFormat] at h
  dsimp only at h
  rw [hresult, if_neg (by omega), Int.toNat_natCast] at h
  obtain ⟨buf, hbuf, rfl⟩ := Option.map_eq_some_iff.mp h
  have hroom : text.length < buf.length := hmalloc _ _ hbuf ▸ lt_toSize hint
  by_cases hfits : (text.length : Int) ≤ initialFormatBufsize
  · rw [if_pos hfits]
    have hle : text.length ≤ 256 := by exact_mod_cast hfits
    have hsrc : text.length ≤ (vsnprintf initialBuf initialFormatBufsize text).1.length := by
      simp [vsnprintf, initialFormatBufsize]
      omega
    obtain ⟨rest, hrest⟩ := memcpy_set hsrc hroom
    refine ⟨rfl, rest, hrest.trans ?_⟩
    rcases Nat.lt_or_eq_of_le hle with hlt | heq
    · rw [take_vsnprintf hlt, if_neg hlt.ne]
    · rw [take_vsnprintf_full heq, if_pos heq, List.append_assoc]
      rfl
  · rw [if_neg hfits]
    have hlong : 256 < text.length := by
      have hlt := not_le.mp hfits
      exact_mod_cast hlt
    obtain ⟨rest, hrest⟩ := @vsnprintf_holds text buf _ (lt_toSize hint)
    refine ⟨rfl, rest, ?_⟩
    rw [if_neg hlong.ne', ← hrest, List.append_assoc]
    rfl

theorem exceptionSetFormat_isSome : (exceptionSetFormat malloc type initialBuf text).isSome ↔
    text.length < 2 ^ 31 ∧ (malloc (toSize (toInt (text.length + 1)))).isSome := by
  rw [exceptionSetFormat]
  dsimp only
  by_cases hint : text.length < 2 ^ 31
  · have hresult : (vsnprintf initialBuf initialFormatBufsize text).2 = text.length :=
      if_pos hint
    rw [hresult, if_neg (by omega), Option.isSome_map]
    exact (and_iff_right hint).symm
  · have hresult : (vsnprintf initialBuf initialFormatBufsize text).2 = -1 := if_neg hint
    rw [hresult, if_pos (by decide)]
    exact iff_of_false (by simp) fun h => hint h.1

theorem exceptionSetFormat_holds_iff
    (hmalloc : ∀ n block, malloc n = some block → block.length = n)
    (h : exceptionSetFormat malloc type initialBuf text = some e) :
    e.1 = type ∧ (Holds e.2 text ↔ text.length ≠ 256 ∨ text[255]? = some 0) := by
  obtain ⟨htype, rest, hrest⟩ := exceptionSetFormat_stores hmalloc h
  refine ⟨htype, ?_⟩
  rw [hrest]
  split_ifs with hfull
  · rw [← append_zero_eq_iff hfull]
    have hlength : (text.take 255 ++ [0]).length = text.length := by simp [hfull]
    have hstored : text.take 255 ++ 0 :: 0 :: rest = (text.take 255 ++ [0]) ++ 0 :: rest := by
      simp
    rw [hstored]
    constructor
    · intro hholds
      have hpre : text <+: (text.take 255 ++ [0]) ++ 0 :: rest :=
        (List.prefix_append text [0]).trans hholds
      have hpre' := List.prefix_of_prefix_length_le hpre (List.prefix_append _ _) hlength.ge
      exact .inr (hpre'.eq_of_length hlength.symm).symm
    · rintro (hne | htake)
      · exact absurd hfull hne
      · rw [htake]
        exact ⟨rest, by simp⟩
  · exact iff_of_true ⟨rest, by simp⟩ (.inl hfull)

/-- A text of 256 characters is cut off after 255; every other text is stored whole. -/
theorem exceptionSetFormat_whole_iff
    (hmalloc : ∀ n block, malloc n = some block → block.length = n) :
    ((exceptionSetFormat malloc type initialBuf text).isSome ↔
      text.length < 2 ^ 31 ∧ (malloc (toSize (toInt (text.length + 1)))).isSome) ∧
    ∀ e, exceptionSetFormat malloc type initialBuf text = some e →
      e.1 = type ∧ (Holds e.2 text ↔ text.length ≠ 256 ∨ text[255]? = some 0) :=
  ⟨exceptionSetFormat_isSome, fun _ h => exceptionSetFormat_holds_iff hmalloc h⟩

def blockOf (n : Nat) : Option Bytes := some (List.replicate n 170)

theorem blockOf_length (n : Nat) (block : Bytes) (h : blockOf n = some block) :
    block.length = n := by
  obtain rfl : List.replicate n 170 = block := Option.some.inj h
  exact List.length_replicate

def hello : Bytes := [104, 101, 108, 108, 111]

theorem exceptionSetFormat_whole_hello : ∃ e, exceptionSetFormat blockOf .nameError
    (List.replicate 256 85) hello = some e ∧ Holds e.2 hello := by
  obtain ⟨hreturns, hwhole⟩ := @exceptionSetFormat_whole_iff blockOf .nameError
    (List.replicate 256 85) hello blockOf_length
  obtain ⟨e, he⟩ := Option.isSome_iff_exists.mp (hreturns.mpr ⟨by decide, rfl⟩)
  exact ⟨e, he, (hwhole e he).2.mpr (.inl (by decide))⟩

def manyLetters : Bytes := List.replicate 256 97

/-- Of 256 letters the last one is lost. -/
theorem exceptionSetFormat_loses_last : ∃ e, exceptionSetFormat blockOf .nameError
    (List.replicate 256 85) manyLetters = some e ∧ ¬ Holds e.2 manyLetters := by
  have hlength : manyLetters.length = 256 := List.length_replicate
  have hreturns : (exceptionSetFormat blockOf .nameError (List.replicate 256 85)
      manyLetters).isSome :=
    exceptionSetFormat_isSome.mpr ⟨by rw [hlength]; decide, rfl⟩
  obtain ⟨e, he⟩ := Option.isSome_iff_exists.mp hreturns
  refine ⟨e, he, fun hholds => ?_⟩
  have hlast : manyLetters[255]? = some 97 :=
    List.getElem?_replicate_of_lt (by decide)
  rcases (exceptionSetFormat_holds_iff blockOf_length he).2.mp hholds with hne | hzero
  · exact hne hlength
  · rw [hlast] at hzero
    exact absurd hzero (by decide)

theorem exceptionSetFormat_message {text : String} (f : Char → UInt8)
    (hmalloc : ∀ n block, malloc n = some block → block.length = n)
    (h : exceptionSetFormat malloc type initialBuf (text.toList.map f) = some e) (s : State) :
    ∃ message, Subpython.exceptionSetFormat type text s =
        .ok ((), { s with exception := some (type, message) }) ∧
      Holds e.2 (message.toList.map f) := by
  obtain ⟨-, rest, hrest⟩ := exceptionSetFormat_stores hmalloc h
  refine ⟨_, rfl, ?_⟩
  have hlength : (text.toList.map f).length = text.length := by
    rw [List.length_map, String.length_toList]
  rw [hrest, hlength]
  split_ifs with hfull
  · refine ⟨0 :: rest, ?_⟩
    simp
  · exact ⟨rest, by simp⟩

end CS24.Subpython.Messages
