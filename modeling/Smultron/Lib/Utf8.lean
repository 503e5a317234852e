import Mathlib.Data.List.DropRight
import Mathlib.Data.List.Flatten
import Mathlib.Data.List.TakeWhile
import Mathlib.Tactic.Common

/-!
# UTF-8 text as bytes

Byte strings that are texts, and the operations on a text that look at characters rather than
bytes. Encoding and decoding are the core library's; they are inverse to each other, so a valid
byte string is its list of characters. An ASCII byte of a text is a character of its own, so a
text can be taken apart at such a byte.
-/

namespace Utf8

def encode (cs : List Char) : List UInt8 := cs.flatMap String.utf8EncodeChar

def decode (bs : List UInt8) : Option (List Char) :=
  bs.toByteArray.utf8Decode?.map Array.toList

theorem decode_encode (cs : List Char) : decode (encode cs) = some cs := by
  have whole := List.utf8Decode?_utf8Encode (l := cs)
  rw [decode, encode, ← List.utf8Encode, whole]
  rfl

theorem encode_of_decode {bs : List UInt8} {cs : List Char} (h : decode bs = some cs) :
    encode cs = bs := by
  obtain ⟨chars, hc, rfl⟩ := Option.map_eq_some_iff.mp h
  have whole := ByteArray.utf8Encode_get_utf8Decode? (b := bs.toByteArray) (h := by simp [hc])
  simp only [hc, Option.get_some, List.utf8Encode] at whole
  simpa [encode] using congrArg (fun b => b.data.toList) whole

@[simp] theorem encode_nil : encode [] = [] := rfl

@[simp] theorem encode_cons (c : Char) (cs : List Char) :
    encode (c :: cs) = String.utf8EncodeChar c ++ encode cs := rfl

@[simp] theorem encode_append (cs ds : List Char) : encode (cs ++ ds) = encode cs ++ encode ds :=
  List.flatMap_append

theorem encode_injective {cs ds : List Char} (h : encode cs = encode ds) : cs = ds := by
  have same := congrArg decode h
  rwa [decode_encode, decode_encode, Option.some.injEq] at same

theorem encode_eq_nil {cs : List Char} : encode cs = [] ↔ cs = [] :=
  ⟨fun h => encode_injective h, fun h => by rw [h]; rfl⟩

/-! ### Texts -/

/-- The bytes are the encoding of a list of characters. -/
def Valid (bs : List UInt8) : Prop := (decode bs).isSome

instance (bs : List UInt8) : Decidable (Valid bs) :=
  inferInstanceAs (Decidable ((decode bs).isSome = true))

theorem valid_iff {bs : List UInt8} : Valid bs ↔ ∃ cs, encode cs = bs := by
  rw [Valid, Option.isSome_iff_exists]
  constructor
  · rintro ⟨cs, h⟩
    exact ⟨cs, encode_of_decode h⟩
  · rintro ⟨cs, rfl⟩
    exact ⟨cs, decode_encode cs⟩

theorem valid_encode (cs : List Char) : Valid (encode cs) := valid_iff.mpr ⟨cs, rfl⟩

theorem valid_nil : Valid [] := valid_encode []

theorem Valid.append {bs bs' : List UInt8} (h : Valid bs) (h' : Valid bs') : Valid (bs ++ bs') := by
  obtain ⟨cs, rfl⟩ := valid_iff.mp h
  obtain ⟨ds, rfl⟩ := valid_iff.mp h'
  rw [← encode_append]
  exact valid_encode _

theorem valid_iff_isValidUTF8 {bs : List UInt8} : Valid bs ↔ bs.toByteArray.IsValidUTF8 := by
  rw [Valid, decode, Option.isSome_map, ByteArray.isSome_utf8Decode?_iff]

/-- What stands behind a text in a text is one, too. -/
theorem Valid.of_append {front back : List UInt8} (h : Valid (front ++ back)) (text : Valid front) :
    Valid back := by
  obtain ⟨cs, rfl⟩ := valid_iff.mp text
  induction cs with
  | nil => exact h
  | cons c cs ih =>
    apply ih _ (valid_encode cs)
    rw [encode_cons, List.append_assoc, valid_iff_isValidUTF8, List.toByteArray_append] at h
    rw [valid_iff_isValidUTF8]
    have single : (String.utf8EncodeChar c).toByteArray = [c].utf8Encode := by
      simp [List.utf8Encode_singleton]
    rw [single, ByteArray.isValidUTF8_utf8Encode_singleton_append_iff] at h
    exact h

/-- An ASCII byte in the encoding of a character is all of it. -/
theorem ascii_char {c : Char} {b : UInt8} (h : b ∈ String.utf8EncodeChar c) (ascii : b < 128) :
    String.utf8EncodeChar c = [b] ∧ c = Char.ofNat b.toNat := by
  have small : b.toNat < 128 := UInt8.lt_iff_toNat_lt.mp ascii
  -- The bytes of a longer encoding are 128 and more.
  have high (n : Nat) (low : 128 ≤ n) (fits : n < 256) : b ≠ UInt8.ofNat n := by
    rintro rfl
    rw [UInt8.toNat_ofNat', Nat.mod_eq_of_lt fits] at small
    omega
  simp only [String.utf8EncodeChar] at h ⊢
  split at h
  next single =>
    obtain rfl : b = UInt8.ofNat c.val.toNat := by simpa using h
    have back : (UInt8.ofNat c.val.toNat).toNat = c.toNat := by
      rw [UInt8.toNat_ofNat']
      exact Nat.mod_eq_of_lt (by omega)
    rw [if_pos single, back]
    exact ⟨rfl, (Char.ofNat_toNat c).symm⟩
  · exfalso
    split at h
    · simp only [List.mem_cons, List.not_mem_nil, or_false] at h
      rcases h with h | h <;> exact high _ (by omega) (by omega) h
    split at h
    · simp only [List.mem_cons, List.not_mem_nil, or_false] at h
      rcases h with h | h | h <;> exact high _ (by omega) (by omega) h
    · simp only [List.mem_cons, List.not_mem_nil, or_false] at h
      rcases h with h | h | h | h <;> exact high _ (by omega) (by omega) h

theorem encode_ascii {b : UInt8} (ascii : b < 128) :
    String.utf8EncodeChar (Char.ofNat b.toNat) = [b] := by
  have all : ∀ n : Fin 128, String.utf8EncodeChar (Char.ofNat n) = [UInt8.ofNat n] := by
    decide +kernel
  simpa using all ⟨b.toNat, UInt8.lt_iff_toNat_lt.mp ascii⟩

/-- From 128 on, the character with the number of a byte takes two bytes. -/
theorem length_encode_high {b : UInt8} (high : 128 ≤ b) :
    (String.utf8EncodeChar (Char.ofNat b.toNat)).length = 2 := by
  have all : ∀ n : Fin 256, 128 ≤ n.val →
      (String.utf8EncodeChar (Char.ofNat n)).length = 2 := by
    decide +kernel
  exact all ⟨b.toNat, b.toNat_lt⟩ (UInt8.le_iff_toNat_le.mp high)

/-- Bytes that are printed as the characters with their numbers come out the same only if they are
ASCII. -/
theorem encode_bytes_eq_iff {bs : List UInt8} :
    (bs.flatMap fun b => String.utf8EncodeChar (Char.ofNat b.toNat)) = bs ↔ ∀ b ∈ bs, b < 128 := by
  have longer (bs : List UInt8) : bs.length ≤
      (bs.flatMap fun b => String.utf8EncodeChar (Char.ofNat b.toNat)).length := by
    induction bs with
    | nil => exact Nat.le_refl _
    | cons b bs ih =>
      have some_ := Char.utf8Size_pos (Char.ofNat b.toNat)
      rw [List.flatMap_cons, List.length_append, List.length_cons, String.length_utf8EncodeChar]
      omega
  induction bs with
  | nil => simp
  | cons b bs ih =>
    rw [List.flatMap_cons, List.forall_mem_cons]
    by_cases ascii : b < 128
    · rw [encode_ascii ascii, List.singleton_append, List.cons_eq_cons, and_iff_right rfl,
        and_iff_right ascii]
      exact ih
    · -- Two bytes for one, and no byte behind it makes up for that
      refine iff_of_false (fun same => ?_) fun h => ascii h.1
      have size := congrArg List.length same
      rw [List.length_append, length_encode_high (UInt8.not_lt.mp ascii), List.length_cons] at size
      have := longer bs
      omega

theorem valid_ascii {bs : List UInt8} (ascii : ∀ b ∈ bs, b < 128) : Valid bs := by
  induction bs with
  | nil => exact valid_nil
  | cons b bs ih =>
    rw [List.forall_mem_cons] at ascii
    have first := valid_encode [Char.ofNat b.toNat]
    rw [encode_cons, encode_ascii ascii.1] at first
    exact first.append (ih ascii.2)

/-- A text is taken apart at an ASCII byte into two texts. -/
theorem encode_split {cs : List Char} {front back : List UInt8} {b : UInt8} (ascii : b < 128)
    (h : encode cs = front ++ b :: back) :
    ∃ fs ds, cs = fs ++ Char.ofNat b.toNat :: ds ∧ encode fs = front ∧ encode ds = back := by
  induction cs generalizing front with
  | nil => simp at h
  | cons c cs ih =>
    rw [encode_cons] at h
    rcases List.append_eq_append_iff.mp h with ⟨rest, rfl, tail⟩ | ⟨rest, whole, tail⟩
    · -- The byte stands behind the first character
      obtain ⟨fs, ds, rfl, rfl, rfl⟩ := ih tail
      exact ⟨c :: fs, ds, rfl, rfl, rfl⟩
    · cases rest with
      | nil =>
        have next : encode cs = [] ++ b :: back := by simpa using tail.symm
        obtain ⟨fs, ds, rfl, nothing, rfl⟩ := ih next
        rw [encode_eq_nil] at nothing
        subst nothing
        exact ⟨[c], ds, rfl, by simpa using whole, rfl⟩
      | cons b' rest =>
        obtain ⟨rfl, rfl⟩ := List.cons.inj tail
        obtain ⟨single, rfl⟩ := ascii_char (by rw [whole]; simp) ascii
        -- The first character is the byte
        rw [single] at whole
        obtain rfl : front = [] := by
          cases front with
          | nil => rfl
          | cons x front => simp at whole
        obtain rfl : rest = [] := by simpa using whole
        exact ⟨[], cs, rfl, rfl, rfl⟩

/-- The parts of a text before and behind an ASCII byte are texts. -/
theorem Valid.split {front : List UInt8} (back : List UInt8) {b : UInt8}
    (h : Valid (front ++ b :: back))
    (ascii : b < 128) : Valid front ∧ Valid back := by
  obtain ⟨cs, whole⟩ := valid_iff.mp h
  obtain ⟨fs, ds, -, rfl, rfl⟩ := encode_split ascii whole
  exact ⟨valid_encode fs, valid_encode ds⟩

private theorem not_continuation (b : UInt8) (lead : b.IsUTF8FirstByte) :
    (b &&& 0xC0) ≠ 0x80 := by
  have all : ∀ n : Fin 256, UInt8.IsUTF8FirstByte (UInt8.ofNat n) →
      (UInt8.ofNat n &&& 0xC0) ≠ 0x80 := by
    unfold UInt8.IsUTF8FirstByte
    decide +kernel
  simpa using all ⟨b.toNat, b.toNat_lt⟩ (by simpa using lead)

/-- A text does not start inside a character. -/
theorem Valid.head_ne {b : UInt8} {bs : List UInt8} (h : Valid (b :: bs)) :
    (b &&& 0xC0) ≠ 0x80 := by
  obtain ⟨cs, whole⟩ := valid_iff.mp h
  cases cs with
  | nil => cases whole
  | cons c cs =>
    obtain ⟨lead, rest, same⟩ :=
      List.exists_cons_of_ne_nil (String.utf8EncodeChar_ne_nil (c := c))
    have first := UInt8.isUTF8FirstByte_getElem_zero_utf8EncodeChar (c := c)
    simp only [same, List.getElem_cons_zero] at first
    rw [encode_cons, same] at whole
    obtain ⟨rfl, -⟩ := List.cons.inj whole
    exact not_continuation lead first

/-- `core::str::from_utf8(bs).ok()` -/
def fromUtf8 (bs : List UInt8) : Option (List UInt8) :=
  if (decode bs).isSome then some bs else none

/-- `core::str::from_utf8(bs).unwrap_or("")` -/
def fromUtf8OrEmpty (bs : List UInt8) : List UInt8 := (fromUtf8 bs).getD []

theorem fromUtf8_of_valid {bs : List UInt8} (h : Valid bs) : fromUtf8 bs = some bs := if_pos h

theorem fromUtf8_eq_some {bs text : List UInt8} :
    fromUtf8 bs = some text ↔ Valid bs ∧ text = bs := by
  by_cases h : Valid bs
  · rw [fromUtf8_of_valid h, Option.some.injEq, eq_comm]
    exact (and_iff_right h).symm
  · have none_ : fromUtf8 bs = none := if_neg h
    simp [none_, h]

theorem fromUtf8OrEmpty_of_valid {bs : List UInt8} (h : Valid bs) : fromUtf8OrEmpty bs = bs := by
  rw [fromUtf8OrEmpty, fromUtf8_of_valid h, Option.getD_some]

theorem valid_fromUtf8OrEmpty (bs : List UInt8) : Valid (fromUtf8OrEmpty bs) := by
  by_cases h : Valid bs
  · rwa [fromUtf8OrEmpty_of_valid h]
  · have none_ : fromUtf8 bs = none := if_neg h
    rw [fromUtf8OrEmpty, none_]
    exact valid_nil

/-- The Unicode `White_Space` characters. -/
def isWhitespace (c : Char) : Bool :=
  let n := c.toNat
  (0x9 ≤ n && n ≤ 0xD) || n == 0x20 || n == 0x85 || n == 0xA0 || n == 0x1680 ||
    (0x2000 ≤ n && n ≤ 0x200A) || n == 0x2028 || n == 0x2029 || n == 0x202F || n == 0x205F ||
    n == 0x3000

/-- `s.trim()` -/
def trim (bs : List UInt8) : List UInt8 :=
  match decode bs with
  | some cs => encode ((cs.dropWhile isWhitespace).reverse.dropWhile isWhitespace).reverse
  | none => bs

theorem valid_trim {bs : List UInt8} (h : Valid bs) : Valid (trim bs) := by
  obtain ⟨cs, whole⟩ := Option.isSome_iff_exists.mp h
  rw [trim, whole]
  exact valid_encode _

theorem trim_encode (cs : List Char) :
    trim (encode cs) = encode ((cs.dropWhile isWhitespace).rdropWhile isWhitespace) := by
  rw [trim, decode_encode]
  rfl

theorem trim_trim (bs : List UInt8) : trim (trim bs) = trim bs := by
  cases whole : decode bs with
  | none =>
    have same : trim bs = bs := by rw [trim, whole]
    rw [same, same]
  | some cs =>
    have ends : ((cs.dropWhile isWhitespace).rdropWhile isWhitespace).dropWhile isWhitespace =
        (cs.dropWhile isWhitespace).rdropWhile isWhitespace := by
      -- What is left starts as `cs` does behind its spaces
      obtain ⟨rest, front⟩ := List.rdropWhile_prefix isWhitespace (l := cs.dropWhile isWhitespace)
      cases left : (cs.dropWhile isWhitespace).rdropWhile isWhitespace with
      | nil => rfl
      | cons c more =>
        rw [left] at front
        have first := List.head?_dropWhile_not isWhitespace cs
        rw [← front] at first
        rw [List.dropWhile_cons_of_neg (by simpa using first)]
    rw [← encode_of_decode whole, trim_encode, trim_encode, ends, List.rdropWhile_idempotent]

theorem trim_eq_nil_iff {cs : List Char} :
    trim (encode cs) = [] ↔ ∀ c ∈ cs, isWhitespace c = true := by
  rw [trim_encode, encode_eq_nil, List.rdropWhile_eq_nil_iff]
  constructor
  · intro h c hc
    by_contra letter
    have behind : cs.dropWhile isWhitespace ≠ [] := by
      rw [Ne, List.dropWhile_eq_nil_iff]
      exact fun all => letter (all c hc)
    have first := List.head?_dropWhile_not isWhitespace cs
    rw [List.head?_eq_some_head behind] at first
    have space := h _ (List.head_mem behind)
    simp only at first
    rw [space] at first
    cases first
  · exact fun h c hc => h c ((List.dropWhile_sublist _).subset hc)

theorem rdropWhile_append {α : Type} (p : α → Bool) (xs ys : List α) :
    (xs ++ ys).rdropWhile p =
      if (ys.rdropWhile p).isEmpty then xs.rdropWhile p else xs ++ ys.rdropWhile p := by
  rw [List.rdropWhile, List.reverse_append, List.dropWhile_append, List.rdropWhile, List.rdropWhile,
    List.isEmpty_reverse]
  split
  · rfl
  · rw [List.reverse_append, List.reverse_reverse]

/-- What stands at the end of a text is trimmed off when it is white space, and only then. -/
theorem trim_front_iff (cs ds : List Char) :
    trim (encode cs) = trim (encode (cs ++ ds)) ↔ trim (encode ds) = [] := by
  rw [trim_eq_nil_iff, trim_encode, trim_encode, List.dropWhile_append]
  constructor
  · intro same
    replace same := encode_injective same
    by_cases blank : (cs.dropWhile isWhitespace).isEmpty = true
    · -- Nothing is left of the front, so nothing may be left behind it
      rw [if_pos blank, List.isEmpty_iff.mp blank, List.rdropWhile_nil] at same
      apply trim_eq_nil_iff.mp
      rw [trim_encode, ← same, encode_nil]
    · rw [if_neg blank, rdropWhile_append] at same
      split at same
      next empty => exact List.rdropWhile_eq_nil_iff.mp (List.isEmpty_iff.mp empty)
      next more =>
        -- The front would be longer than it is
        have shorter := (List.rdropWhile_prefix isWhitespace (l := cs.dropWhile isWhitespace)).length_le
        rw [same, List.length_append] at shorter
        have some_ := List.length_pos_iff.mpr (mt List.isEmpty_iff.mpr more)
        omega
  · intro spaces
    have behind := List.rdropWhile_eq_nil_iff.mpr spaces
    rw [List.dropWhile_eq_nil_iff.mpr spaces]
    split
    next blank => rw [List.isEmpty_iff.mp blank]
    · rw [rdropWhile_append, behind]
      rfl

/-- Trimming takes whole characters off, so what is left is part of the text. -/
theorem trim_sublist (bs : List UInt8) : (trim bs).Sublist bs := by
  rw [trim]
  split
  next cs whole =>
    rw [← encode_of_decode whole]
    apply List.Sublist.flatMap
    have behind := (List.dropWhile_sublist isWhitespace
      (l := (cs.dropWhile isWhitespace).reverse)).reverse
    rw [List.reverse_reverse] at behind
    exact behind.trans (List.dropWhile_sublist isWhitespace)
  · exact List.Sublist.refl _

/-- How many bytes trimming takes off at the front. -/
def leading (bs : List UInt8) : Nat :=
  match decode bs with
  | some cs => (encode (cs.takeWhile isWhitespace)).length
  | none => 0

/-- What trimming leaves stands behind these bytes. -/
theorem trim_eq_slice (bs : List UInt8) :
    (bs.drop (leading bs)).take (trim bs).length = trim bs := by
  cases whole : decode bs with
  | none =>
    have same : trim bs = bs := by rw [trim, whole]
    rw [leading, whole, same]
    exact List.take_length
  | some cs =>
    obtain ⟨back, split⟩ := List.rdropWhile_prefix isWhitespace (l := cs.dropWhile isWhitespace)
    obtain rfl := encode_of_decode whole
    have front : encode cs = encode (cs.takeWhile isWhitespace) ++
        encode (cs.dropWhile isWhitespace) := by
      rw [← encode_append, List.takeWhile_append_dropWhile]
    rw [leading, whole, trim_encode]
    dsimp only
    rw [front, List.drop_left, ← split, encode_append, split, List.take_left]

/-- A byte of white space is no other ASCII character. -/
theorem whitespace_ne {c : Char} {b d : UInt8} (space : isWhitespace c = true)
    (hb : b ∈ String.utf8EncodeChar c) (ascii : d < 128)
    (other : isWhitespace (Char.ofNat d.toNat) = false) : b ≠ d := by
  rintro rfl
  rw [← (ascii_char hb ascii).2, space] at other
  cases other

/-- What trimming takes off at the front. -/
def trimmedFront (bs : List UInt8) : List UInt8 := bs.take (leading bs)

/-- What it takes off at the end. -/
def trimmedBack (bs : List UInt8) : List UInt8 := bs.drop (leading bs + (trim bs).length)

theorem trimmed_eq (bs : List UInt8) : trimmedFront bs ++ (trim bs ++ trimmedBack bs) = bs := by
  have behind := List.take_append_drop (trim bs).length (bs.drop (leading bs))
  rw [trim_eq_slice, List.drop_drop] at behind
  rw [trimmedFront, trimmedBack, behind, List.take_append_drop]

theorem trimmedFront_encode (cs : List Char) :
    trimmedFront (encode cs) = encode (cs.takeWhile isWhitespace) := by
  have parts : encode (cs.takeWhile isWhitespace) ++ encode (cs.dropWhile isWhitespace) =
      encode cs := by
    rw [← encode_append, List.takeWhile_append_dropWhile]
  rw [trimmedFront, leading, decode_encode]
  dsimp only
  rw [← parts, List.take_left]

theorem trimmedBack_encode (cs : List Char) :
    trimmedBack (encode cs) = encode ((cs.dropWhile isWhitespace).rtakeWhile isWhitespace) := by
  -- The three parts make up the text, and the first two are known
  have parts := trimmed_eq (encode cs)
  have whole : encode (cs.takeWhile isWhitespace) ++ (trim (encode cs) ++
      encode ((cs.dropWhile isWhitespace).rtakeWhile isWhitespace)) = encode cs := by
    rw [trim_encode, ← encode_append, List.rdropWhile_append_rtakeWhile, ← encode_append,
      List.takeWhile_append_dropWhile]
  rw [trimmedFront_encode] at parts
  exact List.append_cancel_left (List.append_cancel_left (parts.trans whole.symm))

/-- The bytes at the front belong to white space. -/
theorem mem_leading {bs : List UInt8} {b : UInt8} (h : b ∈ bs.take (leading bs)) :
    ∃ c, isWhitespace c = true ∧ b ∈ String.utf8EncodeChar c := by
  rw [← trimmedFront] at h
  cases whole : decode bs with
  | none =>
    rw [trimmedFront, leading, whole] at h
    cases h
  | some cs =>
    obtain rfl := encode_of_decode whole
    rw [trimmedFront_encode] at h
    obtain ⟨c, among, hb⟩ := List.mem_flatMap.mp h
    exact ⟨c, List.mem_takeWhile_imp among, hb⟩

/-- So do the bytes at the end. -/
theorem mem_trimmedBack {bs : List UInt8} {b : UInt8} (h : b ∈ trimmedBack bs) :
    ∃ c, isWhitespace c = true ∧ b ∈ String.utf8EncodeChar c := by
  cases whole : decode bs with
  | none =>
    have same : trim bs = bs := by rw [trim, whole]
    rw [trimmedBack, same, List.drop_eq_nil_of_le (Nat.le_add_left ..)] at h
    cases h
  | some cs =>
    obtain rfl := encode_of_decode whole
    rw [trimmedBack_encode] at h
    obtain ⟨c, among, hb⟩ := List.mem_flatMap.mp h
    exact ⟨c, List.mem_rtakeWhile_imp among, hb⟩

theorem fromUtf8OrEmpty_sublist (bs : List UInt8) : (fromUtf8OrEmpty bs).Sublist bs := by
  by_cases h : Valid bs
  · rw [fromUtf8OrEmpty_of_valid h]
  · have none_ : fromUtf8 bs = none := if_neg h
    rw [fromUtf8OrEmpty, none_]
    exact List.nil_sublist _

/-- `s.split_whitespace()` -/
def splitWhitespace (bs : List UInt8) : List (List UInt8) :=
  match decode bs with
  | some cs => ((cs.splitOnP isWhitespace).filter (· ≠ [])).map encode
  | none => []

/-! ### Words between white space -/

/-- The pieces of a text between its spaces, without the empty ones. -/
def words (cs : List Char) : List (List Char) := (cs.splitOnP isWhitespace).filter (· ≠ [])

theorem splitWhitespace_encode (cs : List Char) :
    splitWhitespace (encode cs) = (words cs).map encode := by
  rw [splitWhitespace, decode_encode]
  rfl

theorem words_letters {cs : List Char} (some_ : cs ≠ []) (h : ∀ c ∈ cs, isWhitespace c = false) :
    words cs = [cs] := by
  rw [words, List.splitOnP_eq_singleton h]
  simp [some_]

theorem words_append {front back : List Char} (some_ : front ≠ [])
    (h : ∀ c ∈ front, isWhitespace c = false) : words (front ++ ' ' :: back) = front :: words back := by
  rw [words, List.splitOnP_append_cons_of_forall_mem h ' ' (by decide), List.filter_cons_of_pos]
  · rfl
  · simpa using some_

/-- A word is not empty and has no space in it. -/
theorem mem_words {w cs : List Char} (h : w ∈ words cs) :
    w ≠ [] ∧ ∀ c ∈ w, isWhitespace c = false := by
  rw [words, List.mem_filter] at h
  refine ⟨by simpa using h.2, ?_⟩
  obtain ⟨inside, -⟩ := h
  induction cs generalizing w with
  | nil =>
    obtain rfl : w = [] := by simpa using inside
    nofun
  | cons c cs ih =>
    -- A space ends a part, and a letter goes to the front of the first part
    rw [List.splitOnP_cons_eq_if_modifyHead] at inside
    split at inside
    · rcases List.mem_cons.mp inside with rfl | later
      · nofun
      · exact ih later
    next letter =>
      obtain ⟨first, rest, same⟩ := List.exists_cons_of_ne_nil (List.splitOnP_ne_nil isWhitespace cs)
      rw [same] at inside ih
      rcases List.mem_cons.mp inside with rfl | later
      · have letter' : isWhitespace c = false := by simpa using letter
        exact List.forall_mem_cons.mpr ⟨letter', ih List.mem_cons_self⟩
      · exact ih (List.mem_cons_of_mem _ later)

/-- `s.split_once(d)` for an ASCII separator `d`. -/
def splitOnce (d : UInt8) (bs : List UInt8) : Option (List UInt8 × List UInt8) :=
  match bs.dropWhile (· != d) with
  -- no separator: `takeWhile` ran to the end
  | [] => none
  | _ :: rest => some (bs.takeWhile (· != d), rest)

theorem splitOnce_eq_some {d : UInt8} {bs key val : List UInt8}
    (h : splitOnce d bs = some (key, val)) : bs = key ++ d :: val ∧ d ∉ key := by
  rw [splitOnce] at h
  split at h
  · cases h
  next b rest found =>
    obtain ⟨rfl, rfl⟩ := Prod.mk.inj (Option.some.inj h)
    have stop := List.head?_dropWhile_not (· != d) bs
    rw [found] at stop
    obtain rfl : b = d := by simpa using stop
    refine ⟨?_, fun inside => ?_⟩
    · rw [← found, List.takeWhile_append_dropWhile]
    · simpa using List.mem_takeWhile_imp inside

theorem splitOnce_append {d : UInt8} {key : List UInt8} (free : d ∉ key) (val : List UInt8) :
    splitOnce d (key ++ d :: val) = some (key, val) := by
  have inside : ∀ b ∈ key, (b != d) = true := fun b hb => bne_iff_ne.mpr fun same => free (same ▸ hb)
  rw [splitOnce, List.dropWhile_append_of_pos inside, List.dropWhile_cons_of_neg (by simp),
    List.takeWhile_append_of_pos inside, List.takeWhile_cons_of_neg (by simp), List.append_nil]

/-! ### Pieces -/

theorem sublist_of_mem_splitOnP {α : Type} {p : α → Bool} {w xs : List α} (h : w ∈ xs.splitOnP p) :
    w.Sublist xs := by
  induction xs generalizing w with
  | nil =>
    obtain rfl : w = [] := by simpa using h
    exact List.Sublist.slnil
  | cons x xs ih =>
    rw [List.splitOnP_cons_eq_if_modifyHead] at h
    split at h
    · rcases List.mem_cons.mp h with rfl | later
      · exact List.nil_sublist _
      · exact (ih later).cons x
    · obtain ⟨first, rest, same⟩ := List.exists_cons_of_ne_nil (List.splitOnP_ne_nil p xs)
      rw [same] at h ih
      rcases List.mem_cons.mp h with rfl | later
      · exact (ih List.mem_cons_self).cons_cons x
      · exact (ih (List.mem_cons_of_mem _ later)).cons x

/-- The pieces of a text between ASCII bytes are texts. -/
theorem Valid.of_mem_splitOn {d : UInt8} (ascii : d < 128) {bs p : List UInt8} (h : Valid bs)
    (piece : p ∈ bs.splitOn d) : Valid p := by
  have whole : [d].intercalate (bs.splitOn d) = bs := List.intercalate_splitOn d
  rw [← whole] at h
  generalize bs.splitOn d = ps at h piece
  induction ps with
  | nil => cases piece
  | cons q ps ih =>
    cases ps with
    | nil =>
      obtain rfl := List.mem_singleton.mp piece
      simpa using h
    | cons q' ps =>
      have apart : [d].intercalate (q :: q' :: ps) = q ++ d :: [d].intercalate (q' :: ps) := by
        simp [List.intercalate]
      rw [apart] at h
      obtain ⟨first, rest⟩ := h.split _ ascii
      rcases List.mem_cons.mp piece with rfl | later
      · exact first
      · exact ih rest later

theorem splitWhitespace_sublist {bs w : List UInt8} (h : w ∈ splitWhitespace bs) :
    Valid w ∧ w.Sublist bs := by
  rw [splitWhitespace] at h
  split at h
  next cs decoded =>
    obtain ⟨ws, hws, rfl⟩ := List.mem_map.mp h
    rw [← encode_of_decode decoded]
    exact ⟨valid_encode ws,
      (sublist_of_mem_splitOnP (List.mem_of_mem_filter hws)).flatMap _⟩
  · cases h

end Utf8
