import Smultron.Lib.Delimited
import Smultron.Lib.Utf8
import Smultron.Userspace.Sed

/-!
# The scripts sed accepts

A script is `s`, a delimiter, two fields with the delimiter behind each, and nothing or `g`. In a
field a backslash takes the byte behind it literally. So every pattern and every replacement that
fits can be written, with any delimiter but NUL and the backslash.
-/

namespace Smultron.Sed

open Delimited Utf8

variable {delim : UInt8} {cap : Nat}

/-- A script in full, and what it says. -/
def ScriptText (script pattern replacement : Bytes) (isGlobal : Bool) : Prop :=
  ∃ (delim : UInt8) (rawPattern rawReplacement : Bytes),
    delim ≠ 0 ∧ delim ≠ 92 ∧
    FieldText 92 delim rawPattern pattern ∧ pattern.length ≤ 128 ∧
    FieldText 92 delim rawReplacement replacement ∧ replacement.length ≤ 128 ∧
    script = str "s" ++ [delim] ++ rawPattern ++ [delim] ++ rawReplacement ++ [delim] ++
      if isGlobal then str "g" else []

/-- The script for a pattern and a replacement. -/
def writtenScript (delim : UInt8) (pattern replacement : Bytes) (isGlobal : Bool) : Bytes :=
  str "s" ++ [delim] ++ escape 92 delim pattern ++ [delim] ++ escape 92 delim replacement ++
    [delim] ++ if isGlobal then str "g" else []

/-! ### One field -/

theorem Field.push_eq_some {out out' : Field cap} {b : UInt8} :
    out.push b = some out' ↔ out'.val = out.val ++ [b] := by
  rw [Field.push]
  split
  next full =>
    refine iff_of_false nofun fun same => ?_
    have fits := out'.property
    rw [same, List.length_append, List.length_singleton] at fits
    omega
  · rw [Option.some.injEq, Subtype.ext_iff, eq_comm]

/-- A byte of a field that fits has a place. -/
theorem Field.exists_push {out field : Field cap} {b : UInt8} {text : Bytes}
    (value : field.val = out.val ++ b :: text) :
    ∃ out', out.push b = some out' ∧ field.val = out'.val ++ text := by
  have fits := field.property
  rw [value, List.length_append, List.length_cons] at fits
  have room : (out.val ++ [b]).length ≤ cap := by
    rw [List.length_append, List.length_singleton]
    omega
  exact ⟨⟨out.val ++ [b], room⟩, Field.push_eq_some.mpr rfl, by rw [value, List.append_assoc]; rfl⟩

/-- What the scan finds is a field, behind a backslash as well. -/
theorem field_of_parseDelimited (input : Bytes) {behind : Bytes} (out field : Field cap) :
    (parseDelimited delim input out false = some (field, behind) → ∃ raw text,
        delim ≠ 92 ∧ FieldText 92 delim raw text ∧ input = raw ++ delim :: behind ∧
          field.val = out.val ++ text) ∧
      (parseDelimited delim input out true = some (field, behind) → ∃ raw text,
        delim ≠ 92 ∧ FieldText 92 delim (92 :: raw) text ∧ input = raw ++ delim :: behind ∧
          field.val = out.val ++ text) := by
  induction input generalizing out with
  | nil => exact ⟨nofun, nofun⟩
  | cons b input ih =>
    constructor
    · intro parsed
      rw [parseDelimited, if_neg Bool.false_ne_true] at parsed
      split at parsed
      next backslash =>
        obtain ⟨raw, text, apart, isField, rfl, value⟩ := (ih out).2 parsed
        exact ⟨92 :: raw, text, apart, isField, by rw [backslash]; rfl, value⟩
      next plain =>
        split at parsed
        next ended =>
          obtain ⟨rfl, rfl⟩ := Prod.mk.inj (Option.some.inj parsed)
          exact ⟨[], [], ended ▸ plain, .nil, by rw [ended]; rfl, (List.append_nil _).symm⟩
        next free =>
          obtain ⟨out', pushed, rest⟩ := Option.bind_eq_some_iff.mp parsed
          obtain ⟨raw, text, apart, isField, rfl, value⟩ := (ih out').1 rest
          rw [Field.push_eq_some.mp pushed, List.append_assoc] at value
          exact ⟨b :: raw, b :: text, apart, .plain free plain isField, rfl, value⟩
    · intro parsed
      rw [parseDelimited, if_pos rfl] at parsed
      obtain ⟨out', pushed, rest⟩ := Option.bind_eq_some_iff.mp parsed
      obtain ⟨raw, text, apart, isField, rfl, value⟩ := (ih out').1 rest
      rw [Field.push_eq_some.mp pushed, List.append_assoc] at value
      exact ⟨b :: raw, b :: text, apart, .escaped isField, rfl, value⟩

/-- The scan finds every field that fits. -/
theorem parseDelimited_of_field {raw text : Bytes} (apart : delim ≠ 92)
    (isField : FieldText 92 delim raw text) (behind : Bytes) {out field : Field cap}
    (value : field.val = out.val ++ text) :
    parseDelimited delim (raw ++ delim :: behind) out false = some (field, behind) := by
  induction isField generalizing out with
  | nil =>
    rw [List.append_nil] at value
    rw [List.nil_append, parseDelimited, if_neg Bool.false_ne_true, if_neg apart, if_pos rfl,
      Subtype.ext value]
  | plain free plain rest ih =>
    obtain ⟨out', pushed, value'⟩ := Field.exists_push value
    rw [List.cons_append, parseDelimited, if_neg Bool.false_ne_true, if_neg plain, if_neg free, pushed]
    exact ih value'
  | escaped rest ih =>
    obtain ⟨out', pushed, value'⟩ := Field.exists_push value
    rw [List.cons_append, parseDelimited, if_neg Bool.false_ne_true, if_pos rfl, List.cons_append,
      parseDelimited, if_pos rfl, pushed]
    exact ih value'

/-! ### The script -/

theorem parseFlags_iff {flags : Bytes} {isGlobal : Bool} :
    parseFlags flags = some isGlobal ↔ flags = if isGlobal then str "g" else [] := by
  have flag : str "g" ≠ [] := by decide
  rw [parseFlags]
  split
  next none =>
    subst none
    cases isGlobal <;> simp [flag.symm]
  next some_ =>
    split
    next isFlag =>
      subst isFlag
      cases isGlobal <;> simp [flag]
    next other =>
      cases isGlobal with
      | true => exact iff_of_false nofun other
      | false => exact iff_of_false nofun some_

theorem parseScript_iff (text : Bytes) (script : Script) : parseScript text = some script ↔
    ScriptText text script.pattern.val script.replacement.val script.isGlobal := by
  constructor
  · intro parsed
    rcases text with - | ⟨s, - | ⟨delim, fields⟩⟩
    · cases parsed
    · cases parsed
    · rw [parseScript] at parsed
      split at parsed
      · cases parsed
      next begins =>
        split at parsed
        · cases parsed
        next notNul =>
          obtain ⟨⟨pattern, behind⟩, first, parsed⟩ := Option.bind_eq_some_iff.mp parsed
          obtain ⟨⟨replacement, flags⟩, second, parsed⟩ := Option.bind_eq_some_iff.mp parsed
          obtain ⟨isGlobal, third, whole⟩ := Option.bind_eq_some_iff.mp parsed
          cases whole
          obtain ⟨raw, text, apart, isField, rfl, value⟩ := (field_of_parseDelimited fields _ _).1 first
          obtain ⟨raw', text', -, isField', rfl, value'⟩ :=
            (field_of_parseDelimited behind _ _).1 second
          obtain rfl := parseFlags_iff.mp third
          obtain rfl : pattern.val = text := value
          obtain rfl : replacement.val = text' := value'
          obtain rfl : s = 115 := by
            by_contra other
            exact begins (.inr other)
          refine ⟨delim, raw, raw', notNul, apart, isField, pattern.property, isField',
            replacement.property, ?_⟩
          have letter : str "s" = [115] := rfl
          simp [letter]
  · rintro ⟨delim, raw, raw', notNul, apart, isField, -, isField', -, rfl⟩
    have letter : str "s" = [115] := rfl
    have whole : str "s" ++ [delim] ++ raw ++ [delim] ++ raw' ++ [delim] ++
        (if script.isGlobal then str "g" else []) =
          115 :: delim :: (raw ++ delim :: (raw' ++ delim ::
            (if script.isGlobal then str "g" else []))) := by
      simp [letter]
    have long : ¬((115 :: delim :: (raw ++ delim :: (raw' ++ delim ::
        (if script.isGlobal then str "g" else [])))).length < 4 ∨ (115 : UInt8) ≠ 115) := by
      rintro (short | other)
      · simp only [List.length_cons, List.length_append] at short
        omega
      · exact other rfl
    rw [whole, parseScript, if_neg long, if_neg notNul,
      @parseDelimited_of_field _ _ _ _ apart isField _ Field.empty script.pattern rfl,
      Option.bind_eq_bind,
      Option.bind_some]
    dsimp only
    rw [@parseDelimited_of_field _ _ _ _ apart isField' _ Field.empty script.replacement rfl,
      Option.bind_eq_bind, Option.bind_some]
    dsimp only
    rw [parseFlags_iff.mpr rfl]
    rfl

/-! ### Every pattern can be written -/

/-- A text stays one when bytes of it are escaped that are characters. -/
theorem valid_escape {text : Bytes} (ascii : delim < 128) (h : Valid text) :
    Valid (escape 92 delim text) := by
  obtain ⟨cs, rfl⟩ := valid_iff.mp h
  clear h
  induction cs with
  | nil => exact valid_nil
  | cons c cs ih =>
    rw [encode_cons, escape_append]
    refine Valid.append ?_ ih
    by_cases free : ∀ b ∈ String.utf8EncodeChar c, b ≠ delim ∧ b ≠ 92
    · have single := valid_encode [c]
      rw [encode_cons, encode_nil, List.append_nil] at single
      rwa [escape_of_free free]
    · -- The character is the byte that is escaped
      obtain ⟨b, mem, special⟩ : ∃ b ∈ String.utf8EncodeChar c, b = delim ∨ b = 92 := by
        by_contra none
        refine free fun b mem => ⟨fun same => none ⟨b, mem, .inl same⟩, fun same => none ⟨b, mem, .inr same⟩⟩
      have small : b < 128 := by
        rcases special with rfl | rfl
        · exact ascii
        · decide
      obtain ⟨single, -⟩ := ascii_char mem small
      rw [single, escape_cons, if_pos special]
      exact valid_ascii (by simpa [escape] using small)

/-- sed accepts exactly the scripts of its grammar, with what their fields stand for, and every pattern
and replacement that fits can be written with every delimiter. -/
theorem accepts_grammar :
    (∀ text script, parseScript text = some script ↔
      ScriptText text script.pattern.val script.replacement.val script.isGlobal) ∧
    (∀ text, (parseScript text).isSome ↔
      ∃ pattern replacement isGlobal, ScriptText text pattern replacement isGlobal) ∧
    ∀ (delim : UInt8) (pattern replacement : Field 128) (isGlobal : Bool), delim ≠ 0 → delim ≠ 92 →
      parseScript (writtenScript delim pattern.val replacement.val isGlobal) =
          some ⟨pattern, replacement, isGlobal⟩ ∧
        (delim < 128 → Valid pattern.val → Valid replacement.val →
          Valid (writtenScript delim pattern.val replacement.val isGlobal)) := by
  refine ⟨parseScript_iff, fun text => ?_, fun delim pattern replacement isGlobal notNul apart => ⟨?_, ?_⟩⟩
  · constructor
    · intro accepted
      obtain ⟨script, parsed⟩ := Option.isSome_iff_exists.mp accepted
      exact ⟨_, _, _, (parseScript_iff text script).mp parsed⟩
    · rintro ⟨pattern, replacement, isGlobal, isScript⟩
      have ⟨_, _, _, _, _, _, few, _, few', _⟩ := isScript
      exact Option.isSome_iff_exists.mpr
        ⟨⟨⟨pattern, few⟩, ⟨replacement, few'⟩, isGlobal⟩, (parseScript_iff ..).mpr isScript⟩
  · exact (parseScript_iff ..).mpr ⟨delim, _, _, notNul, apart, fieldText_escape .., pattern.property,
      fieldText_escape .., replacement.property, rfl⟩
  · intro ascii text text'
    have letter : Valid (str "s") := by decide +kernel
    have mark : Valid [delim] := valid_ascii (by simpa using ascii)
    have flag : Valid (if isGlobal then str "g" else []) := by cases isGlobal <;> decide +kernel
    exact (((((letter.append mark).append (valid_escape ascii text)).append mark).append
      (valid_escape ascii text')).append mark).append flag

end Smultron.Sed
