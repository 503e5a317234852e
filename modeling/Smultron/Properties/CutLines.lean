import Smultron.Properties.RefusedLines
import Smultron.Properties.Substitution

/-!
# Lines whose expansion is cut

`expand_line` stops without a message when its buffer is full, and what is in the buffer is taken
for the line. So a long expansion is executed as far as it fits, or dropped when it was cut inside
a character, unless what is left of it happens to be one that the shell turns down.
-/

namespace Smultron.Shell

open Checked Checked.Outcome Proc Utf8

/-! ### The complete substitution -/

/-- Every `$NAME` of the line replaced by its value, or by nothing where it is not set. -/
def substitution (env : Env) : Bytes → Bytes
  | [] => []
  | b :: rest =>
    -- the name is as long as it can be; a `$` without one stands for itself
    let name := rest.takeWhile isNameByte
    if b = 36 ∧ name ≠ [] then
      (getEnv env name).getD [] ++ substitution env (rest.drop name.length)
    else b :: substitution env rest
termination_by line => line.length
decreasing_by all_goals simp; try omega

theorem valid_name (bs : Bytes) : Valid (bs.takeWhile isNameByte) :=
  valid_ascii fun _ hb => (nameByte_facts _ (List.mem_takeWhile_imp hb)).1

theorem bytes_sitesFrom (env : Env) {rounds : Nat} (p : Place) {line : Bytes}
    (enough : line.length ≤ rounds) :
    (sitesFrom env rounds p line).map Site.byte = substitution env line := by
  induction rounds generalizing p line with
  | zero =>
    obtain rfl := List.length_eq_zero_iff.mp (Nat.le_zero.mp enough)
    rw [substitution]
    rfl
  | succ rounds ih =>
    cases line with
    | nil =>
      rw [substitution]
      rfl
    | cons b rest =>
      rw [List.length_cons] at enough
      rw [sitesFrom, substitution]
      dsimp only
      split
      · rw [List.map_append, bytes_valueSites, fromUtf8OrEmpty_of_valid (valid_name rest),
          ih _ (by simp; omega)]
      · rw [List.map_cons, ih _ (by omega)]

/-- `expand_line` writes the substitution as far as it fits. -/
theorem expandLine_eq (env : Env) (line : Bytes) (cap : Nat) :
    expandLine env line cap = (substitution env line).take cap := by
  rw [expandLine, expandFrom_sites env _ _ (.together .unquoted), List.nil_append, List.length_nil,
    Nat.sub_zero, bytes_sitesFrom env _ (Nat.le_refl _)]

/-- What is left of the substitution of a line. -/
def front (env : Env) (line : Bytes) : Bytes := (substitution env (command line)).take 512

/-- The shell acts on the bytes that fit the buffer. -/
theorem expanded_eq_front (env : Env) (line : Bytes) :
    expanded env line = trim (fromUtf8OrEmpty (front env line)) := by
  have written : expandLine env (command line) (maxLine * 2) = front env line :=
    expandLine_eq env (command line) 512
  have whole : expanded env line =
      trim (fromUtf8OrEmpty (expandLine env (command line) (maxLine * 2))) := rfl
  rw [whole, written]

/-- Nothing but white space is cut off. -/
def NothingCut (text : Bytes) : Prop :=
  trim text = [] ∨ (Valid (text.take 512) ∧ trim (text.drop 512) = [])

/-- A text that is cut reads the same only when nothing but white space is lost. -/
theorem trim_cut_iff (text : Bytes) :
    trim (fromUtf8OrEmpty (text.take 512)) = trim text ↔ NothingCut text := by
  by_cases front : Valid (text.take 512)
  · rw [fromUtf8OrEmpty_of_valid front, NothingCut, and_iff_right front]
    by_cases back : Valid (text.drop 512)
    · obtain ⟨cs, hcs⟩ := valid_iff.mp front
      obtain ⟨ds, hds⟩ := valid_iff.mp back
      have whole : text = encode (cs ++ ds) := by
        rw [encode_append, hcs, hds, List.take_append_drop]
      rw [← hcs, ← hds, whole, trim_front_iff]
      -- A blank text has a blank end
      refine ⟨.inr, fun blank => blank.elim (fun all => ?_) id⟩
      rw [trim_eq_nil_iff] at all ⊢
      exact fun d hd => all d (List.mem_append_right _ hd)
    · -- Bytes that are no text are not trimmed, and there are some behind the cut
      have broken : ¬Valid text := by
        rw [← List.take_append_drop 512 text]
        exact fun h => back (h.of_append front)
      have kept {bs : Bytes} (h : ¬Valid bs) : trim bs = bs := by
        have none_ : decode bs = none := by simpa [Valid] using h
        rw [trim, none_]
      have some_ : text.drop 512 ≠ [] := fun empty => back (empty ▸ valid_nil)
      rw [kept back, kept broken]
      constructor
      · intro same
        have few := (trim_sublist (text.take 512)).length_le
        rw [same, List.length_take] at few
        have more := List.length_pos_iff.mpr some_
        rw [List.length_drop] at more
        omega
      · rintro (empty | empty)
        · exact absurd (empty ▸ valid_nil) broken
        · exact absurd empty some_
  · -- A cut inside a character leaves nothing
    have none_ : fromUtf8 (text.take 512) = none := if_neg front
    rw [NothingCut, fromUtf8OrEmpty, none_, Option.getD_none, trim_nil, eq_comm]
    simp [front]

/-! ### Lines that are acted on -/

/-- The shell acts on the complete substitution of the line, or only reports an error. -/
def ActedOnWhole (env : Env) (line : Bytes) : Prop :=
  expanded env line = trim (substitution env (command line)) ∨ Refused env line

/-- Either nothing but white space is cut off the substitution, or what is left of it is turned
down. -/
def Answered (env : Env) (text : Bytes) : Prop :=
  NothingCut text ∨ (Valid (text.take 512) ∧ TurnedDown env (trim (text.take 512)))

/-- The shell acts on the whole substitution of a line or refuses the line exactly when it was cut
where nothing was, or when nothing but an error comes of what is left. -/
theorem acted_on_whole_iff (env : Env) (line : Bytes) :
    ActedOnWhole env line ↔ Answered env (substitution env (command line)) := by
  rw [ActedOnWhole, refused_iff, expanded_eq_front, front, trim_cut_iff, Answered]
  by_cases text : Valid ((substitution env (command line)).take 512)
  · rw [fromUtf8OrEmpty_of_valid text, and_iff_right text]
  · -- A cut inside a character leaves an empty line, which nobody notices
    have none_ : fromUtf8 ((substitution env (command line)).take 512) = none := if_neg text
    rw [fromUtf8OrEmpty, none_, Option.getD_none, trim_nil]
    simp [text, not_turnedDown_nil]

/-- 32 characters of two bytes each. -/
def accents : Bytes := (List.replicate 32 [195, 169]).flatten

theorem substitution_repeated {env : Env} {v : Bytes} (value : getEnv env (str "A") = some v)
    (n : Nat) : substitution env (List.replicate n (str "$A")).flatten = (List.replicate n v).flatten := by
  induction n with
  | zero =>
    rw [List.replicate_zero, List.flatten_nil, substitution]
    rfl
  | succ n ih =>
    have name : (65 :: (List.replicate n (str "$A")).flatten).takeWhile isNameByte = str "A" := by
      cases n <;> rfl
    have line : (List.replicate (n + 1) (str "$A")).flatten =
        36 :: 65 :: (List.replicate n (str "$A")).flatten := rfl
    rw [line, substitution]
    rw [name, if_pos ⟨rfl, by decide⟩, value]
    exact congrArg _ ih

/-- The buffer ends inside the last character, and the shell does nothing at all. -/
theorem cut_line_ignored : ∃ (env : Env) (line : Bytes),
    Reached [str "export A=" ++ accents] env ∧ Valid line ∧ line.length ≤ 256 ∧
      (substitution env line).length = 513 ∧ dispatch env line = pure (true, env) ∧
      ¬ActedOnWhole env line := by
  obtain ⟨env', h⟩ := Option.isSome_iff_exists.mp (by decide +kernel :
    (exports Env.empty [(cwdKey, str "/"), (str "A", accents)]).isSome = true)
  have value : (exports Env.empty [(cwdKey, str "/"), (str "A", accents)]).map (getEnv · (str "A")) =
      some (some accents) := by decide +kernel
  rw [h, Option.map_some, Option.some.injEq] at value
  -- The line that sets the variable
  have key : trim (str "A") = str "A" := by decide +kernel
  have val : trim accents = accents := by decide +kernel
  have reached : Reached [str "export A=" ++ accents] env' :=
    reached_assignment (str "A=" ++ accents) (by decide +kernel) (by decide) (by decide)
      (by decide +kernel) (by decide) (by decide +kernel : _ = some (str "A", accents))
      (by rw [key, val, h])
  -- The line that uses it eight times
  generalize used : str "x" ++ (List.replicate 8 (str "$A")).flatten = line
  have trimmed : command line = line := by
    rw [← used]
    decide +kernel
  have whole : substitution env' line = encode ('x' :: List.replicate 256 'é') := by
    have first : line = 120 :: (List.replicate 8 (str "$A")).flatten := used.symm
    rw [first, substitution, if_neg (by decide), substitution_repeated value]
    decide +kernel
  have empty : expanded env' line = [] := by
    have cut : (encode ('x' :: List.replicate 256 'é')).take 512 =
        encode ('x' :: List.replicate 255 'é') ++ [195] := by decide +kernel
    have broken : ¬Valid (encode ('x' :: List.replicate 255 'é') ++ [195]) := by
      intro text
      have half := text.of_append (valid_encode _)
      revert half
      decide +kernel
    have none_ : fromUtf8 (encode ('x' :: List.replicate 255 'é') ++ [195]) = none := if_neg broken
    rw [expanded_eq_front, front, trimmed, whole, cut, fromUtf8OrEmpty, none_]
    exact trim_nil
  have nothing : dispatch env' line = pure (true, env') := by
    have some_ : trim (fromUtf8OrEmpty line) ≠ [] := by
      rw [← command, trimmed, ← used]
      decide
    rw [dispatch, if_neg some_, if_pos empty]
  refine ⟨env', line, reached, ?_, ?_, ?_, nothing, ?_⟩
  · rw [← used]
    decide +kernel
  · rw [← used]
    decide
  · rw [whole]
    decide +kernel
  · rintro (acted | refused)
    · rw [empty, trimmed, whole] at acted
      have blank := trim_eq_nil_iff.mp acted.symm 'x' List.mem_cons_self
      revert blank
      decide
    · -- Nothing is written
      obtain ⟨calls, o, e, other⟩ := escapes_pure (true, env') (true, env')
      exact other (refused calls o (by rwa [nothing]))

end Smultron.Shell
