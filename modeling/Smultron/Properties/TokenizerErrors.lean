import Smultron.Properties.Quoting

/-!
# Which error the tokenizer returns

A line is refused for the number of its tokens, or for the quoting at its end. The tokenizer counts
a token when it is complete, so a word that is left open does not count, and too many tokens are
noticed before a quote or a backslash that is left open.
-/

namespace Smultron.Shell

open Checked Checked.Outcome Quoting

variable {t t' : Tokenizer} {mode : Mode} {ls : List Lexeme} {q : Quoting} {word : Option Bytes}
  {line src : Bytes} {n : Nat}

/-- The tokens of a line. A word that is left open at its end is the last of them. -/
def begun (line : Bytes) : List Lexeme := group none ((Quoting.unquoted.roles line).zip line)

/-- So many tokens are too many for a line that ends in this quoting. -/
def Overfull (q : Quoting) (n : Nat) : Prop := if q.Closed then maxTokens < n else maxTokens + 1 < n

instance (q : Quoting) (n : Nat) : Decidable (Overfull q n) :=
  inferInstanceAs (Decidable (ite _ _ _))

/-- The error for the quoting at the end. -/
def quotingError : Quoting → Option String
  | .unquoted => none
  | .single | .double => some "unclosed quote"
  | .escaped | .doubleEscaped => some "trailing escape"

/-- The error for so many tokens and this quoting at the end, if there is one. -/
def errorOf (q : Quoting) (n : Nat) : Option String :=
  if Overfull q n then some "too many tokens" else quotingError q

/-- The result is this error, or a success. -/
def AnswersWith {α : Type} (r : Outcome String α) (error : Option String) : Prop :=
  match error with
  | some msg => r = .err msg
  | none => ∃ a, r = .ok a

theorem overfull_open (h : ¬q.Closed) : Overfull q n ↔ maxTokens + 1 < n := by
  rw [Overfull, if_neg h]

theorem overfull_closed (h : q.Closed) : Overfull q n ↔ maxTokens < n := by
  rw [Overfull, if_pos h]

/-- Only outside quotes a byte is a blank, and the quoting stays. -/
theorem turn_blank {b : UInt8} (h : q.role b = .blank) : q.turn b = .unquoted := by
  cases q with
  | unquoted =>
    rw [role] at h
    split at h
    next blank => rcases blank with rfl | rfl <;> decide
    · split at h
      · cases h
      · split at h <;> cases h
  | single | double =>
    rw [role] at h
    split at h <;> cases h
  | escaped | doubleEscaped => cases h

theorem group_some_ne_nil (text : Bytes) (src : List (Role × UInt8)) : group (some text) src ≠ [] := by
  induction src generalizing text with
  | nil => simp [group, endOfWord]
  | cons r src ih =>
    obtain ⟨role, b⟩ := r
    cases role with
    | blank => simp [group, endOfWord]
    | operator kind => simp [group]
    | mark => exact ih text
    | text => exact ih (text ++ [b])

/-- A line that ends inside quotes or behind a backslash ends in a word. -/
theorem group_ne_nil (begins : q ≠ .unquoted → word.isSome) (h : ¬(q.behind src).Closed) :
    group word ((q.roles src).zip src) ≠ [] := by
  induction src generalizing q word with
  | nil =>
    obtain ⟨text, rfl⟩ := Option.isSome_iff_exists.mp (begins h)
    simp [roles, group, endOfWord]
  | cons b src ih =>
    rw [roles, List.zip_cons_cons]
    cases role : q.role b with
    | blank =>
      have later : group none ((roles (q.turn b) src).zip src) ≠ [] :=
        ih (fun other => absurd (turn_blank role) other) h
      simp [group, later]
    | operator kind => simp [group]
    | mark => simpa [group] using group_some_ne_nil (word.getD []) _
    | text => simpa [group] using group_some_ne_nil (word.getD [] ++ [b]) _

theorem errorOf_full (h : Overfull q n) : errorOf q n = some "too many tokens" := if_pos h

theorem errorOf_fits (h : ¬Overfull q n) : errorOf q n = quotingError q := if_neg h

/-- Outside quotes the end of the line only ends the last word. -/
theorem finish_unquoted (h : InStep t mode ls) (closed : mode.quoting = .unquoted) :
    t.finish = t.endWord := by
  have flags : t.inSingle = false ∧ t.inDouble = false ∧ t.escape = false := by
    cases mode with
    | between => exact (h.flag_values rfl).2
    | word text => exact (h.flag_values rfl).2
    | single text => cases closed
    | double text => cases closed
    | escape text => cases closed
    | doubleEscape text => cases closed
  simp [Tokenizer.finish, errIf, flags]

theorem length_endOfWord_le (word : Option Bytes) : (endOfWord word).length ≤ 1 := by
  cases word <;> simp [endOfWord]

/-- A quote or a backslash that is left open is the error. -/
theorem finish_open (h : InStep t mode ls) {msg : String}
    (error : quotingError mode.quoting = some msg) : t.finish = .err msg := by
  cases mode with
  | between => cases error
  | word text => cases error
  | single text =>
    obtain ⟨-, inSingle, -, escape⟩ := h.flag_values rfl
    cases error
    simp [Tokenizer.finish, errIf, escape, inSingle]
  | double text =>
    obtain ⟨-, -, inDouble, escape⟩ := h.flag_values rfl
    cases error
    simp [Tokenizer.finish, errIf, escape, inDouble]
  | escape text =>
    obtain ⟨-, -, -, escape⟩ := h.flag_values rfl
    cases error
    simp [Tokenizer.finish, errIf, escape]
  | doubleEscape text =>
    obtain ⟨-, -, -, escape⟩ := h.flag_values rfl
    cases error
    simp [Tokenizer.finish, errIf, escape]

theorem finish_answers (h : InStep t mode ls) (count : ls.length ≤ maxTokens) :
    AnswersWith t.finish (errorOf mode.quoting (ls.length + (endOfWord mode.text).length)) := by
  -- A word that is left open is no token yet
  have open_ (other : ¬mode.quoting.Closed) :
      ¬Overfull mode.quoting (ls.length + (endOfWord mode.text).length) := by
    have last := length_endOfWord_le mode.text
    rw [overfull_open other]
    omega
  cases mode with
  | between =>
    change AnswersWith t.finish (errorOf .unquoted ls.length)
    rw [errorOf_fits (mt (overfull_closed rfl).mp (Nat.not_lt.mpr count))]
    exact ⟨t, (finish_unquoted h rfl).trans (endWord_between h)⟩
  | word text =>
    have idle := finish_unquoted h rfl
    change AnswersWith t.finish (errorOf .unquoted (ls.length + 1))
    by_cases fits : ls.length < maxTokens
    · rw [errorOf_fits (mt (overfull_closed rfl).mp (Nat.not_lt.mpr fits))]
      obtain ⟨t', ended, -⟩ := endWord_ok h fits
      exact ⟨t', idle.trans ended⟩
    · rw [errorOf_full ((overfull_closed rfl).mpr (Nat.lt_succ_of_le (Nat.not_lt.mp fits)))]
      exact idle.trans (endWord_full h (Nat.not_lt.mp fits))
  | single text | double text | escape text | doubleEscape text =>
    rw [errorOf_fits (open_ (by rintro ⟨⟩))]
    exact finish_open h rfl

theorem Mode.text_of_quoting (h : mode.quoting ≠ .unquoted) : mode.text.isSome := by
  cases mode <;> simp_all [Mode.quoting, Mode.text]

/-- From states in step, the quoting and the tokens of the line decide. -/
theorem tokenizeFrom_answers (src : Bytes) (h : InStep t mode ls) (count : ls.length ≤ maxTokens)
    (room : t.parsed.length + src.length ≤ maxParsedLine) :
    AnswersWith (tokenizeFrom t src) (errorOf (mode.quoting.behind src)
      (ls.length + (group mode.text ((mode.quoting.roles src).zip src)).length)) := by
  induction src generalizing t mode ls with
  | nil => exact finish_answers h count
  | cons b src ih =>
    rw [List.length_cons] at room
    obtain ⟨fits, overflow⟩ := step_follows h (by omega) count b
    obtain ⟨turns, grouped⟩ := next_eq mode b
    rw [roles, List.zip_cons_cons, grouped, behind, ← turns, List.length_append, ← Nat.add_assoc]
    by_cases space : ls.length + (next mode b).2.length ≤ maxTokens
    · obtain ⟨t', stepped, inStep, grown⟩ := fits space
      rw [tokenizeFrom_ok stepped]
      simpa using ih inStep (by simpa using space) (by omega)
    · -- The tokens are too many already, whatever the rest of the line is
      have full : Overfull ((next mode b).1.quoting.behind src) (ls.length + (next mode b).2.length +
          (group (next mode b).1.text
            (((next mode b).1.quoting.roles src).zip src)).length) := by
        by_cases closed : ((next mode b).1.quoting.behind src).Closed
        · rw [overfull_closed closed]
          omega
        · have last := List.length_pos_iff.mpr
            (group_ne_nil (fun other => Mode.text_of_quoting other) closed)
          rw [overfull_open closed]
          omega
      rw [errorOf_full full]
      exact tokenizeFrom_err (overflow (Nat.not_le.mp space))

/-- The error that quoting and tokens of a line say. -/
def lineError (line : Bytes) : Option String :=
  errorOf (Quoting.unquoted.behind line) (begun line).length

/-- A line is refused with this error, or accepted when there is none. -/
theorem tokenizeCommand_answers (short : line.length ≤ maxParsedLine) :
    AnswersWith (tokenizeCommand line) (lineError line) := by
  have answers := tokenizeFrom_answers line inStep_start (Nat.zero_le _)
    (by simpa [Tokenizer.start] using short)
  rw [List.length_nil, Nat.zero_add] at answers
  rw [tokenizeCommand_eq]
  change AnswersWith _ (lineError line) at answers
  cases error : lineError line with
  | some msg =>
    rw [error] at answers
    rw [show tokenizeFrom Tokenizer.start line = .err msg from answers]
    rfl
  | none =>
    rw [error] at answers
    obtain ⟨t, ended⟩ := answers
    rw [ended]
    exact ⟨_, rfl⟩

theorem lineError_of_err (short : line.length ≤ maxParsedLine) {msg : String}
    (failed : tokenizeCommand line = .err msg) : lineError line = some msg := by
  have answers := tokenizeCommand_answers short
  rw [failed] at answers
  cases error : lineError line with
  | none =>
    rw [error] at answers
    obtain ⟨_, ok⟩ := answers
    cases ok
  | some msg' =>
    rw [error] at answers
    rw [Outcome.err.inj answers]

theorem tokenizeCommand_of_error (short : line.length ≤ maxParsedLine) {msg : String}
    (error : lineError line = some msg) : tokenizeCommand line = .err msg := by
  have answers := tokenizeCommand_answers short
  rwa [error] at answers

end Smultron.Shell
