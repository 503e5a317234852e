import Smultron.Properties.TokenizerErrors
import Smultron.Properties.WordLines

/-!
# Lines that are trimmed

The shell trims a line before it is split into tokens. Trimming takes off every kind of white space
and looks at no quoting, while the tokenizer separates words at spaces and tabs that are not quoted.
So trimming changes what a line means where it takes off anything else: another kind of white space,
or a blank behind a backslash.
-/

namespace Smultron.Shell

open Checked Checked.Outcome Quoting Utf8

variable {q : Quoting} {word : Option Bytes} {line front core back src : Bytes} {b : UInt8}

/-! ### White space and quoting -/

/-- A byte of a white space character. -/
def WhiteByte (b : UInt8) : Prop := ∃ c, isWhitespace c = true ∧ b ∈ String.utf8EncodeChar c

theorem WhiteByte.ne {d : UInt8} (h : WhiteByte b) (ascii : d < 128)
    (other : isWhitespace (Char.ofNat d.toNat) = false) : b ≠ d := by
  obtain ⟨c, space, hb⟩ := h
  exact whitespace_ne space hb ascii other

/-- White space opens and closes nothing. -/
theorem WhiteByte.turn (h : WhiteByte b) (q : Quoting) : q.turn b = q.behindText := by
  have single := h.ne (d := 39) (by decide) (by decide)
  have double := h.ne (d := 34) (by decide) (by decide)
  have escape := h.ne (d := 92) (by decide) (by decide)
  cases q <;> simp [Quoting.turn, behindText, single, double, escape]

/-- It is text but for the blanks outside quotes. -/
theorem WhiteByte.role (h : WhiteByte b) (q : Quoting) :
    q.role b = if q = .unquoted ∧ Blank b then .blank else .text := by
  have single := h.ne (d := 39) (by decide) (by decide)
  have double := h.ne (d := 34) (by decide) (by decide)
  have escape := h.ne (d := 92) (by decide) (by decide)
  have op : operator b = none := by
    rw [operator, if_neg (h.ne (by decide) (by decide)), if_neg (h.ne (by decide) (by decide)),
      if_neg (h.ne (by decide) (by decide))]
  cases q <;> simp [Quoting.role, op, single, double, escape]

theorem behind_append (q : Quoting) (src more : Bytes) :
    q.behind (src ++ more) = (q.behind src).behind more := by
  induction src generalizing q with
  | nil => rfl
  | cons b src ih => exact ih _

theorem roles_append (q : Quoting) (src more : Bytes) :
    q.roles (src ++ more) = q.roles src ++ (q.behind src).roles more := by
  induction src generalizing q with
  | nil => rfl
  | cons b src ih => simp [roles, behind, ih]

theorem length_roles (q : Quoting) (src : Bytes) : (q.roles src).length = src.length := by
  induction src generalizing q with
  | nil => rfl
  | cons b src ih => simp [roles, ih]

theorem behind_white (white : ∀ b ∈ back, WhiteByte b) (q : Quoting) :
    q.behind back = if back = [] then q else q.behindText := by
  induction back generalizing q with
  | nil => rfl
  | cons b back ih =>
    rw [List.forall_mem_cons] at white
    have still : q.behindText.behindText = q.behindText := by cases q <;> rfl
    rw [behind, white.1.turn, ih white.2, still]
    simp

/-! ### The tokens of a longer line -/

theorem length_group_text (text text' : Bytes) (src : List (Role × UInt8)) :
    (group (some text) src).length = (group (some text') src).length := by
  induction src generalizing text text' with
  | nil => rfl
  | cons r src ih =>
    obtain ⟨role, b⟩ := r
    cases role with
    | blank => simp [group, endOfWord]
    | operator kind => simp [group, endOfWord]
    | mark => exact ih ..
    | text => exact ih ..

theorem length_group_word (word : Option Bytes) (src : List (Role × UInt8)) :
    (group none src).length ≤ (group word src).length := by
  cases word with
  | none => exact Nat.le_refl _
  | some text =>
    cases src with
    | nil => exact Nat.zero_le _
    | cons r src =>
      obtain ⟨role, b⟩ := r
      cases role with
      | blank => simp [group, endOfWord]
      | operator kind => simp [group, endOfWord]
      | mark => exact (length_group_text ..).le
      | text => exact (length_group_text ..).le

theorem length_group_front (word : Option Bytes) (front src : List (Role × UInt8)) :
    (group none src).length ≤ (group word (front ++ src)).length := by
  induction front generalizing word with
  | nil => exact length_group_word word src
  | cons r front ih =>
    obtain ⟨role, b⟩ := r
    cases role with
    | blank => simpa [group] using Nat.le_add_left_of_le (ih none)
    | operator kind =>
      have later := ih none
      simp only [List.cons_append, group, List.length_append, List.length_cons]
      omega
    | mark => exact ih _
    | text => exact ih _

theorem length_group_back (word : Option Bytes) (src back : List (Role × UInt8)) :
    (group word src).length ≤ (group word (src ++ back)).length := by
  induction src generalizing word with
  | nil =>
    cases word with
    | none => exact Nat.zero_le _
    | some text => exact List.length_pos_iff.mpr (group_some_ne_nil text back)
  | cons r src ih =>
    obtain ⟨role, b⟩ := r
    cases role with
    | blank => simpa [group] using ih none
    | operator kind => simpa [group] using ih none
    | mark => exact ih _
    | text => exact ih _

/-- A line has no more tokens than one it is part of, when it starts outside quotes there. -/
theorem length_begun_le (closed : Quoting.unquoted.behind front = .unquoted) :
    (begun core).length ≤ (begun (front ++ (core ++ back))).length := by
  rw [begun, begun, roles_append, closed, roles_append, List.zip_append (length_roles ..),
    List.zip_append (length_roles ..)]
  exact (length_group_back ..).trans (length_group_front ..)

/-- The bytes in the texts of the tokens. -/
def textLength (ls : List Lexeme) : Nat := (ls.map fun l => l.text.length).sum

theorem textLength_endOfWord (word : Option Bytes) :
    textLength (endOfWord word) = (word.getD []).length := by
  cases word <;> simp [endOfWord, textLength]

theorem textLength_group (word : Option Bytes) (src : List (Role × UInt8)) :
    textLength (group word src) = (word.getD []).length + (src.map Prod.fst).count .text := by
  induction src generalizing word with
  | nil => simp [group, textLength_endOfWord]
  | cons r src ih =>
    obtain ⟨role, b⟩ := r
    have first := textLength_endOfWord word
    have later := ih none
    simp only [textLength] at first later
    cases role with
    | blank => simp [group, textLength, first, later]
    | operator kind => simp [group, textLength, first, later]
    | mark => simp [group, ih]
    | text =>
      simp only [group, ih, Option.getD_some, List.length_append, List.length_singleton,
        List.map_cons, List.count_cons_self]
      omega

theorem textLength_begun (line : Bytes) :
    textLength (begun line) = (Quoting.unquoted.roles line).count .text := by
  rw [begun, textLength_group, List.map_fst_zip (length_roles ..).le]
  simp

/-! ### Lines with blanks at their ends -/

section Blanks

variable {t : Tokenizer} {mode : Mode} {ls : List Lexeme}

theorem tokenizeFrom_blank_front (h : InStep t .between ls) (blanks : ∀ b ∈ front, Blank b)
    (src : Bytes) : tokenizeFrom t (front ++ src) = tokenizeFrom t src := by
  obtain ⟨-, inSingle, inDouble, escape⟩ := h.flag_values rfl
  induction front with
  | nil => rfl
  | cons b front ih =>
    rw [List.forall_mem_cons] at blanks
    have stepped : t.step b = .ok t :=
      (step_blank escape inSingle inDouble blanks.1).trans (endWord_between h)
    rw [List.cons_append, tokenizeFrom_ok stepped, ih blanks.2]

/-- Blanks behind the line end its last word, like the end of the line does. -/
theorem tokenizeFrom_blanks (h : InStep t mode ls) (closed : mode.quoting = .unquoted)
    (blanks : ∀ b ∈ back, Blank b) :
    tokenizeFrom t back = tokenizeFrom t [] := by
  cases mode with
  | between => simpa using tokenizeFrom_blank_front h blanks []
  | word text =>
    cases back with
    | nil => rfl
    | cons b back =>
      rw [List.forall_mem_cons] at blanks
      obtain ⟨-, inSingle, inDouble, escape⟩ := h.flag_values rfl
      have stepped := step_blank escape inSingle inDouble blanks.1
      rw [show tokenizeFrom t [] = t.endWord from finish_unquoted h closed]
      by_cases room : ls.length < maxTokens
      · obtain ⟨t', ended, inStep, -⟩ := endWord_ok h room
        have later := tokenizeFrom_blank_front inStep blanks.2 []
        rw [List.append_nil] at later
        rw [tokenizeFrom_ok (stepped.trans ended), later, ended]
        exact (finish_unquoted inStep rfl).trans (endWord_between inStep)
      · have full := endWord_full h (Nat.not_lt.mp room)
        rw [tokenizeFrom_err (stepped.trans full), full]
  | single text => cases closed
  | double text => cases closed
  | escape text => cases closed
  | doubleEscape text => cases closed

theorem tokenizeFrom_blank_back (h : InStep t mode ls) (count : ls.length ≤ maxTokens)
    (room : t.parsed.length + src.length ≤ maxParsedLine)
    (closed : mode.quoting.behind src = .unquoted) (blanks : ∀ b ∈ back, Blank b) :
    tokenizeFrom t (src ++ back) = tokenizeFrom t src := by
  induction src generalizing t mode ls with
  | nil => exact tokenizeFrom_blanks h closed blanks
  | cons b src ih =>
    rw [List.length_cons] at room
    obtain ⟨fits, overflow⟩ := step_follows h (by omega) count b
    rw [List.cons_append]
    by_cases space : ls.length + (next mode b).2.length ≤ maxTokens
    · obtain ⟨t', stepped, inStep, grown⟩ := fits space
      rw [tokenizeFrom_ok stepped, tokenizeFrom_ok stepped]
      apply ih inStep (by simpa using space) (by omega)
      rwa [(next_eq mode b).1]
    · have stopped := overflow (Nat.not_le.mp space)
      rw [tokenizeFrom_err stopped, tokenizeFrom_err stopped]

end Blanks

/-- Blanks outside quotes at the ends of a line do not matter. -/
theorem tokenizeCommand_blanks (short : core.length ≤ maxParsedLine)
    (closed : (Quoting.unquoted.behind core).Closed) (before : ∀ b ∈ front, Blank b)
    (after : ∀ b ∈ back, Blank b) :
    tokenizeCommand (front ++ (core ++ back)) = tokenizeCommand core := by
  rw [tokenizeCommand_eq, tokenizeCommand_eq, tokenizeFrom_blank_front inStep_start before,
    tokenizeFrom_blank_back inStep_start (Nat.zero_le _) (by simpa [Tokenizer.start] using short)
      closed after]

/-! ### Trimming -/

theorem white_front (line : Bytes) : ∀ b ∈ trimmedFront line, WhiteByte b := fun _ hb => mem_leading hb

theorem white_back (line : Bytes) : ∀ b ∈ trimmedBack line, WhiteByte b := fun _ hb =>
  mem_trimmedBack hb

/-- The quoting at the end of the trimmed line. -/
def endsIn (line : Bytes) : Quoting := Quoting.unquoted.behind (trim line)

/-- A backslash is left open. -/
def Quoting.Pending (q : Quoting) : Prop := q = .escaped ∨ q = .doubleEscaped

instance (q : Quoting) : Decidable q.Pending := inferInstanceAs (Decidable (_ ∨ _))

/-- Trimming takes off nothing but blanks outside quotes, or the line is refused for the same reason
with and without what is trimmed: too many tokens, or a quote or a backslash that is left open. -/
def TrimInvisible (line : Bytes) : Prop :=
  ((endsIn line).Closed ∧ (∀ b ∈ trimmedFront line, Blank b) ∧ ∀ b ∈ trimmedBack line, Blank b) ∨
    (¬(endsIn line).Closed ∧ ((endsIn line).Pending → trimmedBack line = []) ∧
      (begun line).length ≤ maxTokens + 1) ∨
    Overfull (endsIn line) (begun (trim line)).length

instance (line : Bytes) : Decidable (TrimInvisible line) := inferInstanceAs (Decidable (_ ∨ _ ∨ _))

theorem behind_front (line : Bytes) : Quoting.unquoted.behind (trimmedFront line) = .unquoted := by
  rw [behind_white (white_front line)]
  split <;> rfl

/-- The quoting at the end of the line itself. -/
theorem behind_line (line : Bytes) : Quoting.unquoted.behind line =
    if trimmedBack line = [] then endsIn line else (endsIn line).behindText := by
  conv_lhs => rw [← trimmed_eq line]
  rw [behind_append, behind_front, behind_append, behind_white (white_back line)]
  rfl

theorem begun_trim_le (line : Bytes) : (begun (trim line)).length ≤ (begun line).length := by
  have longer : (begun (trim line)).length ≤
      (begun (trimmedFront line ++ (trim line ++ trimmedBack line))).length :=
    length_begun_le (behind_front line)
  rwa [trimmed_eq] at longer

/-! ### Accepted lines -/

/-- The text of an accepted line is the text of its tokens. -/
theorem begun_of_ok (short : line.length ≤ maxParsedLine) {tokens : List Token} {parsed : Bytes}
    (ok : tokenizeCommand line = .ok (tokens, parsed)) :
    (Quoting.unquoted.behind line).Closed ∧
      begun line = tokens.map (lexeme (parsedStorage parsed)) := by
  have scanned := tokenizeCommand_scan short ok
  rw [scan_eq] at scanned
  split at scanned
  next closed => exact ⟨closed, Option.some.inj scanned⟩
  next => cases scanned

theorem blank_of_no_text (white : ∀ b ∈ back, WhiteByte b)
    (none_ : (Quoting.unquoted.roles back).count .text = 0) : ∀ b ∈ back, Blank b := by
  induction back with
  | nil => simp
  | cons b back ih =>
    rw [List.forall_mem_cons] at white ⊢
    rw [roles, white.1.turn, white.1.role] at none_
    by_cases blank : Blank b
    · exact ⟨blank, ih white.2 (by simpa [blank, behindText] using none_)⟩
    · simp [blank] at none_

/-- If trimming changes none of the tokens, it takes off nothing but blanks. -/
theorem blank_of_same (short : line.length ≤ maxParsedLine) {tokens : List Token} {parsed : Bytes}
    (trimmed : tokenizeCommand (trim line) = .ok (tokens, parsed))
    (whole : tokenizeCommand line = .ok (tokens, parsed)) :
    (endsIn line).Closed ∧ (∀ b ∈ trimmedFront line, Blank b) ∧
      ∀ b ∈ trimmedBack line, Blank b := by
  obtain ⟨closed, words⟩ := begun_of_ok ((trim_sublist line).length_le.trans short) trimmed
  obtain ⟨-, words'⟩ := begun_of_ok short whole
  have same : (Quoting.unquoted.roles line).count .text =
      (Quoting.unquoted.roles (trim line)).count .text := by
    rw [← textLength_begun, ← textLength_begun, words, words']
  -- So there is no text in what is trimmed off
  have parts : Quoting.unquoted.roles line = Quoting.unquoted.roles (trimmedFront line) ++
      (Quoting.unquoted.roles (trim line) ++ Quoting.unquoted.roles (trimmedBack line)) := by
    conv_lhs => rw [← trimmed_eq line]
    rw [roles_append, behind_front, roles_append, closed]
  rw [parts, List.count_append, List.count_append] at same
  exact ⟨closed, blank_of_no_text (white_front line) (by omega),
    blank_of_no_text (white_back line) (by omega)⟩

/-! ### Refused lines -/

theorem quotingError_isSome : (quotingError q).isSome ↔ ¬q.Closed := by
  cases q <;> decide

theorem quotingError_ne (q : Quoting) : quotingError q ≠ some "too many tokens" := by
  cases q <;> decide

/-- What is trimmed off makes no line shorter. -/
theorem overfull_line (full : Overfull (endsIn line) (begun (trim line)).length) :
    Overfull (Quoting.unquoted.behind line) (begun line).length := by
  have longer := begun_trim_le line
  by_cases closed : (endsIn line).Closed
  · have ends : (Quoting.unquoted.behind line).Closed := by
      rw [behind_line, closed]
      split <;> rfl
    rw [overfull_closed closed] at full
    rw [overfull_closed ends]
    exact full.trans_le longer
  · rw [overfull_open closed] at full
    by_cases ends : (Quoting.unquoted.behind line).Closed
    · rw [overfull_closed ends]
      omega
    · rw [overfull_open ends]
      exact full.trans_le longer

/-- A quote that is left open is left open by the whole line, and so is a backslash with nothing
trimmed off behind it. -/
theorem behind_line_open (other : ¬(endsIn line).Closed)
    (pending : (endsIn line).Pending → trimmedBack line = []) :
    Quoting.unquoted.behind line = endsIn line := by
  rw [behind_line]
  split
  next => rfl
  next some_ =>
    cases ends : endsIn line with
    | unquoted => exact absurd ends other
    | single => rfl
    | double => rfl
    | escaped => exact absurd (pending (.inl ends)) some_
    | doubleEscaped => exact absurd (pending (.inr ends)) some_

/-- White space behind an open backslash closes it. -/
theorem pending_of_same (same : quotingError (Quoting.unquoted.behind line) =
    quotingError (endsIn line)) (pending : (endsIn line).Pending) : trimmedBack line = [] := by
  by_contra some_
  rw [behind_line, if_neg some_] at same
  rcases pending with ends | ends
  · rw [ends] at same
    cases same
  · rw [ends] at same
    simp [quotingError, behindText] at same

/-! ### With and without what is trimmed -/

theorem same_of_invisible (room : line.length ≤ maxParsedLine) (invisible : TrimInvisible line) :
    tokenizeCommand (trim line) = tokenizeCommand line := by
  have room' : (trim line).length ≤ maxParsedLine := (trim_sublist line).length_le.trans room
  rcases invisible with ⟨closed, before, after⟩ | ⟨other, pending, few⟩ | full
  · have blanks := tokenizeCommand_blanks room' closed before after
    rw [trimmed_eq] at blanks
    exact blanks.symm
  · have ends := behind_line_open other pending
    have fits : ¬Overfull (endsIn line) (begun line).length := by
      rwa [overfull_open other, Nat.not_lt]
    have fits' : ¬Overfull (endsIn line) (begun (trim line)).length := by
      rw [overfull_open other, Nat.not_lt]
      exact (begun_trim_le line).trans few
    obtain ⟨msg, open_⟩ := Option.isSome_iff_exists.mp (quotingError_isSome.mpr other)
    have error : lineError line = some msg := by
      rw [lineError, ends, errorOf_fits fits, open_]
    rw [tokenizeCommand_of_error room' ((errorOf_fits fits').trans open_),
      tokenizeCommand_of_error room error]
  · rw [tokenizeCommand_of_error room' (errorOf_full full),
      tokenizeCommand_of_error room (errorOf_full (overfull_line full))]

theorem invisible_of_same (room : line.length ≤ maxParsedLine)
    (same : tokenizeCommand (trim line) = tokenizeCommand line) : TrimInvisible line := by
  have room' : (trim line).length ≤ maxParsedLine := (trim_sublist line).length_le.trans room
  by_cases full : Overfull (endsIn line) (begun (trim line)).length
  · exact .inr (.inr full)
  have error : lineError (trim line) = quotingError (endsIn line) := errorOf_fits full
  by_cases closed : (endsIn line).Closed
  · -- The line is accepted
    have answers := tokenizeCommand_answers room'
    rw [error, closed] at answers
    obtain ⟨⟨tokens, parsed⟩, trimmed⟩ := answers
    exact .inl (blank_of_same room trimmed (same ▸ trimmed))
  · -- The error is the one for the quoting at the end, so the whole line ends in that quoting
    obtain ⟨msg, open_⟩ := Option.isSome_iff_exists.mp (quotingError_isSome.mpr closed)
    have failed := tokenizeCommand_of_error room' (error.trans open_)
    have error' : lineError line = quotingError (endsIn line) :=
      (lineError_of_err room (same ▸ failed)).trans open_.symm
    have fits : ¬Overfull (Quoting.unquoted.behind line) (begun line).length := by
      intro many
      rw [lineError, errorOf_full many] at error'
      exact quotingError_ne _ error'.symm
    rw [lineError, errorOf_fits fits] at error'
    have ends := behind_line_open closed (pending_of_same error')
    rw [ends, overfull_open closed, Nat.not_lt] at fits
    exact .inr (.inl ⟨closed, pending_of_same error', fits⟩)

/-- The trimmed line has the tokens or the error of the line exactly if nothing but blanks is trimmed
off, or if the line is refused for the same reason either way. -/
theorem trim_invisible_iff (env : Env) (line : Bytes) (text : Valid line)
    (short : line.length ≤ 256) (plain : 36 ∉ line) :
    tokenizeCommand (expanded env line) = tokenizeCommand line ↔ TrimInvisible line := by
  have room : line.length ≤ maxParsedLine := short.trans (by decide)
  rw [expanded_plain text plain room]
  exact ⟨invisible_of_same room, same_of_invisible room⟩

/-- Blanks at both ends of a command. -/
theorem trim_invisible_echo :
    trim (str "  echo a ") ≠ str "  echo a " ∧
      tokenizeCommand (expanded Env.empty (str "  echo a ")) = tokenizeCommand (str "  echo a ") := by
  refine ⟨by decide +kernel, ?_⟩
  refine (trim_invisible_iff Env.empty (str "  echo a ") (by decide +kernel) (by decide)
    (by decide)).mpr (.inl ?_)
  decide +kernel

/-- A word that ends in a space behind a backslash is an error once the space is trimmed off. -/
theorem escaped_space_trimmed :
    ¬∀ (env : Env) (line : Bytes), Valid line → line.length ≤ 256 → 36 ∉ line →
      tokenizeCommand (expanded env line) = tokenizeCommand line := by
  intro same
  have text : Valid (str "a\\ ") := by decide +kernel
  have plain : 36 ∉ str "a\\ " := by decide
  have trimmed : trim (str "a\\ ") = str "a\\" := by decide +kernel
  have refused : tokenizeCommand (str "a\\") = .err "trailing escape" := by decide +kernel
  have accepted : tokenizeCommand (str "a\\ ") ≠ .err "trailing escape" := by decide +kernel
  have eq := same Env.empty (str "a\\ ") text (by decide) plain
  rw [expanded_plain text plain (by decide), trimmed, refused] at eq
  exact accepted eq.symm

end Smultron.Shell
