import Smultron.Properties.Grammar

/-!
# The tokenizer computes the grammar

The four flags of the tokenizer are the mode of the scanner, the bytes behind `current_start` are
the text of the word begun, and the tokens read through the buffer are the tokens scanned so far.
Every byte keeps the two in step unless there is no room for a token.
-/

namespace Smultron.Shell

open Checked Checked.Outcome

/-- A token as it reads from the buffer. -/
def lexeme (buffer : Bytes) (token : Token) : Lexeme :=
  ⟨token.kind, (buffer.drop token.start).take token.len⟩

theorem lexeme_append {buffer : Bytes} {token : Token}
    (inside : token.start + token.len ≤ buffer.length) (more : Bytes) :
    lexeme (buffer ++ more) token = lexeme buffer token := by
  have fits : token.len ≤ (buffer.drop token.start).length := by
    rw [List.length_drop]
    omega
  rw [lexeme, List.drop_append_of_le_length (by omega), List.take_append_of_le_length fits]
  rfl

theorem lexemes_append {buffer : Bytes} {tokens : List Token}
    (inside : ∀ token ∈ tokens, token.start + token.len ≤ buffer.length) (more : Bytes) :
    tokens.map (lexeme (buffer ++ more)) = tokens.map (lexeme buffer) :=
  List.map_congr_left fun token h => lexeme_append (inside token h) more

/-- `in_token`, `in_single`, `in_double` and `escape` in a mode. -/
def Mode.flags : Mode → Bool × Bool × Bool × Bool
  | .between => (false, false, false, false)
  | .word _ => (true, false, false, false)
  | .single _ => (true, true, false, false)
  | .double _ => (true, false, true, false)
  | .escape _ => (true, false, false, true)
  | .doubleEscape _ => (true, false, true, true)

/-- The text of the word begun. -/
def Mode.text : Mode → Option Bytes
  | .between => none
  | .word text | .single text | .double text | .escape text | .doubleEscape text => some text

def Tokenizer.flags (t : Tokenizer) : Bool × Bool × Bool × Bool :=
  (t.inToken, t.inSingle, t.inDouble, t.escape)

/-- The tokenizer stands where the scanner stands, with the tokens `ls` behind it. -/
structure InStep (t : Tokenizer) (mode : Mode) (ls : List Lexeme) : Prop where
  lexemes : t.tokens.map (lexeme t.parsed) = ls
  inside : ∀ token ∈ t.tokens, token.start + token.len ≤ t.parsed.length
  flags : t.flags = mode.flags
  started : ∀ text, mode.text = some text →
    t.currentStart ≤ t.parsed.length ∧ t.parsed.drop t.currentStart = text

theorem InStep.count {t : Tokenizer} {mode : Mode} {ls : List Lexeme} (h : InStep t mode ls) :
    t.tokens.length = ls.length := by
  rw [← h.lexemes, List.length_map]

variable {t t' : Tokenizer} {mode mode' : Mode} {ls : List Lexeme} {text : Bytes}

theorem InStep.flag_values {inToken inSingle inDouble escape : Bool} (h : InStep t mode ls)
    (flags : mode.flags = (inToken, inSingle, inDouble, escape)) :
    t.inToken = inToken ∧ t.inSingle = inSingle ∧ t.inDouble = inDouble ∧ t.escape = escape := by
  have same := h.flags.trans flags
  simpa [Tokenizer.flags] using same

/-- Another mode with the same word. -/
theorem InStep.turn (h : InStep t mode ls) (tokens : t'.tokens = t.tokens)
    (parsed : t'.parsed = t.parsed) (start : t'.currentStart = t.currentStart)
    (flags : t'.flags = mode'.flags) (same : mode'.text = mode.text) : InStep t' mode' ls where
  lexemes := by rw [tokens, parsed, h.lexemes]
  inside := by rw [tokens, parsed]; exact h.inside
  flags := flags
  started := by rw [same, parsed, start]; exact h.started

/-- One more byte of the word. -/
theorem InStep.grow (h : InStep t mode ls) (begun : mode.text = some text) {b : UInt8}
    (tokens : t'.tokens = t.tokens) (parsed : t'.parsed = t.parsed ++ [b])
    (start : t'.currentStart = t.currentStart) (flags : t'.flags = mode'.flags)
    (longer : mode'.text = some (text ++ [b])) : InStep t' mode' ls where
  lexemes := by rw [tokens, parsed, lexemes_append h.inside, h.lexemes]
  inside := by
    rw [tokens, parsed, List.length_append]
    exact fun token hm => Nat.le_trans (h.inside token hm) (Nat.le_add_right ..)
  flags := flags
  started := by
    intro text' same
    obtain ⟨low, word⟩ := h.started text begun
    rw [longer] at same
    obtain rfl := Option.some.inj same
    rw [parsed, start, List.drop_append_of_le_length low, word, List.length_append]
    exact ⟨by omega, rfl⟩

theorem pushChar_ok (room : t.parsed.length < maxParsedLine) (b : UInt8) :
    t.pushChar b = .ok { t with parsed := t.parsed ++ [b] } := by
  have space : (push maxParsedLine t.parsed b : Outcome String Bytes) = .ok (t.parsed ++ [b]) :=
    push_of_lt room
  simp [Tokenizer.pushChar, errIf, Nat.not_le.mpr room, space]

theorem pushToken_ok (room : t.tokens.length < maxTokens) (kind : TokenKind) (start len : Nat) :
    t.pushToken kind start len = .ok { t with tokens := t.tokens ++ [⟨kind, start, len⟩] } := by
  have space : (push maxTokens t.tokens ⟨kind, start, len⟩ : Outcome String (List Token)) =
      .ok (t.tokens ++ [⟨kind, start, len⟩]) := push_of_lt room
  simp [Tokenizer.pushToken, errIf, Nat.not_le.mpr room, space]

theorem pushToken_full (full : maxTokens ≤ t.tokens.length) (kind : TokenKind) (start len : Nat) :
    t.pushToken kind start len = .err "too many tokens" := by
  simp [Tokenizer.pushToken, errIf, full]

theorem endWord_between (h : InStep t .between ls) : t.endWord = .ok t := by
  have idle : t.inToken = false := congrArg Prod.fst h.flags
  simp [Tokenizer.endWord, idle]

theorem endWord_ok (h : InStep t (.word text) ls) (room : ls.length < maxTokens) :
    ∃ t', t.endWord = .ok t' ∧ InStep t' .between (ls ++ [⟨.word, text⟩]) ∧
      t'.parsed = t.parsed := by
  obtain ⟨low, word⟩ := h.started text rfl
  have begun : t.inToken = true := congrArg Prod.fst h.flags
  have len : (sub t.parsed.length t.currentStart : Outcome String Nat) =
      .ok (t.parsed.length - t.currentStart) := sub_of_le low
  -- What the buffer holds behind the start is the text of the word
  have whole : (t.parsed.drop t.currentStart).take (t.parsed.length - t.currentStart) = text := by
    rw [← List.length_drop, List.take_length, word]
  refine ⟨{ t with
      tokens := t.tokens ++ [⟨.word, t.currentStart, t.parsed.length - t.currentStart⟩]
      inToken := false }, ?_, ⟨?_, ?_, ?_, ?_⟩, rfl⟩
  · simp [Tokenizer.endWord, begun, len, pushToken_ok (h.count ▸ room)]
  · simp [h.lexemes, lexeme, whole]
  · intro token hm
    rcases List.mem_append.mp hm with hm | hm
    · exact h.inside token hm
    · obtain rfl := List.mem_singleton.mp hm
      simp only
      omega
  · obtain ⟨-, rest⟩ := Prod.mk.inj h.flags
    exact Prod.ext rfl rest
  · intro text' none
    cases none

theorem endWord_full (h : InStep t (.word text) ls) (full : maxTokens ≤ ls.length) :
    t.endWord = .err "too many tokens" := by
  obtain ⟨low, -⟩ := h.started text rfl
  have begun : t.inToken = true := congrArg Prod.fst h.flags
  have len : (sub t.parsed.length t.currentStart : Outcome String Nat) =
      .ok (t.parsed.length - t.currentStart) := sub_of_le low
  simp [Tokenizer.endWord, begun, len, pushToken_full (h.count ▸ full)]

theorem pushOperator_ok (h : InStep t .between ls) (room : ls.length < maxTokens)
    (kind : TokenKind) :
    ∃ t', t.pushToken kind 0 0 = .ok t' ∧ InStep t' .between (ls ++ [⟨kind, []⟩]) ∧
      t'.parsed = t.parsed := by
  refine ⟨_, pushToken_ok (h.count ▸ room) kind 0 0, ⟨?_, ?_, h.flags, ?_⟩, rfl⟩
  · simp [h.lexemes, lexeme]
  · intro token hm
    rcases List.mem_append.mp hm with hm | hm
    · exact h.inside token hm
    · obtain rfl := List.mem_singleton.mp hm
      exact Nat.zero_le _
  · intro text' none
    cases none

theorem startWord_between (h : InStep t .between ls) : InStep t.startWord (.word []) ls := by
  have idle : t.inToken = false := congrArg Prod.fst h.flags
  obtain ⟨-, rest⟩ := Prod.mk.inj h.flags
  have begun : t.startWord = { t with currentStart := t.parsed.length, inToken := true } := by
    simp [Tokenizer.startWord, idle]
  rw [begun]
  refine ⟨h.lexemes, h.inside, Prod.ext rfl rest, fun text same => ?_⟩
  obtain rfl := Option.some.inj same
  simp

theorem startWord_word (h : InStep t (.word text) ls) : t.startWord = t := by
  have begun : t.inToken = true := congrArg Prod.fst h.flags
  simp [Tokenizer.startWord, begun]

/-! ### One byte -/

/-- `r` follows the scanner to `mode` with the tokens `es` behind `ls`, unless they are too many. -/
def Follows (r : Outcome String Tokenizer) (t : Tokenizer) (mode : Mode) (ls es : List Lexeme) :
    Prop :=
  (ls.length + es.length ≤ maxTokens → ∃ t', r = .ok t' ∧ InStep t' mode (ls ++ es) ∧
    t'.parsed.length ≤ t.parsed.length + 1) ∧
  (maxTokens < ls.length + es.length → r = .err "too many tokens")

/-- A byte that completes no token. -/
theorem follows_none {r : Outcome String Tokenizer} (count : ls.length ≤ maxTokens)
    (h : ∃ t', r = .ok t' ∧ InStep t' mode ls ∧ t'.parsed.length ≤ t.parsed.length + 1) :
    Follows r t mode ls [] := by
  obtain ⟨t', ok, inStep, grown⟩ := h
  refine ⟨fun _ => ⟨t', ok, by rwa [List.append_nil], grown⟩, fun full => ?_⟩
  simp at full
  omega

/-- A byte that turns the mode within the word. -/
theorem follows_turn {r : Outcome String Tokenizer} (h : InStep t mode ls)
    (count : ls.length ≤ maxTokens) (ok : r = .ok t') (tokens : t'.tokens = t.tokens)
    (parsed : t'.parsed = t.parsed) (start : t'.currentStart = t.currentStart)
    (flags : t'.flags = mode'.flags) (same : mode'.text = mode.text) : Follows r t mode' ls [] :=
  follows_none count ⟨t', ok, h.turn tokens parsed start flags same, parsed ▸ Nat.le_succ _⟩

/-- A byte that the word takes. -/
theorem follows_grow {r : Outcome String Tokenizer} (h : InStep t mode ls)
    (count : ls.length ≤ maxTokens) (begun : mode.text = some text) {b : UInt8} (ok : r = .ok t')
    (tokens : t'.tokens = t.tokens) (parsed : t'.parsed = t.parsed ++ [b])
    (start : t'.currentStart = t.currentStart) (flags : t'.flags = mode'.flags)
    (longer : mode'.text = some (text ++ [b])) : Follows r t mode' ls [] := by
  refine follows_none count ⟨t', ok, h.grow begun tokens parsed start flags longer, ?_⟩
  rw [parsed]
  simp

/-- What `step` does outside quotes with a byte that opens a segment. -/
def openByte (t : Tokenizer) (b : UInt8) : Outcome String Tokenizer :=
  if b = 39 then .ok { t with inSingle := true }
  else if b = 34 then .ok { t with inDouble := true }
  else if b = 92 then .ok { t with escape := true }
  else t.pushChar b

theorem openByte_follows (h : InStep t (.word text) ls) (room : t.parsed.length < maxParsedLine)
    (b : UInt8) :
    ∃ t', openByte t b = .ok t' ∧ InStep t' (openSegment text b) ls ∧
      t'.parsed.length ≤ t.parsed.length + 1 := by
  obtain ⟨inToken, inSingle, inDouble, escape⟩ := h.flag_values rfl
  unfold openByte openSegment
  split
  · exact ⟨_, rfl, h.turn rfl rfl rfl (by simp [Tokenizer.flags, Mode.flags, *]) rfl,
      Nat.le_succ _⟩
  split
  · exact ⟨_, rfl, h.turn rfl rfl rfl (by simp [Tokenizer.flags, Mode.flags, *]) rfl,
      Nat.le_succ _⟩
  split
  · exact ⟨_, rfl, h.turn rfl rfl rfl (by simp [Tokenizer.flags, Mode.flags, *]) rfl,
      Nat.le_succ _⟩
  · exact ⟨_, pushChar_ok room b, h.grow rfl rfl rfl rfl h.flags rfl, by simp⟩

section Unquoted

variable {b : UInt8} (escape : t.escape = false) (single : t.inSingle = false)
  (double : t.inDouble = false)

include escape single double

theorem step_blank (blank : Blank b) : t.step b = t.endWord := by
  have blank' : b = 32 ∨ b = 9 := blank
  simp [Tokenizer.step, escape, single, double, blank']

theorem step_operator (blank : ¬Blank b) {kind : TokenKind} (op : operator b = some kind) :
    t.step b = t.endWord >>= fun t => t.pushToken kind 0 0 := by
  rw [operator] at op
  split at op
  next same =>
    cases op
    subst same
    simp [Tokenizer.step, escape, single, double]
  split at op
  next same =>
    cases op
    subst same
    simp [Tokenizer.step, escape, single, double]
  split at op
  next same =>
    cases op
    subst same
    simp [Tokenizer.step, escape, single, double]
  · cases op

theorem step_open (blank : ¬Blank b) (op : operator b = none) :
    t.step b = openByte t.startWord b := by
  have blank' : ¬(b = 32 ∨ b = 9) := blank
  have notPipe : b ≠ 124 := by
    rintro rfl
    cases op
  have notIn : b ≠ 60 := by
    rintro rfl
    cases op
  have notOut : b ≠ 62 := by
    rintro rfl
    cases op
  simp [Tokenizer.step, openByte, escape, single, double, blank', notPipe, notIn, notOut]

end Unquoted

theorem step_between (h : InStep t .between ls) (room : t.parsed.length < maxParsedLine)
    (count : ls.length ≤ maxTokens) (b : UInt8) :
    Follows (t.step b) t (next .between b).1 ls (next .between b).2 := by
  obtain ⟨inToken, inSingle, inDouble, escape⟩ := h.flag_values rfl
  by_cases blank : Blank b
  · rw [step_blank escape inSingle inDouble blank, endWord_between h]
    simp only [next, if_pos blank]
    exact follows_none count ⟨t, rfl, h, Nat.le_succ _⟩
  · cases op : operator b with
    | some kind =>
      rw [step_operator escape inSingle inDouble blank op, endWord_between h, ok_bind]
      simp only [next, if_neg blank, op]
      constructor
      · intro fits
        obtain ⟨t', pushed, inStep, same⟩ := pushOperator_ok h fits kind
        exact ⟨t', pushed, inStep, same ▸ Nat.le_succ _⟩
      · intro full
        have full' : maxTokens ≤ t.tokens.length := by
          rw [h.count]
          exact Nat.le_of_lt_succ full
        exact pushToken_full full' kind 0 0
    | none =>
      rw [step_open escape inSingle inDouble blank op]
      simp only [next, if_neg blank, op]
      have begun := startWord_between h
      have same : t.startWord.parsed = t.parsed := by
        rw [Tokenizer.startWord]
        split <;> rfl
      -- The byte begins a word that is empty so far
      obtain ⟨t', opened, inStep, grown⟩ := openByte_follows begun (same ▸ room) b
      exact follows_none count ⟨t', opened, inStep, same ▸ grown⟩

theorem step_word (h : InStep t (.word text) ls) (room : t.parsed.length < maxParsedLine)
    (count : ls.length ≤ maxTokens) (b : UInt8) :
    Follows (t.step b) t (next (.word text) b).1 ls (next (.word text) b).2 := by
  obtain ⟨inToken, inSingle, inDouble, escape⟩ := h.flag_values rfl
  by_cases blank : Blank b
  · rw [step_blank escape inSingle inDouble blank]
    simp only [next, if_pos blank]
    constructor
    · intro fits
      obtain ⟨t', ended, inStep, same⟩ := endWord_ok h fits
      exact ⟨t', ended, inStep, same ▸ Nat.le_succ _⟩
    · intro full
      exact endWord_full h (Nat.le_of_lt_succ full)
  · cases op : operator b with
    | some kind =>
      rw [step_operator escape inSingle inDouble blank op]
      simp only [next, if_neg blank, op]
      constructor
      · intro fits
        have fits' : ls.length + 1 < maxTokens := fits
        obtain ⟨t₁, ended, inStep₁, same₁⟩ := endWord_ok h (Nat.lt_of_succ_lt fits')
        obtain ⟨t₂, pushed, inStep₂, same₂⟩ := pushOperator_ok inStep₁ (by simpa using fits') kind
        refine ⟨t₂, by rw [ended, ok_bind, pushed], by simpa using inStep₂, ?_⟩
        rw [same₂, same₁]
        exact Nat.le_succ _
      · -- Two tokens are complete: the word, or the operator behind it, finds no room
        intro full
        by_cases room' : ls.length < maxTokens
        · obtain ⟨t₁, ended, inStep₁, -⟩ := endWord_ok h room'
          rw [ended, ok_bind]
          refine pushToken_full ?_ kind 0 0
          rw [inStep₁.count]
          simp at full ⊢
          omega
        · rw [endWord_full h (Nat.not_lt.mp room')]
          rfl
    | none =>
      rw [step_open escape inSingle inDouble blank op, startWord_word h]
      simp only [next, if_neg blank, op]
      exact follows_none count (openByte_follows h room b)

/-- Behind a backslash every byte is taken as it is. -/
theorem step_escaped (escape : t.escape = true) (room : t.parsed.length < maxParsedLine)
    (b : UInt8) :
    t.step b = .ok { t with parsed := t.parsed ++ [b], inToken := true, escape := false } := by
  simp [Tokenizer.step, escape, pushChar_ok room]

/-- One byte keeps the tokenizer in step with the scanner. -/
theorem step_follows (h : InStep t mode ls) (room : t.parsed.length < maxParsedLine)
    (count : ls.length ≤ maxTokens) (b : UInt8) :
    Follows (t.step b) t (next mode b).1 ls (next mode b).2 := by
  cases mode with
  | between => exact step_between h room count b
  | word text => exact step_word h room count b
  | single text =>
    obtain ⟨inToken, inSingle, inDouble, escape⟩ := h.flag_values rfl
    simp only [next]
    by_cases quote : b = 39
    · -- A closing quote does not end the word: more may follow it
      have closed : t.step b = .ok { t with inSingle := false } := by
        simp [Tokenizer.step, escape, inSingle, quote]
      rw [if_pos quote]
      exact follows_turn h count closed rfl rfl rfl (by simp [Tokenizer.flags, Mode.flags, *]) rfl
    · have pushed : t.step b = .ok { t with parsed := t.parsed ++ [b], inToken := true } := by
        simp [Tokenizer.step, escape, inSingle, quote, pushChar_ok room]
      rw [if_neg quote]
      exact follows_grow h count rfl pushed rfl rfl rfl (by simp [Tokenizer.flags, Mode.flags, *])
        rfl
  | double text =>
    obtain ⟨inToken, inSingle, inDouble, escape⟩ := h.flag_values rfl
    simp only [next]
    by_cases quote : b = 34
    · have closed : t.step b = .ok { t with inDouble := false } := by
        simp [Tokenizer.step, escape, inSingle, inDouble, quote]
      rw [if_pos quote]
      exact follows_turn h count closed rfl rfl rfl (by simp [Tokenizer.flags, Mode.flags, *]) rfl
    · rw [if_neg quote]
      by_cases backslash : b = 92
      · have escaped : t.step b = .ok { t with escape := true } := by
          simp [Tokenizer.step, escape, inSingle, inDouble, backslash]
        rw [if_pos backslash]
        exact follows_turn h count escaped rfl rfl rfl (by simp [Tokenizer.flags, Mode.flags, *])
          rfl
      · have pushed : t.step b = .ok { t with parsed := t.parsed ++ [b], inToken := true } := by
          simp [Tokenizer.step, escape, inSingle, inDouble, quote, backslash, pushChar_ok room]
        rw [if_neg backslash]
        exact follows_grow h count rfl pushed rfl rfl rfl (by simp [Tokenizer.flags, Mode.flags, *])
          rfl
  | escape text =>
    obtain ⟨inToken, inSingle, inDouble, escape⟩ := h.flag_values rfl
    exact follows_grow h count rfl (step_escaped escape room b) rfl rfl rfl
      (by simp [next, Tokenizer.flags, Mode.flags, *]) rfl
  | doubleEscape text =>
    obtain ⟨inToken, inSingle, inDouble, escape⟩ := h.flag_values rfl
    exact follows_grow h count rfl (step_escaped escape room b) rfl rfl rfl
      (by simp [next, Tokenizer.flags, Mode.flags, *]) rfl

/-! ### The whole line -/

/-- The rest of the line from a state on, with what follows the loop. -/
def tokenizeFrom (t : Tokenizer) (src : Bytes) : Outcome String Tokenizer := do
  let t ← src.foldlM Tokenizer.step t
  t.finish

theorem tokenizeFrom_ok {b : UInt8} {src : Bytes} (h : t.step b = .ok t') :
    tokenizeFrom t (b :: src) = tokenizeFrom t' src := by
  rw [tokenizeFrom, List.foldlM_cons, h]
  rfl

theorem tokenizeFrom_err {b : UInt8} {src : Bytes} {e : String} (h : t.step b = .err e) :
    tokenizeFrom t (b :: src) = .err e := by
  rw [tokenizeFrom, List.foldlM_cons, h]
  rfl

/-- The tokenizer ends with the tokens `ls` in its buffer. -/
structure Ends (r : Outcome String Tokenizer) (ls : List Lexeme) : Prop where
  result : ∃ t, r = .ok t ∧ InStep t .between ls

theorem finish_follows (h : InStep t mode ls) (count : ls.length ≤ maxTokens) :
    match atEnd mode with
    | some es => (ls.length + es.length ≤ maxTokens → Ends t.finish (ls ++ es)) ∧
        (maxTokens < ls.length + es.length → ∃ e, t.finish = .err e)
    | none => ∃ e, t.finish = .err e := by
  cases mode with
  | between =>
    obtain ⟨-, inSingle, inDouble, escape⟩ := h.flag_values rfl
    have idle : t.finish = t.endWord := by
      simp [Tokenizer.finish, errIf, escape, inSingle, inDouble]
    refine ⟨fun _ => ⟨t, idle.trans (endWord_between h), by rwa [List.append_nil]⟩, fun full => ?_⟩
    simp at full
    omega
  | word text =>
    obtain ⟨-, inSingle, inDouble, escape⟩ := h.flag_values rfl
    have idle : t.finish = t.endWord := by
      simp [Tokenizer.finish, errIf, escape, inSingle, inDouble]
    constructor
    · intro fits
      obtain ⟨t', ended, inStep, -⟩ := endWord_ok h fits
      exact ⟨t', idle.trans ended, inStep⟩
    · intro full
      exact ⟨_, idle.trans (endWord_full h (Nat.le_of_lt_succ full))⟩
  | single text =>
    obtain ⟨-, inSingle, -, escape⟩ := h.flag_values rfl
    -- Quotes that are left open, and a backslash at the end, are errors
    exact ⟨"unclosed quote", by simp [Tokenizer.finish, errIf, escape, inSingle]⟩
  | double text =>
    obtain ⟨-, -, inDouble, escape⟩ := h.flag_values rfl
    exact ⟨"unclosed quote", by simp [Tokenizer.finish, errIf, escape, inDouble]⟩
  | escape text =>
    obtain ⟨-, -, -, escape⟩ := h.flag_values rfl
    exact ⟨"trailing escape", by simp [Tokenizer.finish, errIf, escape]⟩
  | doubleEscape text =>
    obtain ⟨-, -, -, escape⟩ := h.flag_values rfl
    exact ⟨"trailing escape", by simp [Tokenizer.finish, errIf, escape]⟩

/-- From states in step, the tokenizer ends as the scanner does, up to the number of tokens. -/
theorem tokenizeFrom_follows (src : Bytes) (h : InStep t mode ls) (count : ls.length ≤ maxTokens)
    (room : t.parsed.length + src.length ≤ maxParsedLine) :
    match scan mode src with
    | some es => (ls.length + es.length ≤ maxTokens → Ends (tokenizeFrom t src) (ls ++ es)) ∧
        (maxTokens < ls.length + es.length → ∃ e, tokenizeFrom t src = .err e)
    | none => ∃ e, tokenizeFrom t src = .err e := by
  induction src generalizing t mode ls with
  | nil => exact finish_follows h count
  | cons b src ih =>
    rw [List.length_cons] at room
    obtain ⟨fits, overflow⟩ := step_follows h (by omega) count b
    simp only [scan]
    -- The tokens this byte completes fit, or the tokenizer stops here.
    by_cases space : ls.length + (next mode b).2.length ≤ maxTokens
    · obtain ⟨t', stepped, inStep, grown⟩ := fits space
      have later := ih inStep (by simpa using space) (by omega)
      rw [tokenizeFrom_ok stepped]
      cases scanned : scan (next mode b).1 src with
      | some es =>
        rw [scanned] at later
        simpa [Nat.add_assoc] using later
      | none =>
        rw [scanned] at later
        exact later
    · have stopped : tokenizeFrom t (b :: src) = .err "too many tokens" :=
        tokenizeFrom_err (overflow (Nat.not_le.mp space))
      cases scan (next mode b).1 src with
      | some es =>
        refine ⟨fun small => ?_, fun _ => ⟨_, stopped⟩⟩
        simp at small
        omega
      | none => exact ⟨_, stopped⟩

theorem tokenizeCommand_eq (line : Bytes) : tokenizeCommand line =
    tokenizeFrom Tokenizer.start line >>= fun t => .ok (t.tokens, t.parsed) := by
  unfold tokenizeCommand tokenizeFrom
  cases line.foldlM Tokenizer.step Tokenizer.start <;> rfl

/-- At the start there is no token and no word. -/
theorem inStep_start : InStep Tokenizer.start .between [] :=
  ⟨rfl, by simp [Tokenizer.start], rfl, fun _ none => by cases none⟩

/-- The tokenizer returns what the scanner finds if that is at most 64 tokens, and an error
otherwise. -/
theorem tokenizeCommand_follows {line : Bytes} (short : line.length ≤ maxParsedLine) :
    (∃ es tokens parsed, scan .between line = some es ∧ es.length ≤ maxTokens ∧
        tokenizeCommand line = .ok (tokens, parsed) ∧
        tokens.map (lexeme (parsedStorage parsed)) = es) ∨
      ∃ msg, tokenizeCommand line = .err msg ∧
        ∀ es, scan .between line = some es → maxTokens < es.length := by
  have whole := tokenizeCommand_eq line
  have follows := tokenizeFrom_follows line inStep_start (Nat.zero_le _)
    (by simpa [Tokenizer.start] using short)
  cases scanned : scan .between line with
  | none =>
    rw [scanned] at follows
    obtain ⟨e, failed⟩ := follows
    rw [failed] at whole
    exact .inr ⟨e, whole, nofun⟩
  | some es =>
    rw [scanned] at follows
    obtain ⟨fits, overflow⟩ := follows
    by_cases few : es.length ≤ maxTokens
    · obtain ⟨t, ended, inStep⟩ := fits (by simpa using few)
      rw [ended] at whole
      refine .inl ⟨es, t.tokens, t.parsed, rfl, few, whole, ?_⟩
      rw [parsedStorage, lexemes_append inStep.inside, inStep.lexemes, List.nil_append]
    · obtain ⟨e, failed⟩ := overflow (by simpa using few)
      rw [failed] at whole
      refine .inr ⟨e, whole, ?_⟩
      rintro _ ⟨⟩
      exact Nat.not_le.mp few

/-- `tokenize_command` succeeds exactly on the lines of the grammar with at most 64 tokens, and its
tokens read through the buffer are then what the line means; otherwise it returns an error. -/
theorem tokenize_command_grammar (line : Bytes) (short : line.length ≤ 512) :
    (∀ ls, (∃ tokens parsed, tokenizeCommand line = .ok (tokens, parsed) ∧
        tokens.map (lexeme (parsedStorage parsed)) = ls) ↔
      LineText line ls ∧ ls.length ≤ 64) ∧
    ((∃ tokens parsed, tokenizeCommand line = .ok (tokens, parsed)) ∨
      ∃ msg, tokenizeCommand line = .err msg) := by
  rcases tokenizeCommand_follows short with
    ⟨es, tokens, parsed, scanned, few, ok, texts⟩ | ⟨msg, failed, many⟩
  · refine ⟨fun ls => ⟨?_, ?_⟩, .inl ⟨tokens, parsed, ok⟩⟩
    · rintro ⟨tokens', parsed', ok', rfl⟩
      rw [ok] at ok'
      obtain ⟨rfl, rfl⟩ := Prod.mk.inj (Outcome.ok.inj ok')
      rw [texts]
      exact ⟨scan_iff.mp scanned, few⟩
    · -- A line has one meaning, the one the scanner finds
      rintro ⟨meaning, -⟩
      have same : es = ls := Option.some.inj (scanned.symm.trans (scan_iff.mpr meaning))
      exact ⟨tokens, parsed, ok, texts.trans same⟩
  · refine ⟨fun ls => ⟨?_, ?_⟩, .inr ⟨msg, failed⟩⟩
    · rintro ⟨tokens, parsed, ok, -⟩
      rw [failed] at ok
      cases ok
    · rintro ⟨meaning, few⟩
      have more := many ls (scan_iff.mpr meaning)
      exact absurd few (Nat.not_le.mpr more)

theorem tokenize_command_grammar_quotes :
    LineText (str "a'b c'|\"\"") [⟨.word, str "ab c"⟩, ⟨.pipe, []⟩, ⟨.word, []⟩] := by
  have ok : ∃ tokens parsed, tokenizeCommand (str "a'b c'|\"\"") = .ok (tokens, parsed) ∧
      tokens.map (lexeme (parsedStorage parsed)) =
        [⟨.word, str "ab c"⟩, ⟨.pipe, []⟩, ⟨.word, []⟩] :=
    ⟨[⟨.word, 0, 4⟩, ⟨.pipe, 0, 0⟩, ⟨.word, 4, 0⟩], str "ab c", by decide +kernel,
      by decide +kernel⟩
  exact ((tokenize_command_grammar _ (by decide)).1 _).mp ok |>.1

end Smultron.Shell
