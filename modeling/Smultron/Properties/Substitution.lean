import Smultron.Properties.EnvTransport
import Smultron.Properties.LineParses
import Smultron.Properties.Quoting
import Mathlib.Data.List.Chain

/-!
# Operators and substituted text

A line is expanded first and taken apart afterwards, so a value is read like typed text. What it
should mean is told by the typed line alone: a typed byte has the role it has there, and every byte
of a value is text of a word. The shell reads a line in that way if and only if every value is plain
where its name stands.
-/

namespace Smultron.Shell

open Checked Checked.Outcome Quoting Utf8

/-! ### The bytes of the expanded line -/

/-- Where the expanded line stands beside the typed one. -/
inductive Place where
  | together (q : Quoting)
  -- the backslash of the typed line took the `$` of a name that left nothing behind
  | backslash (inDouble : Bool)
  deriving DecidableEq

namespace Place

/-- The quoting of the typed line. -/
def typed : Place → Quoting
  | .together q => q
  | .backslash false => .unquoted
  | .backslash true => .double

/-- The quoting of the expanded line. -/
def reached : Place → Quoting
  | .together q => q
  | .backslash false => .escaped
  | .backslash true => .doubleEscaped

/-- The place behind a name. -/
def past (p : Place) (v : Bytes) : Place :=
  if v = [] then
    match p with
    | .together .escaped => .backslash false
    | .together .doubleEscaped => .backslash true
    | p => p
  else .together p.typed.behindText

theorem reached_past_nil (p : Place) : (p.past []).reached = p.reached := by
  cases p with
  | together q => cases q <;> rfl
  | backslash inDouble => rfl

end Place

/-- A byte of the expanded line. -/
structure Site where
  place : Place
  byte : UInt8
  -- from the typed line, not from a value
  typed : Bool

/-- What the byte should be for. -/
def Site.role (s : Site) : Role := if s.typed then s.place.typed.role s.byte else .text

/-- The bytes of a value. -/
def valueSites (p : Place) : Bytes → List Site
  | [] => []
  | b :: v => ⟨p, b, false⟩ :: v.map fun b => ⟨.together p.typed.behindText, b, false⟩

/-- The bytes a line expands to, as `expand_line` goes through it. -/
def sitesFrom (env : Env) : Nat → Place → Bytes → List Site
  | 0, _, _ => []
  | _ + 1, _, [] => []
  | rounds + 1, p, b :: rest =>
    let name := rest.takeWhile isNameByte
    if b = 36 ∧ name ≠ [] then
      let v := (getEnv env (fromUtf8OrEmpty name)).getD []
      valueSites p v ++ sitesFrom env rounds (p.past v) (rest.drop name.length)
    else ⟨p, b, true⟩ :: sitesFrom env rounds (.together (p.typed.turn b)) rest

/-- The line that is expanded. -/
def command (line : Bytes) : Bytes := trim (fromUtf8OrEmpty line)

def sites (env : Env) (line : Bytes) : List Site :=
  sitesFrom env (command line).length (.together .unquoted) (command line)

/-- The bytes the tokenizer gets: those that fit the buffer, without the white space at their ends,
and none of them when they are no text. -/
def readSites (env : Env) (line : Bytes) : List Site :=
  let written := (sites env line).take (maxLine * 2)
  let text := written.map Site.byte
  if Valid text then (written.drop (leading text)).take (trim text).length else []

theorem bytes_valueSites (p : Place) (v : Bytes) : (valueSites p v).map Site.byte = v := by
  cases v with
  | nil => rfl
  | cons b v => simp [valueSites, Function.comp_def]

theorem expandFrom_sites (env : Env) (cap rounds : Nat) (p : Place) (line out : Bytes) :
    expandFrom env cap rounds line out =
      out ++ ((sitesFrom env rounds p line).map Site.byte).take (cap - out.length) := by
  induction rounds generalizing p line out with
  | zero => simp [expandFrom, sitesFrom]
  | succ rounds ih =>
    cases line with
    | nil => simp [expandFrom, sitesFrom]
    | cons b rest =>
      -- A round copies bytes, and the rounds behind it fill what is left of the buffer
      have copies := copyWhileRoom_append cap out
      rw [expandFrom, sitesFrom]
      dsimp only
      split
      next full => rw [Nat.sub_eq_zero_of_le full, List.take_zero, List.append_nil]
      by_cases dollar : b = 36
      · rw [if_pos dollar]
        by_cases name : rest.takeWhile isNameByte = []
        · rw [if_pos name, if_neg (fun h => h.2 name), ih (.together (p.typed.turn b)), copies,
            name, dollar]
          rfl
        · rw [if_neg name, if_pos ⟨dollar, name⟩, List.map_append, bytes_valueSites]
          cases getEnv env (fromUtf8OrEmpty (rest.takeWhile isNameByte)) with
          | none => exact ih _ _ _
          | some v => exact (ih _ _ _).trans (copies _ _)
      · rw [if_neg dollar, if_neg (fun h => dollar h.1), ih (.together (p.typed.turn b)), copies]
        rfl

/-- The bytes the tokenizer gets are those of the expanded line. -/
theorem bytes_readSites (env : Env) (line : Bytes) :
    (readSites env line).map Site.byte = expanded env line := by
  have written : expandLine env (command line) (maxLine * 2) =
      ((sites env line).take (maxLine * 2)).map Site.byte := by
    rw [expandLine, expandFrom_sites env _ _ (.together .unquoted), List.nil_append,
      List.length_nil, Nat.sub_zero, List.map_take]
    rfl
  have whole : expanded env line =
      trim (fromUtf8OrEmpty (expandLine env (command line) (maxLine * 2))) := rfl
  rw [whole, written, readSites]
  split
  next text => rw [List.map_take, List.map_drop, trim_eq_slice, fromUtf8OrEmpty_of_valid text]
  next text =>
    have none_ : fromUtf8 (((sites env line).take (maxLine * 2)).map Site.byte) = none := if_neg text
    rw [fromUtf8OrEmpty, none_]
    exact (trim_encode []).symm

/-! ### One byte after the other -/

/-- A byte of a value has no meaning of its own where its name stands, and neither has a typed byte
that a backslash reaches through a name that left nothing. -/
def Site.Plain (s : Site) : Prop :=
  match s.place, s.typed with
  | .together q, false => q.role s.byte = .text
  | .backslash _, true => s.place.typed.role s.byte = .text
  | _, _ => True

/-- A byte is plain when the expanded line reads it as it should. -/
theorem Site.plain_iff (s : Site) : s.Plain ↔ s.place.reached.role s.byte = s.role := by
  obtain ⟨place, b, typed⟩ := s
  cases place with
  | together q =>
    cases typed with
    | false => exact Iff.rfl
    | true => exact ⟨fun _ => rfl, fun _ => trivial⟩
  | backslash inDouble =>
    cases typed with
    | false => cases inDouble <;> exact ⟨fun _ => rfl, fun _ => trivial⟩
    | true => cases inDouble <;> exact ⟨Eq.symm, Eq.symm⟩

/-- The quoting a plain byte leaves behind in the expanded line. -/
theorem Site.Plain.turn {s : Site} (h : s.Plain) : s.place.reached.turn s.byte =
    if s.typed then s.place.typed.turn s.byte else s.place.typed.behindText := by
  obtain ⟨place, b, typed⟩ := s
  cases place with
  | together q =>
    cases typed with
    | false => exact turn_text h
    | true => rfl
  | backslash inDouble =>
    cases typed with
    | false => cases inDouble <;> rfl
    | true =>
      have same := turn_text (show (Place.backslash inDouble).typed.role b = .text from h)
      cases inDouble <;> exact same.symm

/-- How a byte hands on the place. Without a quote or a backslash the two lines stay outside quotes
together, also when the byte is not plain. -/
structure Next (s s' : Site) : Prop where
  plain : s.Plain → s.place.reached.turn s.byte = s'.place.reached
  stays : s.place = .together .unquoted → Quoting.unquoted.turn s.byte = .unquoted →
    s'.place = .together .unquoted

/-- The first byte behind a place. -/
structure Begins (p : Place) (s : Site) : Prop where
  reached : s.place.reached = p.reached
  stays : p = .together .unquoted → s.place = .together .unquoted

theorem begins_here (p : Place) (b : UInt8) (typed : Bool) : Begins p ⟨p, b, typed⟩ := ⟨rfl, id⟩

theorem behindText_behindText (q : Quoting) : q.behindText.behindText = q.behindText := by
  cases q <;> rfl

theorem next_typed {p : Place} {b : UInt8} {s : Site}
    (begins : Begins (.together (p.typed.turn b)) s) : Next ⟨p, b, true⟩ s where
  plain h := h.turn.trans begins.reached.symm
  stays := by
    intro outside same
    obtain rfl : p = .together .unquoted := outside
    apply begins.stays
    exact congrArg Place.together same

theorem next_value {p : Place} {b : UInt8} {s : Site}
    (begins : Begins (.together p.typed.behindText) s) : Next ⟨p, b, false⟩ s where
  plain h := h.turn.trans begins.reached.symm
  stays := by
    intro outside _
    obtain rfl : p = .together .unquoted := outside
    exact begins.stays rfl

/-- The bytes of a value but the first, in front of the rest of the line. -/
theorem laterSites_chain {q : Quoting} (settled : q.behindText = q) (v : Bytes) {rest : List Site}
    (chain : rest.IsChain Next) (begins : ∀ s ∈ rest.head?, Begins (.together q) s) :
    (v.map (Site.mk (.together q) · false) ++ rest).IsChain Next ∧
      ∀ s ∈ (v.map (Site.mk (.together q) · false) ++ rest).head?, Begins (.together q) s := by
  induction v with
  | nil => exact ⟨chain, begins⟩
  | cons b v ih =>
    refine ⟨List.isChain_cons.mpr ⟨fun s first => ?_, ih.1⟩, ?_⟩
    · apply next_value
      rw [Place.typed, settled]
      exact ih.2 s first
    · rintro _ ⟨⟩
      exact begins_here _ b false

theorem valueSites_chain (p : Place) (v : Bytes) {rest : List Site} (chain : rest.IsChain Next)
    (begins : ∀ s ∈ rest.head?, Begins (p.past v) s) :
    (valueSites p v ++ rest).IsChain Next ∧ ∀ s ∈ (valueSites p v ++ rest).head?, Begins p s := by
  cases v with
  | nil =>
    refine ⟨chain, fun s first => ⟨?_, fun outside => ?_⟩⟩
    · rw [(begins s first).reached, Place.reached_past_nil]
    · apply (begins s first).stays
      rw [outside]
      rfl
  | cons b v =>
    have later := laterSites_chain (behindText_behindText p.typed) v chain begins
    refine ⟨List.isChain_cons.mpr ⟨fun s first => next_value (later.2 s first), later.1⟩, ?_⟩
    rintro _ ⟨⟩
    exact begins_here p b false

theorem sitesFrom_chain (env : Env) (rounds : Nat) (p : Place) (line : Bytes) :
    (sitesFrom env rounds p line).IsChain Next ∧
      ∀ s ∈ (sitesFrom env rounds p line).head?, Begins p s := by
  have nothing (p : Place) :
      ([] : List Site).IsChain Next ∧ ∀ s ∈ ([] : List Site).head?, Begins p s := ⟨.nil, by simp⟩
  induction rounds generalizing p line with
  | zero => exact nothing p
  | succ rounds ih =>
    cases line with
    | nil => exact nothing p
    | cons b rest =>
      rw [sitesFrom]
      dsimp only
      split
      · -- The bytes of the value, and then the rest of the line
        obtain ⟨chain, begins⟩ := ih _ _
        exact valueSites_chain p _ chain begins
      · -- A typed byte hands its quoting on
        obtain ⟨chain, begins⟩ := ih (.together (p.typed.turn b)) rest
        refine ⟨List.isChain_cons.mpr ⟨fun s first => next_typed (begins s first), chain⟩, ?_⟩
        rintro _ ⟨⟩
        exact begins_here p b true

theorem turn_whitespace {c : Char} {b : UInt8} (space : isWhitespace c = true)
    (hb : b ∈ String.utf8EncodeChar c) : Quoting.unquoted.turn b = .unquoted := by
  rw [turn, if_neg (whitespace_ne space hb (by decide) (by decide)),
    if_neg (whitespace_ne space hb (by decide) (by decide)),
    if_neg (whitespace_ne space hb (by decide) (by decide))]

/-- The two lines stay together through bytes that are no quotes. -/
theorem stays_through {front rest : List Site} (chain : (front ++ rest).IsChain Next)
    (starts : ∀ s ∈ (front ++ rest).head?, s.place = .together .unquoted)
    (spaces : ∀ s ∈ front, Quoting.unquoted.turn s.byte = .unquoted) :
    ∀ s ∈ rest.head?, s.place = .together .unquoted := by
  induction front with
  | nil => exact starts
  | cons s front ih =>
    rw [List.forall_mem_cons] at spaces
    obtain ⟨next, chain⟩ := List.isChain_cons.mp chain
    apply ih chain _ spaces.2
    intro s' first
    exact (next s' first).stays (starts s rfl) spaces.1

/-- The tokenizer starts where the typed line stands outside quotes. -/
theorem readSites_chain (env : Env) (line : Bytes) : (readSites env line).IsChain Next ∧
    ∀ s ∈ (readSites env line).head?, s.place.reached = .unquoted := by
  rw [readSites]
  split
  next text =>
    obtain ⟨chain, begins⟩ :=
      sitesFrom_chain env (command line).length (.together .unquoted) (command line)
    rw [← sites] at chain begins
    generalize front : leading (((sites env line).take (maxLine * 2)).map Site.byte) = n
    have written := chain.take (maxLine * 2)
    constructor
    · exact (written.drop n).take _
    · -- What is trimmed at the front opens no quote
      have starts : ∀ s ∈ ((sites env line).take (maxLine * 2)).head?,
          s.place = .together .unquoted := by
        intro s first
        apply (begins s _).stays rfl
        rw [List.head?_take] at first
        exact first
      have behind : ∀ s ∈ (((sites env line).take (maxLine * 2)).drop n).head?,
          s.place = .together .unquoted := by
        rw [← List.take_append_drop n ((sites env line).take (maxLine * 2))] at written starts
        apply stays_through written starts
        intro s hs
        have among : s.byte ∈ (((sites env line).take (maxLine * 2)).map Site.byte).take n := by
          rw [← List.map_take]
          exact List.mem_map_of_mem hs
        rw [← front] at among
        obtain ⟨c, space, hb⟩ := mem_leading among
        exact turn_whitespace space hb
      intro s first
      rw [List.head?_take] at first
      split at first
      · cases first
      · rw [behind s first]
        rfl
  · exact ⟨.nil, by simp⟩

/-! ### The whole line -/

theorem roles_iff {q : Quoting} {ss : List Site} (chain : ss.IsChain Next)
    (starts : ∀ s ∈ ss.head?, s.place.reached = q) :
    q.roles (ss.map Site.byte) = ss.map Site.role ↔ ∀ s ∈ ss, s.Plain := by
  induction ss generalizing q with
  | nil => simp [roles]
  | cons s ss ih =>
    obtain rfl := starts s rfl
    obtain ⟨next, chain⟩ := List.isChain_cons.mp chain
    rw [List.map_cons, roles, List.map_cons, List.cons_eq_cons, ← s.plain_iff, List.forall_mem_cons]
    -- Behind a plain byte the rest is read from its own place
    apply and_congr_right
    intro plain
    exact ih chain fun s' first => ((next s' first).plain plain).symm

/-- The quoting behind the last byte. -/
def endQuoting : Quoting → List Site → Quoting
  | q, [] => q
  | _, s :: ss => endQuoting (s.place.reached.turn s.byte) ss

theorem behind_eq {q : Quoting} {ss : List Site} (chain : ss.IsChain Next)
    (starts : ∀ s ∈ ss.head?, s.place.reached = q) (plain : ∀ s ∈ ss, s.Plain) :
    q.behind (ss.map Site.byte) = endQuoting q ss := by
  induction ss generalizing q with
  | nil => rfl
  | cons s ss ih =>
    obtain rfl := starts s rfl
    obtain ⟨next, chain⟩ := List.isChain_cons.mp chain
    rw [List.forall_mem_cons] at plain
    rw [List.map_cons, behind, endQuoting]
    exact ih chain (fun s' first => ((next s' first).plain plain.1).symm) plain.2

/-- The tokens of the typed line with the values in their words: none when it ends inside quotes or
behind a backslash. -/
def intended (env : Env) (line : Bytes) : Option (List Lexeme) :=
  if (endQuoting .unquoted (readSites env line)).Closed
    then some (group none ((readSites env line).map fun s => (s.role, s.byte))) else none

/-- A line of plain values means what it should. -/
theorem scan_expanded {env : Env} {line : Bytes} (plain : ∀ s ∈ readSites env line, s.Plain) :
    scan .between (expanded env line) = intended env line := by
  obtain ⟨chain, starts⟩ := readSites_chain env line
  have roles := (roles_iff chain starts).mpr plain
  have ends := behind_eq chain starts plain
  rw [scan_eq, intended, Mode.quoting, ← bytes_readSites, roles, ends, List.zip_map']
  rfl

/-! ### Operators -/

/-- The operators of a line as it was typed. -/
def typedOperators (line : Bytes) : List TokenKind := operatorsOf (Quoting.unquoted.roles line)

/-- The operators the shell acts on. -/
def operatorsIn (tokens : List Token) : List TokenKind :=
  (tokens.map Token.kind).filter (· ≠ .word)

/-- The operators among the bytes of the typed line that the tokenizer gets. -/
def readOperators (env : Env) (line : Bytes) : List TokenKind :=
  operatorsOf ((readSites env line).map Site.role)

theorem operatorTokens_lexemes (buffer : Bytes) (tokens : List Token) :
    operatorTokens (tokens.map (lexeme buffer)) = operatorsIn tokens := by
  rw [operatorTokens, operatorsIn, List.map_map]
  rfl

theorem operators_intended {env : Env} {line : Bytes} {ls : List Lexeme}
    (h : intended env line = some ls) : operatorTokens ls = readOperators env line := by
  rw [intended] at h
  split at h
  · obtain rfl := Option.some.inj h
    rw [operatorTokens_group, List.map_map]
    · rfl
    · intro r among
      obtain ⟨s, -, rfl⟩ := List.mem_map.mp among
      dsimp only
      rw [Site.role]
      split
      · exact role_ne_word _ _
      · nofun
  · cases h

/-- The shell reads a line as it was typed: typed bytes for what they were typed for, bytes of
values as text of words. It acts on the operators of the typed line, and reports no parse error
for a line that is none as it was typed. -/
structure ReadAsTyped (env : Env) (line : Bytes) : Prop where
  roles : Quoting.unquoted.roles (expanded env line) = (readSites env line).map Site.role
  operators : ∀ tokens parsed, tokenizeCommand (expanded env line) = .ok (tokens, parsed) →
    operatorsIn tokens = typedOperators line
  accepted : Accepted (command line) → Accepted (expanded env line)

/-- Every value is plain where its name stands, every operator is read, and the line is no parse
error with the values as text of its words. -/
structure PlainlyFilled (env : Env) (line : Bytes) : Prop where
  plain : ∀ s ∈ readSites env line, s.Plain
  whole : ∀ ls, intended env line = some ls → ls.length ≤ maxTokens →
    readOperators env line = typedOperators line
  accepted : Accepted (command line) → ∃ ls, intended env line = some ls ∧ Acceptable ls

/-- The operators of the tokens, when the tokenizer takes the line apart. -/
theorem operators_of_scan {line : Bytes} (short : line.length ≤ maxParsedLine)
    {P : List TokenKind → Prop} :
    (∀ tokens parsed, tokenizeCommand line = .ok (tokens, parsed) → P (operatorsIn tokens)) ↔
      ∀ ls, scan .between line = some ls → ls.length ≤ maxTokens → P (operatorTokens ls) := by
  rcases tokenizeCommand_follows short with ⟨ls, tokens, parsed, scanned, few, ok, texts⟩ | failed
  · have same : operatorTokens ls = operatorsIn tokens := by
      rw [← texts, operatorTokens_lexemes]
    constructor
    · intro h ls' scanned' _
      rw [scanned] at scanned'
      obtain rfl := Option.some.inj scanned'
      rw [same]
      exact h tokens parsed ok
    · intro h tokens' parsed' ok'
      rw [ok] at ok'
      obtain ⟨rfl, rfl⟩ := Prod.mk.inj (Outcome.ok.inj ok')
      rw [← same]
      exact h ls scanned few
  · -- Where the tokenizer fails, neither side says anything
    obtain ⟨msg, failed, many⟩ := failed
    constructor
    · intro _ ls scanned few
      exact absurd few (Nat.not_le.mpr (many ls scanned))
    · intro _ tokens parsed ok
      rw [failed] at ok
      cases ok

/-- The shell acts on the operators that were typed, and on no others, exactly when every value is
plain where its name stands and no operator is left unread. -/
theorem read_as_typed_iff (env : Env) (line : Bytes) :
    ReadAsTyped env line ↔ PlainlyFilled env line := by
  obtain ⟨chain, starts⟩ := readSites_chain env line
  have roles := roles_iff chain starts
  rw [bytes_readSites] at roles
  have short := length_expanded env line
  have operators := operators_of_scan short (P := (· = typedOperators line))
  have parses := accepted_iff (valid_expanded env line) short
  constructor
  · intro h
    have plain := roles.mp h.roles
    -- With plain values the tokens are the intended ones, on both sides
    rw [scan_expanded plain] at operators parses
    refine ⟨plain, ?_, fun accepted => parses.mp (h.accepted accepted)⟩
    intro ls means few
    rw [← operators_intended means]
    exact operators.mp h.operators ls means few
  · intro h
    rw [scan_expanded h.plain] at operators parses
    refine ⟨roles.mpr h.plain, operators.mpr ?_, fun accepted => parses.mpr (h.accepted accepted)⟩
    intro ls means few
    rw [operators_intended means]
    exact h.whole ls means few

/-- A value that is an operator is acted on as one. -/
theorem value_becomes_operator : ∃ (env : Env) (tokens : List Token) (parsed : Bytes),
    Reached [str "export 'A=|'"] env ∧
      tokenizeCommand (expanded env (str "echo $A cat")) = .ok (tokens, parsed) ∧
      operatorsIn tokens = [.pipe] ∧ typedOperators (str "echo $A cat") = [] := by
  obtain ⟨env, h⟩ := Option.isSome_iff_exists.mp (by decide +kernel :
    (exports Env.empty [(cwdKey, str "/"), (str "A", str "|")]).isSome = true)
  -- The value is a pipe, and the tokenizer finds one
  have tokenized : (exports Env.empty [(cwdKey, str "/"), (str "A", str "|")]).map
      (fun env => tokenizeCommand (expanded env (str "echo $A cat"))) =
        some (.ok ([⟨.word, 0, 4⟩, ⟨.pipe, 0, 0⟩, ⟨.word, 4, 3⟩], str "echocat")) := by
    decide +kernel
  rw [h, Option.map_some, Option.some.injEq] at tokenized
  -- Between quotes the pipe was part of the word
  have key : trim (str "A") = str "A" := by decide +kernel
  have val : trim (str "|") = str "|" := by decide +kernel
  have reached : Reached [str "export 'A=|'"] env :=
    reached_assignment (str "A=|") (by decide +kernel) (by decide) (by decide) (by decide +kernel)
      (by decide) (by decide : _ = some (str "A", str "|")) (by rw [key, val, h])
  exact ⟨env, _, _, reached, tokenized, by decide, by decide⟩

end Smultron.Shell
