import Smultron.Properties.Stages
import Smultron.Properties.WordLines
import Mathlib.Data.List.Forall2

/-!
# Lines without a parse error

A line that the tokenizer takes apart can still be refused: by the stage splitter, by the parser of
a stage, or because its arguments are too long. All of them look at the kinds of the tokens and the
texts of the words and at nothing else, so a line is refused or accepted for what it means.
-/

namespace Smultron.Shell

open Checked Checked.Outcome Utf8

/-- No stage is a parse error. -/
def StagesParse (buffer : Bytes) : Bool → List (List Token) → Prop
  | _, [] => True
  | first, group :: groups =>
    (∃ stage, parseStage buffer first groups.isEmpty group = .ok stage) ∧
      StagesParse buffer false groups

/-- Behind the tokenizer `dispatch` finds no parse error. -/
def Parses (tokens : List Token) (buffer : Bytes) : Prop :=
  if tokens.any (·.kind ≠ .word) then
    ¬BadStages (stageGroups tokens) ∧ StagesParse buffer true (stageGroups tokens)
  else ∃ args, (joinWordTokens buffer tokens.tail [] : Outcome Empty (Option Bytes)) = .ok (some args)

/-- The line is no parse error. -/
def Accepted (line : Bytes) : Prop :=
  ∃ tokens parsed, tokenizeCommand line = .ok (tokens, parsed) ∧
    Parses tokens (parsedStorage parsed)

/-! ### Tokens that read the same -/

/-- Two tokens in their buffers are of one kind and read the same. -/
structure Alike (buffer buffer' : Bytes) (t t' : Token) : Prop where
  kind : t.kind = t'.kind
  word : ∀ ε : Type, (tokenWord t buffer : Outcome ε Bytes) = tokenWord t' buffer'

variable {buffer buffer' : Bytes} {tokens tokens' : List Token}

/-- The tokens of one list are like those of another. -/
abbrev AllAlike (buffer buffer' : Bytes) : List Token → List Token → Prop :=
  List.Forall₂ (Alike buffer buffer')

theorem stageWords_alike (allowIn allowOut : Bool) (h : AllAlike buffer buffer' tokens tokens')
    (acc : StageWords) : stageWords buffer allowIn allowOut tokens acc =
      stageWords buffer' allowIn allowOut tokens' acc := by
  -- A redirection takes the token behind it, so the induction goes by two
  induction tokens using List.twoStepInduction generalizing tokens' acc with
  | nil =>
    cases h
    rfl
  | singleton t =>
    obtain ⟨t', rest, same, none, rfl⟩ := List.forall₂_cons_left_iff.mp h
    obtain rfl := List.forall₂_nil_left_iff.mp none
    obtain ⟨kind, start, len⟩ := t
    obtain ⟨_, start', len'⟩ := t'
    obtain ⟨⟨⟩, word⟩ := same
    cases kind with
    | word => simp only [stageWords, word]
    | pipe => rfl
    | redirectIn => rfl
    | redirectOut => rfl
  | cons_cons t u tokens ih ih' =>
    obtain ⟨t', rest, same, behind, rfl⟩ := List.forall₂_cons_left_iff.mp h
    have later := ih' u behind
    obtain ⟨u', tokens', file, rest, rfl⟩ := List.forall₂_cons_left_iff.mp behind
    have last := ih rest
    obtain ⟨kind, start, len⟩ := t
    obtain ⟨_, start', len'⟩ := t'
    obtain ⟨⟨⟩, word⟩ := same
    obtain ⟨fileKind, fileWord⟩ := file
    cases kind with
    | word => simp only [stageWords, word, later]
    | pipe => rfl
    | redirectIn => simp only [stageWords, fileKind, fileWord, last]
    | redirectOut => simp only [stageWords, fileKind, fileWord, last]

theorem parseStage_alike (allowIn allowOut : Bool) (h : AllAlike buffer buffer' tokens tokens') :
    parseStage buffer allowIn allowOut tokens = parseStage buffer' allowIn allowOut tokens' := by
  rw [parseStage, parseStage, stageWords_alike allowIn allowOut h]

theorem joinWordTokens_alike (h : AllAlike buffer buffer' tokens tokens') (out : Bytes) :
    (joinWordTokens buffer tokens out : Outcome Empty (Option Bytes)) =
      joinWordTokens buffer' tokens' out := by
  induction h generalizing out with
  | nil => rfl
  | cons same rest ih => simp only [joinWordTokens, same.kind, same.word, ih]

/-- The stages of two such lists. -/
theorem stageGroups_alike (h : AllAlike buffer buffer' tokens tokens') :
    List.Forall₂ (AllAlike buffer buffer') (stageGroups tokens) (stageGroups tokens') := by
  rw [stageGroups, stageGroups]
  induction h with
  | nil => exact .cons .nil .nil
  | cons same rest ih =>
    rw [List.splitOnP_cons_eq_if_modifyHead, List.splitOnP_cons_eq_if_modifyHead, same.kind]
    split
    · exact .cons .nil ih
    · revert ih
      generalize List.splitOnP _ _ = groups
      generalize List.splitOnP _ _ = groups'
      intro ih
      cases ih with
      | nil => exact .nil
      | cons first later => exact .cons (.cons same first) later

theorem badStages_alike {groups groups' : List (List Token)}
    (h : List.Forall₂ (AllAlike buffer buffer') groups groups') :
    BadStages groups ↔ BadStages groups' := by
  have empty : [] ∈ groups ↔ [] ∈ groups' := by
    induction h with
    | nil => exact Iff.rfl
    | cons first later ih =>
      rw [List.mem_cons, List.mem_cons, ih]
      cases first <;> simp
  rw [BadStages, BadStages, h.length_eq, empty]

theorem stagesParse_alike {groups groups' : List (List Token)}
    (h : List.Forall₂ (AllAlike buffer buffer') groups groups') (first : Bool) :
    StagesParse buffer first groups ↔ StagesParse buffer' first groups' := by
  induction h generalizing first with
  | nil => exact Iff.rfl
  | @cons group group' groups groups' same later ih =>
    have alone : groups.isEmpty = groups'.isEmpty := by
      cases later <;> rfl
    rw [StagesParse, StagesParse, ih, alone, parseStage_alike first _ same]

theorem parses_alike (h : AllAlike buffer buffer' tokens tokens') :
    Parses tokens buffer ↔ Parses tokens' buffer' := by
  have kinds : tokens.any (·.kind ≠ .word) = tokens'.any (·.kind ≠ .word) := by
    induction h with
    | nil => rfl
    | cons same rest ih => rw [List.any_cons, List.any_cons, same.kind, ih]
  have arguments : AllAlike buffer buffer' tokens.tail tokens'.tail := by
    cases h with
    | nil => exact .nil
    | cons same rest => exact rest
  have stages := stageGroups_alike h
  rw [Parses, Parses, kinds, badStages_alike stages, stagesParse_alike stages,
    joinWordTokens_alike arguments]

/-! ### What a line means decides -/

/-- A token reads as a lexeme. -/
structure ReadsAs (buffer : Bytes) (t : Token) (l : Lexeme) : Prop where
  kind : t.kind = l.kind
  text : ∀ ε : Type, (tokenWord t buffer : Outcome ε Bytes) = .ok l.text

/-- Some buffer holds tokens that read as these, and they are no parse error. -/
def Acceptable (ls : List Lexeme) : Prop :=
  ls.length ≤ maxTokens ∧
    ∃ tokens buffer, List.Forall₂ (ReadsAs buffer) tokens ls ∧ Parses tokens buffer

theorem alike_of_readsAs {ls : List Lexeme} (h : List.Forall₂ (ReadsAs buffer) tokens ls)
    (h' : List.Forall₂ (ReadsAs buffer') tokens' ls) : AllAlike buffer buffer' tokens tokens' := by
  induction h generalizing tokens' with
  | nil =>
    cases h'
    exact .nil
  | cons reads rest ih =>
    cases h' with
    | cons reads' rest' =>
      refine .cons ⟨reads.kind.trans reads'.kind.symm, fun ε => ?_⟩ (ih rest')
      rw [reads.text, reads'.text]

theorem tokens_readAs {line : Bytes} (valid : Valid line) (short : line.length ≤ maxParsedLine)
    {parsed : Bytes} (ok : tokenizeCommand line = .ok (tokens, parsed)) :
    List.Forall₂ (ReadsAs (parsedStorage parsed)) tokens
      (tokens.map (lexeme (parsedStorage parsed))) := by
  rw [List.forall₂_map_right_iff, List.forall₂_same]
  intro t among
  exact ⟨rfl, fun ε => tokenWord_ok valid short ok among⟩

theorem accepted_iff {line : Bytes} (valid : Valid line) (short : line.length ≤ maxParsedLine) :
    Accepted line ↔ ∃ ls, scan .between line = some ls ∧ Acceptable ls := by
  rcases tokenizeCommand_follows short with ⟨ls, tokens, parsed, scanned, few, ok, texts⟩ | failed
  · have reads := tokens_readAs valid short ok
    rw [texts] at reads
    constructor
    · rintro ⟨tokens', parsed', ok', parses⟩
      rw [ok] at ok'
      obtain ⟨rfl, rfl⟩ := Prod.mk.inj (Outcome.ok.inj ok')
      exact ⟨ls, scanned, few, tokens, _, reads, parses⟩
    · -- Any tokens that read alike parse alike
      rintro ⟨ls', scanned', -, tokens', buffer, reads', parses⟩
      rw [scanned] at scanned'
      obtain rfl := Option.some.inj scanned'
      exact ⟨tokens, parsed, ok, (parses_alike (alike_of_readsAs reads' reads)).mp parses⟩
  · obtain ⟨msg, failed, many⟩ := failed
    constructor
    · rintro ⟨tokens, parsed, ok, -⟩
      rw [failed] at ok
      cases ok
    · rintro ⟨ls, scanned, few, -⟩
      exact absurd few (Nat.not_le.mpr (many ls scanned))

end Smultron.Shell
