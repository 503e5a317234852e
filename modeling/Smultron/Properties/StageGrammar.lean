import Smultron.Properties.Stages
import Smultron.Properties.WordLines

/-!
# The grammar of a pipeline

A pipeline is its stages with a pipe between two of them, and a stage is a list of words and of
redirections in any order. The files of the redirections are no arguments: what is left of a stage
without its redirections is the command and its arguments. Where a redirection may stand, how many
words there may be and how long the arguments may get is said of what has been read, so the limits
are apart from the grammar. The two loops of the shell accept exactly these pipelines.
-/

namespace Smultron.Shell

open Checked Checked.Outcome

variable {parsed : Bytes} {first last : Bool} {tokens : List Token}

/-! ### The grammar -/

/-- The token is a word that reads as this. -/
def Reads (parsed : Bytes) (t : Token) (w : Bytes) : Prop :=
  t.kind = .word ∧ (tokenWord t parsed : Outcome Bytes Bytes) = .ok w

/-- The tokens of a stage, with its words and the files behind `<` and behind `>`. -/
inductive Items (parsed : Bytes) : List Token → List Bytes → List Bytes → List Bytes → Prop where
  | nil : Items parsed [] [] [] []
  | word {t : Token} {w : Bytes} (reads : Reads parsed t w) {ts : List Token}
      {ws ins outs : List Bytes} (rest : Items parsed ts ws ins outs) :
      Items parsed (t :: ts) (w :: ws) ins outs
  | redirectIn {t f : Token} {file : Bytes} (kind : t.kind = .redirectIn)
      (reads : Reads parsed f file) {ts : List Token} {ws ins outs : List Bytes}
      (rest : Items parsed ts ws ins outs) : Items parsed (t :: f :: ts) ws (file :: ins) outs
  | redirectOut {t f : Token} {file : Bytes} (kind : t.kind = .redirectOut)
      (reads : Reads parsed f file) {ts : List Token} {ws ins outs : List Bytes}
      (rest : Items parsed ts ws ins outs) : Items parsed (t :: f :: ts) ws ins (file :: outs)

/-- A stage within the limits, with what it means: at most one file is read, by the first stage, and
at most one is written, by the last one. -/
def StageText (parsed : Bytes) (first last : Bool) (tokens : List Token) (stage : StageParse) : Prop :=
  ∃ cmd ws ins outs, Items parsed tokens (cmd :: ws) ins outs ∧
    (cmd :: ws).length ≤ maxStageTokens ∧
    ins.length ≤ 1 ∧ (ins ≠ [] → first = true) ∧
    outs.length ≤ 1 ∧ (outs ≠ [] → last = true) ∧
    (joined ws).length ≤ maxArgs ∧
    stage = ⟨cmd, joined ws, ins.head?, outs.head?⟩

/-- The tokens are these groups with a pipe between two of them. -/
inductive Piped : List Token → List (List Token) → Prop where
  | last {group : List Token} (noPipe : ∀ t ∈ group, t.kind ≠ .pipe) : Piped group [group]
  | more {group : List Token} (noPipe : ∀ t ∈ group, t.kind ≠ .pipe) {pipe : Token}
      (kind : pipe.kind = .pipe) {ts : List Token} {groups : List (List Token)}
      (rest : Piped ts groups) : Piped (group ++ pipe :: ts) (group :: groups)

/-- The stages of some groups; `first` says whether the first group starts the pipeline. -/
inductive StagesText (parsed : Bytes) : Bool → List (List Token) → List StageParse → Prop where
  | nil (first : Bool) : StagesText parsed first [] []
  | cons {first : Bool} {group : List Token} {groups : List (List Token)} {stage : StageParse}
      {stages : List StageParse} (text : StageText parsed first groups.isEmpty group stage)
      (rest : StagesText parsed false groups stages) :
      StagesText parsed first (group :: groups) (stage :: stages)

/-- One to four stages, none of them empty, each within the limits. -/
def PipelineText (parsed : Bytes) (tokens : List Token) (stages : List StageParse) : Prop :=
  ∃ groups, Piped tokens groups ∧ groups.length ≤ maxPipeStages ∧ [] ∉ groups ∧
    StagesText parsed true groups stages

/-! ### The two loops -/

/-- `parse_stage` on every stage, with the flags for the first and the last one. -/
def parseStages (tokens : List Token) (parsed : Bytes) :
    (first : Bool) → List (Nat × Nat) → Outcome Bytes (List StageParse)
  | _, [] => return []
  | first, range :: ranges => do
    let stageTokens ← slice tokens range.1 range.2
    let stage ← parseStage parsed first ranges.isEmpty stageTokens
    let stages ← parseStages tokens parsed false ranges
    return stage :: stages

/-- What `dispatch_compound_tokens` makes of its tokens when every stage is parsed. -/
def parsePipeline (tokens : List Token) (parsed : Bytes) : Outcome Bytes (List StageParse) := do
  let ranges ← splitStages tokens
  parseStages tokens parsed true ranges

/-! ### The words of a stage -/

/-- The file a redirection leaves, when no other one of its kind stands before it. -/
def Placed (allowed : Bool) : (before : Option Bytes) → List Bytes → (after : Option Bytes) → Prop
  | before, [], after => after = before
  | before, file :: files, after =>
    allowed = true ∧ before = none ∧ Placed allowed (some file) files after

theorem placed_iff {allowed : Bool} {files : List Bytes} {after : Option Bytes} :
    Placed allowed none files after ↔
      files.length ≤ 1 ∧ (files ≠ [] → allowed = true) ∧ after = files.head? := by
  cases files with
  | nil => simp [Placed]
  | cons file files =>
    cases files with
    | nil => simp [Placed]
    | cons file' files => simp [Placed]

/-- What has been read of a stage is found by the loop. -/
theorem Items.found {words ins outs : List Bytes} (h : Items parsed tokens words ins outs)
    {acc : StageWords} {inFile outFile : Option Bytes}
    (few : (acc.words ++ words).length ≤ maxStageTokens) (placedIn : Placed first acc.inFile ins inFile)
    (placedOut : Placed last acc.outFile outs outFile) :
    stageWords parsed first last tokens acc = .ok ⟨acc.words ++ words, inFile, outFile⟩ := by
  induction h generalizing acc with
  | nil =>
    obtain ⟨words, ins, outs⟩ := acc
    obtain rfl : inFile = ins := placedIn
    obtain rfl : outFile = outs := placedOut
    simp [stageWords]
  | @word t w reads ts ws ins outs rest ih =>
    obtain ⟨kind, start, len⟩ := t
    obtain ⟨rfl, word⟩ := reads
    have room : acc.words.length < maxStageTokens := by
      rw [List.length_append, List.length_cons] at few
      omega
    have later := @ih ⟨acc.words ++ [w], acc.inFile, acc.outFile⟩ (by simpa using few) placedIn placedOut
    simp only [stageWords, word, push_of_lt room, ok_bind]
    rw [errIf, if_neg (by omega), ok_bind, later]
    simp
  | @redirectIn t f file kind reads ts ws ins outs rest ih =>
    obtain ⟨_, start, len⟩ := t
    obtain rfl := kind
    obtain ⟨isWord, word⟩ := reads
    obtain ⟨rfl, none_, placed⟩ := placedIn
    have later := @ih ⟨acc.words, some file, acc.outFile⟩ few placed placedOut
    simp only [stageWords, word, isWord, none_, errIf, ok_bind]
    simpa using later
  | @redirectOut t f file kind reads ts ws ins outs rest ih =>
    obtain ⟨_, start, len⟩ := t
    obtain rfl := kind
    obtain ⟨isWord, word⟩ := reads
    obtain ⟨rfl, none_, placed⟩ := placedOut
    have later := @ih ⟨acc.words, acc.inFile, some file⟩ few placedIn placed
    simp only [stageWords, word, isWord, none_, errIf, ok_bind]
    simpa using later

/-- What the loop finds has been read of the stage. -/
theorem items_of_found : ∀ {tokens : List Token} {acc found : StageWords},
    acc.words.length ≤ maxStageTokens → stageWords parsed first last tokens acc = .ok found →
      ∃ words ins outs, Items parsed tokens words ins outs ∧ found.words = acc.words ++ words ∧
        found.words.length ≤ maxStageTokens ∧ Placed first acc.inFile ins found.inFile ∧
        Placed last acc.outFile outs found.outFile
  | [], acc, found, few, h => by
    obtain rfl : acc = found := by simpa [stageWords] using h
    exact ⟨[], [], [], .nil, by simp, few, rfl, rfl⟩
  | ⟨.word, start, len⟩ :: tokens, acc, found, few, h => by
    simp only [stageWords, bind_eq_ok, errIf_eq_ok, Nat.not_le] at h
    obtain ⟨_, room, w, word, words, pushed, h⟩ := h
    rw [push_of_lt room] at pushed
    cases pushed
    obtain ⟨ws, ins, outs, items, eq, size, placedIn, placedOut⟩ :=
      items_of_found (by simp; omega) h
    exact ⟨w :: ws, ins, outs, .word ⟨rfl, word⟩ items, by simpa using eq, size, placedIn, placedOut⟩
  | ⟨.pipe, _, _⟩ :: _, _, _, _, h => by cases h
  | ⟨.redirectIn, _, _⟩ :: [], _, _, _, h => by
    simp only [stageWords, bind_eq_ok] at h
    obtain ⟨_, -, impossible⟩ := h
    cases impossible
  | ⟨.redirectOut, _, _⟩ :: [], _, _, _, h => by
    simp only [stageWords, bind_eq_ok] at h
    obtain ⟨_, -, impossible⟩ := h
    cases impossible
  | ⟨.redirectIn, _, _⟩ :: f :: tokens, acc, found, few, h => by
    -- A redirection takes the token behind it
    simp only [stageWords, bind_eq_ok, errIf_eq_ok, Bool.or_eq_true, Bool.not_eq_true', not_or,
      Bool.not_eq_false, Option.not_isSome_iff_eq_none, not_not] at h
    obtain ⟨_, ⟨allowed, none_⟩, _, isWord, file, word, h⟩ := h
    obtain ⟨ws, ins, outs, items, eq, size, placedIn, placedOut⟩ := items_of_found (by exact few) h
    exact ⟨ws, file :: ins, outs, .redirectIn rfl ⟨isWord, word⟩ items, eq, size,
      ⟨allowed, none_, placedIn⟩, placedOut⟩
  | ⟨.redirectOut, _, _⟩ :: f :: tokens, acc, found, few, h => by
    simp only [stageWords, bind_eq_ok, errIf_eq_ok, Bool.or_eq_true, Bool.not_eq_true', not_or,
      Bool.not_eq_false, Option.not_isSome_iff_eq_none, not_not] at h
    obtain ⟨_, ⟨allowed, none_⟩, _, isWord, file, word, h⟩ := h
    obtain ⟨ws, ins, outs, items, eq, size, placedIn, placedOut⟩ := items_of_found (by exact few) h
    exact ⟨ws, ins, file :: outs, .redirectOut rfl ⟨isWord, word⟩ items, eq, size, placedIn,
      ⟨allowed, none_, placedOut⟩⟩

/-! ### The arguments -/

/-- A word that does not fit behind the others is refused. -/
theorem joinPart_long {ε : Type} {out part r : Bytes} (long : maxArgs < (putWord out part).length) :
    (joinPart out part : Outcome ε (Option Bytes)) ≠ .ok (some r) := by
  intro fits
  rw [putWord] at long
  rw [joinPart] at fits
  split at fits
  · cases fits
  next room =>
  obtain ⟨spaced, step, fits⟩ := bind_eq_ok.mp fits
  obtain ⟨stop, sum, fits⟩ := bind_eq_ok.mp fits
  have total : stop = spaced.length + part.length := by
    rw [add] at sum
    split at sum <;> cases sum
    rfl
  -- With the space, the word ends where the joined text would end
  have size : spaced.length + part.length = (if out = [] then part else out ++ 32 :: part).length := by
    by_cases empty : out = []
    · subst empty
      rw [if_neg (by simp)] at step
      cases step
      simp
    · have some_ : 0 < out.length := List.length_pos_iff.mpr empty
      rw [if_pos some_, push_of_lt (by omega)] at step
      cases step
      simp [empty]
      omega
  rw [if_pos (by omega)] at fits
  cases fits

theorem joinWords_ok_iff {parts : List Bytes} {out args : Bytes} (room : out.length ≤ maxArgs) :
    joinWords parts out = .ok args ↔
      args = parts.foldl putWord out ∧ (parts.foldl putWord out).length ≤ maxArgs := by
  induction parts generalizing out with
  | nil =>
    rw [joinWords, pure_eq, Outcome.ok.injEq, eq_comm]
    exact (and_iff_left room).symm
  | cons part parts ih =>
    rw [joinWords, List.foldl_cons]
    by_cases fits : (putWord out part).length ≤ maxArgs
    · rw [joinPart_eq fits, ok_bind]
      exact ih fits
    · -- The text only grows
      have longer := length_le_foldl parts (putWord out part)
      refine iff_of_false (fun joined => ?_) fun h => by omega
      obtain ⟨result, step, joined⟩ := bind_eq_ok.mp joined
      cases result with
      | none => cases joined
      | some r => exact joinPart_long (by omega) step

/-! ### The stages -/

theorem parseStage_ok_iff {stage : StageParse} :
    parseStage parsed first last tokens = .ok stage ↔ StageText parsed first last tokens stage := by
  rw [parseStage]
  constructor
  · intro h
    obtain ⟨found, read, h⟩ := bind_eq_ok.mp h
    obtain ⟨words, ins, outs, items, eq, size, placedIn, placedOut⟩ :=
      items_of_found (Nat.zero_le _) read
    obtain ⟨ws, inFile, outFile⟩ := found
    obtain rfl : ws = words := eq
    obtain ⟨oneIn, allowedIn, rfl⟩ := placed_iff.mp placedIn
    obtain ⟨oneOut, allowedOut, rfl⟩ := placed_iff.mp placedOut
    cases ws with
    | nil => cases h
    | cons cmd ws =>
      obtain ⟨args, joins, h⟩ := bind_eq_ok.mp h
      obtain ⟨rfl, fits⟩ := (joinWords_ok_iff (Nat.zero_le _)).mp joins
      cases h
      exact ⟨cmd, ws, ins, outs, items, size, oneIn, allowedIn, oneOut, allowedOut, fits, rfl⟩
  · rintro ⟨cmd, ws, ins, outs, items, size, oneIn, allowedIn, oneOut, allowedOut, fits, rfl⟩
    have read := @Items.found _ _ _ _ _ _ _ items ⟨[], none, none⟩ _ _ size
      (placed_iff.mpr ⟨oneIn, allowedIn, rfl⟩) (placed_iff.mpr ⟨oneOut, allowedOut, rfl⟩)
    have joins : joinWords ws [] = .ok (joined ws) :=
      (joinWords_ok_iff (Nat.zero_le _)).mpr ⟨rfl, fits⟩
    rw [read, ok_bind]
    dsimp only [List.nil_append]
    rw [joins]
    rfl

theorem Piped.groups {groups : List (List Token)} (h : Piped tokens groups) :
    stageGroups tokens = groups := by
  induction h with
  | last noPipe => exact List.splitOnP_eq_singleton (by simpa using noPipe)
  | more noPipe kind rest ih =>
    rw [stageGroups, List.splitOnP_append_cons_of_forall_mem (by simpa using noPipe) _ (by simp [kind])]
    exact congrArg _ ih

theorem exists_piped (tokens : List Token) : ∃ groups, Piped tokens groups := by
  induction tokens with
  | nil => exact ⟨[[]], .last (by simp)⟩
  | cons t tokens ih =>
    obtain ⟨groups, piped⟩ := ih
    by_cases kind : t.kind = .pipe
    · exact ⟨[] :: groups, .more (List.forall_mem_nil _) kind piped⟩
    · -- The token is one more of the first group
      cases piped with
      | last noPipe => exact ⟨_, .last (List.forall_mem_cons.mpr ⟨kind, noPipe⟩)⟩
      | more noPipe pipe rest =>
        exact ⟨_, .more (List.forall_mem_cons.mpr ⟨kind, noPipe⟩) pipe rest⟩

theorem piped_iff {groups : List (List Token)} : Piped tokens groups ↔ stageGroups tokens = groups := by
  refine ⟨Piped.groups, ?_⟩
  rintro rfl
  obtain ⟨groups, piped⟩ := exists_piped tokens
  rwa [piped.groups]

theorem parseStages_ok_iff {ranges : List (Nat × Nat)} {groups : List (List Token)}
    {stages : List StageParse} (slices : ranges.map (tokensAt tokens) = groups.map .ok) :
    parseStages tokens parsed first ranges = .ok stages ↔ StagesText parsed first groups stages := by
  induction ranges generalizing groups first stages with
  | nil =>
    obtain rfl : groups = [] := by simpa using slices.symm
    rw [parseStages, pure_eq, Outcome.ok.injEq]
    constructor
    · rintro rfl
      exact .nil first
    · rintro ⟨⟩
      rfl
  | cons range ranges ih =>
    obtain ⟨group, later, rfl, at_, rest, empty⟩ := slices_cons slices
    rw [tokensAt] at at_
    rw [parseStages, at_, ok_bind, empty]
    constructor
    · intro h
      obtain ⟨stage, one, h⟩ := bind_eq_ok.mp h
      obtain ⟨more, others, h⟩ := bind_eq_ok.mp h
      cases h
      exact .cons (parseStage_ok_iff.mp one) ((ih rest).mp others)
    · rintro (_ | ⟨text, others⟩)
      rw [parseStage_ok_iff.mpr text, ok_bind, (ih rest).mpr others]
      rfl

/-- The shell parses the stages of exactly the pipelines of the grammar, and finds in each what it
means. -/
theorem parsePipeline_ok_iff (tokens : List Token) (parsed : Bytes) (stages : List StageParse) :
    parsePipeline tokens parsed = .ok stages ↔ PipelineText parsed tokens stages := by
  have text_iff : PipelineText parsed tokens stages ↔
      ¬BadStages (stageGroups tokens) ∧ StagesText parsed true (stageGroups tokens) stages := by
    simp [PipelineText, piped_iff, BadStages, and_assoc]
  rw [text_iff, parsePipeline]
  rcases splitStages_cases tokens with ⟨e, failed, bad⟩ | ⟨ranges, split, good, slices⟩
  · rw [failed]
    exact iff_of_false (by simp) fun h => h.1 bad
  · rw [split, ok_bind, parseStages_ok_iff slices]
    exact (and_iff_right good).symm

/-- A redirection in front of the command, and one among its arguments. -/
example : (parsePipeline
    [⟨.redirectIn, 0, 0⟩, ⟨.word, 0, 1⟩, ⟨.word, 1, 1⟩, ⟨.redirectOut, 0, 0⟩, ⟨.word, 2, 1⟩,
      ⟨.word, 3, 1⟩] (str "fcga")) =
    .ok [⟨str "c", str "a", some (str "f"), some (str "g")⟩] := by
  decide +kernel

end Smultron.Shell
