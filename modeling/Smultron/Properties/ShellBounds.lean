import Smultron.Properties.Stages

/-!
# The buffers of the shell

None of the shell's pure functions leaves its buffers, with one exception: `resolve_path` reads the
last byte of the current directory, and there is none when `CWD` is set to the empty text.
-/

namespace Smultron.Shell

open Checked Checked.Outcome Utf8

variable {ε : Type}

theorem length_fromUtf8OrEmpty_le (bs : Bytes) : (fromUtf8OrEmpty bs).length ≤ bs.length :=
  (fromUtf8OrEmpty_sublist bs).length_le

theorem length_copyWhileRoom {cap : Nat} {out : Bytes} (fits : out.length ≤ cap) (bs : Bytes) :
    (copyWhileRoom cap out bs).length ≤ cap := by
  rw [copyWhileRoom, List.length_append, List.length_take]
  omega

/-- What is copied first, and what fills the room left behind it. -/
theorem copyWhileRoom_append (cap : Nat) (out bs tail : Bytes) :
    copyWhileRoom cap out bs ++ tail.take (cap - (copyWhileRoom cap out bs).length) =
      out ++ (bs ++ tail).take (cap - out.length) := by
  rw [copyWhileRoom, List.append_assoc, List.take_append, List.length_append, List.length_take]
  congr 3
  omega

theorem length_expandFrom {env : Env} {cap rounds : Nat} {line out : Bytes}
    (fits : out.length ≤ cap) : (expandFrom env cap rounds line out).length ≤ cap := by
  induction rounds generalizing line out with
  | zero => exact fits
  | succ rounds ih =>
    cases line with
    | nil => exact fits
    | cons b rest =>
      rw [expandFrom]
      split
      · exact fits
      split
      · dsimp only
        split
        · exact ih (length_copyWhileRoom fits _)
        split
        · exact ih (length_copyWhileRoom fits _)
        · exact ih fits
      · exact ih (length_copyWhileRoom fits _)

theorem length_expanded (env : Env) (line : Bytes) :
    (expanded env line).length ≤ maxParsedLine :=
  Nat.le_trans (trim_sublist _).length_le
    (Nat.le_trans (length_fromUtf8OrEmpty_le _) (length_expandFrom (Nat.zero_le _)))

/-! ### Tokens -/

/-- A quote or a backslash is open. -/
def Tokenizer.quoted (t : Tokenizer) : Bool := t.escape || t.inSingle || t.inDouble

/-- A change of the flags alone. -/
structure Tokenizer.Turns (t t' : Tokenizer) : Prop where
  parsed : t'.parsed = t.parsed
  tokens : t'.tokens = t.tokens
  start : t'.currentStart = t.currentStart

theorem Tokenizer.quoted_of_flag {t : Tokenizer}
    (flag : t.escape = true ∨ t.inSingle = true ∨ t.inDouble = true) : t.quoted = true := by
  simpa [quoted, or_assoc] using flag

/-- What the tokenizer can do with a byte. In quotes and behind a backslash it takes the byte or
changes its flags; outside of them it ends a word, starts one, or adds an operator or the byte. -/
theorem Tokenizer.step_cases {P : Outcome String Tokenizer → Prop} (t : Tokenizer) (b : UInt8)
    (taken : t.quoted = true → ∀ f : Tokenizer → Tokenizer,
      (∀ t, t.Turns (f t) ∧ (f t).inToken = true) → P (do let t ← t.pushChar b; return f t))
    (turned : t.quoted = true → ∀ t', t.Turns t' → t'.inToken = t.inToken → P (.ok t'))
    (ended : t.quoted = false → P t.endWord)
    (started : t.quoted = false →
      ∀ t', t.startWord.Turns t' → t'.inToken = t.startWord.inToken → P (.ok t'))
    (operator : t.quoted = false → ∀ kind, kind ≠ .word →
      P (do let t ← t.endWord; t.pushToken kind 0 0))
    (grown : t.quoted = false → P (t.startWord.pushChar b)) : P (t.step b) := by
  refine iteInduction (fun escape => ?_) fun escape => ?_
  · exact taken (quoted_of_flag (.inl escape)) _ fun t => ⟨⟨rfl, rfl, rfl⟩, rfl⟩
  refine iteInduction (fun inSingle => ?_) fun inSingle => ?_
  · have open_ := quoted_of_flag (.inr (.inl inSingle))
    refine iteInduction (fun _ => ?_) fun _ => ?_
    · exact turned open_ _ ⟨rfl, rfl, rfl⟩ rfl
    · exact taken open_ _ fun t => ⟨⟨rfl, rfl, rfl⟩, rfl⟩
  refine iteInduction (fun inDouble => ?_) fun inDouble => ?_
  · have open_ := quoted_of_flag (.inr (.inr inDouble))
    refine iteInduction (fun _ => ?_) fun _ => iteInduction (fun _ => ?_) fun _ => ?_
    · exact turned open_ _ ⟨rfl, rfl, rfl⟩ rfl
    · exact turned open_ _ ⟨rfl, rfl, rfl⟩ rfl
    · exact taken open_ _ fun t => ⟨⟨rfl, rfl, rfl⟩, rfl⟩
  have closed : t.quoted = false := by
    rw [quoted, Bool.or_eq_false_iff, Bool.or_eq_false_iff]
    exact ⟨⟨Bool.eq_false_of_not_eq_true escape, Bool.eq_false_of_not_eq_true inSingle⟩,
      Bool.eq_false_of_not_eq_true inDouble⟩
  refine iteInduction (fun _ => ended closed) fun _ => ?_
  -- A quote or a backslash starts a word
  refine iteInduction (fun _ => started closed _ ⟨rfl, rfl, rfl⟩ rfl) fun _ => ?_
  refine iteInduction (fun _ => started closed _ ⟨rfl, rfl, rfl⟩ rfl) fun _ => ?_
  refine iteInduction (fun _ => started closed _ ⟨rfl, rfl, rfl⟩ rfl) fun _ => ?_
  -- The operators
  refine iteInduction (fun _ => operator closed .pipe nofun) fun _ => ?_
  refine iteInduction (fun _ => operator closed .redirectIn nofun) fun _ => ?_
  exact iteInduction (fun _ => operator closed .redirectOut nofun) fun _ => grown closed

/-- The tokenizer's counters stay inside its two buffers. -/
structure Tokenizer.Fits (t : Tokenizer) : Prop where
  parsed : t.parsed.length ≤ maxParsedLine
  start : t.currentStart ≤ t.parsed.length
  inside : ∀ token ∈ t.tokens, token.start + token.len ≤ t.parsed.length

theorem Tokenizer.Fits.pushChar {t : Tokenizer} (h : t.Fits) (b : UInt8) :
    Sound Tokenizer.Fits (t.pushChar b) := by
  refine sound_bind (sound_errIf fun room => sound_bind (sound_push (Nat.not_le.mp room) ?_))
  have longer : (t.parsed ++ [b]).length = t.parsed.length + 1 := by simp
  refine sound_pure ⟨?_, ?_, fun token among => ?_⟩
  · have := Nat.not_le.mp room
    simp only [longer]
    omega
  · have := h.start
    simp only [longer]
    omega
  · have := h.inside token among
    simp only [longer]
    omega

theorem Tokenizer.Fits.pushToken {t : Tokenizer} (h : t.Fits) (kind : TokenKind) {start len : Nat}
    (inside : start + len ≤ t.parsed.length) : Sound Tokenizer.Fits (t.pushToken kind start len) := by
  refine sound_bind (sound_errIf fun room => sound_bind (sound_push (Nat.not_le.mp room) ?_))
  refine sound_pure ⟨h.parsed, h.start, fun token among => ?_⟩
  rcases List.mem_append.mp among with before | last
  · exact h.inside token before
  · obtain rfl := List.mem_singleton.mp last
    exact inside

theorem Tokenizer.Fits.endWord {t : Tokenizer} (h : t.Fits) : Sound Tokenizer.Fits t.endWord := by
  rw [Tokenizer.endWord]
  have low := h.start
  split
  · refine sound_bind (sound_sub low (sound_bind ((h.pushToken .word (by omega)).mono fun t' h' => ?_)))
    exact sound_pure ⟨h'.parsed, h'.start, h'.inside⟩
  · exact sound_pure h

theorem Tokenizer.Fits.startWord {t : Tokenizer} (h : t.Fits) : t.startWord.Fits := by
  rw [Tokenizer.startWord]
  split
  · exact h
  · exact ⟨h.parsed, Nat.le_refl _, h.inside⟩

theorem Tokenizer.Fits.turn {t t' : Tokenizer} (h : t.Fits) (turns : t.Turns t') : t'.Fits where
  parsed := by rw [turns.parsed]; exact h.parsed
  start := by rw [turns.parsed, turns.start]; exact h.start
  inside := by rw [turns.parsed, turns.tokens]; exact h.inside

theorem Tokenizer.Fits.step {t : Tokenizer} (h : t.Fits) (b : UInt8) :
    Sound Tokenizer.Fits (t.step b) := by
  apply t.step_cases b
  · intro _ f turns
    exact sound_bind ((h.pushChar b).mono fun t' h' => sound_pure (h'.turn (turns t').1))
  · intro _ t' turns _
    exact sound_ok (h.turn turns)
  · exact fun _ => h.endWord
  · intro _ t' turns _
    exact sound_ok (h.startWord.turn turns)
  · intro _ kind _
    exact sound_bind (h.endWord.mono fun t' h' => h'.pushToken kind (Nat.zero_le _))
  · exact fun _ => h.startWord.pushChar b

/-- The buffer the words stand in, and tokens that lie inside it. -/
structure Readable (tokens : List Token) (parsed : Bytes) : Prop where
  size : parsed.length = maxParsedLine
  inside : ∀ token ∈ tokens, token.start + token.len ≤ maxParsedLine

theorem tokenizeCommand_sound (line : Bytes) :
    Sound (fun found => Readable found.1 (parsedStorage found.2)) (tokenizeCommand line) := by
  have begins : Tokenizer.start.Fits := ⟨Nat.zero_le _, Nat.zero_le _, nofun⟩
  have loop := sound_foldlM (fun t b (h : t.Fits) => h.step b) line begins
  refine sound_bind (loop.mono fun t h => sound_bind ?_)
  have ends : Sound Tokenizer.Fits t.finish :=
    sound_bind (sound_errIf fun _ => sound_bind (sound_errIf fun _ => h.endWord))
  refine ends.mono fun t' h' => sound_pure ⟨?_, fun token among => ?_⟩
  · have := h'.parsed
    simp only [parsedStorage, List.length_append, List.length_replicate]
    omega
  · exact Nat.le_trans (h'.inside token among) h'.parsed

/-! ### Words -/

theorem tokenWord_sound {tokens : List Token} {parsed : Bytes} (h : Readable tokens parsed)
    {token : Token} (among : token ∈ tokens) :
    Sound (fun word => word.length ≤ maxParsedLine) (tokenWord token parsed : Outcome ε Bytes) := by
  have inside := h.inside token among
  have word : maxParsedLine < wordBound := by decide
  refine sound_bind (sound_add (by omega) (sound_bind (sound_slice (by omega) ?_ ?_)))
  · rw [h.size]
    exact inside
  · refine sound_pure (Nat.le_trans (length_fromUtf8OrEmpty_le _) ?_)
    rw [List.length_drop, List.length_take]
    omega

/-- What `joinPart` and the loops around it leave in the argument buffer. -/
def ArgsFit (out : Option Bytes) : Prop := ∀ args, out = some args → args.length ≤ maxArgs

theorem argsFit_none : ArgsFit none := nofun

theorem argsFit_some {out : Bytes} (h : out.length ≤ maxArgs) : ArgsFit (some out) := by
  rintro _ ⟨⟩
  exact h

theorem joinPart_sound {out part : Bytes} (fits : out.length ≤ maxArgs)
    (short : part.length ≤ maxParsedLine) : Sound ArgsFit (joinPart out part : Outcome ε _) := by
  have word : maxArgs + 1 + maxParsedLine < wordBound := by decide
  -- The same check of the length follows, with or without the space.
  have behind {out : Bytes} (fits : out.length ≤ maxArgs) :
      Sound ArgsFit (do
        let stop ← add out.length part.length
        if maxArgs < stop then return none
        let out ← append maxArgs out part
        return some out : Outcome ε (Option Bytes)) := by
    refine sound_bind (sound_add (by omega) ?_)
    split
    · exact sound_pure argsFit_none
    next room =>
      have fits' : out.length + part.length ≤ maxArgs := Nat.not_lt.mp room
      refine sound_bind (sound_append fits' (sound_pure (argsFit_some ?_)))
      rwa [List.length_append]
  rw [joinPart]
  split
  · exact sound_pure argsFit_none
  next room =>
    by_cases some : 0 < out.length
    · have space : out.length < maxArgs := by
        by_contra full
        exact room ⟨some, Nat.not_lt.mp full⟩
      rw [if_pos some]
      refine sound_bind (sound_push space (behind ?_))
      rw [List.length_append]
      exact space
    · rw [if_neg some]
      exact behind fits

theorem joinWordTokens_sound {all : List Token} {parsed : Bytes} (h : Readable all parsed) :
    ∀ {tokens : List Token} {out : Bytes}, (∀ token ∈ tokens, token ∈ all) → out.length ≤ maxArgs →
      Sound ArgsFit (joinWordTokens parsed tokens out : Outcome ε _) := by
  intro tokens
  induction tokens with
  | nil => exact fun _ fits => sound_pure (argsFit_some fits)
  | cons token tokens ih =>
    intro out among fits
    rw [joinWordTokens]
    split
    · exact sound_pure argsFit_none
    · refine sound_bind ((tokenWord_sound h (among token List.mem_cons_self)).mono fun part short =>
        sound_bind ((joinPart_sound fits short).mono fun joined fit => ?_))
      split
      · exact sound_pure argsFit_none
      · exact ih (fun token' later => among token' (List.mem_cons_of_mem _ later)) (fit _ rfl)

/-! ### Stages -/

/-- The words found so far in a stage. -/
structure StageWords.Fit (found : StageWords) : Prop where
  words : ∀ word ∈ found.words, word.length ≤ maxParsedLine
  inFile : ∀ file, found.inFile = some file → file.length ≤ maxParsedLine
  outFile : ∀ file, found.outFile = some file → file.length ≤ maxParsedLine

structure StageParse.Fit (stage : StageParse) : Prop where
  cmd : stage.cmd.length ≤ maxParsedLine
  args : stage.args.length ≤ maxArgs
  inFile : ∀ file, stage.inFile = some file → file.length ≤ maxParsedLine
  outFile : ∀ file, stage.outFile = some file → file.length ≤ maxParsedLine

theorem stageWords_sound {all : List Token} {parsed : Bytes} (h : Readable all parsed)
    (allowIn allowOut : Bool) :
    ∀ {tokens : List Token} {acc : StageWords}, (∀ token ∈ tokens, token ∈ all) → acc.Fit →
      Sound StageWords.Fit (stageWords parsed allowIn allowOut tokens acc)
  | [], _, _, fit => sound_pure fit
  | ⟨.redirectIn, _, _⟩ :: [], _, _, _ => sound_bind (sound_errIf fun _ => sound_err _)
  | ⟨.redirectIn, _, _⟩ :: file :: rest, acc, among, fit => by
    -- The file of a redirection is a token like the words
    have named : file ∈ all := among file (by simp)
    refine sound_bind (sound_errIf fun _ => sound_bind (sound_errIf fun _ =>
      sound_bind ((tokenWord_sound h named).mono fun path short => ?_)))
    refine stageWords_sound h allowIn allowOut (fun token later => among token (by simp [later]))
      ⟨fit.words, ?_, fit.outFile⟩
    rintro _ ⟨⟩
    exact short
  | ⟨.redirectOut, _, _⟩ :: [], _, _, _ => sound_bind (sound_errIf fun _ => sound_err _)
  | ⟨.redirectOut, _, _⟩ :: file :: rest, acc, among, fit => by
    have named : file ∈ all := among file (by simp)
    refine sound_bind (sound_errIf fun _ => sound_bind (sound_errIf fun _ =>
      sound_bind ((tokenWord_sound h named).mono fun path short => ?_)))
    refine stageWords_sound h allowIn allowOut (fun token later => among token (by simp [later]))
      ⟨fit.words, fit.inFile, ?_⟩
    rintro _ ⟨⟩
    exact short
  | ⟨.pipe, _, _⟩ :: _, _, _, _ => sound_err _
  | ⟨.word, _, _⟩ :: rest, acc, among, fit => by
    refine sound_bind (sound_errIf fun room =>
      sound_bind ((tokenWord_sound h (among _ List.mem_cons_self)).mono fun word short =>
        sound_bind (sound_push (Nat.not_le.mp room) ?_)))
    refine stageWords_sound h allowIn allowOut
      (fun token later => among token (List.mem_cons_of_mem _ later)) ⟨?_, fit.inFile, fit.outFile⟩
    intro word' found
    rcases List.mem_append.mp found with before | last
    · exact fit.words word' before
    · obtain rfl := List.mem_singleton.mp last
      exact short

theorem joinWords_sound {parts : List Bytes} (short : ∀ part ∈ parts, part.length ≤ maxParsedLine)
    {out : Bytes} (fits : out.length ≤ maxArgs) :
    Sound (fun args => args.length ≤ maxArgs) (joinWords parts out) := by
  induction parts generalizing out with
  | nil => exact sound_pure fits
  | cons part parts ih =>
    refine sound_bind ((joinPart_sound fits (short part List.mem_cons_self)).mono fun joined fit => ?_)
    split
    · exact sound_err _
    · exact ih (fun part' later => short part' (List.mem_cons_of_mem _ later)) (fit _ rfl)

theorem parseStage_sound {all tokens : List Token} {parsed : Bytes} (h : Readable all parsed)
    (among : ∀ token ∈ tokens, token ∈ all) (allowIn allowOut : Bool) :
    Sound StageParse.Fit (parseStage parsed allowIn allowOut tokens) := by
  refine sound_bind ((stageWords_sound h allowIn allowOut among ⟨by simp, by simp, by simp⟩).mono
    fun found fit => ?_)
  obtain ⟨words, inFile, outFile⟩ := found
  cases words with
  | nil => exact sound_err _
  | cons cmd rest =>
    have short := List.forall_mem_cons.mp fit.words
    refine sound_bind ((joinWords_sound short.2 (Nat.zero_le _)).mono fun args fits => ?_)
    exact sound_pure ⟨short.1, fits, fit.inFile, fit.outFile⟩

theorem checkStage_sound {tokens group : List Token} {parsed : Bytes} (h : Readable tokens parsed)
    {range : Nat × Nat} (at_ : tokensAt tokens range = .ok group) (first last : Bool) :
    Sound StageParse.Fit (checkStage tokens parsed first last range) := by
  have cut : slice tokens range.1 range.2 = (.ok group : Outcome Bytes _) := at_
  have among : ∀ token ∈ group, token ∈ tokens := by
    intro token member
    rw [slice] at cut
    split at cut
    · obtain rfl := Outcome.ok.inj cut
      exact List.mem_of_mem_take (List.mem_of_mem_drop member)
    · cases cut
  rw [checkStage_eq at_]
  exact sound_bind ((parseStage_sound h among first last).mono fun stage fit =>
    sound_bind (sound_errIf fun _ => sound_pure fit))

/-! ### The environment -/

theorem getEnv_length {env : Env} {key val : Bytes} (h : getEnv env key = some val) :
    val.length ≤ maxVal := by
  obtain ⟨v, -, rfl⟩ := Option.map_eq_some_iff.mp h
  rw [EnvVar.valBytes, Buffer.length_front]
  exact Nat.min_le_right _ _

theorem buildEnvStr_sound (env : Env) :
    Sound (fun buf => buf.length ≤ maxEnvLen) (buildEnvStr env) := by
  have loop (vars : List EnvVar) : ∀ buf : Bytes, buf.length ≤ maxEnvLen →
      Sound (fun buf => buf.length ≤ maxEnvLen) (buildEnvFrom vars buf) := by
    induction vars with
    | nil => exact fun buf fits => sound_pure fits
    | cons v vars ih =>
      intro buf fits
      -- The lengths of a variable are bounded by its buffers, so the sums stay far below a word.
      have word : maxEnvLen + (maxKey + 1 + (maxVal + 1)) < wordBound := by decide
      have key := v.key_fits
      have val := v.val_fits
      have keyLength : v.keyBytes.length = v.keyLen := by
        rw [EnvVar.keyBytes, Buffer.length_front, Nat.min_eq_left key]
      have valLength : v.valBytes.length = v.valLen := by
        rw [EnvVar.valBytes, Buffer.length_front, Nat.min_eq_left val]
      rw [buildEnvFrom]
      split
      · exact ih buf fits
      · refine sound_bind (sound_add (by omega) (sound_bind (sound_add (by omega) ?_)))
        split
        · exact sound_pure fits
        next room =>
          have room' := Nat.not_lt.mp room
          refine sound_bind (sound_append ?_ (sound_bind (sound_push ?_ (sound_bind
            (sound_append ?_ (sound_bind (sound_push ?_ (ih _ ?_))))))))
          all_goals simp only [List.length_append, List.length_singleton, keyLength, valLength]
          all_goals omega
  exact loop env.vars [] (Nat.zero_le _)

theorem cwdOf_length (env : Env) : (cwdOf env).length ≤ maxVal := by
  rw [cwdOf]
  cases found : getEnv env cwdKey with
  | none => decide
  | some val =>
    cases text : fromUtf8 val with
    | none =>
      simp only [text]
      decide
    | some cwd =>
      rw [(fromUtf8_eq_some.mp text).2] at text
      simp only [text]
      exact getEnv_length found

theorem newCwd_sound (env : Env) {args : Bytes} : Sound (fun _ => True) (newCwd env args) := by
  -- The directory is at most a value long, and a slash behind it still leaves room.
  have front : Sound (fun buf => buf.length ≤ maxVal + 1) (cwdFront env) := by
    rw [cwdFront]
    cases found : getEnv env cwdKey with
    | none => exact sound_push (by decide) (by decide)
    | some cwd =>
      have short : cwd.length ≤ 64 := getEnv_length found
      have kept : ([] ++ cwd.take (128 - 1)).length ≤ 64 := by
        rw [List.nil_append, List.length_take]
        omega
      have room : ([] : Bytes).length + (cwd.take (128 - 1)).length ≤ 128 := by
        rw [List.length_take, List.length_nil]
        omega
      refine sound_bind (sound_append room ?_)
      split
      · exact sound_pure (Nat.le_trans kept (by decide))
      next some =>
        refine sound_bind (sound_sub (Nat.pos_of_ne_zero some) (sound_bind
          (sound_index (Nat.sub_lt (Nat.pos_of_ne_zero some) Nat.one_pos) fun b => ?_)))
        split
        · exact sound_pure (Nat.le_trans kept (by decide))
        · refine sound_push (by omega) ?_
          rw [List.length_append]
          exact Nat.succ_le_succ kept
  have path (path : Bytes) : Sound (fun _ => True)
      (if isAbsolute path then append 128 [] (path.take (128 - 1)) else relativeCwd env path) := by
    split
    · refine sound_append ?_ trivial
      rw [List.length_take, List.length_nil]
      omega
    · refine sound_bind (front.mono fun buf fits => ?_)
      have fits' : buf.length ≤ 65 := fits
      refine sound_bind (sound_sub (by omega) (sound_bind (sound_sub (by omega) ?_)))
      refine sound_append ?_ trivial
      rw [List.length_take]
      omega
  refine sound_bind ((path _).mono fun buf _ => ?_)
  split
  · exact sound_pure trivial
  next long =>
    refine sound_bind (sound_sub (by omega) (sound_bind (sound_index (by omega) fun b => ?_)))
    split <;> exact sound_pure trivial

theorem resolveBinPath_sound {cmd : Bytes} (short : cmd.length ≤ maxParsedLine) :
    Sound (fun _ => True) (resolveBinPath cmd : Outcome ε _) := by
  have word : binPrefix.length + maxParsedLine < wordBound := by decide
  rw [resolveBinPath]
  split
  · exact sound_pure trivial
  · refine sound_bind (sound_add (by omega) ?_)
    split
    · exact sound_pure trivial
    next room =>
      -- The buffer of 64 bytes keeps one for the NUL
      have small : binPrefix.length + cmd.length ≤ 63 := by omega
      refine sound_bind (sound_append (by decide) (sound_bind (sound_append ?_ (sound_pure trivial))))
      rw [List.nil_append]
      omega

/-! ### Paths of redirections -/

theorem joinPath_sound {out path : Bytes} (fits : out.length ≤ 128)
    (short : path.length ≤ maxParsedLine) :
    Sound (fun found => ∀ text, found = some text → text.length ≤ 128)
      (joinPath out path : Outcome ε _) := by
  have word : 128 + maxParsedLine < wordBound := by decide
  refine sound_bind (sound_add (by omega) ?_)
  split
  · exact sound_pure nofun
  next room =>
    refine sound_bind (sound_append (Nat.not_lt.mp room) (sound_pure fun text valid => ?_))
    rw [(fromUtf8_eq_some.mp valid).2, List.length_append]
    exact Nat.not_lt.mp room

/-- `resolve_path` stays inside its buffers unless the current directory is empty and the path
relative. -/
theorem resolvePath_sound {env : Env} {path : Bytes} (short : path.length ≤ maxParsedLine)
    (usable : cwdOf env = [] → isAbsolute path = true) :
    Sound (fun found => ∀ text, found = some text → text.length ≤ 128)
      (resolvePath env path : Outcome ε _) := by
  have word : 64 + 1 < wordBound := by decide
  have cwd : (cwdOf env).length ≤ 64 := cwdOf_length env
  rw [resolvePath]
  split
  · split
    · exact sound_pure nofun
    next room =>
      refine sound_bind (sound_append (Nat.not_lt.mp ?_) (sound_pure fun text valid => ?_))
      · simpa using room
      · rw [(fromUtf8_eq_some.mp valid).2]
        exact Nat.not_lt.mp room
  next relative =>
    split
    · exact sound_bind (sound_push (by decide) (joinPath_sound (by decide) short))
    · -- The last byte of the directory is read, so it must have one
      have some : 0 < (cwdOf env).length := by
        by_contra none
        exact relative (usable (List.length_eq_zero_iff.mp (Nat.eq_zero_of_not_pos none)))
      refine sound_bind (sound_add (by omega) ?_)
      split
      · exact sound_pure nofun
      · refine sound_bind (sound_append (by simp; omega) (sound_bind (sound_sub some (sound_bind
          (sound_index (Nat.sub_lt some Nat.one_pos) fun b => ?_)))))
        split
        · refine sound_bind (sound_push (by simp; omega) (joinPath_sound ?_ short))
          simp
          omega
        · exact joinPath_sound (by simp; omega) short

theorem resolvePath_panics {env : Env} {path : Bytes} (empty : cwdOf env = [])
    (relative : isAbsolute path = false) : (resolvePath env path : Outcome ε _) = .panic := by
  have root : ¬(([] : Bytes) = str "/") := by decide
  have size : (add ([] : Bytes).length 1 : Outcome ε Nat) = .ok 1 := add_of_lt (by decide)
  have last : (sub ([] : Bytes).length 1 : Outcome ε Nat) = .panic := if_neg (by decide)
  rw [resolvePath, if_neg (by simp [relative]), empty, if_neg root, size, ok_bind,
    if_neg (by decide), append_of_le (by decide), ok_bind, last, panic_bind]

end Smultron.Shell
