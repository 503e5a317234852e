import Smultron.Properties.ShellCalls
import Smultron.Properties.StageParts
import Smultron.Properties.WordTexts

/-!
# Lines of words

A line without an operator is a command word and its arguments. The arguments are joined with a
space between two of them, and the command is looked up: a builtin runs in the shell, anything else
is the program of an exec, and that exec is the first call of the line.
-/

namespace Smultron.Shell

open Checked Checked.Outcome Proc Utf8

/-! ### Lines that expand to themselves -/

theorem expandFrom_plain {env : Env} {cap : Nat} {line out : Bytes} (plain : 36 ∉ line)
    (room : out.length + line.length ≤ cap) {rounds : Nat} (enough : line.length ≤ rounds) :
    expandFrom env cap rounds line out = out ++ line := by
  induction line generalizing out rounds with
  | nil => cases rounds <;> simp [expandFrom]
  | cons b rest ih =>
    rw [List.mem_cons, not_or] at plain
    rw [List.length_cons] at room enough
    cases rounds with
    | zero => omega
    | succ rounds =>
      have copied : copyWhileRoom cap out [b] = out ++ [b] := by
        rw [copyWhileRoom, List.take_of_length_le (by simp; omega)]
      rw [expandFrom, if_neg (by omega), if_neg (Ne.symm plain.1), copied,
        ih plain.2 (by simp; omega) (by omega), List.append_assoc, List.singleton_append]

/-- A text without a `$` that fits the buffer is not changed, but for the spaces at its ends. -/
theorem expanded_plain {env : Env} {line : Bytes} (text : Valid line) (plain : 36 ∉ line)
    (short : line.length ≤ maxParsedLine) : expanded env line = trim line := by
  have few : (trim line).length ≤ maxLine * 2 := Nat.le_trans (trim_sublist line).length_le short
  have none_ : 36 ∉ trim line := fun dollar => plain ((trim_sublist line).subset dollar)
  rw [expanded, fromUtf8OrEmpty_of_valid text, expandLine,
    expandFrom_plain none_ (by simpa using few) (Nat.le_refl _), List.nil_append,
    fromUtf8OrEmpty_of_valid (valid_trim text), trim_trim]

/-! ### The arguments -/

/-- One more argument. -/
def putWord (out w : Bytes) : Bytes := if out = [] then w else out ++ 32 :: w

/-- The words with a space between two of them; empty words at the front leave none. -/
def joined (ws : List Bytes) : Bytes := ws.foldl putWord []

theorem length_le_foldl (ws : List Bytes) (out : Bytes) :
    out.length ≤ (ws.foldl putWord out).length := by
  induction ws generalizing out with
  | nil => exact Nat.le_refl _
  | cons w ws ih =>
    refine Nat.le_trans ?_ (ih (putWord out w))
    rw [putWord]
    split
    next empty => simp [empty]
    · simp

theorem joinPart_eq {ε : Type} {out part : Bytes} (fits : (putWord out part).length ≤ maxArgs) :
    (joinPart out part : Outcome ε (Option Bytes)) = .ok (some (putWord out part)) := by
  have word : maxArgs < wordBound := by decide
  rw [putWord] at fits ⊢
  by_cases empty : out = []
  · -- The first word stands alone
    subst empty
    simp only [if_true] at fits ⊢
    have sum : (add ([] : Bytes).length part.length : Outcome ε Nat) = .ok part.length := by
      rw [add_of_lt (by simp; omega), List.length_nil, Nat.zero_add]
    rw [joinPart, if_neg (by simp), if_neg (by simp), pure_eq, ok_bind, sum, ok_bind,
      if_neg (by omega), append_of_le (by simpa using fits)]
    rfl
  · -- A later word stands behind a space
    rw [if_neg empty] at fits ⊢
    have some_ : 0 < out.length := List.length_pos_iff.mpr empty
    have size : out.length + 1 + part.length ≤ maxArgs := by
      simp at fits
      omega
    have longer : (out ++ [32]).length = out.length + 1 := by simp
    rw [joinPart, if_neg (by omega), if_pos some_, push_of_lt (by omega), ok_bind, longer,
      add_of_lt (by omega), ok_bind, if_neg (by omega), append_of_le (by omega)]
    simp

theorem joinWordTokens_eq {ε : Type} {buffer : Bytes} {tokens : List Token} {ws : List Bytes}
    (out : Bytes) (reads : ∀ token ∈ tokens, token.kind = .word ∧
      (tokenWord token buffer : Outcome ε Bytes) = .ok (lexeme buffer token).text)
    (same : tokens.map (lexeme buffer) = ws.map fun w => ⟨.word, w⟩)
    (fits : (ws.foldl putWord out).length ≤ maxArgs) :
    (joinWordTokens buffer tokens out : Outcome ε (Option Bytes)) =
      .ok (some (ws.foldl putWord out)) := by
  induction tokens generalizing ws out with
  | nil =>
    obtain rfl : ws = [] := by simpa using same.symm
    rfl
  | cons token tokens ih =>
    cases ws with
    | nil => cases same
    | cons w ws =>
      rw [List.forall_mem_cons] at reads
      obtain ⟨first, later⟩ := List.cons.inj same
      obtain ⟨⟨kind, read⟩, reads⟩ := reads
      rw [first] at read
      rw [List.foldl_cons] at fits ⊢
      -- One more word fits, because all of them do
      rw [joinWordTokens, if_neg (by simp [kind]), read, ok_bind,
        joinPart_eq (Nat.le_trans (length_le_foldl ws _) fits), ok_bind]
      exact ih _ reads later fits

/-! ### The line -/

/-- What the line is made of, after expansion. -/
def Means (env : Env) (line : Bytes) (ls : List Lexeme) : Prop :=
  scan .between (expanded env line) = some ls ∧ ls.length ≤ maxTokens

/-- The words of a text are texts. -/
theorem valid_lexeme {line : Bytes} (valid : Valid line) (short : line.length ≤ maxParsedLine)
    {tokens : List Token} {parsed : Bytes} (ok : tokenizeCommand line = .ok (tokens, parsed))
    {token : Token} (among : token ∈ tokens) : Valid (lexeme (parsedStorage parsed) token).text := by
  obtain ⟨cs, rfl⟩ := valid_iff.mp valid
  exact scan_valid keeps_between (tokenizeCommand_scan short ok) _ (List.mem_map_of_mem among)

/-- The token of a word reads as the word. -/
theorem tokenWord_ok {ε : Type} {line : Bytes} (valid : Valid line)
    (short : line.length ≤ maxParsedLine) {tokens : List Token} {parsed : Bytes}
    (ok : tokenizeCommand line = .ok (tokens, parsed)) {token : Token} (among : token ∈ tokens) :
    (tokenWord token (parsedStorage parsed) : Outcome ε Bytes) =
      .ok (lexeme (parsedStorage parsed) token).text := by
  have readable : Readable tokens (parsedStorage parsed) := (tokenizeCommand_sound line).of_ok ok
  have inside := readable.inside token among
  have size := readable.size
  have word : maxParsedLine < wordBound := by decide
  -- A word that is a text loses nothing when it is read as one
  have text := valid_lexeme valid short ok among
  rw [tokenWord, add_of_lt (by omega), ok_bind, slice_of_le (by omega) (by omega), ok_bind,
    List.drop_take, Nat.add_sub_cancel_left]
  exact congrArg Outcome.ok (fromUtf8OrEmpty_of_valid text)

theorem valid_expanded (env : Env) (line : Bytes) : Valid (expanded env line) :=
  valid_trim (valid_fromUtf8OrEmpty _)

theorem trim_nil : trim [] = [] := trim_encode []

/-- A line with a token passes the two tests for blank lines. -/
theorem nonempty_of_means {env : Env} {line : Bytes} {l : Lexeme} {ls : List Lexeme}
    (h : Means env line (l :: ls)) : trim (fromUtf8OrEmpty line) ≠ [] ∧ expanded env line ≠ [] := by
  have some_ : expanded env line ≠ [] := by
    intro empty
    have scanned := h.1
    rw [empty] at scanned
    cases scanned
  refine ⟨fun blank => some_ ?_, some_⟩
  rw [expanded, blank]
  exact trim_nil

theorem valid_joined {ws : List Bytes} (h : ∀ w ∈ ws, Valid w) : Valid (joined ws) := by
  have behind {out : Bytes} (before : Valid out) : Valid (ws.foldl putWord out) := by
    induction ws generalizing out with
    | nil => exact before
    | cons w ws ih =>
      rw [List.forall_mem_cons] at h
      apply ih h.2
      rw [putWord]
      split
      · exact h.1
      · rw [← List.singleton_append]
        exact before.append (Valid.append (by decide +kernel) h.1)
  exact behind valid_nil

/-- A line of words is its command applied to the joined arguments. -/
theorem dispatch_words {env : Env} {line cmd : Bytes} {ws : List Bytes}
    (means : Means env line ((cmd :: ws).map fun w => ⟨.word, w⟩))
    (fits : (joined ws).length ≤ maxArgs) :
    dispatch env line = dispatchSimple env cmd (joined ws) := by
  obtain ⟨someText, someLine⟩ := nonempty_of_means means
  have short := length_expanded env line
  have valid := valid_expanded env line
  obtain ⟨scanned, few⟩ := means
  rcases tokenizeCommand_follows short with ⟨es, tokens, parsed, same, -, ok, texts⟩ | failed
  · rw [scanned] at same
    obtain rfl := Option.some.inj same
    cases tokens with
    | nil => cases texts
    | cons cmdToken argTokens =>
      -- Every token is a word, and reads as the word it stands for
      have reads : ∀ token ∈ cmdToken :: argTokens, token.kind = .word ∧
          (tokenWord token (parsedStorage parsed) : Outcome Empty Bytes) =
            .ok (lexeme (parsedStorage parsed) token).text := by
        intro token among
        refine ⟨?_, tokenWord_ok valid short ok among⟩
        have lexed : lexeme (parsedStorage parsed) token ∈ (cmd :: ws).map fun w => ⟨.word, w⟩ :=
          texts ▸ List.mem_map_of_mem among
        obtain ⟨w, -, isWord⟩ := List.mem_map.mp lexed
        exact (congrArg Lexeme.kind isWord).symm
      -- So the line is no pipeline, and goes to `dispatch_simple`
      have noOperator : (cmdToken :: argTokens).any (·.kind ≠ .word) = false := by
        rw [List.any_eq_false]
        intro token among
        simp [(reads token among).1]
      rw [List.forall_mem_cons] at reads
      obtain ⟨first, later⟩ := List.cons.inj texts
      have command := reads.1.2
      rw [first] at command
      have arguments := joinWordTokens_eq [] reads.2 later fits
      have text : fromUtf8OrEmpty (joined ws) = joined ws := by
        apply fromUtf8OrEmpty_of_valid
        apply valid_joined
        intro w hw
        obtain ⟨cs, whole⟩ := valid_iff.mp valid
        rw [← whole] at scanned
        exact scan_valid keeps_between scanned ⟨.word, w⟩
          (List.mem_map_of_mem (List.mem_cons_of_mem _ hw))
      rw [dispatch, if_neg someText, if_neg someLine, ok]
      dsimp only
      rw [if_neg (Bool.eq_false_iff.mp noOperator), command, lift_ok, Proc.pure_bind, arguments, lift_ok,
        Proc.pure_bind]
      exact congrArg (dispatchSimple env cmd) text
  · obtain ⟨msg, -, many⟩ := failed
    exact absurd few (Nat.not_le.mpr (many _ scanned))

/-! ### Words of letters -/

/-- Letters, digits and underscores: no byte has a meaning of its own. -/
def Letters (s : Bytes) : Prop := s ≠ [] ∧ ∀ b ∈ s, isNameByte b = true

instance (s : Bytes) : Decidable (Letters s) := inferInstanceAs (Decidable (_ ∧ _))

theorem nameByte_facts (b : UInt8) (h : isNameByte b = true) :
    b < 128 ∧ Plain b ∧ b ≠ 36 ∧ b ≠ 61 ∧ b ≠ 0 ∧ b ≠ 10 ∧ b ≠ 13 ∧
      isWhitespace (Char.ofNat b.toNat) = false := by
  -- There are only 256 bytes to look at
  have all : ∀ n : Fin 256, isNameByte (UInt8.ofNat n) = true →
      UInt8.ofNat n < 128 ∧ (¬Blank (UInt8.ofNat n) ∧ operator (UInt8.ofNat n) = none ∧
        UInt8.ofNat n ≠ 39 ∧ UInt8.ofNat n ≠ 34 ∧ UInt8.ofNat n ≠ 92) ∧ UInt8.ofNat n ≠ 36 ∧
        UInt8.ofNat n ≠ 61 ∧ UInt8.ofNat n ≠ 0 ∧ UInt8.ofNat n ≠ 10 ∧ UInt8.ofNat n ≠ 13 ∧
        isWhitespace (Char.ofNat n) = false := by
    decide +kernel
  have facts := all ⟨b.toNat, b.toNat_lt⟩ (by simpa using h)
  simp only [UInt8.ofNat_toNat] at facts
  obtain ⟨ascii, ⟨blank, op, single, double, escape⟩, rest⟩ := facts
  exact ⟨ascii, ⟨blank, op, single, double, escape⟩, rest⟩

theorem wordText_plain {s : Bytes} (some_ : s ≠ []) (plain : ∀ b ∈ s, Plain b) : WordText s s := by
  induction s with
  | nil => exact absurd rfl some_
  | cons b s ih =>
    rw [List.forall_mem_cons] at plain
    by_cases last : s = []
    · subst last
      exact .last (.plain b plain.1)
    · exact .more (.plain b plain.1) (ih last plain.2)

/-- A text that neither begins nor ends with a space is not trimmed. -/
theorem trim_ascii {s : Bytes} (ascii : ∀ b ∈ s, b < 128)
    (first : ∀ b, s.head? = some b → isWhitespace (Char.ofNat b.toNat) = false)
    (last : ∀ b, s.getLast? = some b → isWhitespace (Char.ofNat b.toNat) = false) :
    trim s = s := by
  -- Trimming is about characters, and an ASCII text is the text of its bytes
  have whole : encode (s.map fun b => Char.ofNat b.toNat) = s := by
    clear first last
    induction s with
    | nil => rfl
    | cons b s ih =>
      rw [List.forall_mem_cons] at ascii
      rw [List.map_cons, encode_cons, encode_ascii ascii.1, ih ascii.2, List.singleton_append]
  conv_lhs => rw [← whole]
  rw [trim_encode]
  refine (congrArg encode ?_).trans whole
  have front : (s.map fun b => Char.ofNat b.toNat).dropWhile isWhitespace =
      s.map fun b => Char.ofNat b.toNat := by
    cases s with
    | nil => rfl
    | cons b s => rw [List.map_cons, List.dropWhile_cons_of_neg (by simp [first b rfl])]
  rw [front]
  apply List.rdropWhile_eq_self_iff.mpr
  intro some_
  have some_' : s ≠ [] := fun empty => some_ (by rw [empty]; rfl)
  rw [List.getLast_map]
  simp [last _ (List.getLast?_eq_some_getLast some_')]

/-! ### The commands -/

theorem dispatchSimple_cd (env : Env) (args : Bytes) :
    dispatchSimple env (str "cd") args = setCwd env args >>= fun env => pure (true, env) := by
  rw [dispatchSimple, if_neg (by decide), if_neg (by decide), if_neg (by decide), if_pos rfl]

theorem dispatchSimple_env {env : Env} {buf : Bytes} (built : buildEnvStr env = .ok buf) (args : Bytes) :
    dispatchSimple env (str "env") args =
      writeStr (fromUtf8OrEmpty buf) >>= fun _ => pure (true, env) := by
  rw [dispatchSimple, if_neg (by decide), if_neg (by decide), if_neg (by decide), if_neg (by decide),
    if_pos rfl, built, lift_ok, Proc.pure_bind]

theorem dispatchSimple_export {env : Env} {args key val : Bytes}
    (split : splitOnce 61 args = some (key, val)) :
    dispatchSimple env (str "export") args =
      setEnv env (trim key) (trim val) >>= fun env => pure (true, env) := by
  rw [dispatchSimple, if_neg (by decide), if_neg (by decide), if_neg (by decide), if_neg (by decide),
    if_neg (by decide), if_pos rfl, split]

theorem dispatchSimple_usage {env : Env} {args : Bytes} (split : splitOnce 61 args = none) :
    dispatchSimple env (str "export") args =
      writeStr (str "usage: export KEY=VALUE\n") >>= fun _ => pure (true, env) := by
  rw [dispatchSimple, if_neg (by decide), if_neg (by decide), if_neg (by decide), if_neg (by decide),
    if_neg (by decide), if_pos rfl, split]

/-- A command outside the shell. -/
theorem dispatchSimple_program {env : Env} {cmd : Bytes} (program : isBuiltin cmd = false)
    (args : Bytes) :
    dispatchSimple env cmd args = do
      if (← execFromBin env cmd args) = u64Max then unknownCommand cmd
      return (true, env) := by
  simp only [isBuiltin, Bool.or_eq_false_iff, beq_eq_false_iff_ne, and_assoc] at program
  obtain ⟨help, clear, exit_, cd, env_, export_⟩ := program
  rw [dispatchSimple, if_neg help, if_neg clear, if_neg exit_, if_neg cd, if_neg env_,
    if_neg export_]

/-- The first call of such a command is its exec. -/
theorem firstCall_program (env : Env) {cmd path : Bytes} (args : Bytes) (program : isBuiltin cmd = false)
    (resolved : (resolveBinPath cmd : Outcome Empty _) = .ok (some path))
    (pathFits : path.length ≤ Libos.maxPath) (argsFit : args.length ≤ Libos.maxArgs) :
    ∃ envStr, envStr.length ≤ Libos.maxEnv ∧ (dispatchSimple env cmd args).firstCall =
      some (.execve (some (path ++ [0])) (some (args ++ [0])) (some (envStr ++ [0]))) := by
  obtain ⟨envBuf, built, fits⟩ := exec_fits env pathFits argsFit
  refine ⟨fromUtf8OrEmpty envBuf, by omega, ?_⟩
  -- Everything in front of the exec is computed without a call
  rw [dispatchSimple_program program]
  apply firstCall_bind
  rw [execFromBin]
  apply firstCall_bind
  rw [execFromBinIo, built, lift_ok, Proc.pure_bind, resolved, lift_ok, Proc.pure_bind]
  dsimp only
  rw [if_pos (by decide)]
  apply firstCall_bind
  rw [Libos.execStrEnv, if_neg fits, execBuffers_ok (by omega) (by omega) (by omega), lift_ok,
    Proc.pure_bind]
  exact firstCall_bind (firstCall_request _) _

end Smultron.Shell
