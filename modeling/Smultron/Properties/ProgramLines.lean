import Smultron.Properties.EnvTransport
import Smultron.Properties.FileAppRuns
import Smultron.Properties.LineParses
import Smultron.Properties.Pipeline
import Smultron.Properties.StageGrammar

/-!
# Lines that run one program

A line of words and a line of one stage both come down to one exec. When the kernel answers that
exec, the line comes to its end, and what the kernel has done is what the line has done.
-/

namespace Smultron.Shell

open Checked Checked.Outcome Proc Terminated Utf8

variable {sys : System} {runner : Runner} {k k' : Kernel} {env : Env} {cmd path args captured : Bytes}
  {status : Nat}

/-- An exec that the kernel answers. -/
theorem execStrEnv_ends {envStr : Bytes} (hp : Passes Libos.maxPath path)
    (ha : Passes Libos.maxArgs args) (he : Passes Libos.maxEnv envStr)
    (ran : execWithIo sys runner k path args envStr none none = some (status, captured, k')) :
    Proc.Ends (Smultron.dispatch sys runner) k (fun o k₂ => o = .ok status ∧ k₂ = k')
      (Libos.execStrEnv path args envStr) := by
  have answered : Smultron.dispatch sys runner (.execve (some (path ++ [0])) (some (args ++ [0]))
      (some (envStr ++ [0]))) k = some (.value status, k') := by
    simp only [Smultron.dispatch, execArgs_passes hp ha he, exec, ran]
  rw [execStrEnv_eq hp.short ha.short he.short]
  exact Proc.Ends.request_bind answered (Proc.Ends.pure ⟨rfl, rfl⟩)

/-- What was captured is at the front of the output buffer. -/
theorem execIoStrEnv_ends {envStr : Bytes} (hp : Passes Libos.maxPath path)
    (ha : Passes Libos.maxArgs args) (he : Passes Libos.maxEnv envStr) {stdin stdout : Option Bytes}
    (ran : execWithIo sys runner k path args envStr
      (ioRequest path args envStr stdin stdout).stdio.1
      (ioRequest path args envStr stdin stdout).stdio.2 = some (status, captured, k')) :
    Proc.Ends (Smultron.dispatch sys runner) k
      (fun o k₂ => o = .ok (status, captured.length, stdout.map (Libos.overwrite · captured)) ∧
        k₂ = k')
      (Libos.execIoStrEnv path args envStr stdin stdout) := by
  have answered : Smultron.dispatch sys runner
      (.execIo (some (ioRequest path args envStr stdin stdout))) k =
        some (⟨captured.length, captured, some status⟩, k') := by
    rw [Smultron.dispatch, sysExecIo_eq runner _ (execArgs_passes hp ha he) rfl, ran]
    rfl
  have good : captured.length ≠ u64Max := captured_ne_error runner _ ran
  rw [execIoStrEnv_eq hp.short ha.short he.short]
  refine Proc.Ends.request_bind answered (Proc.Ends.pure ⟨?_, rfl⟩)
  simp [ioAnswer, good]

/-- Nothing is asked of the kernel before the exec. -/
theorem execFromBinIo_eq (h : Presentable env.slots)
    (resolved : (resolveBinPath cmd : Outcome Empty _) = .ok (some path)) (stdin : Option Bytes)
    (capture : Bool) (captureBuf : Bytes) :
    execFromBinIo env cmd args stdin capture captureBuf =
      if stdin.isNone && !capture then do
        let status ← Libos.execStrEnv path args env.text
        return (status, 0, captureBuf)
      else do
        let (status, outLen, out) ← Libos.execIoStrEnv path args env.text stdin
          (if capture then some captureBuf else none)
        return (status, outLen, out.getD captureBuf) := by
  have text : fromUtf8OrEmpty (layout 10 (env.sent.map envLine)) = env.text :=
    fromUtf8OrEmpty_of_valid (text_passes h).text
  rw [execFromBinIo, buildEnvStr_eq, lift_ok, Proc.pure_bind, text, resolved, lift_ok,
    Proc.pure_bind]

/-- An exec without capture that the kernel answers. -/
theorem execFromBinIo_ends (h : Presentable env.slots)
    (resolved : (resolveBinPath cmd : Outcome Empty _) = .ok (some path))
    (hp : Passes Libos.maxPath path) (ha : Passes Libos.maxArgs args) {stdin : Option Bytes}
    (ran : execWithIo sys runner k path args env.text (redirected stdin) none =
      some (status, captured, k')) (captureBuf : Bytes) :
    Proc.Ends (Smultron.dispatch sys runner) k
      (fun o k₂ => (∃ outLen buf, o = .ok (status, outLen, buf)) ∧ k₂ = k')
      (execFromBinIo env cmd args stdin false captureBuf) := by
  rw [execFromBinIo_eq h resolved]
  cases stdin with
  | none =>
    rw [if_pos (by decide)]
    refine Proc.Ends.bind ((execStrEnv_ends hp ha (text_passes h) ran).mono ?_)
    rintro o k₂ ⟨rfl, rfl⟩
    exact ⟨_, rfl, Proc.Ends.pure ⟨⟨_, _, rfl⟩, rfl⟩⟩
  | some data =>
    rw [if_neg (by simp)]
    refine Proc.Ends.bind ((execIoStrEnv_ends hp ha (text_passes h) ran).mono ?_)
    rintro o k₂ ⟨rfl, rfl⟩
    exact ⟨_, rfl, Proc.Ends.pure ⟨⟨_, _, rfl⟩, rfl⟩⟩

/-- An exec with capture that the kernel answers. -/
theorem execFromBinIo_captures (h : Presentable env.slots)
    (resolved : (resolveBinPath cmd : Outcome Empty _) = .ok (some path))
    (hp : Passes Libos.maxPath path) (ha : Passes Libos.maxArgs args) {stdin : Option Bytes}
    {captureBuf : Bytes} (size : captureBuf.length = maxIoBuf)
    (ran : execWithIo sys runner k path args env.text (redirected stdin) (some maxIoBuf) =
      some (status, captured, k')) :
    Proc.Ends (Smultron.dispatch sys runner) k
      (fun o k₂ => o = .ok (status, captured.length, Libos.overwrite captureBuf captured) ∧ k₂ = k')
      (execFromBinIo env cmd args stdin true captureBuf) := by
  have same : (ioRequest path args env.text stdin (some captureBuf)).stdio =
      (redirected stdin, some maxIoBuf) := by
    rw [ioRequest, ExecIoRequest.stdio, Option.map_some, size]
    rfl
  rw [execFromBinIo_eq h resolved, if_neg (by simp), if_pos rfl]
  refine Proc.Ends.bind ((execIoStrEnv_ends hp ha (text_passes h) (by rwa [same])).mono ?_)
  rintro o k₂ ⟨rfl, rfl⟩
  exact ⟨_, rfl, Proc.Ends.pure ⟨rfl, rfl⟩⟩

/-- A line of words. -/
theorem dispatch_words_ends (h : Presentable env.slots) {line : Bytes} {ws : List Bytes}
    (means : Means env line ((cmd :: ws).map fun w => ⟨.word, w⟩)) (program : isBuiltin cmd = false)
    (resolved : (resolveBinPath cmd : Outcome Empty _) = .ok (some path))
    (hp : Passes Libos.maxPath path) (ha : Passes Libos.maxArgs (joined ws))
    (ran : execWithIo sys runner k path (joined ws) env.text none none = some (status, captured, k'))
    (success : status ≠ u64Max) :
    Proc.Ends (Smultron.dispatch sys runner) k (fun o k₂ => o = .ok (true, env) ∧ k₂ = k')
      (dispatch env line) := by
  rw [dispatch_words means ha.short, dispatchSimple_program program, execFromBin, Proc.bind_assoc]
  refine Proc.Ends.bind ((@execFromBinIo_ends _ _ _ _ _ _ _ _ _ _ h resolved hp ha none ran []).mono ?_)
  rintro o k₂ ⟨⟨outLen, buf, rfl⟩, rfl⟩
  refine ⟨_, rfl, ?_⟩
  dsimp only
  rw [Proc.pure_bind, if_neg success]
  exact Proc.Ends.pure ⟨rfl, rfl⟩

/-! ### A line of one stage -/

theorem stageGroups_single {tokens : List Token} (single : ∀ t ∈ tokens, t.kind ≠ .pipe) :
    stageGroups tokens = [tokens] :=
  List.splitOnP_eq_singleton fun t among => by simp [single t among]

/-- The only stage of a command, behind the splitter. -/
theorem dispatchCompoundTokens_single {tokens : List Token} {parsed : Bytes} {stage : StageParse}
    (some_ : tokens ≠ []) (single : ∀ t ∈ tokens, t.kind ≠ .pipe)
    (parses : parseStage parsed true true tokens = .ok stage) (program : isBuiltin stage.cmd = false) :
    dispatchCompoundTokens env tokens parsed = (do
      let _ ← runStage env true true stage PipeState.start
      return true) := by
  have alone := stageGroups_single single
  rw [dispatchCompoundTokens]
  rcases splitStages_cases tokens with ⟨e, -, bad⟩ | ⟨ranges, split, -, slices⟩
  · rw [alone] at bad
    rcases bad with many | empty
    · have one : [tokens].length ≤ maxPipeStages := Nat.le_of_ble_eq_true rfl
      omega
    · exact absurd (List.mem_singleton.mp empty).symm some_
  · rw [alone] at slices
    obtain ⟨range, rest, rfl, at_, none⟩ := List.map_eq_cons_iff.mp slices
    obtain rfl := List.map_eq_nil_iff.mp none
    have checked := (checkStage_ok_iff at_).mpr ⟨parses, program⟩
    rw [split]
    dsimp only
    rw [runStages, List.isEmpty_nil, checked, Proc.bind_assoc]
    refine congrArg (_ >>= ·) (funext fun next => ?_)
    -- Whether the stage has stopped the line or not, nothing comes behind it
    cases next <;> rfl

theorem dispatch_stage {line : Bytes} {ls : List Lexeme} {stage : StageParse}
    (means : Means env line ls) (operator : ∃ l ∈ ls, l.kind ≠ .word)
    (single : ∀ l ∈ ls, l.kind ≠ .pipe)
    (parses : ∀ tokens buffer, List.Forall₂ (ReadsAs buffer) tokens ls →
      parseStage buffer true true tokens = .ok stage)
    (program : isBuiltin stage.cmd = false) : dispatch env line = (do
      let _ ← runStage env true true stage PipeState.start
      return (true, env)) := by
  have short := length_expanded env line
  have valid := valid_expanded env line
  rcases tokenizeCommand_follows short with ⟨es, tokens, parsed, same, -, ok, texts⟩ | failed
  · rw [means.1] at same
    obtain rfl := Option.some.inj same
    have reads := tokens_readAs valid short ok
    have kinds (p : TokenKind → Prop) : (∀ l ∈ ls, p l.kind) ↔ ∀ t ∈ tokens, p t.kind := by
      rw [← texts, List.forall_mem_map]
      rfl
    have parsedOk := parses tokens _ (texts ▸ reads)
    have compound : tokens.any (·.kind ≠ .word) = true := by
      obtain ⟨l, among, other⟩ := operator
      by_contra none
      refine other ((kinds (· = .word)).mpr (fun t ht => ?_) l among)
      by_contra isOther
      exact none (List.any_eq_true.mpr ⟨t, ht, by simpa using isOther⟩)
    cases tokens with
    | nil => cases compound
    | cons t rest =>
      rw [← texts] at means
      obtain ⟨someText, someLine⟩ := nonempty_of_means means
      rw [dispatch, if_neg someText, if_neg someLine, ok]
      dsimp only
      rw [if_pos compound, dispatchCompoundTokens_single (List.cons_ne_nil t rest)
        ((kinds (· ≠ .pipe)).mp single) parsedOk program, Proc.bind_assoc]
      rfl
  · obtain ⟨msg, -, many⟩ := failed
    exact absurd means.2 (Nat.not_le.mpr (many _ means.1))

/-! ### Words and an input file -/

section Input

variable {buffer : Bytes} {tokens rest : List Token} {file : Bytes} {ws : List Bytes}

theorem ReadsAs.reads {t : Token} {w : Bytes} (h : ReadsAs buffer t ⟨.word, w⟩) : Reads buffer t w :=
  ⟨h.kind, h.text Bytes⟩

theorem items_of_words {words ins outs : List Bytes}
    (reads : List.Forall₂ (ReadsAs buffer) tokens (ws.map fun w => ⟨.word, w⟩))
    (items : Items buffer rest words ins outs) :
    Items buffer (tokens ++ rest) (ws ++ words) ins outs := by
  induction ws generalizing tokens with
  | nil =>
    obtain rfl := List.forall₂_nil_right_iff.mp reads
    exact items
  | cons w ws ih =>
    obtain ⟨t, tokens', first, later, rfl⟩ := List.forall₂_cons_right_iff.mp reads
    exact .word first.reads (ih later)

/-- A command with its words, and `<` with a file. -/
def inputLexemes (cmd : Bytes) (ws : List Bytes) (file : Bytes) : List Lexeme :=
  (cmd :: ws).map (fun w => ⟨.word, w⟩) ++ [⟨.redirectIn, []⟩, ⟨.word, file⟩]

theorem parseStage_input (reads : List.Forall₂ (ReadsAs buffer) tokens (inputLexemes cmd ws file))
    (few : ws.length < maxStageTokens) (fits : (joined ws).length ≤ maxArgs) (allowOut : Bool) :
    parseStage buffer true allowOut tokens = .ok ⟨cmd, joined ws, some file, none⟩ := by
  obtain ⟨t, behind, redirection, file_, split⟩ :=
    List.forall₂_cons_right_iff.mp (List.forall₂_drop_append _ _ _ reads)
  obtain ⟨u, none, named, last, rfl⟩ := List.forall₂_cons_right_iff.mp file_
  obtain rfl := List.forall₂_nil_right_iff.mp last
  have items : Items buffer tokens (cmd :: ws) [file] [] := by
    have words := items_of_words (List.forall₂_take_append _ _ _ reads)
      (.redirectIn redirection.kind named.reads .nil)
    rwa [← split, List.take_append_drop, List.append_nil] at words
  exact parseStage_ok_iff.mpr ⟨cmd, ws, [file], [], items, few, by simp, by simp, by simp, by simp,
    fits, rfl⟩

variable {content : Bytes}

/-- The shell opens the file that the path stands for. -/
theorem openInput_ends (usable : cwdOf env ≠ []) (passes : Passes 127 (pathUnder (cwdOf env) file))
    (stored : Vfs.readFileBytes sys.images k.ram (pathUnder (cwdOf env) file) maxIoBuf =
      some content) :
    Proc.Ends (Smultron.dispatch sys runner) k (fun o k' => o = .ok (some content) ∧ k' = k)
      (openInput env file) := by
  have size : (List.replicate maxIoBuf (0 : UInt8)).length = maxIoBuf := List.length_replicate
  have most : 127 ≤ maxParsedLine := by decide
  have few : content.length ≤ maxIoBuf := length_readFileBytes stored
  have short := (length_le_pathUnder (cwdOf env) file).trans passes.short
  rw [openInput, resolvePath_eq (short.trans most) (fun empty => absurd empty usable),
    fittingPath_passes passes, lift_ok, Proc.pure_bind]
  rw [← size] at stored
  refine Proc.Ends.bind ((readFile_ends passes (by rw [size]; decide) (by rw [size]; decide)
    stored).mono ?_)
  rintro o k' ⟨rfl, rfl⟩
  refine ⟨_, rfl, ?_⟩
  dsimp only
  have inside : content.length ≤ (Libos.overwrite (List.replicate maxIoBuf 0) content).length :=
    (List.length_append ..).symm ▸ Nat.le_add_right ..
  have copied : copyPrefix (Libos.overwrite (List.replicate maxIoBuf 0) content) content.length =
      .ok content := by
    rw [copyPrefix, slice_of_le (Nat.zero_le _) inside, ok_bind, List.drop_zero, take_overwrite,
      append_of_le (by simpa using few), List.nil_append]
  rw [copied, lift_ok, Proc.pure_bind]
  exact Proc.Ends.pure ⟨rfl, rfl⟩

/-- A line of words with an input file that is there. -/
theorem dispatch_input_ends (h : Presentable env.slots) {line : Bytes}
    (means : Means env line (inputLexemes cmd ws file)) (few : ws.length < maxStageTokens)
    (program : isBuiltin cmd = false)
    (resolved : (resolveBinPath cmd : Outcome Empty _) = .ok (some path))
    (hp : Passes Libos.maxPath path) (ha : Passes Libos.maxArgs (joined ws))
    (opened : Proc.Ends (Smultron.dispatch sys runner) k
      (fun o k' => o = .ok (some content) ∧ k' = k) (openInput env file))
    (ran : execWithIo sys runner k path (joined ws) env.text (redirected (some content)) none =
      some (status, captured, k'))
    (success : status ≠ u64Max) :
    Proc.Ends (Smultron.dispatch sys runner) k (fun o k₂ => o = .ok (true, env) ∧ k₂ = k')
      (dispatch env line) := by
  have operator : ∃ l ∈ inputLexemes cmd ws file, l.kind ≠ .word :=
    ⟨⟨.redirectIn, []⟩, by simp [inputLexemes], nofun⟩
  have single : ∀ l ∈ inputLexemes cmd ws file, l.kind ≠ .pipe := by
    simp only [inputLexemes, List.mem_append, List.mem_map, List.mem_cons, List.not_mem_nil, or_false]
    rintro l (⟨w, -, rfl⟩ | rfl | rfl) <;> nofun
  rw [dispatch_stage means operator single
    (fun _ _ reads => parseStage_input reads few ha.short true) program, runStage, Proc.bind_assoc,
    stageInput]
  refine Proc.Ends.bind (opened.mono ?_)
  rintro o k₁ ⟨rfl, rfl⟩
  refine ⟨_, rfl, ?_⟩
  dsimp only
  rw [Proc.bind_assoc, fromUtf8OrEmpty_of_valid ha.text]
  refine Proc.Ends.bind ((@execFromBinIo_ends _ _ _ _ _ _ _ _ _ _ h resolved hp ha
    (some content) ran _).mono ?_)
  rintro o k₂ ⟨⟨outLen, buf, rfl⟩, rfl⟩
  refine ⟨_, rfl, ?_⟩
  dsimp only
  rw [if_neg success]
  exact Proc.Ends.pure ⟨rfl, rfl⟩

end Input

end Smultron.Shell
