import Smultron.Properties.CompoundErrors
import Smultron.Properties.EnvTransport

/-!
# Lines that only report an error

The shell turns down a line that it cannot parse, but also one whose input file has too long a path,
whose variable is too long, or whose program has no slot. All that comes of such a line is a message,
whatever the kernel replies. Every other line can come to something else: it starts a program, it is a
builtin that does its work, or it panics.
-/

namespace Smultron

/-- The call starts a program or writes a file. -/
def Syscall.Acts (c : Syscall) : Prop := c.Starts ∨ ∃ path data, c = .writeFile path data

/-- The text a call writes to the standard output. -/
def Syscall.text : Syscall → Option Bytes
  | .write 1 (some s) => some s
  | _ => none

namespace Shell

open Checked Checked.Outcome Proc Utf8

/-! ### Reports -/

/-- The errors of the tokenizer. -/
def tokenizerErrors : List String :=
  ["line too long", "too many tokens", "trailing escape", "unclosed quote"]

/-- The answer to an `export` without an equals sign. -/
def exportUsage : Bytes := str "usage: export KEY=VALUE\n"

/-- The errors about variables. -/
def variableErrors : List Bytes :=
  [str "error: env var too long\n", str "error: too many env vars\n", exportUsage]

def pathTooLongError : Bytes := str "redirection error: path too long\n"

/-- The messages of the shell, each with the texts it is written in. -/
inductive Report : List Bytes → Prop where
  | tokenizer {msg : String} (known : msg ∈ tokenizerErrors) :
    Report [str "parse error: ", str msg, str "\n"]
  | parse {msg : Bytes} (known : msg ∈ parseErrors) : Report [msg]
  | setVariable {msg : Bytes} (known : msg ∈ variableErrors) : Report [msg]
  | pathTooLong : Report [pathTooLongError]
  | redirection {verb : Bytes} (known : verb ∈ [str "read", str "write"]) (path : Bytes) :
    Report [str "redirection error: cannot " ++ verb ++ str " ", path, str "\n"]
  | unknownCommand (cmd : Bytes) : Report [str "unknown command: ", cmd, str "\n"]

/-- The calls write these texts, and none of them does anything else. -/
structure Said (calls : Calls) (ts : List Bytes) : Prop where
  texts : calls.filterMap (fun cr => cr.1.text) = ts
  idle : ∀ cr ∈ calls, ¬cr.1.Acts

/-- The calls report an error and do nothing else, and the procedure goes on with `a`. -/
def Reported {α : Type} (a : α) (calls : Calls) (o : Outcome Empty α) : Prop :=
  o = .ok a ∧ ∃ ts, Report ts ∧ Said calls ts

/-- Whatever the kernel replies, all that comes of the line is the report of an error. -/
def Refused (env : Env) (line : Bytes) : Prop :=
  ∀ calls o, (dispatch env line).Exec Legal calls o → Reported (true, env) calls o

theorem Tokenizer.pushChar_err (t : Tokenizer) (b : UInt8) :
    ErrIn (· ∈ tokenizerErrors) (t.pushChar b) :=
  errIn_bind (errIn_errIf (by decide)) fun _ => errIn_bind (errIn_push _ _ _) fun _ => errIn_ok _

theorem Tokenizer.pushToken_err (t : Tokenizer) (kind : TokenKind) (start len : Nat) :
    ErrIn (· ∈ tokenizerErrors) (t.pushToken kind start len) :=
  errIn_bind (errIn_errIf (by decide)) fun _ => errIn_bind (errIn_push _ _ _) fun _ => errIn_ok _

theorem Tokenizer.endWord_err (t : Tokenizer) : ErrIn (· ∈ tokenizerErrors) t.endWord := by
  rw [endWord]
  split
  · refine errIn_bind ?_ fun _ => errIn_bind (t.pushToken_err _ _ _) fun _ => errIn_ok _
    rw [sub]
    split
    · exact errIn_ok _
    · exact errIn_panic
  · exact errIn_ok _

theorem Tokenizer.step_err (t : Tokenizer) (b : UInt8) :
    ErrIn (· ∈ tokenizerErrors) (t.step b) := by
  apply t.step_cases b
  · intro _ f _
    exact errIn_bind (t.pushChar_err b) fun _ => errIn_ok _
  · exact fun _ t' _ _ => errIn_ok t'
  · exact fun _ => t.endWord_err
  · exact fun _ t' _ _ => errIn_ok t'
  · intro _ kind _
    exact errIn_bind t.endWord_err fun t => t.pushToken_err kind 0 0
  · exact fun _ => t.startWord.pushChar_err b

theorem tokenizeCommand_err (line : Bytes) :
    ErrIn (· ∈ tokenizerErrors) (tokenizeCommand line) := by
  have loop := errIn_foldlM Tokenizer.step_err line Tokenizer.start
  refine errIn_bind loop fun t => errIn_bind ?_ fun _ => errIn_ok _
  exact errIn_bind (errIn_errIf (by decide)) fun _ => errIn_bind (errIn_errIf (by decide)) fun _ =>
    t.endWord_err

/-! ### The lines that are turned down -/

/-- A command without an operator that only reports an error. -/
def RejectedSimple (env : Env) (cmd args : Bytes) : Prop :=
  if cmd = str "cd" then
    ∃ path msg, newCwd env args = .ok path ∧ Valid path ∧ storeEnv env cwdKey path = .error msg
  -- the table may hold one variable that reads like the message of `export`
  else if cmd = str "env" then buildEnvStr env = .ok exportUsage
  else if cmd = str "export" then
    ∀ k v, splitOnce 61 args = some (k, v) → ∃ msg, storeEnv env (trim k) (trim v) = .error msg
  else isBuiltin cmd = false ∧ ¬Launches cmd

/-- A compound command that only reports an error: its first stage has no program to start, or no
input to start it with. -/
def RejectedCompound (env : Env) (tokens : List Token) (parsed : Bytes) : Prop :=
  RejectedFirst tokens parsed ∨ ∃ group groups stage, stageGroups tokens = group :: groups ∧
    parseStage parsed true groups.isEmpty group = .ok stage ∧ isBuiltin stage.cmd = false ∧
    (cwdOf env = [] → ¬Relative stage.inFile) ∧ (Opens env stage.inFile → ¬Launches stage.cmd)

def Rejected (env : Env) (tokens : List Token) (parsed : Bytes) : Prop :=
  if tokens.any (·.kind ≠ .word) then RejectedCompound env tokens parsed
  else (joinWordTokens parsed tokens.tail [] : Outcome Empty _) = .ok none ∨
    ∃ token cmd args, token ∈ tokens.head? ∧ (tokenWord token parsed : Outcome Empty _) = .ok cmd ∧
      (joinWordTokens parsed tokens.tail [] : Outcome Empty _) = .ok (some args) ∧
      RejectedSimple env cmd (fromUtf8OrEmpty args)

/-- The text is refused by the tokenizer, or its tokens are. -/
def TurnedDown (env : Env) (text : Bytes) : Prop :=
  (∃ msg, tokenizeCommand text = .err msg) ∨
    ∃ tokens parsed, tokenizeCommand text = .ok (tokens, parsed) ∧
      Rejected env tokens (parsedStorage parsed)

theorem not_turnedDown_nil (env : Env) : ¬TurnedDown env [] := by
  rintro (⟨msg, failed⟩ | ⟨tokens, parsed, ok, rejected⟩)
  · cases failed
  · cases ok
    rcases rejected with none_ | ⟨token, cmd, args, head, -⟩
    · cases none_
    · cases head

/-! ### What is said -/

variable {legal : Syscall → Reply → Prop} {done : Calls} {ts : List Bytes} {α β : Type}

theorem said_nil : Said [] [] := ⟨rfl, nofun⟩

theorem Said.more {calls : Calls} {ts' : List Bytes} (said : Said done ts) (later : Said calls ts') :
    Said (done ++ calls) (ts ++ ts') where
  texts := by rw [List.filterMap_append, said.texts, later.texts]
  idle cr among := (List.mem_append.mp among).elim (said.idle cr) (later.idle cr)

theorem said_write (s : Bytes) (r : Reply) : Said [(.write 1 (some s), r)] [s] where
  texts := rfl
  idle cr among acts := by
    obtain rfl := List.mem_singleton.mp among
    rcases acts with impossible | ⟨path, data, impossible⟩
    · exact impossible
    · cases impossible

theorem Said.write (said : Said done ts) (s : Bytes) (r : Reply) :
    Said (done ++ [(.write 1 (some s), r)]) (ts ++ [s]) := said.more (said_write s r)

theorem Said.quiet (said : Said done ts) {calls : Calls}
    (quiet : ∀ cr ∈ calls, cr.1.text = none ∧ ¬cr.1.Acts) : Said (done ++ calls) ts := by
  have nothing : Said calls [] :=
    ⟨List.filterMap_eq_nil_iff.mpr fun cr among => (quiet cr among).1, fun cr among => (quiet cr among).2⟩
  have whole := said.more nothing
  rwa [List.append_nil] at whole

/-- The report stays the only thing when what follows is a value. -/
theorem reported_bind {x : User α} {f : α → User β} {a : α} {b : β}
    (told : Traces legal done (Reported a) x) (same : f a = pure b) :
    Traces legal done (Reported b) (x >>= f) := by
  refine Traces.bind (told.mono fun d o _ reported => ?_)
  obtain ⟨rfl, report⟩ := reported
  refine ⟨nofun, fun a' value => ?_⟩
  obtain rfl := Outcome.ok.inj value
  rw [same]
  exact Traces.pure ⟨rfl, report⟩

theorem message_reported {msg : Bytes} (said : Said done []) (report : Report [msg]) :
    Traces legal done (Reported ()) (writeStr msg) :=
  writeStr_traces fun r => ⟨rfl, _, report, said.write msg r⟩

theorem messages_reported {s s' s'' : Bytes} (said : Said done []) (report : Report [s, s', s'']) :
    Traces legal done (Reported ()) (do writeStr s; writeStr s'; writeStr s'' : User Unit) :=
  writeStr_bind fun _ => writeStr_bind fun _ => writeStr_traces fun _ =>
    ⟨rfl, _, report, ((said.write _ _).write _ _).write _ _⟩

theorem unknownCommand_reported (said : Said done []) (cmd : Bytes) :
    Traces legal done (Reported ()) (unknownCommand cmd) :=
  messages_reported said (.unknownCommand cmd)

theorem cannotRead_reported (said : Said done []) (path : Bytes) :
    Traces legal done (Reported ()) (redirectionError (str "read") path) :=
  messages_reported said (.redirection List.mem_cons_self path)

/-! ### Programs that are not started -/

theorem execStrEnv_calls (path args env : Bytes) :
    (Libos.execStrEnv path args env).Only fun c => c.text = none ∧ (c.Acts → Executable path) := by
  rw [Libos.execStrEnv]
  split
  · exact only_pure _
  next fits =>
    rw [execBuffers_ok (by omega) (by omega) (by omega), lift_ok, Proc.pure_bind]
    refine only_bind (only_request ⟨rfl, fun acts => ⟨by omega, ?_⟩⟩) fun _ => only_pure _
    exact acts.resolve_right (by rintro ⟨_, _, ⟨⟩⟩)

theorem execIoStrEnv_calls (path args env : Bytes) (stdin stdout : Option Bytes) :
    (Libos.execIoStrEnv path args env stdin stdout).Only
      fun c => c.text = none ∧ (c.Acts → Executable path) := by
  rw [Libos.execIoStrEnv]
  split
  · exact only_pure _
  next fits =>
    rw [execBuffers_ok (by omega) (by omega) (by omega), lift_ok, Proc.pure_bind]
    apply only_bind
    · refine only_request ⟨rfl, fun acts => ⟨by omega, ?_⟩⟩
      exact acts.resolve_right (by rintro ⟨_, _, ⟨⟩⟩)
    · intro r
      split
      · exact only_pure _
      · exact only_pure _

theorem execFromBinIo_calls (env : Env) {cmd : Bytes} (short : cmd.length ≤ maxParsedLine)
    (args : Bytes) (stdin : Option Bytes) (capture : Bool) (captureBuf : Bytes) :
    (execFromBinIo env cmd args stdin capture captureBuf).Only
      fun c => c.text = none ∧ (c.Acts → Launches cmd) := by
  obtain ⟨resolved, ok, -⟩ := (resolveBinPath_sound (ε := Empty) short).value
  refine only_bind (only_lift _) fun envBuf => ?_
  rw [ok, lift_ok, Proc.pure_bind]
  cases resolved with
  | none => exact only_pure _
  | some path =>
    have launched (c : Syscall) (h : c.text = none ∧ (c.Acts → Executable path)) :
        c.text = none ∧ (c.Acts → Launches cmd) := ⟨h.1, fun acts => ⟨path, ok, h.2 acts⟩⟩
    dsimp only
    split
    · exact only_bind ((execStrEnv_calls _ _ _).mono launched) fun _ => only_pure _
    · exact only_bind ((execIoStrEnv_calls _ _ _ _ _).mono launched) fun _ => only_pure _

/-- The exec of a command that names no program comes back with the status of a failure. -/
theorem execFromBinIo_fails (said : Said done []) (env : Env) {cmd : Bytes}
    (short : cmd.length ≤ maxParsedLine) (absent : ¬Launches cmd) (args : Bytes)
    (stdin : Option Bytes) (capture : Bool) (captureBuf : Bytes) :
    Traces Legal done (fun d o => Said d [] ∧ ∃ outLen buf, o = .ok (u64Max, outLen, buf))
      (execFromBinIo env cmd args stdin capture captureBuf) := by
  intro calls o e
  obtain ⟨⟨status, outLen, buf⟩, rfl, -, -, ran⟩ :=
    safe_iff_exec.mp (execFromBinIo_safe env short args stdin capture captureBuf) calls o e
  have only := (execFromBinIo_calls env short args stdin capture captureBuf).calls e
  refine ⟨said.quiet fun cr among => ?_, outLen, buf, ?_⟩
  · exact ⟨(only cr among).1, fun acts => absent ((only cr among).2 acts)⟩
  · have failed : status = u64Max := by
      by_contra other
      exact absent (ran other)
    rw [failed]

/-! ### Stages that are not started -/

theorem readFile_said (said : Said done []) (path buf : Bytes) :
    Traces legal done (fun d _ => Said d []) (Libos.readFile path buf) := by
  have quiet (pathBuf : Bytes) (r : Reply) :
      Said (done ++ [(.readFile (some pathBuf) (some buf.length), r)]) [] := by
    refine said.quiet fun cr among => ?_
    obtain rfl := List.mem_singleton.mp among
    exact ⟨rfl, not_or.mpr ⟨id, nofun⟩⟩
  rw [Libos.readFile]
  split
  · exact Traces.pure said
  · refine Traces.bind (Traces.lift ⟨fun _ => said, fun pathBuf _ => Traces.request_bind fun r _ => ?_⟩)
    split <;> exact Traces.pure (quiet _ _)

/-- What opening the input file comes to: a report, or data and nothing said. -/
def Opened (calls : Calls) (o : Outcome Empty (Option Bytes)) : Prop :=
  (o = .ok none → Reported none calls o) ∧ ∀ data, o = .ok (some data) → Said calls []

theorem opened_panic (calls : Calls) : Opened calls .panic := ⟨nofun, nofun⟩

theorem opened_of_reported {calls : Calls} {o : Outcome Empty (Option Bytes)}
    (told : Reported none calls o) : Opened calls o := by
  refine ⟨fun _ => told, fun data same => ?_⟩
  obtain ⟨rfl, -⟩ := told
  cases same

theorem openInput_opened (said : Said done []) {env : Env} {file : Bytes}
    (short : file.length ≤ maxParsedLine) (usable : cwdOf env = [] → isAbsolute file = true) :
    Traces legal done Opened (openInput env file) := by
  obtain ⟨resolved, ok, -⟩ := (resolvePath_sound (ε := Empty) short usable).value
  rw [openInput, ok, lift_ok, Proc.pure_bind]
  cases resolved with
  | none =>
    have told : Traces legal done (Reported none)
        (do pathTooLong; pure none : User (Option Bytes)) :=
      reported_bind (message_reported said .pathTooLong) rfl
    exact told.mono fun d o _ => opened_of_reported
  | some path =>
    refine Traces.bind ((readFile_said said path _).mono fun d o _ said' =>
      ⟨fun _ => opened_panic d, fun found _ => ?_⟩)
    obtain ⟨len, fileBuf⟩ := found
    cases len with
    | none =>
      have told : Traces legal d (Reported none)
          (do redirectionError (str "read") path; pure none : User (Option Bytes)) :=
        reported_bind (cannotRead_reported said' path) rfl
      exact told.mono fun d o _ => opened_of_reported
    | some len =>
      exact Traces.bind (Traces.lift ⟨fun _ => opened_panic d, fun pipe _ =>
        Traces.pure ⟨by rintro ⟨⟩, fun _ _ => said'⟩⟩)

theorem stageInput_opened {env : Env} {stage : StageParse} (fit : stage.Fit)
    (usable : ∀ file, stage.inFile = some file → cwdOf env = [] → isAbsolute file = true)
    (pipe : Bytes) : Traces legal [] Opened (stageInput env true stage pipe) := by
  rw [stageInput, if_pos rfl]
  cases file : stage.inFile with
  | none => exact Traces.pure ⟨by rintro ⟨⟩, fun _ _ => said_nil⟩
  | some path => exact openInput_opened said_nil (fit.inFile path file) (usable path file)

/-- A first stage without an input, or without a program for it. -/
theorem runStage_reported {env : Env} {last : Bool} {stage : StageParse} {state : PipeState}
    (fit : stage.Fit) (buffers : state.Fit)
    (usable : ∀ file, stage.inFile = some file → cwdOf env = [] → isAbsolute file = true)
    (nothing : Opens env stage.inFile → ¬Launches stage.cmd) :
    Traces Legal [] (Reported none) (runStage env true last stage state) := by
  refine Traces.bind fun calls o e => ?_
  obtain ⟨opened, rfl, inside⟩ :=
    safe_iff_exec.mp (stageInput_safe fit buffers.pipe fun _ => usable) calls o e
  obtain ⟨refused, opens⟩ := stageInput_opened fit usable state.pipe calls _ e
  refine ⟨nofun, fun opened' same => ?_⟩
  obtain rfl := Outcome.ok.inj same
  cases opened with
  | none => exact Traces.pure ⟨rfl, (refused rfl).2⟩
  | some pipe =>
    -- There is input, so there is no program
    have absent := nothing ((inside pipe rfl).2 rfl)
    refine Traces.bind ((execFromBinIo_fails (opens pipe rfl) env fit.cmd absent _ _ _ _).mono
      fun d o _ failed => ?_)
    obtain ⟨said, outLen, buf, rfl⟩ := failed
    refine ⟨nofun, fun result same => ?_⟩
    obtain rfl := Outcome.ok.inj same
    exact reported_bind (unknownCommand_reported said stage.cmd) rfl

theorem usable_of_not_relative {env : Env} {file : Option Bytes}
    (calm : cwdOf env = [] → ¬Relative file) :
    ∀ path, file = some path → cwdOf env = [] → isAbsolute path = true := by
  intro path same empty
  by_contra relative
  exact calm empty ⟨path, same, by simpa using relative⟩

theorem dispatchCompoundTokens_reported {env : Env} {tokens : List Token} {parsed : Bytes}
    (readable : Readable tokens parsed) (h : RejectedCompound env tokens parsed) :
    Traces Legal [] (Reported true) (dispatchCompoundTokens env tokens parsed) := by
  have rejected (first : RejectedFirst tokens parsed) :
      Traces Legal [] (Reported true) (dispatchCompoundTokens env tokens parsed) := by
    intro calls o e
    obtain ⟨msg, among, r, rfl, rfl⟩ := rejected_reports first e
    exact ⟨rfl, _, .parse among, said_write msg r⟩
  rcases h with first | ⟨group, groups, stage, all, parses, program, calm, nothing⟩
  · exact rejected first
  rcases splitStages_cases tokens with ⟨e, -, bad⟩ | ⟨ranges, split, -, slices⟩
  · exact rejected (.inl bad)
  · rw [dispatchCompoundTokens, split]
    rw [all] at slices
    cases ranges with
    | nil => cases slices
    | cons range ranges =>
      -- The first stage is accepted, and then it has nothing to run
      obtain ⟨_, _, same, at_, -, alone⟩ := slices_cons slices
      cases same
      rw [← alone] at parses
      have checked := (checkStage_ok_iff at_).mpr ⟨parses, program⟩
      have fit : stage.Fit := (checkStage_sound readable at_ true ranges.isEmpty).of_ok checked
      dsimp only
      rw [runStages, checked]
      exact reported_bind (reported_bind (runStage_reported fit pipeState_start_fit
        (usable_of_not_relative calm) nothing) rfl) rfl

/-! ### Commands that are turned down -/

theorem storeEnv_known {env : Env} {key val msg : Bytes} (h : storeEnv env key val = .error msg) :
    msg ∈ variableErrors := by
  rw [storeEnv] at h
  split at h
  · cases h
    exact List.mem_cons_self
  · split at h
    · cases h
    · split at h
      · cases h
      · cases h
        exact List.mem_cons_of_mem _ List.mem_cons_self

theorem setEnv_reported {env : Env} {key val msg : Bytes}
    (stored : storeEnv env key val = .error msg) :
    Traces legal [] (Reported env) (setEnv env key val) := by
  rw [setEnv, stored]
  exact reported_bind (message_reported said_nil (.setVariable (storeEnv_known stored))) rfl

theorem setCwd_reported {env : Env} {args path msg : Bytes} (resolved : newCwd env args = .ok path)
    (text : Valid path) (stored : storeEnv env cwdKey path = .error msg) :
    Traces legal [] (Reported env) (setCwd env args) := by
  rw [setCwd, resolved, lift_ok, Proc.pure_bind, fromUtf8_of_valid text]
  exact setEnv_reported stored

theorem usage_reported (env : Env) :
    Traces legal [] (Reported (true, env)) (writeStr exportUsage >>= fun _ => pure (true, env)) :=
  reported_bind (message_reported said_nil (.setVariable (by decide))) rfl

theorem dispatchSimple_reported {env : Env} {cmd : Bytes} (short : cmd.length ≤ maxParsedLine)
    {args : Bytes} (h : RejectedSimple env cmd args) :
    Traces Legal [] (Reported (true, env)) (dispatchSimple env cmd args) := by
  rw [RejectedSimple] at h
  split at h
  next cd =>
    obtain ⟨path, msg, resolved, text, stored⟩ := h
    rw [cd, dispatchSimple_cd]
    exact reported_bind (setCwd_reported resolved text stored) rfl
  split at h
  next env_ =>
    have text : fromUtf8OrEmpty exportUsage = exportUsage := by decide +kernel
    rw [env_, dispatchSimple_env h, text]
    exact usage_reported env
  split at h
  next export_ =>
    rw [export_]
    cases split : splitOnce 61 args with
    | none =>
      rw [dispatchSimple_usage split]
      exact usage_reported env
    | some pair =>
      obtain ⟨msg, stored⟩ := h pair.1 pair.2 split
      rw [dispatchSimple_export split]
      exact reported_bind (setEnv_reported stored) rfl
  · obtain ⟨program, absent⟩ := h
    rw [dispatchSimple_program program, execFromBin, Proc.bind_assoc]
    refine Traces.bind ((execFromBinIo_fails said_nil env short absent _ _ _ _).mono
      fun d o _ failed => ?_)
    obtain ⟨said, outLen, buf, rfl⟩ := failed
    refine ⟨by rintro ⟨⟩, fun result same => ?_⟩
    obtain rfl := Outcome.ok.inj same
    rw [Proc.pure_bind, if_pos rfl]
    exact reported_bind (unknownCommand_reported said cmd) rfl

/-- A line whose text is turned down is refused. -/
theorem refused_of_turnedDown {env : Env} {line : Bytes} (h : TurnedDown env (expanded env line)) :
    Refused env line := by
  suffices told : Traces Legal [] (Reported (true, env)) (dispatch env line) from told
  have some_ : expanded env line ≠ [] := fun empty => not_turnedDown_nil env (empty ▸ h)
  have typed : trim (fromUtf8OrEmpty line) ≠ [] := by
    intro blank
    apply some_
    rw [expanded, blank]
    exact trim_nil
  rw [dispatch, if_neg typed, if_neg some_]
  rcases h with ⟨msg, failed⟩ | ⟨tokens, parsed, ok, rejected⟩
  · rw [failed]
    have report := Report.tokenizer (tokenizeCommand_err _ _ failed)
    exact writeStr_bind fun _ => writeStr_bind fun _ => writeStr_bind fun _ =>
      Traces.pure ⟨rfl, _, report, ((said_nil.write _ _).write _ _).write _ _⟩
  · have readable : Readable tokens (parsedStorage parsed) := (tokenizeCommand_sound _).of_ok ok
    rw [ok]
    rw [Rejected] at rejected
    cases tokens with
    | nil =>
      rcases rejected with none_ | ⟨token, cmd, args, head, -⟩
      · cases none_
      · cases head
    | cons cmdToken argTokens =>
      dsimp only
      split at rejected
      next operators =>
        rw [if_pos operators]
        exact reported_bind (dispatchCompoundTokens_reported readable rejected) rfl
      next words =>
        rw [if_neg words]
        rcases rejected with none_ | ⟨token, cmd, args, head, read, joined, rejected⟩
        · -- The command can be read, but its arguments do not fit
          obtain ⟨cmd, read, -⟩ := (tokenWord_sound (ε := Empty) readable List.mem_cons_self).value
          rw [List.tail_cons] at none_
          rw [read, lift_ok, Proc.pure_bind, none_, lift_ok, Proc.pure_bind]
          exact reported_bind (message_reported said_nil (.parse (by decide))) rfl
        · obtain rfl := Option.some.inj head
          have short := (tokenWord_sound (ε := Empty) readable List.mem_cons_self).of_ok read
          rw [List.tail_cons] at joined
          rw [read, lift_ok, Proc.pure_bind, joined, lift_ok, Proc.pure_bind]
          exact dispatchSimple_reported short rejected

/-! ### Commands that are not turned down -/

/-- More can come of the procedure than the report of an error and `a`. -/
def Escapes (a : α) (x : User α) : Prop :=
  ∃ calls o, x.Exec Legal calls o ∧ ¬Reported a calls o

theorem not_report_nil : ¬Report [] := nofun

/-- Nothing is said. -/
theorem escapes_pure (a a' : α) : Escapes a (pure a' : User α) := by
  refine ⟨[], _, exec_pure.mpr ⟨rfl, rfl⟩, ?_⟩
  rintro ⟨-, ts, report, said⟩
  obtain rfl : [] = ts := said.texts
  exact not_report_nil report

theorem escapes_panic {a : α} {x : User α} (unsafe_ : ¬x.Safe Legal fun _ => True) : Escapes a x := by
  rw [safe_iff_no_panic, not_forall] at unsafe_
  obtain ⟨calls, panics⟩ := unsafe_
  refine ⟨calls, .panic, not_not.mp panics, ?_⟩
  rintro ⟨impossible, -⟩
  cases impossible

theorem escapes_canCall {a : α} {x : User α} (h : CanCall Legal Syscall.Acts x) : Escapes a x := by
  obtain ⟨calls, o, e, cr, called, acts⟩ := h
  refine ⟨calls, o, e, ?_⟩
  rintro ⟨-, ts, -, said⟩
  exact said.idle cr called acts

/-- The texts a report begins with. -/
def reportHeads : List Bytes :=
  [str "parse error: ", pathTooLongError, str "redirection error: cannot read ",
    str "redirection error: cannot write ", str "unknown command: "] ++ parseErrors ++ variableErrors

theorem report_head {s : Bytes} {ts : List Bytes} (report : Report (s :: ts)) : s ∈ reportHeads := by
  rw [reportHeads, List.mem_append, List.mem_append]
  cases report with
  | tokenizer known => exact .inl (.inl (by simp))
  | parse known => exact .inl (.inr known)
  | setVariable known => exact .inr known
  | pathTooLong => exact .inl (.inl (by simp))
  | redirection known path =>
    have heads : ∀ verb ∈ [str "read", str "write"],
        str "redirection error: cannot " ++ verb ++ str " " ∈
          [str "parse error: ", pathTooLongError, str "redirection error: cannot read ",
            str "redirection error: cannot write ", str "unknown command: "] := by decide +kernel
    exact .inl (.inl (heads _ known))
  | unknownCommand cmd => exact .inl (.inl (by simp))

theorem answers (c : Syscall) : ∃ r, Legal c r := ⟨.failed, legal_failed c⟩

theorem escapes_first {a : α} {x : User α} {s : Bytes}
    (first : x.firstCall = some (.write 1 (some s))) (other : s ∉ reportHeads) : Escapes a x := by
  obtain ⟨calls, o, e, head⟩ := Program.exists_exec answers x.program
  refine ⟨calls, o, e, ?_⟩
  rintro ⟨-, ts, report, said⟩
  obtain ⟨⟨c, r⟩, begins, same⟩ := Option.map_eq_some_iff.mp (head.trans first)
  obtain rfl : c = .write 1 (some s) := same
  obtain ⟨rest, rfl⟩ := List.head?_eq_some_iff.mp begins
  -- The first call writes the first text
  obtain rfl : s :: rest.filterMap (fun cr => cr.1.text) = ts := said.texts
  exact other (report_head report)

theorem escapes_write {a : α} {s : Bytes} (other : s ∉ reportHeads) (f : Unit → User α) :
    Escapes a (writeStr s >>= f) := escapes_first rfl other

/-- What is put behind the procedure changes its value and nothing else. -/
theorem Escapes.bind_pure {a : α} {x : User α} (h : Escapes a x) {f : α → β}
    (injective : Function.Injective f) : Escapes (f a) (x >>= fun a => pure (f a)) := by
  obtain ⟨calls, o, e, other⟩ := h
  cases o with
  | ok a' =>
    refine ⟨calls, .ok (f a'), exec_bind.mpr (.inr ⟨calls, [], a', by simp, e, exec_pure.mpr ⟨rfl, rfl⟩⟩),
      ?_⟩
    rintro ⟨same, report⟩
    obtain rfl := injective (Outcome.ok.inj same)
    exact other ⟨rfl, report⟩
  | err impossible => cases impossible
  | panic =>
    refine ⟨calls, .panic, exec_bind.mpr (.inl ⟨e, rfl⟩), ?_⟩
    rintro ⟨impossible, -⟩
    cases impossible

/-- A command that names a program begins with its exec. -/
theorem execFromBinIo_starts (env : Env) {cmd args : Bytes} (launches : Launches cmd)
    (argsFit : args.length ≤ maxArgs) (stdin : Option Bytes) (capture : Bool) (captureBuf : Bytes) :
    CanCall Legal Syscall.Acts (execFromBinIo env cmd args stdin capture captureBuf) := by
  obtain ⟨path, resolved, pathFits, starts⟩ := launches
  obtain ⟨envBuf, built, fits⟩ := exec_fits env pathFits argsFit
  have buffers : Libos.execBuffers path args (fromUtf8OrEmpty envBuf) = _ :=
    execBuffers_ok (by omega) (by omega) (by omega)
  rw [execFromBinIo, built, lift_ok, Proc.pure_bind, resolved, lift_ok, Proc.pure_bind]
  dsimp only
  split
  · rw [Libos.execStrEnv, if_neg fits, buffers, lift_ok, Proc.pure_bind]
    exact (canCall_firstCall answers (firstCall_bind (firstCall_request _) _) (.inl starts)).bind answers _
  · rw [Libos.execIoStrEnv, if_neg fits, buffers, lift_ok, Proc.pure_bind]
    exact (canCall_firstCall answers (firstCall_bind (firstCall_request _) _) (.inl starts)).bind answers _

/-- An input that can be opened is there in some execution. -/
theorem stageInput_ok {env : Env} {stage : StageParse} (fit : stage.Fit) {pipe : Bytes}
    (few : pipe.length ≤ maxIoBuf)
    (usable : ∀ file, stage.inFile = some file → cwdOf env = [] → isAbsolute file = true)
    (opens : Opens env stage.inFile) :
    ∃ calls data, (stageInput env true stage pipe).Exec Legal calls (.ok (some data)) := by
  by_contra none_
  have never : (stageInput env true stage pipe).Safe Legal fun opened => ∀ data, opened ≠ some data := by
    apply safe_iff_exec.mpr
    intro calls o e
    obtain ⟨opened, rfl, -⟩ := safe_iff_exec.mp (stageInput_safe fit few fun _ => usable) calls o e
    refine ⟨opened, rfl, ?_⟩
    rintro data rfl
    exact none_ ⟨calls, data, e⟩
  obtain ⟨data, impossible⟩ := stageInput_reached (fun _ => opens) never
  exact impossible data rfl

theorem dispatchCompoundTokens_escapes {env : Env} {tokens : List Token} {parsed : Bytes}
    (readable : Readable tokens parsed) (h : ¬RejectedCompound env tokens parsed) :
    Escapes true (dispatchCompoundTokens env tokens parsed) := by
  rcases splitStages_cases tokens with ⟨e, -, bad⟩ | ⟨ranges, split, good, slices⟩
  · exact absurd (.inl (.inl bad)) h
  cases ranges with
  | nil =>
    rw [dispatchCompoundTokens, split]
    exact escapes_pure true true
  | cons range ranges =>
    obtain ⟨group, groups, all, at_, -, alone⟩ := slices_cons slices
    have sound := checkStage_sound readable at_ true ranges.isEmpty
    cases checked : checkStage tokens parsed true ranges.isEmpty range with
    | panic =>
      rw [checked] at sound
      exact absurd sound not_sound_panic
    | err e =>
      have rejected := (checkStage_err_iff at_).mp ⟨e, checked⟩
      exact absurd (.inl (.inr ⟨group, groups, all, alone ▸ rejected⟩)) h
    | ok stage =>
      have fit : stage.Fit := sound.of_ok checked
      obtain ⟨parses, program⟩ := (checkStage_ok_iff at_).mp checked
      rw [alone] at parses
      by_cases calm : cwdOf env = [] → ¬Relative stage.inFile
      · -- The stage has its input in some execution, and then its program is started
        have some_ : Opens env stage.inFile ∧ Launches stage.cmd := by
          by_contra nothing
          exact h (.inr ⟨group, groups, stage, all, parses, program, calm, not_and.mp nothing⟩)
        have argsFit : (fromUtf8OrEmpty stage.args).length ≤ maxArgs :=
          Nat.le_trans (length_fromUtf8OrEmpty_le _) fit.args
        obtain ⟨calls, data, e⟩ := stageInput_ok fit pipeState_start_fit.pipe
          (usable_of_not_relative calm) some_.1
        have stage_ : CanCall Legal Syscall.Acts
            (runStage env true ranges.isEmpty stage PipeState.start) :=
          canCall_bind e ((execFromBinIo_starts env some_.2 argsFit _ _ _).bind answers _)
        rw [dispatchCompoundTokens, split]
        dsimp only
        rw [runStages, checked]
        exact escapes_canCall ((stage_.bind answers _).bind answers _)
      · -- The path of its input panics
        obtain ⟨empty, relative⟩ := Classical.not_imp.mp calm
        have reaches : ReachesRelative env parsed true (stageGroups tokens) := by
          rw [all]
          exact ⟨stage, parses, program, .inl ⟨rfl, not_not.mp relative⟩⟩
        exact escapes_panic (dispatchCompoundTokens_stuck readable ⟨empty, good, reaches⟩)

/-- The text of the variables has an equals sign in it, and one message has, too. -/
theorem buildEnvStr_head {env : Env} {buf : Bytes} (built : buildEnvStr env = .ok buf)
    (head : fromUtf8OrEmpty buf ∈ reportHeads) : buf = exportUsage := by
  have loop (vars : List EnvVar) (buf : Bytes) :
      OkIn (fun out => out = buf ∨ 61 ∈ out) (buildEnvFrom vars buf) := by
    induction vars generalizing buf with
    | nil => exact okIn_pure (.inl rfl)
    | cons v vars ih =>
      rw [buildEnvFrom]
      -- A variable without a key is passed over, one that does not fit ends the text
      refine okIn_ite (fun _ => ih buf) fun _ => ?_
      refine okIn_bind (okIn_of _ fun _ => okIn_bind (okIn_of _ fun _ => ?_))
      refine okIn_ite (fun _ => okIn_pure (.inl rfl)) fun _ => ?_
      refine okIn_bind (okIn_append (okIn_bind (okIn_push (okIn_bind (okIn_append
        (okIn_bind (okIn_push ?_)))))))
      refine (ih _).mono fun out kept => .inr (kept.elim (fun same => ?_) id)
      rw [same]
      simp
  have heads : ∀ text ∈ reportHeads, text ≠ [] ∧ (61 ∈ text → text = exportUsage) := by
    decide +kernel
  by_cases text : Valid buf
  · rw [fromUtf8OrEmpty_of_valid text] at head
    obtain ⟨some_, usage⟩ := heads buf head
    exact usage (((loop env.vars []).of_ok built).resolve_left some_)
  · have none_ : fromUtf8 buf = none := if_neg text
    rw [fromUtf8OrEmpty, none_] at head
    exact absurd rfl (heads [] head).1

theorem dispatchSimple_escapes {env : Env} {cmd args : Bytes} (argsFit : args.length ≤ maxArgs)
    (h : ¬RejectedSimple env cmd args) : Escapes (true, env) (dispatchSimple env cmd args) := by
  rw [RejectedSimple] at h
  split at h
  next cd =>
    obtain ⟨path, resolved, -⟩ := (@newCwd_sound env args).value
    rw [cd, dispatchSimple_cd, setCwd, resolved, lift_ok, Proc.pure_bind]
    by_cases text : Valid path
    · rw [fromUtf8_of_valid text]
      dsimp only
      cases stored : storeEnv env cwdKey path with
      | ok env' =>
        -- The directory is changed, and nothing is said
        rw [setEnv, stored]
        exact escapes_pure _ _
      | error msg => exact absurd ⟨path, msg, resolved, text, stored⟩ h
    · -- A directory that is cut inside a character is not stored, and nobody is told
      have none_ : fromUtf8 path = none := if_neg text
      rw [none_]
      exact escapes_pure _ _
  split at h
  next env_ =>
    obtain ⟨buf, built, -⟩ := (buildEnvStr_sound env).value
    rw [env_, dispatchSimple_env built]
    -- The variables are listed, and only one listing is a message
    exact escapes_write (fun head => h (buildEnvStr_head built head ▸ built)) _
  split at h
  next export_ =>
    obtain ⟨k, h⟩ := not_forall.mp h
    obtain ⟨v, h⟩ := not_forall.mp h
    obtain ⟨split, taken⟩ := Classical.not_imp.mp h
    rw [export_, dispatchSimple_export split]
    cases stored : storeEnv env (trim k) (trim v) with
    | ok env' =>
      -- The variable is set, and nothing is said
      rw [setEnv, stored]
      exact escapes_pure _ _
    | error msg => exact absurd ⟨msg, stored⟩ taken
  next notCd notEnv notExport =>
    by_cases program : isBuiltin cmd = false
    · have launches : Launches cmd := by
        by_contra absent
        exact h ⟨program, absent⟩
      rw [dispatchSimple_program program, execFromBin]
      exact escapes_canCall
        (((execFromBinIo_starts env launches argsFit _ _ _).bind answers _).bind answers _)
    · -- The other builtins do their work
      rw [dispatchSimple]
      split
      · exact escapes_write (by decide) _
      split
      · exact escapes_write (by decide) _
      split
      · exact escapes_pure _ _
      next notHelp notClear notExit =>
        exact absurd (by simp [isBuiltin, notHelp, notClear, notExit, notCd, notEnv, notExport]) program

/-! ### The whole line -/

theorem dispatch_escapes {env : Env} {line : Bytes} (h : ¬TurnedDown env (expanded env line)) :
    Escapes (true, env) (dispatch env line) := by
  rw [dispatch]
  split
  · exact escapes_pure _ _
  split
  · exact escapes_pure _ _
  have sound := tokenizeCommand_sound (expanded env line)
  cases ok : tokenizeCommand (expanded env line) with
  | panic =>
    rw [ok] at sound
    exact absurd sound not_sound_panic
  | err msg => exact absurd (.inl ⟨msg, ok⟩) h
  | ok found =>
    obtain ⟨tokens, parsed⟩ := found
    have readable : Readable tokens (parsedStorage parsed) := sound.of_ok ok
    have accepted : ¬Rejected env tokens (parsedStorage parsed) :=
      fun rejected => h (.inr ⟨tokens, parsed, ok, rejected⟩)
    rw [Rejected] at accepted
    cases tokens with
    | nil => exact escapes_pure _ _
    | cons cmdToken argTokens =>
      dsimp only
      split
      next operators =>
        rw [if_pos operators] at accepted
        exact (dispatchCompoundTokens_escapes readable accepted).bind_pure (Prod.mk_left_injective env)
      next words =>
        rw [if_neg words, List.tail_cons, not_or] at accepted
        obtain ⟨cmd, read, -⟩ := (tokenWord_sound (ε := Empty) readable List.mem_cons_self).value
        have nothing : ([] : Bytes).length ≤ maxArgs := Nat.zero_le _
        obtain ⟨joined, joins, fits⟩ := (joinWordTokens_sound (ε := Empty) readable
          (fun token later => List.mem_cons_of_mem cmdToken later) nothing).value
        rw [read, lift_ok, Proc.pure_bind, joins, lift_ok, Proc.pure_bind]
        cases joined with
        | none => exact absurd joins accepted.1
        | some args =>
          have argsFit : (fromUtf8OrEmpty args).length ≤ maxArgs :=
            Nat.le_trans (length_fromUtf8OrEmpty_le _) (fits args rfl)
          exact dispatchSimple_escapes argsFit fun rejected =>
            accepted.2 ⟨cmdToken, cmd, args, rfl, read, joins, rejected⟩

/-- A line is refused exactly when the text it became is turned down. -/
theorem refused_iff {env : Env} {line : Bytes} :
    Refused env line ↔ TurnedDown env (expanded env line) := by
  refine ⟨fun refused => ?_, refused_of_turnedDown⟩
  by_contra sound
  obtain ⟨calls, o, e, other⟩ := dispatch_escapes sound
  exact other (refused calls o e)

end Shell

end Smultron
