import Smultron.Properties.Nesting
import Smultron.Properties.ShellCalls

/-!
# When the shell panics

The one panic of the shell is `resolve_path` with an empty current directory and a relative path.
A line reaches it when it is a compound command whose stages parse and run up to the one with that
redirection; no other line panics in any state of the environment, whatever the kernel replies. A
stage runs when it names a program that the kernel can start: six paths have a slot beside the shell's.
-/

namespace Smultron.Shell

open Checked Checked.Outcome Proc Process Utf8

/-- A redirection to a path that needs the current directory. -/
def Relative (file : Option Bytes) : Prop := ∃ path, file = some path ∧ isAbsolute path = false

/-- With replies that let every program run, the stages reach a redirection to a relative path. -/
def ReachesRelative (env : Env) (parsed : Bytes) : Bool → List (List Token) → Prop
  | _, [] => False
  | first, group :: groups =>
    ∃ stage, parseStage parsed first groups.isEmpty group = .ok stage ∧
      isBuiltin stage.cmd = false ∧
      ((first = true ∧ Relative stage.inFile) ∨
        ((first = true → Opens env stage.inFile) ∧ Launches stage.cmd ∧
          ((groups.isEmpty = true ∧ Relative stage.outFile) ∨
            ReachesRelative env parsed false groups)))

/-- The command resolves a relative path while the current directory is empty. -/
def StuckCommand (env : Env) (tokens : List Token) (parsed : Bytes) : Prop :=
  cwdOf env = [] ∧ ¬BadStages (stageGroups tokens) ∧
    ReachesRelative env parsed true (stageGroups tokens)

/-- The line is such a command. -/
def StuckLine (env : Env) (line : Bytes) : Prop :=
  ∃ tokens parsed, tokenizeCommand (expanded env line) = .ok (tokens, parsed) ∧
    tokens.any (·.kind ≠ .word) = true ∧ StuckCommand env tokens (parsedStorage parsed)

/-! ### No other line panics -/

theorem runStages_safe {env : Env} {tokens : List Token} {parsed : Bytes}
    (readable : Readable tokens parsed) {first : Bool} {ranges : List (Nat × Nat)}
    {groups : List (List Token)} {state : PipeState}
    (slices : ranges.map (tokensAt tokens) = groups.map .ok)
    (calm : cwdOf env = [] → ¬ReachesRelative env parsed first groups) (buffers : state.Fit) :
    (runStages env tokens parsed first ranges state).Safe Legal fun _ => True := by
  induction ranges generalizing first groups state with
  | nil => exact safe_pure.mpr trivial
  | cons range ranges ih =>
    obtain ⟨group, groups, rfl, at_, rest, alone⟩ := slices_cons slices
    have sound := checkStage_sound readable at_ first ranges.isEmpty
    rw [runStages]
    cases checked : checkStage tokens parsed first ranges.isEmpty range with
    | panic =>
      rw [checked] at sound
      exact absurd sound not_sound_panic
    | err msg => exact writeStr_safe msg trivial
    | ok stage =>
      have fit : stage.Fit := sound.of_ok checked
      obtain ⟨parses, program⟩ := (checkStage_ok_iff at_).mp checked
      rw [alone] at parses ⊢
      -- A relative path in this stage is one that is reached.
      have input : first = true → ∀ file, stage.inFile = some file → cwdOf env = [] →
          isAbsolute file = true := by
        intro isFirst file same empty
        by_contra relative
        exact calm empty ⟨stage, parses, program, .inl ⟨isFirst, file, same, by simpa using relative⟩⟩
      have output : groups.isEmpty = true → (first = true → Opens env stage.inFile) →
          Launches stage.cmd → ∀ file, stage.outFile = some file → cwdOf env = [] →
          isAbsolute file = true := by
        intro isLast opens launches file same empty
        by_contra relative
        exact calm empty ⟨stage, parses, program,
          .inr ⟨opens, launches, .inl ⟨isLast, file, same, by simpa using relative⟩⟩⟩
      refine safe_bind.mpr ((runStage_safe fit buffers input output).mono fun next reached => ?_)
      cases next with
      | none => exact safe_pure.mpr trivial
      | some state' =>
        obtain ⟨buffers', opens, launches⟩ := reached state' rfl
        exact ih rest (fun empty later => calm empty
          ⟨stage, parses, program, .inr ⟨opens, launches, .inr later⟩⟩) buffers'

theorem pipeState_start_fit : PipeState.start.Fit :=
  ⟨Nat.zero_le _, List.length_replicate⟩

theorem dispatchCompoundTokens_safe {env : Env} {tokens : List Token} {parsed : Bytes}
    (readable : Readable tokens parsed) (calm : ¬StuckCommand env tokens parsed) :
    (dispatchCompoundTokens env tokens parsed).Safe Legal fun _ => True := by
  rw [dispatchCompoundTokens]
  rcases splitStages_cases tokens with ⟨e, split, -⟩ | ⟨ranges, split, good, slices⟩
  · rw [split]
    exact writeStr_end e trivial
  · rw [split]
    exact safe_bind.mpr ((runStages_safe readable slices
      (fun empty reached => calm ⟨empty, good, reached⟩) pipeState_start_fit).mono
        fun _ _ => safe_pure.mpr trivial)

theorem setEnv_safe (env : Env) (key val : Bytes) : (setEnv env key val).Safe Legal fun _ => True := by
  rw [setEnv]
  split
  · exact safe_pure.mpr trivial
  · exact writeStr_end _ trivial

theorem setCwd_safe (env : Env) (args : Bytes) : (setCwd env args).Safe Legal fun _ => True := by
  refine safe_lift_bind ((newCwd_sound env).mono fun buf _ => ?_)
  split
  · exact setEnv_safe env cwdKey _
  · exact safe_pure.mpr trivial

theorem dispatchSimple_safe (env : Env) {cmd : Bytes} (short : cmd.length ≤ maxParsedLine)
    (args : Bytes) : (dispatchSimple env cmd args).Safe Legal fun _ => True := by
  -- The builtins in their order, and then a program
  rw [dispatchSimple]
  split
  · exact writeStr_then _ (writeStr_then _ (writeStr_end _ trivial))
  split
  · exact writeStr_end _ trivial
  split
  · exact safe_pure.mpr trivial
  split
  · exact safe_bind.mpr ((setCwd_safe env args).mono fun _ _ => safe_pure.mpr trivial)
  split
  · exact safe_lift_bind ((buildEnvStr_sound env).mono fun _ _ => writeStr_end _ trivial)
  split
  · split
    · exact safe_bind.mpr ((setEnv_safe env _ _).mono fun _ _ => safe_pure.mpr trivial)
    · exact writeStr_end _ trivial
  · refine safe_bind.mpr (safe_bind.mpr ((execFromBinIo_safe env short _ _ _ _).mono fun _ _ =>
      safe_pure.mpr ?_))
    split
    · exact safe_bind.mpr ((unknownCommand_safe _).mono fun _ _ => safe_pure.mpr trivial)
    · exact safe_pure.mpr trivial

theorem dispatch_safe {env : Env} {line : Bytes} (calm : ¬StuckLine env line) :
    (dispatch env line).Safe Legal fun _ => True := by
  rw [dispatch]
  split
  · exact safe_pure.mpr trivial
  split
  · exact safe_pure.mpr trivial
  have sound := tokenizeCommand_sound (expanded env line)
  cases tokenized : tokenizeCommand (expanded env line) with
  | panic =>
    rw [tokenized] at sound
    exact absurd sound not_sound_panic
  | err msg => exact writeStr_then _ (writeStr_then _ (writeStr_end _ trivial))
  | ok found =>
    obtain ⟨tokens, parsed⟩ := found
    have readable : Readable tokens (parsedStorage parsed) := sound.of_ok tokenized
    cases tokens with
    | nil => exact safe_pure.mpr trivial
    | cons cmdToken argTokens =>
      dsimp only
      split
      next compound =>
        -- A compound command; the other branch runs a builtin or one program
        exact safe_bind.mpr ((dispatchCompoundTokens_safe readable fun stuck =>
          calm ⟨_, _, tokenized, compound, stuck⟩).mono fun _ _ => safe_pure.mpr trivial)
      · refine safe_lift_bind ((tokenWord_sound readable List.mem_cons_self).mono fun cmd short => ?_)
        refine safe_lift_bind ((joinWordTokens_sound readable
          (fun token later => List.mem_cons_of_mem _ later) (Nat.zero_le _)).mono fun args _ => ?_)
        cases args with
        | none => exact writeStr_end _ trivial
        | some args => exact dispatchSimple_safe env short _

/-! ### Such a line panics

The rules of safety are equivalences, so they are read here in the other direction: where a
procedure is safe, so is what follows the replies that let everything run.
-/

/-- A command that can be launched can end with the status 0. -/
theorem execFromBinIo_reached {env : Env} {cmd args : Bytes} (launches : Launches cmd)
    (argsFits : args.length ≤ maxArgs) {stdin : Option Bytes} {capture : Bool} {captureBuf : Bytes}
    {P : Nat × Nat × Bytes → Prop}
    (safe : (execFromBinIo env cmd args stdin capture captureBuf).Safe Legal P) :
    ∃ buf, P (0, 0, buf) := by
  obtain ⟨path, resolved, pathFits, starts⟩ := launches
  obtain ⟨envBuf, built, fits⟩ := exec_fits env pathFits argsFits
  have buffers : Libos.execBuffers path args (fromUtf8OrEmpty envBuf) = _ :=
    execBuffers_ok (by omega) (by omega) (by omega)
  rw [execFromBinIo, built, lift_ok, Proc.pure_bind, resolved, lift_ok, Proc.pure_bind] at safe
  dsimp only at safe
  split at safe
  · -- The reply 0 is admissible, so the procedure is safe after it
    have inner := safe_bind.mp safe
    rw [Libos.execStrEnv, if_neg fits, buffers, lift_ok, Proc.pure_bind] at inner
    have ended := safe_bind_request (r := .value 0) inner ⟨trivial, fun _ _ => starts⟩
    have last := safe_pure.mp ended
    exact ⟨captureBuf, safe_pure.mp last⟩
  · have inner := safe_bind.mp safe
    rw [Libos.execIoStrEnv, if_neg fits, buffers, lift_ok, Proc.pure_bind] at inner
    -- So is a reply with the status 0 and no output
    have ended := safe_bind_request (r := ⟨0, [], some 0⟩) inner
      ⟨⟨.inr (Nat.zero_le _), Nat.zero_le _⟩, fun _ _ => starts⟩
    rw [if_neg (by decide)] at ended
    have last := safe_pure.mp ended
    exact ⟨_, safe_pure.mp last⟩

theorem stageInput_reached {env : Env} {first : Bool} {stage : StageParse} {pipe : Bytes}
    (opens : first = true → Opens env stage.inFile) {P : Option Bytes → Prop}
    (safe : (stageInput env first stage pipe).Safe Legal P) : ∃ data, P (some data) := by
  rw [stageInput] at safe
  cases first with
  | false => exact ⟨pipe, safe_pure.mp safe⟩
  | true =>
    cases file : stage.inFile with
    | none =>
      rw [file] at safe
      exact ⟨pipe, safe_pure.mp safe⟩
    | some path =>
      rw [file] at safe
      obtain ⟨text, resolved, short⟩ := opens rfl path file
      rw [if_pos rfl] at safe
      dsimp only at safe
      rw [openInput, resolved, lift_ok, Proc.pure_bind] at safe
      dsimp only at safe
      have inner := safe_bind.mp safe
      rw [Libos.readFile, if_neg (Nat.not_le.mpr short), cString_ok short, lift_ok,
        Proc.pure_bind] at inner
      -- An empty file is an admissible reply
      have ended := safe_bind_request (r := .value 0) inner
        ⟨⟨.inr (Nat.zero_le _), Nat.zero_le _⟩, by rintro ⟨⟩⟩
      rw [if_neg (by decide)] at ended
      have next := safe_pure.mp ended
      obtain ⟨part, -, last⟩ := safe_bind_lift next
      exact ⟨part, safe_pure.mp last⟩

/-- A stage that resolves a relative path while the current directory is empty. -/
theorem runStage_input_stuck {env : Env} {last : Bool} {stage : StageParse} {state : PipeState}
    (empty : cwdOf env = []) (relative : Relative stage.inFile)
    {P : Option PipeState → Prop} (safe : (runStage env true last stage state).Safe Legal P) :
    False := by
  obtain ⟨path, file, needsCwd⟩ := relative
  have inner := safe_bind.mp safe
  rw [stageInput, if_pos rfl, file] at inner
  dsimp only at inner
  rw [openInput, resolvePath_panics empty needsCwd] at inner
  obtain ⟨_, impossible, -⟩ := safe_bind_lift inner
  cases impossible

theorem runStage_reached {env : Env} {first last : Bool} {stage : StageParse} {state : PipeState}
    (opens : first = true → Opens env stage.inFile) (launches : Launches stage.cmd)
    (fit : stage.Fit) {P : Option PipeState → Prop}
    (safe : (runStage env first last stage state).Safe Legal P) :
    (last = false → ∃ state', P (some state')) ∧
      (last = true → cwdOf env = [] → ¬Relative stage.outFile) := by
  obtain ⟨pipe, safe⟩ := stageInput_reached opens (safe_bind.mp safe)
  have argsFit : (fromUtf8OrEmpty stage.args).length ≤ maxArgs :=
    Nat.le_trans (length_fromUtf8OrEmpty_le _) fit.args
  obtain ⟨buf, safe⟩ := execFromBinIo_reached launches argsFit (safe_bind.mp safe)
  dsimp only at safe
  rw [if_neg (by decide)] at safe
  constructor
  · rintro rfl
    rw [if_neg (by simp), if_pos (by simp)] at safe
    obtain ⟨part, -, safe⟩ := safe_bind_lift safe
    exact ⟨_, safe_pure.mp safe⟩
  · -- The last stage comes to its file, which cannot be resolved
    rintro rfl empty ⟨path, file, needsCwd⟩
    rw [if_neg (by simp [file]), if_neg (by simp), file] at safe
    dsimp only at safe
    have inner := safe_bind.mp safe
    rw [storeOutput, resolvePath_panics empty needsCwd] at inner
    obtain ⟨_, impossible, -⟩ := safe_bind_lift inner
    cases impossible

theorem runStages_stuck {env : Env} {tokens : List Token} {parsed : Bytes}
    (readable : Readable tokens parsed) {first : Bool} {ranges : List (Nat × Nat)}
    {groups : List (List Token)} {state : PipeState}
    (slices : ranges.map (tokensAt tokens) = groups.map .ok) (empty : cwdOf env = [])
    (reaches : ReachesRelative env parsed first groups) {P : Unit → Prop} :
    ¬(runStages env tokens parsed first ranges state).Safe Legal P := by
  induction ranges generalizing first groups state with
  | nil =>
    obtain rfl : groups = [] := by simpa using slices.symm
    exact absurd reaches id
  | cons range ranges ih =>
    intro safe
    obtain ⟨group, groups, rfl, at_, rest, alone⟩ := slices_cons slices
    obtain ⟨stage, parses, program, reaches⟩ := reaches
    rw [← alone] at parses reaches
    have checked := (checkStage_ok_iff at_).mpr ⟨parses, program⟩
    have fit : stage.Fit := (checkStage_sound readable at_ first ranges.isEmpty).of_ok checked
    rw [runStages, checked] at safe
    have inner := safe_bind.mp safe
    -- The relative path is the input of this stage, its output, or one of a later stage.
    rcases reaches with ⟨rfl, relative⟩ | ⟨opens, launches, ⟨isLast, relative⟩ | later⟩
    · exact runStage_input_stuck empty relative inner
    · exact (runStage_reached opens launches fit inner).2 isLast empty relative
    · cases more : ranges.isEmpty with
      | false =>
        obtain ⟨state', next⟩ := (runStage_reached opens launches fit inner).1 more
        exact ih rest later next
      | true =>
        obtain rfl : groups = [] := by simpa [alone] using more
        exact later

theorem dispatchCompoundTokens_stuck {env : Env} {tokens : List Token} {parsed : Bytes}
    (readable : Readable tokens parsed) (stuck : StuckCommand env tokens parsed) {P : Bool → Prop} :
    ¬(dispatchCompoundTokens env tokens parsed).Safe Legal P := by
  obtain ⟨empty, good, reaches⟩ := stuck
  rw [dispatchCompoundTokens]
  rcases splitStages_cases tokens with ⟨e, -, bad⟩ | ⟨ranges, split, -, slices⟩
  · exact absurd bad good
  · rw [split]
    exact fun safe => runStages_stuck readable slices empty reaches (safe_bind.mp safe)

theorem tokenizeCommand_nil : tokenizeCommand [] = .ok ([], []) := by decide

/-- Exactly the lines that are stuck can panic. -/
theorem dispatch_safe_iff (env : Env) (line : Bytes) :
    (dispatch env line).Safe Legal (fun _ => True) ↔ ¬StuckLine env line := by
  refine ⟨?_, dispatch_safe⟩
  rintro safe ⟨tokens, parsed, tokenized, compound, stuck⟩
  have readable : Readable tokens (parsedStorage parsed) :=
    (tokenizeCommand_sound _).of_ok tokenized
  -- A line with an operator passes the two tests for blank lines.
  have some : expanded env line ≠ [] := by
    intro none
    rw [none, tokenizeCommand_nil] at tokenized
    obtain ⟨rfl, -⟩ := Prod.mk.inj (Outcome.ok.inj tokenized)
    cases compound
  have text : trim (fromUtf8OrEmpty line) ≠ [] := by
    intro blank
    refine some ?_
    rw [expanded, blank]
    show trim (fromUtf8OrEmpty []) = []
    decide
  rw [dispatch, if_neg text, if_neg some, tokenized] at safe
  cases tokens with
  | nil => cases compound
  | cons cmdToken argTokens =>
    dsimp only at safe
    rw [if_pos compound] at safe
    exact dispatchCompoundTokens_stuck readable stuck (safe_bind.mp safe)

/-! ### Sessions -/

/-- With the kernel's replies the shell gets through these lines from `env` to `env'`. -/
inductive Through : Env → List Bytes → Env → Prop where
  | none (env : Env) : Through env [] env
  | line {env env' env'' : Env} {line : Bytes} {lines : List Bytes} {calls : List (Syscall × Reply)}
      (dispatched : (dispatch env line).Exec Legal calls (.ok (true, env')))
      (later : Through env' lines env'') : Through env (line :: lines) env''

/-- The shell has dispatched these lines since it was started, and goes on with `env`. -/
def Reached (lines : List Bytes) (env : Env) : Prop :=
  ∃ start calls, (setEnv Env.empty cwdKey (str "/")).Exec Legal calls (.ok start) ∧
    Through start lines env

theorem dispatchLines_safe_iff (env : Env) (lines : List Bytes) :
    (dispatchLines env lines).Safe Legal (fun _ => True) ↔
      ∀ pre line post env', lines = pre ++ line :: post → Through env pre env' →
        ¬StuckLine env' line := by
  induction lines generalizing env with
  | nil =>
    apply iff_of_true (safe_pure.mpr trivial)
    intro pre line post env' split
    simp at split
  | cons line lines ih =>
    rw [dispatchLines, safe_bind]
    constructor
    · rintro safe pre line' post env' split through
      cases through with
      | none =>
        obtain ⟨rfl, -⟩ := List.cons.inj split
        exact (dispatch_safe_iff _ _).mp (safe.mono fun _ _ => trivial)
      | line dispatched later =>
        obtain ⟨rfl, rfl⟩ := List.cons.inj split
        -- The rest of the lines is safe from what this one leaves
        have next := safe.result dispatched
        exact (ih _).mp next _ line' post env' rfl later
    · intro calm
      have first : (dispatch env line).Safe Legal fun _ => True :=
        dispatch_safe (calm [] line lines env rfl (.none env))
      -- What follows a line starts from the environment that line really leaves.
      apply safe_iff_exec.mpr
      intro calls o e
      obtain ⟨⟨more, env'⟩, rfl, -⟩ := safe_iff_exec.mp first calls o e
      refine ⟨_, rfl, ?_⟩
      cases more with
      | false => exact safe_pure.mpr trivial
      | true =>
        exact (ih env').mpr fun pre line' post env'' split through =>
          calm (line :: pre) line' post env'' (by rw [split]; rfl) (.line e through)

/-- A session has no panic exactly when no line it comes to is stuck in the state it finds. -/
theorem session_panic_free_iff (lines : List Bytes) :
    (∀ calls, ¬(session lines).Exec Legal calls .panic) ↔
      ∀ pre line post env, lines = pre ++ line :: post → Reached pre env → ¬StuckLine env line := by
  rw [← safe_iff_no_panic, session, safe_bind]
  constructor
  · rintro safe pre line post env split ⟨start, calls, begun, through⟩
    exact (dispatchLines_safe_iff start lines).mp (safe.result begun) pre line post env split through
  · intro calm
    apply safe_iff_exec.mpr
    intro calls o e
    obtain ⟨start, rfl, -⟩ := safe_iff_exec.mp (setEnv_safe _ _ _) calls o e
    exact ⟨start, rfl, (dispatchLines_safe_iff start lines).mpr
      fun pre line post env split through => calm pre line post env split ⟨start, calls, e, through⟩⟩

/-- The shell is one of the processes of this table, in the first slot. -/
structure HoldsShell (pm : ProcessManager) : Prop where
  slotted : Slotted pm
  own : ∃ pid, pm.Past pid ∧ (pid, 0) ∈ pm.running

theorem HoldsShell.busy {pm : ProcessManager} (h : HoldsShell pm) :
    pm.slotsInUse[0]? = some true := by
  obtain ⟨pid, -, own⟩ := h.own
  exact (h.slotted.inUse 0).mpr (List.mem_map_of_mem own)

/-- The programs it starts come and go, and the shell stays. -/
theorem HoldsShell.balanced {pm pm' : ProcessManager} (h : HoldsShell pm)
    (balanced : Balanced pm pm') : HoldsShell pm' := by
  obtain ⟨pid, past, own⟩ := h.own
  obtain ⟨past', same⟩ := balanced.past pid past
  exact ⟨balanced.slotted, pid, past', (same 0).mpr own⟩

/-- A run of the shell on the kernel is one of these executions. -/
theorem exec_on_kernel {α : Type} {x : User α} {sys : System} {depth : Nat} {k : Kernel}
    {ran : Program.Ran Syscall Reply Kernel (Outcome Empty α)} (shell : HoldsShell k.pm)
    (h : x.run (Smultron.dispatch sys (runImage sys depth)) k = some ran) :
    x.Exec Legal ran.calls ran.result := by
  have answer (c : Syscall) (k : Kernel) (r : Reply) (k' : Kernel)
      (answered : Smultron.dispatch sys (runImage sys depth) c k = some (r, k'))
      (shell : HoldsShell k.pm) : Legal c r ∧ HoldsShell k'.pm :=
    ⟨dispatch_legal shell.busy answered,
      shell.balanced (dispatch_balanced (runImage_balances sys depth) shell.slotted answered)⟩
  exact (Program.exec_of_run (I := fun k => HoldsShell k.pm) answer shell h).1

/-- The table while the shell runs alone. -/
def shellTable : ProcessManager := ProcessManager.new.after [.spawn 0]

theorem holdsShell_shellTable : HoldsShell shellTable where
  slotted := (tidy_reached [.spawn 0] (by decide +kernel)).1.slotted
  own := ⟨1, ⟨by decide +kernel, by decide⟩, by decide +kernel⟩

/-- `CWD` is set to the empty text, and then a relative path is redirected from. -/
theorem empty_cwd_panics :
    (∀ line ∈ [str "export CWD=", str "cat < f"], line.length ≤ 256 ∧
      ∀ b ∈ line, b ≠ 13 ∧ b ≠ 10 ∧ b ≠ 8 ∧ b ≠ 127) ∧
    ∃ calls, (session [str "export CWD=", str "cat < f"]).Exec Legal calls .panic := by
  -- The lines are run on a kernel whose programs make no call
  have ended : ((session [str "export CWD=", str "cat < f"]).run
      (Smultron.dispatch (uniform []) (runImage (uniform []) 1)) { typing with pm := shellTable }).map
        (fun ran => ran.result matches .panic) = some true := by decide +kernel
  obtain ⟨ran, hran, panics⟩ := Option.map_eq_some_iff.mp ended
  refine ⟨by decide +kernel, ran.calls, ?_⟩
  have exec := exec_on_kernel holdsShell_shellTable hran
  revert exec panics
  cases ran.result with
  | ok env => exact fun impossible => by cases impossible
  | err e => exact fun impossible => by cases impossible
  | panic => exact fun _ exec => exec

end Smultron.Shell
