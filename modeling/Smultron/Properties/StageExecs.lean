import Smultron.Properties.ShellCalls
import Smultron.Properties.StageParts
import Smultron.Properties.Stages

/-!
# The execs of a pipeline

A pipeline goes on as long as its execs succeed. When every stage is a command that can be asked for,
and no exec comes back with the status of a failure, there are as many execs as there are stages; or
there is none, because the first stage has not got its input.
-/

namespace Smultron

open Checked

/-- The reply is not the failure of an exec. -/
def Succeeds (c : Syscall) (r : Reply) : Prop := c.isExec = true → c.statusOf r ≠ u64Max

namespace Shell

open Checked.Outcome Proc Utf8

/-- How many of the calls start a program. -/
def execs (calls : List (Syscall × Reply)) : Nat := calls.countP (·.1.isExec)

/-- The library can hand the path of the command to the kernel. -/
def Callable (cmd : Bytes) : Prop :=
  ∃ path, (resolveBinPath cmd : Outcome Empty _) = .ok (some path) ∧ path.length ≤ Libos.maxPath

/-- Every stage is such a command. -/
def Runnable (parsed : Bytes) : Bool → List (List Token) → Prop
  | _, [] => True
  | first, group :: groups =>
    (∃ stage, parseStage parsed first groups.isEmpty group = .ok stage ∧
      isBuiltin stage.cmd = false ∧ Callable stage.cmd) ∧ Runnable parsed false groups

variable {done : List (Syscall × Reply)} {α : Type}

theorem execs_append (calls calls' : List (Syscall × Reply)) :
    execs (calls ++ calls') = execs calls + execs calls' := List.countP_append

theorem traces_execs {legal : Syscall → Reply → Prop} {x : User α} (h : x.Only (·.isExec = false)) :
    Traces legal done (fun d _ => execs d = execs done) x := by
  intro calls o e
  have none_ : execs calls = 0 := by
    rw [execs, List.countP_eq_zero]
    exact fun cr among => by simp [h.calls e cr among]
  rw [execs_append, none_, Nat.add_zero]

/-! ### The arguments of a stage -/

theorem joinPart_fits {ε : Type} (out part : Bytes) :
    OkIn (fun found => ∀ args, found = some args → args.length ≤ maxArgs)
      (joinPart out part : Outcome ε _) := by
  rw [joinPart]
  refine okIn_ite (fun _ => okIn_pure (by simp)) fun _ => okIn_bind (okIn_of _ fun out' => ?_)
  refine okIn_bind (okIn_of _ fun stop => okIn_ite (fun _ => okIn_pure (by simp)) fun _ => ?_)
  refine okIn_bind (okIn_ite (fun room => okIn_ok (okIn_pure ?_)) fun _ => okIn_panic)
  rintro _ ⟨⟩
  rwa [List.length_append]

theorem joinWords_fits {words : List Bytes} {out : Bytes} (room : out.length ≤ maxArgs) :
    OkIn (fun args => args.length ≤ maxArgs) (joinWords words out) := by
  induction words generalizing out with
  | nil => exact okIn_pure room
  | cons word words ih =>
    refine okIn_bind ((joinPart_fits out word).mono fun found fits => ?_)
    cases found with
    | none => exact OkIn.intro (by rintro _ ⟨⟩)
    | some out => exact ih (fits out rfl)

theorem parseStage_args {parsed : Bytes} {allowIn allowOut : Bool} {group : List Token}
    {stage : StageParse} (parses : parseStage parsed allowIn allowOut group = .ok stage) :
    stage.args.length ≤ maxArgs := by
  obtain ⟨found, -, parses⟩ := bind_eq_ok.mp parses
  cases words : found.words with
  | nil => simp [words] at parses
  | cons cmd rest =>
    simp only [words] at parses
    obtain ⟨args, joined, same⟩ := bind_eq_ok.mp parses
    obtain rfl := ok.inj same
    exact (joinWords_fits (Nat.zero_le _)).of_ok joined

/-! ### A stage -/

theorem execStrEnv_execs {path args env : Bytes} (fits : ¬(Libos.maxPath < path.length ∨
      Libos.maxArgs < args.length ∨ Libos.maxEnv < env.length)) :
    Traces Succeeds done (fun d o => execs d = execs done + 1 ∧ ∀ status, o = .ok status → status ≠ u64Max)
      (Libos.execStrEnv path args env) := by
  rw [Libos.execStrEnv, if_neg fits, execBuffers_ok (by omega) (by omega) (by omega), lift_ok,
    Proc.pure_bind]
  refine Traces.request_bind fun r succeeds => Traces.pure ⟨execs_append .., ?_⟩
  rintro _ ⟨⟩
  exact succeeds rfl

theorem execIoStrEnv_execs {path args env : Bytes} (fits : ¬(Libos.maxPath < path.length ∨
      Libos.maxArgs < args.length ∨ Libos.maxEnv < env.length)) (stdin stdout : Option Bytes) :
    Traces Succeeds done
      (fun d o => execs d = execs done + 1 ∧ ∀ result, o = .ok result → result.1 ≠ u64Max)
      (Libos.execIoStrEnv path args env stdin stdout) := by
  rw [Libos.execIoStrEnv, if_neg fits, execBuffers_ok (by omega) (by omega) (by omega), lift_ok,
    Proc.pure_bind]
  refine Traces.request_bind fun r succeeds => ?_
  have status := succeeds rfl
  rw [Syscall.statusOf] at status
  split at status
  · exact absurd rfl status
  next answered =>
    rw [if_neg answered]
    refine Traces.pure ⟨execs_append .., ?_⟩
    rintro _ ⟨⟩
    exact status

theorem execFromBinIo_execs (env : Env) {cmd args : Bytes} (callable : Callable cmd)
    (argsFit : args.length ≤ maxArgs) (stdin : Option Bytes) (capture : Bool) (captureBuf : Bytes) :
    Traces Succeeds done
      (fun d o => execs d = execs done + 1 ∧ ∀ result, o = .ok result → result.1 ≠ u64Max)
      (execFromBinIo env cmd args stdin capture captureBuf) := by
  obtain ⟨path, resolved, pathFits⟩ := callable
  obtain ⟨envBuf, built, fits⟩ := exec_fits env pathFits argsFit
  rw [execFromBinIo, built, lift_ok, Proc.pure_bind, resolved, lift_ok, Proc.pure_bind]
  dsimp only
  split
  · refine Traces.bind ((execStrEnv_execs fits).mono fun d o _ ran => ⟨fun _ => ⟨ran.1, by simp⟩, ?_⟩)
    refine fun status same => Traces.pure ⟨ran.1, ?_⟩
    rintro _ ⟨⟩
    exact ran.2 status same
  · refine Traces.bind ((execIoStrEnv_execs fits _ _).mono fun d o _ ran => ⟨fun _ => ⟨ran.1, by simp⟩, ?_⟩)
    refine fun result same => Traces.pure ⟨ran.1, ?_⟩
    rintro _ ⟨⟩
    exact ran.2 result same

/-- What a stage comes to: an exec, behind which only the last stage stops, or nothing where a first
stage has no input. -/
def StageExec (first last : Bool) (done calls : List (Syscall × Reply))
    (o : Outcome Empty (Option PipeState)) : Prop :=
  (execs calls = execs done + 1 ∧ (last = false → o ≠ .ok none)) ∨
    (first = true ∧ execs calls = execs done ∧ ∀ state, o ≠ .ok (some state))

theorem runStage_execs (env : Env) (first last : Bool) {stage : StageParse}
    (callable : Callable stage.cmd) (argsFit : stage.args.length ≤ maxArgs) (state : PipeState) :
    Traces Succeeds done (StageExec first last done) (runStage env first last stage state) := by
  have quiet : PartWise fun x => x.Only (·.isExec = false) := only_partWise fun _ => id
  have fits : (fromUtf8OrEmpty stage.args).length ≤ maxArgs :=
    Nat.le_trans (length_fromUtf8OrEmpty_le _) argsFit
  refine Traces.bind fun calls o e => ?_
  have none_ : execs (done ++ calls) = execs done :=
    traces_execs (quiet.stageInput env first stage state.pipe) calls o e
  have later : o ≠ .ok (some state.pipe) → first = true := by
    intro other
    cases first with
    | true => rfl
    | false => exact absurd (exec_pure.mp e).2 other
  refine ⟨fun panics => .inr ⟨later (by simp [panics]), none_, by simp⟩, fun input same => ?_⟩
  cases input with
  | none => exact Traces.pure (.inr ⟨later (by simp [same]), none_, by simp⟩)
  | some pipe =>
    refine Traces.bind ((execFromBinIo_execs env callable fits _ _ _).mono fun d o _ ran => ?_)
    obtain ⟨one, fine⟩ := ran
    rw [none_] at one
    refine ⟨fun _ => .inl ⟨one, by simp⟩, fun result same => ?_⟩
    have started := fine result same
    obtain ⟨status, outLen, buf⟩ := result
    dsimp only at started ⊢
    rw [if_neg started]
    split
    · exact Traces.pure (.inl ⟨one, by simp⟩)
    split
    · exact Traces.bind (Traces.lift ⟨fun _ => .inl ⟨one, by simp⟩, fun part _ =>
        Traces.pure (.inl ⟨one, by simp⟩)⟩)
    next isLast =>
      have ends : last ≠ false := by simpa using isLast
      cases stage.outFile with
      | none => exact Traces.pure (.inl ⟨one, by simp⟩)
      | some file =>
        refine Traces.bind ((traces_execs (quiet.storeOutput ..)).mono fun d' o _ more => ?_)
        refine ⟨fun _ => .inl ⟨more.trans one, by simp⟩, fun stored _ => ?_⟩
        cases stored with
        | false => exact Traces.pure (.inl ⟨more.trans one, fun notLast => absurd notLast ends⟩)
        | true => exact Traces.pure (.inl ⟨more.trans one, by simp⟩)

/-! ### The pipeline -/

theorem runStages_execs {env : Env} {tokens : List Token} {parsed : Bytes} {first : Bool}
    {ranges : List (Nat × Nat)} {groups : List (List Token)}
    (slices : ranges.map (tokensAt tokens) = groups.map .ok) (runnable : Runnable parsed first groups)
    (state : PipeState) :
    Traces Succeeds done
      (fun d o => o ≠ .panic → execs d = execs done + groups.length ∨
        (first = true ∧ execs d = execs done))
      (runStages env tokens parsed first ranges state) := by
  induction ranges generalizing first groups state done with
  | nil =>
    obtain rfl := List.map_eq_nil_iff.mp slices.symm
    exact Traces.pure fun _ => .inl rfl
  | cons range ranges ih =>
    obtain ⟨group, groups, rfl, at_, rest, alone⟩ := slices_cons slices
    obtain ⟨⟨stage, parses, program, callable⟩, runnable⟩ := runnable
    have argsFit := parseStage_args parses
    rw [← alone] at parses
    rw [runStages, (checkStage_ok_iff at_).mpr ⟨parses, program⟩]
    refine Traces.bind ((runStage_execs env first _ callable argsFit state).mono fun d o _ ran => ?_)
    refine ⟨fun _ panics => absurd rfl panics, fun state' same => ?_⟩
    subst same
    cases state' with
    | none =>
      refine Traces.pure fun _ => ?_
      rcases ran with ⟨one, goesOn⟩ | ⟨isFirst, none_, -⟩
      · -- Only behind the last stage
        have last : groups = [] := by
          rw [← List.isEmpty_iff, ← alone]
          by_contra more
          exact goesOn (by simpa using more) rfl
        exact .inl (by rw [one, last, List.length_singleton])
      · exact .inr ⟨isFirst, none_⟩
    | some state' =>
      rcases ran with ⟨one, -⟩ | ⟨-, -, stops⟩
      · refine (ih rest runnable state').mono fun d' o _ later fine => .inl ?_
        rcases later fine with more | ⟨impossible, -⟩
        · rw [more, one, List.length_cons, Nat.add_assoc, Nat.add_comm 1]
        · cases impossible
      · exact absurd rfl (stops state')

/-- A pipeline of such stages makes an exec for each of them, or none, or it panics. -/
theorem dispatchCompoundTokens_execs {env : Env} {tokens : List Token} {parsed : Bytes}
    (runnable : Runnable parsed true (stageGroups tokens)) :
    Traces Succeeds done
      (fun d o => o ≠ .panic → execs d = execs done + (stageGroups tokens).length ∨
        execs d = execs done)
      (dispatchCompoundTokens env tokens parsed) := by
  rw [dispatchCompoundTokens]
  rcases splitStages_cases tokens with ⟨e, split, -⟩ | ⟨ranges, split, -, slices⟩
  · rw [split]
    refine Traces.bind ((traces_execs (writeStr_only (fun _ => id) e)).mono fun d o _ none_ => ?_)
    exact ⟨fun _ panics => absurd rfl panics, fun _ _ => Traces.pure fun _ => .inr none_⟩
  · rw [split]
    refine Traces.bind ((runStages_execs slices runnable _).mono fun d o _ ran => ?_)
    refine ⟨fun _ panics => absurd rfl panics, fun _ same => Traces.pure fun _ => ?_⟩
    exact (ran (by simp [same])).imp_right And.right

end Shell

end Smultron
