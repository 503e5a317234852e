import Smultron.Properties.Stdio
import Smultron.Userspace.Shell

/-!
# Properties a stage inherits from its parts

The procedures around the execution of a stage open its input file, store its output file, and
report what went wrong. A property that a sequence inherits from its parts holds of them as soon as
it holds of the two file calls and of the reports. One such property is what the calls of a
procedure are; it goes up to whole lines, whose only execs are those of `exec_from_bin_io`.
-/

namespace Smultron.Shell

open Checked Proc

/-- A property of procedures that pure steps, file calls and reports have, and that a sequence
inherits from its parts. -/
structure PartWise (K : ∀ {α : Type}, User α → Prop) : Prop where
  ofPure : ∀ {α : Type} (a : α), K (pure a : User α)
  ofLift : ∀ {α : Type} (x : Outcome Empty α), K (lift x : User α)
  ofBind : ∀ {α β : Type} {x : User α} {f : α → User β}, K x → (∀ a, K (f a)) → K (x >>= f)
  fileRead : ∀ path buf, K (request (.readFile path buf) : User Reply)
  fileWrite : ∀ path data, K (request (.writeFile path data) : User Reply)
  unknown : ∀ cmd, K (unknownCommand cmd)
  redirection : ∀ verb path, K (redirectionError verb path)
  tooLong : K pathTooLong

namespace PartWise

variable {K : ∀ {α : Type}, User α → Prop} (whole : PartWise K)

include whole

theorem readFile (path buf : Bytes) : K (Libos.readFile path buf) := by
  rw [Libos.readFile]
  split
  · exact whole.ofPure _
  · refine whole.ofBind (whole.ofLift _) fun _ => whole.ofBind (whole.fileRead _ _) fun r => ?_
    split <;> exact whole.ofPure _

theorem writeFile (path data : Bytes) : K (Libos.writeFile path data) := by
  rw [Libos.writeFile]
  split
  · exact whole.ofPure _
  · refine whole.ofBind (whole.ofLift _) fun _ => whole.ofBind (whole.fileWrite _ _) fun r => ?_
    split <;> exact whole.ofPure _

theorem openInput (env : Env) (file : Bytes) : K (openInput env file) := by
  apply whole.ofBind (whole.ofLift _)
  intro resolved
  split
  · exact whole.ofBind whole.tooLong fun _ => whole.ofPure _
  · apply whole.ofBind (whole.readFile _ _)
    rintro ⟨found, fileBuf⟩
    cases found with
    | some len => exact whole.ofBind (whole.ofLift _) fun _ => whole.ofPure _
    | none => exact whole.ofBind (whole.redirection _ _) fun _ => whole.ofPure _

theorem stageInput (env : Env) (first : Bool) (stage : StageParse) (pipe : Bytes) :
    K (stageInput env first stage pipe) := by
  rw [Shell.stageInput]
  split
  · exact whole.openInput _ _
  · exact whole.ofPure _

theorem storeOutput (env : Env) (file captureBuf : Bytes) (outLen : Nat) :
    K (storeOutput env file captureBuf outLen) := by
  apply whole.ofBind (whole.ofLift _)
  intro resolved
  split
  · exact whole.ofBind whole.tooLong fun _ => whole.ofPure _
  · apply whole.ofBind (whole.ofLift _)
    intro output
    apply whole.ofBind (whole.writeFile _ _)
    intro stored
    cases stored with
    | some len => exact whole.ofPure _
    | none => exact whole.ofBind (whole.redirection _ _) fun _ => whole.ofPure _

/-- What a stage does around its program keeps a property that the execution has. -/
theorem runStage {env : Env} (executes : ∀ cmd args stdin capture captureBuf,
      K (execFromBinIo env cmd args stdin capture captureBuf))
    (first last : Bool) (stage : StageParse) (state : PipeState) :
    K (runStage env first last stage state) := by
  apply whole.ofBind (whole.stageInput _ _ _ _)
  intro input
  cases input with
  | none => exact whole.ofPure _
  | some pipe =>
    apply whole.ofBind (executes _ _ _ _ _)
    rintro ⟨status, outLen, captureBuf⟩
    dsimp only
    split
    · exact whole.ofBind (whole.unknown _) fun _ => whole.ofPure _
    split
    · exact whole.ofPure _
    split
    · exact whole.ofBind (whole.ofLift _) fun _ => whole.ofPure _
    -- The last stage with a captured output
    cases stage.outFile with
    | none => exact whole.ofPure _
    | some file =>
      apply whole.ofBind (whole.storeOutput _ _ _ _)
      intro stored
      cases stored <;> exact whole.ofPure _

end PartWise

/-! ### The calls of a line -/

section Only

variable {P : Syscall → Prop} (quiet : ∀ c, c.isExec = false → P c)

include quiet

theorem writeStr_only (s : Bytes) : (writeStr s).Only P :=
  only_bind (only_bind (only_request (quiet _ rfl)) fun _ => only_pure _) fun _ => only_pure _

theorem unknownCommand_only (cmd : Bytes) : (unknownCommand cmd).Only P :=
  only_bind (writeStr_only quiet _) fun _ => only_bind (writeStr_only quiet _) fun _ =>
    writeStr_only quiet _

theorem redirectionError_only (verb path : Bytes) : (redirectionError verb path).Only P :=
  only_bind (writeStr_only quiet _) fun _ => only_bind (writeStr_only quiet _) fun _ =>
    writeStr_only quiet _

theorem only_partWise : PartWise fun x => x.Only P where
  ofPure := only_pure
  ofLift := only_lift
  ofBind := only_bind
  fileRead _ _ := only_request (quiet _ rfl)
  fileWrite _ _ := only_request (quiet _ rfl)
  unknown := unknownCommand_only quiet
  redirection := redirectionError_only quiet
  tooLong := writeStr_only quiet _

theorem setEnv_only (env : Env) (key val : Bytes) : (setEnv env key val).Only P := by
  rw [setEnv]
  split
  · exact only_pure _
  · exact only_bind (writeStr_only quiet _) fun _ => only_pure _

theorem setCwd_only (env : Env) (args : Bytes) : (setCwd env args).Only P := by
  apply only_bind (only_lift _)
  intro buf
  split
  · exact setEnv_only quiet _ _ _
  · exact only_pure _

variable {env : Env} (executes : ∀ cmd args stdin capture captureBuf,
  (execFromBinIo env cmd args stdin capture captureBuf).Only P)

include executes

theorem runStages_only (tokens : List Token) (parsed : Bytes) (first : Bool)
    (ranges : List (Nat × Nat)) (state : PipeState) :
    (runStages env tokens parsed first ranges state).Only P := by
  induction ranges generalizing first state with
  | nil => exact only_pure _
  | cons range ranges ih =>
    rw [runStages]
    split
    · exact only_lift _
    · exact writeStr_only quiet _
    · apply only_bind ((only_partWise quiet).runStage executes _ _ _ _)
      intro next
      cases next with
      | none => exact only_pure _
      | some state' => exact ih false state'

theorem dispatchCompoundTokens_only (tokens : List Token) (parsed : Bytes) :
    (dispatchCompoundTokens env tokens parsed).Only P := by
  rw [dispatchCompoundTokens]
  split
  · exact only_lift _
  · exact only_bind (writeStr_only quiet _) fun _ => only_pure _
  · exact only_bind (runStages_only quiet executes _ _ _ _ _) fun _ => only_pure _

theorem dispatchSimple_only (cmd args : Bytes) : (dispatchSimple env cmd args).Only P := by
  have message (s : Bytes) {α : Type} {next : User α} (h : next.Only P) :
      (writeStr s >>= fun _ => next).Only P := only_bind (writeStr_only quiet s) fun _ => h
  -- Builtins print at most, and the last branch executes a program
  rw [dispatchSimple]
  split
  · exact message _ (message _ (message _ (only_pure _)))
  split
  · exact message _ (only_pure _)
  split
  · exact only_pure _
  split
  · exact only_bind (setCwd_only quiet _ _) fun _ => only_pure _
  split
  · exact only_bind (only_lift _) fun _ => message _ (only_pure _)
  split
  · split
    · exact only_bind (setEnv_only quiet _ _ _) fun _ => only_pure _
    · exact message _ (only_pure _)
  · refine only_bind (only_bind (executes _ _ _ _ _) fun _ => only_pure _) fun status => ?_
    split
    · exact only_bind (unknownCommand_only quiet _) fun _ => only_pure _
    · exact only_pure _

/-- The calls of a line are those of its execs, and calls that start no program. -/
theorem dispatch_only (line : Bytes) : (dispatch env line).Only P := by
  rw [dispatch]
  split
  · exact only_pure _
  split
  · exact only_pure _
  cases tokenizeCommand (expanded env line) with
  | panic => exact only_lift _
  | err msg =>
    exact only_bind (writeStr_only quiet _) fun _ => only_bind (writeStr_only quiet _) fun _ =>
      only_bind (writeStr_only quiet _) fun _ => only_pure _
  | ok found =>
    obtain ⟨tokens, parsed⟩ := found
    cases tokens with
    | nil => exact only_pure _
    | cons cmdToken argTokens =>
      dsimp only
      split
      · exact only_bind (dispatchCompoundTokens_only quiet executes _ _) fun _ => only_pure _
      · apply only_bind (only_lift _)
        intro cmd
        apply only_bind (only_lift _)
        intro joined
        cases joined with
        | none => exact only_bind (writeStr_only quiet _) fun _ => only_pure _
        | some args => exact dispatchSimple_only quiet executes _ _

end Only

end Smultron.Shell
