import Smultron.Lib.Eval
import Smultron.Machine.Commands
import Smultron.Properties.ProgramMeanings

/-!
# The shell does what its lines mean

On the machine, the dispatch of a line is a function of the variables and the world, and that function
is the meaning of the line. What the shell does with its buffers in between, how it cuts a line into
tokens and when it parses which stage, is gone.

## Main result

- `dispatch_means`: the dispatch of a line evaluates to its meaning.
- `line_on_kernel`: on the kernel, with the programs of the boot image, a line does what it means.
-/

namespace Smultron

open Checked Checked.Outcome Machine Proc Process Utf8 Vfs

variable {boot : Boot} {w w' : World} {α β : Type}

/-! ### Strings -/

theorem takeWhile_concat_nul (s : Bytes) :
    (s ++ [0]).takeWhile (· != 0) = s.takeWhile (· != 0) := by
  rw [List.takeWhile_append]
  split
  next whole => simpa using ((List.takeWhile_prefix _).eq_of_length whole).symm
  · rfl

/-- What the kernel makes of a string with its NUL behind it. -/
theorem cstr_cstrToStr {max : Nat} {s : Bytes} (short : s.length ≤ max) :
    cstr (max + 1) (some (s ++ [0])) = some (cstrToStr s) := by
  have cut : (s ++ [0]).take (max + 1) = s ++ [0] := List.take_of_length_le (by simpa using short)
  have few := (List.takeWhile_prefix (· != (0 : UInt8)) (l := s)).length_le
  rw [cstr, copyCstr, cut, takeWhile_concat_nul, if_pos (by simp; omega), Option.map_some, cstrToStr]

theorem execArgs_cut {path args env : Bytes} (pathFits : path.length ≤ Libos.maxPath)
    (argsFits : args.length ≤ Libos.maxArgs) (envFits : env.length ≤ Libos.maxEnv) :
    execArgs (some (path ++ [0])) (some (args ++ [0])) (some (env ++ [0])) =
      some (cstrToStr path, cstrToStr args, cstrToStr env) := by
  have first : cstr 64 (some (path ++ [0])) = some (cstrToStr path) := cstr_cstrToStr pathFits
  have second : cstr 192 (some (args ++ [0])) = some (cstrToStr args) := cstr_cstrToStr argsFits
  have third : cstr 512 (some (env ++ [0])) = some (cstrToStr env) := cstr_cstrToStr envFits
  simp [execArgs, cstrOrEmpty, first, second, third]

theorem overwrite_nil (buf : Bytes) : Libos.overwrite buf [] = buf := by simp [Libos.overwrite]

/-! ### Messages -/

theorem World.show_append (w : World) (s s' : Bytes) : w.show (s ++ s') = (w.show s).show s' := by
  simp [World.show, List.foldl_append]

theorem answer_write (s : Bytes) :
    boot.answer 0 (.write 1 (some s)) w = some (.value s.length, w.show s) := by
  have console := IoState.captureStdout_console
    (congrArg Stdio.stdout (show w.kernel.io.stdio = ⟨none, none⟩ from rfl)) s
  simp only [Boot.answer, dispatch, sysWrite, console]
  cases s with
  | nil => rfl
  | cons b s => simp [World.show, ofKernel, World.kernel]

theorem eval_write (s : Bytes) : (Libos.write 1 s).eval (boot.answer 0) w =
    some (s.length, w.show s) := eval_request_bind (answer_write s) _

@[simp] theorem eval_writeStr (s : Bytes) :
    (Shell.writeStr s).eval (boot.answer 0) w = some ((), w.show s) :=
  eval_bind_of (eval_write s) _

/-! ### Files -/

theorem answer_readFile {path : Bytes} (short : path.length < 128) :
    boot.answer 0 (.readFile (some (path ++ [0])) (some Shell.maxIoBuf)) w =
      some (fileReply (fileAt boot.images w.ram path), w) := by
  have text : cstr 128 (some (path ++ [0])) = some (cstrToStr path) := cstr_cstrToStr (by omega)
  have size : ¬Shell.maxIoBuf = 0 := by decide
  have images : boot.idle.images = boot.images := rfl
  have ram : w.kernel.ram = w.ram := rfl
  simp only [Boot.answer, dispatch, Option.isNone_some, Option.getD_some, size, Bool.false_eq_true,
    or_self, if_false, text, fileAt, if_pos short, images, ram]
  rw [show Shell.maxIoBuf = 4096 from rfl]
  cases readFileBytes boot.images w.ram (cstrToStr path) 4096 <;> rfl

theorem length_fileAt {images : Images} {ram : RamFiles} {path data : Bytes}
    (h : fileAt images ram path = some data) : data.length ≤ Shell.maxIoBuf := by
  rw [fileAt] at h
  split at h
  · exact length_readFileBytes h
  · cases h

theorem eval_readFile (path : Bytes) {buf : Bytes} (size : buf.length = Shell.maxIoBuf) :
    (Libos.readFile path buf).eval (boot.answer 0) w =
      some (((fileAt boot.images w.ram path).map List.length,
        Libos.overwrite buf ((fileAt boot.images w.ram path).getD [])), w) := by
  have small : Shell.maxIoBuf < u64Max := by decide
  rw [Libos.readFile]
  split
  next long =>
    have none_ : fileAt boot.images w.ram path = none := if_neg (by omega)
    simp [none_, overwrite_nil]
  next short =>
    rw [eval_lift_bind (Shell.cString_ok (by omega)), size,
      eval_request_bind (answer_readFile (by omega))]
    cases found : fileAt boot.images w.ram path with
    | none =>
      rw [if_pos (show (fileReply none).ret = u64Max from rfl)]
      rfl
    | some data =>
      have few := length_fileAt found
      have whole : min data.length Shell.maxIoBuf = data.length := by omega
      rw [if_neg (show (fileReply (some data)).ret ≠ u64Max by simp [fileReply]; omega)]
      simp [fileReply, whole]

theorem answer_writeFile {path data : Bytes} (short : path.length < 128) :
    boot.answer 0 (.writeFile (some (path ++ [0])) (some data)) w =
      some (if (store w.ram path data).1 then .value data.length else .failed,
        { w with ram := (store w.ram path data).2 }) := by
  have text : cstr 128 (some (path ++ [0])) = some (cstrToStr path) := cstr_cstrToStr (by omega)
  have ram : w.kernel.ram = w.ram := rfl
  simp only [Boot.answer, dispatch, text, store, if_pos short, ram]
  rcases Vfs.writeFile w.ram (cstrToStr path) data with ⟨_ | _, ram⟩ <;> rfl

theorem eval_writeFile (path : Bytes) {data : Bytes} (few : data.length ≤ Shell.maxIoBuf) :
    (Libos.writeFile path data).eval (boot.answer 0) w =
      some (if (store w.ram path data).1 then some data.length else none,
        { w with ram := (store w.ram path data).2 }) := by
  have small : Shell.maxIoBuf < u64Max := by decide
  rw [Libos.writeFile]
  split
  next long =>
    have refused : store w.ram path data = (false, w.ram) := if_neg (by omega)
    simp [refused]
  next short =>
    rw [eval_lift_bind (Shell.cString_ok (by omega)), eval_request_bind (answer_writeFile (by omega))]
    split
    next stored =>
      rw [if_neg (show (Reply.value data.length).ret ≠ u64Max by simp [Reply.value]; omega)]
      rfl
    · rw [if_pos (show Reply.failed.ret = u64Max from rfl)]
      rfl

/-! ### Programs -/

section Exec

variable {env : Shell.Env} {path args envText cmd out : Bytes} {stdin : Option Bytes}
  {cap : Option Nat} {status : Nat}

/-- An exec starts its program, and the program writes `text` and leaves `ram`. -/
structure Launched (boot : Boot) (own : Nat) (path args envText : Bytes) (stdin : Option Bytes)
    (w : World) (text : Bytes) (ram : RamFiles) : Prop where
  file : (readFile boot.images path).isSome = true
  slot : ∃ slotIdx, slotForPath path = some slotIdx ∧ slotIdx ≠ own
  meaning : boot.meaning path args envText w.ram stdin = some (text, ram)

section Launched

variable {own : Nat} {text : Bytes} {ram : RamFiles}

theorem Launched.shown (h : Launched boot own path args envText stdin w text ram) :
    boot.launch own path args envText stdin none w = some (0, [], World.show ⟨ram, w.console⟩ text) := by
  obtain ⟨image, file⟩ := Option.isSome_iff_exists.mp h.file
  obtain ⟨slotIdx, slot, other⟩ := h.slot
  simp [Boot.launch, file, slot, other, h.meaning]

theorem Launched.captured (h : Launched boot own path args envText stdin w text ram) (size : Nat)
    (few : text.length ≤ maxIoStdout) :
    boot.launch own path args envText stdin (some size) w =
      some (0, text.take size, ⟨ram, w.console⟩) := by
  obtain ⟨image, file⟩ := Option.isSome_iff_exists.mp h.file
  obtain ⟨slotIdx, slot, other⟩ := h.slot
  simp [Boot.launch, file, slot, other, h.meaning, few]

/-- An exec leaves a message of the kernel alone, or it starts its program, whose output is shown or
captured. -/
theorem launch_cases (h : boot.launch own path args envText stdin cap w = some (status, out, w')) :
    (status = u64Max ∧ out = [] ∧ ∃ msg, w' = w.log msg) ∨
      ∃ text ram, Launched boot own path args envText stdin w text ram ∧ status = 0 ∧
        (cap = none ∧ out = [] ∧ w' = World.show ⟨ram, w.console⟩ text ∨
          ∃ size, cap = some size ∧ text.length ≤ maxIoStdout ∧ out = text.take size ∧
            w' = ⟨ram, w.console⟩) := by
  cases file : readFile boot.images path with
  | none =>
    obtain ⟨rfl, rfl, rfl⟩ := by simpa [Boot.launch, file] using h
    exact .inl ⟨rfl, rfl, _, rfl⟩
  | some image =>
    cases slot : slotForPath path with
    | none =>
      obtain ⟨rfl, rfl, rfl⟩ := by simpa [Boot.launch, file, slot] using h
      exact .inl ⟨rfl, rfl, _, rfl⟩
    | some slotIdx =>
      simp only [Boot.launch, file, slot] at h
      split at h
      · cases h
        exact .inl ⟨rfl, rfl, _, rfl⟩
      next other =>
        cases meaning : boot.meaning path args envText w.ram stdin with
        | none => simp [meaning] at h
        | some result =>
          obtain ⟨text, ram⟩ := result
          have launched : Launched boot own path args envText stdin w text ram :=
            ⟨by simp [file], ⟨slotIdx, slot, other⟩, meaning⟩
          rw [meaning] at h
          cases cap with
          | none =>
            cases h
            exact .inr ⟨text, ram, launched, rfl, .inl ⟨rfl, rfl, rfl⟩⟩
          | some size =>
            dsimp only at h
            split at h
            next fits =>
              cases h
              exact .inr ⟨text, ram, launched, rfl, .inr ⟨size, rfl, fits, rfl, rfl⟩⟩
            · cases h

/-- No more is captured than the buffer takes. -/
theorem length_launch (h : boot.launch own path args envText stdin cap w = some (status, out, w')) :
    out.length ≤ cap.getD 0 := by
  rcases launch_cases h with ⟨-, rfl, -⟩ | ⟨text, ram, -, -, ⟨-, rfl, -⟩ | ⟨size, rfl, -, rfl, -⟩⟩
  · exact Nat.zero_le _
  · exact Nat.zero_le _
  · simp [List.length_take]

end Launched

theorem length_exec (h : boot.exec path args envText stdin cap w = some (status, out, w')) :
    out.length ≤ cap.getD 0 := by
  rw [Boot.exec] at h
  split at h
  · obtain ⟨-, rfl, -⟩ := by simpa using h
    exact Nat.zero_le _
  · exact length_launch h

theorem eval_execStrEnv (path args envText : Bytes) :
    (Libos.execStrEnv path args envText).eval (boot.answer 0) w =
      (boot.exec path args envText none none w).map fun (status, _, w') => (status, w') := by
  rw [Boot.exec]
  split
  next long => simp [Libos.execStrEnv, long]
  next fits =>
    simp only [not_or, Nat.not_lt] at fits
    rw [execStrEnv_eq fits.1 fits.2.1 fits.2.2, eval_bind, eval_request]
    simp only [Boot.answer, execArgs_cut fits.1 fits.2.1 fits.2.2]
    simp [redirected, Reply.value, Option.map_eq_bind, Option.bind_assoc]

theorem stdio_ioRequest {stdout : Option Bytes}
    (size : ∀ buf, stdout = some buf → buf.length = Shell.maxIoBuf) :
    (ioRequest path args envText stdin stdout).stdio =
      (redirected stdin, stdout.map fun _ => Shell.maxIoBuf) := by
  refine Prod.ext rfl ?_
  cases stdout with
  | none => rfl
  | some buf => simp [ioRequest, ExecIoRequest.stdio, size buf rfl, Shell.maxIoBuf]

theorem eval_execIoStrEnv (path args envText : Bytes) (stdin : Option Bytes) {stdout : Option Bytes}
    (size : ∀ buf, stdout = some buf → buf.length = Shell.maxIoBuf) :
    (Libos.execIoStrEnv path args envText stdin stdout).eval (boot.answer 0) w =
      (boot.exec path args envText stdin (stdout.map fun _ => Shell.maxIoBuf) w).map
        fun (status, out, w') => ((status, out.length, stdout.map (Libos.overwrite · out)), w') := by
  have small : Shell.maxIoBuf < u64Max := by decide
  rw [Boot.exec]
  split
  next long => simp [Libos.execIoStrEnv, long, overwrite_nil]
  next fits =>
    simp only [not_or, Nat.not_lt] at fits
    have strings : execArgs (ioRequest path args envText stdin stdout).path
        (ioRequest path args envText stdin stdout).args
        (ioRequest path args envText stdin stdout).env =
          some (cstrToStr path, cstrToStr args, cstrToStr envText) :=
      execArgs_cut fits.1 fits.2.1 fits.2.2
    rw [execIoStrEnv_eq fits.1 fits.2.1 fits.2.2, eval_bind, eval_request]
    simp only [Boot.answer, strings, stdio_ioRequest size]
    cases ran : boot.launch 0 (cstrToStr path) (cstrToStr args) (cstrToStr envText)
      (redirected stdin) (stdout.map fun _ => Shell.maxIoBuf) w with
    | none => simp [ioRequest]
    | some ended =>
      obtain ⟨status, out, w'⟩ := ended
      -- The reply is no error, whatever was captured
      have few : out.length ≤ Shell.maxIoBuf := by
        refine (length_launch ran).trans ?_
        cases stdout <;> simp
      have kept : out.length ≠ u64Max := by omega
      simp [ioRequest, ioAnswer, kept]

/-- A program that the shell starts, with its output at the front of the buffer. -/
theorem eval_execFromBinIo (env : Shell.Env) (cmd args : Bytes) (stdin : Option Bytes)
    {capture : Bool} {buf : Bytes} (size : capture = true → buf.length = Shell.maxIoBuf) :
    (Shell.execFromBinIo env cmd args stdin capture buf).eval (boot.answer 0) w =
      (boot.program env cmd args stdin capture w).map fun (status, out, w') =>
        ((status, out.length, Libos.overwrite buf out), w') := by
  have whole : Shell.buildEnvStr env = .ok env.text := Shell.buildEnvStr_eq env
  rw [Shell.execFromBinIo, eval_lift_bind whole, Boot.program]
  cases resolved : (Shell.resolveBinPath cmd : Outcome Empty _) with
  | panic => simp
  | err e => cases e
  | ok found =>
    rw [eval_lift_bind rfl]
    cases found with
    | none => simp [overwrite_nil]
    | some path =>
      dsimp only
      cases capture with
      | true =>
        rw [if_neg (by simp), eval_bind, eval_execIoStrEnv _ _ _ _ (by simpa using size rfl)]
        simp [Option.map_eq_bind, Option.bind_assoc]
      | false =>
        -- Nothing is captured, so the buffer stays as it is
        have nothing : ∀ status out w', boot.exec path args (fromUtf8OrEmpty env.text) stdin none w =
            some (status, out, w') → out = [] := fun _ _ _ ran => by simpa using length_exec ran
        cases stdin with
        | none =>
          rw [if_pos (by simp), eval_bind, eval_execStrEnv]
          cases ran : boot.exec path args (fromUtf8OrEmpty env.text) none none w with
          | none => simp [ran]
          | some ended =>
            obtain ⟨status, out, w'⟩ := ended
            obtain rfl := nothing _ _ _ ran
            simp [ran, overwrite_nil]
        | some data =>
          rw [if_neg (by simp), eval_bind, eval_execIoStrEnv _ _ _ _ (by simp)]
          cases ran : boot.exec path args (fromUtf8OrEmpty env.text) (some data) none w with
          | none => simp [ran]
          | some ended =>
            obtain ⟨status, out, w'⟩ := ended
            obtain rfl := nothing _ _ _ ran
            simp [ran, overwrite_nil]

section Named

variable {capture : Bool}

/-- A program whose name and strings fit is the exec of its path. -/
theorem program_eq {path : Bytes} (resolved : (Shell.resolveBinPath cmd : Outcome Empty _) = .ok (some path))
    (fits : path.length ≤ Libos.maxPath ∧ args.length ≤ Libos.maxArgs ∧
      (fromUtf8OrEmpty env.text).length ≤ Libos.maxEnv) :
    boot.program env cmd args stdin capture w =
      boot.launch 0 (cstrToStr path) (cstrToStr args) (cstrToStr (fromUtf8OrEmpty env.text))
        (redirected stdin) (if capture then some Shell.maxIoBuf else none) w := by
  have short : ¬(Libos.maxPath < path.length ∨ Libos.maxArgs < args.length ∨
      Libos.maxEnv < (fromUtf8OrEmpty env.text).length) := by omega
  rw [Boot.program, resolved]
  exact if_neg short

/-- Nothing is done, or the program is started. -/
theorem program_cases (h : boot.program env cmd args stdin capture w = some (status, out, w')) :
    (status = u64Max ∧ out = [] ∧ w' = w) ∨
      ∃ path, (Shell.resolveBinPath cmd : Outcome Empty _) = .ok (some path) ∧
        (path.length ≤ Libos.maxPath ∧ args.length ≤ Libos.maxArgs ∧
          (fromUtf8OrEmpty env.text).length ≤ Libos.maxEnv) ∧
        boot.launch 0 (cstrToStr path) (cstrToStr args) (cstrToStr (fromUtf8OrEmpty env.text))
          (redirected stdin) (if capture then some Shell.maxIoBuf else none) w =
            some (status, out, w') := by
  rw [Boot.program] at h
  split at h
  next path resolved =>
    rw [Boot.exec] at h
    split at h
    · obtain ⟨rfl, rfl, rfl⟩ := by simpa using h
      exact .inl ⟨rfl, rfl, rfl⟩
    next fits =>
      rw [not_or, not_or] at fits
      exact .inr ⟨path, resolved, ⟨Nat.not_lt.mp fits.1, Nat.not_lt.mp fits.2.1,
        Nat.not_lt.mp fits.2.2⟩, h⟩
  · obtain ⟨rfl, rfl, rfl⟩ := by simpa using h
    exact .inl ⟨rfl, rfl, rfl⟩
  · cases h

theorem length_program (h : boot.program env cmd args stdin capture w = some (status, out, w')) :
    out.length ≤ Shell.maxIoBuf := by
  rcases program_cases h with ⟨-, rfl, -⟩ | ⟨path, -, -, launched⟩
  · exact Nat.zero_le _
  · refine (length_launch launched).trans ?_
    cases capture <;> simp

end Named

end Exec

/-! ### Stages -/

section Stages

variable {env : Shell.Env} {file pipe out buf data msg : Bytes} {first last stored : Bool}

open Shell

theorem copyPrefix_overwrite (few : out.length ≤ maxIoBuf) :
    copyPrefix (Libos.overwrite buf out) out.length = .ok out := by
  have inside : out.length ≤ (Libos.overwrite buf out).length := by simp [Libos.overwrite]
  rw [copyPrefix, slice_of_le (Nat.zero_le _) inside, ok_bind, append_of_le]
  · simp [Libos.overwrite]
  · simp [Libos.overwrite]
    omega

theorem slice_overwrite (buf out : Bytes) :
    slice (Libos.overwrite buf out) 0 out.length = (.ok out : Outcome Empty _) := by
  rw [slice_of_le (Nat.zero_le _) (by simp [Libos.overwrite])]
  simp [Libos.overwrite]

/-- What opening an input leaves: the data, or nothing after a message. -/
def Machine.World.opened (w : World) : Except Bytes Bytes → Option Bytes × World
  | .ok data => (some data, w)
  | .error msg => (none, w.show msg)

theorem eval_openInput (env : Env) (file pipe : Bytes) :
    (openInput env file).eval (boot.answer 0) w =
      (boot.input env (some file) pipe w).map w.opened := by
  simp only [Boot.input]
  rw [openInput]
  cases resolved : (resolvePath env file : Outcome Empty _) with
  | panic => simp
  | err e => cases e
  | ok found =>
    rw [eval_lift_bind rfl]
    cases found with
    | none => simp [pathTooLong, eval_bind, World.opened, tooLong]
    | some path =>
      dsimp only
      rw [eval_bind_of (eval_readFile path List.length_replicate)]
      cases read : fileAt boot.images w.ram path with
      | none => simp [redirectionError, eval_bind, World.opened, cannot, World.show_append]
      | some data =>
        have few := length_fileAt read
        simp [eval_lift_bind (copyPrefix_overwrite few), World.opened]

theorem eval_stageInput (env : Env) (first : Bool) (stage : StageParse) (pipe : Bytes) :
    (stageInput env first stage pipe).eval (boot.answer 0) w =
      (boot.input env (if first then stage.inFile else none) pipe w).map w.opened := by
  rw [stageInput]
  cases if first then stage.inFile else none with
  | none => simp [Boot.input, World.opened]
  | some file => exact eval_openInput env file pipe

theorem eval_storeOutput (env : Env) (file buf : Bytes) (few : out.length ≤ maxIoBuf) :
    (storeOutput env file (Libos.overwrite buf out) out.length).eval (boot.answer 0) w =
      storeIn env file out w := by
  rw [storeOutput, storeIn]
  cases resolved : (resolvePath env file : Outcome Empty _) with
  | panic => simp
  | err e => cases e
  | ok found =>
    rw [eval_lift_bind rfl]
    cases found with
    | none => simp [pathTooLong, eval_bind, tooLong]
    | some path =>
      dsimp only
      rw [eval_lift_bind (slice_overwrite buf out), eval_bind_of (eval_writeFile path few)]
      cases (store w.ram path out).1 with
      | true => simp
      | false => simp [redirectionError, eval_bind, cannot, World.show_append]

/-- The pipe behind a stage: its output, and behind the last stage still its input. -/
def Machine.Boot.pipeAfter (boot : Boot) (env : Env) (first last : Bool) (stage : StageParse)
    (pipe : Bytes) (w : World) (out : Bytes) : Bytes :=
  if !last then out
  else
    match boot.input env (if first then stage.inFile else none) pipe w with
    | some (.ok data) => data
    | _ => []

/-- A stage hands on its output, and the buffer with the output at its front. -/
theorem eval_runStage (env : Env) (first last : Bool) (stage : StageParse)
    (size : buf.length = maxIoBuf) :
    (runStage env first last stage ⟨pipe, buf⟩).eval (boot.answer 0) w =
      (boot.stage env first last stage pipe w).map fun (handed, w') =>
        (handed.map fun out =>
          ⟨boot.pipeAfter env first last stage pipe w out, Libos.overwrite buf out⟩, w') := by
  simp only [Boot.pipeAfter]
  rw [runStage, eval_bind, eval_stageInput, Boot.stage]
  cases input : boot.input env (if first then stage.inFile else none) pipe w with
  | none => simp
  | some opened =>
    cases opened with
    | error msg => simp [World.opened]
    | ok data =>
      rw [Option.map_some, Option.bind_some, Option.bind_eq_bind, Option.bind_some]
      dsimp only [World.opened]
      rw [eval_bind, eval_execFromBinIo _ _ _ _ (fun _ => size), Option.bind_eq_bind]
      cases ran : boot.program env stage.cmd (fromUtf8OrEmpty stage.args)
        (if (first && stage.inFile.isNone) = true then none else some data)
        (!last || stage.outFile.isSome) w with
      | none => simp
      | some ended =>
        obtain ⟨status, out, w'⟩ := ended
        have fewOut := length_program ran
        rw [Option.map_some, Option.bind_some, Option.bind_some]
        dsimp only
        split
        · simp [unknownCommand, eval_bind, unknown, World.show_append]
        cases last with
        | false => simp [eval_lift_bind (copyPrefix_overwrite fewOut)]
        | true =>
          cases stage.outFile with
          | none => simp
          | some target =>
            simp only [Bool.not_true, Bool.false_or, Option.isSome_some, Bool.false_eq_true,
              if_false]
            rw [eval_bind, eval_storeOutput _ _ _ fewOut]
            cases storeIn env target out w' with
            | none => simp
            | some ended =>
              obtain ⟨stored, w''⟩ := ended
              cases stored <;> simp

theorem length_stage {stage : StageParse}
    (h : boot.stage env first last stage pipe w = some (some out, w')) : out.length ≤ maxIoBuf := by
  obtain ⟨input, -, h⟩ := Option.bind_eq_some_iff.mp h
  cases input with
  | error msg => simp at h
  | ok data =>
    obtain ⟨⟨status, out', w₁⟩, ran, h⟩ := Option.bind_eq_some_iff.mp h
    have few := length_program ran
    dsimp only at h
    split at h
    · simp at h
    split at h
    · obtain ⟨rfl, -⟩ := by simpa using h
      exact few
    split at h
    · obtain ⟨rfl, -⟩ := by simpa using h
      exact few
    · obtain ⟨⟨stored, w₂⟩, -, h⟩ := Option.bind_eq_some_iff.mp h
      obtain ⟨⟨-, rfl⟩, -⟩ := by simpa using h
      exact few

theorem stagesOf_isEmpty {tokens : List Token} {parsed : Bytes} {ranges : List (Nat × Nat)}
    {stages : List (Except Bytes StageParse)}
    (h : stagesOf tokens parsed first ranges = .ok stages) : stages.isEmpty = ranges.isEmpty := by
  cases ranges with
  | nil =>
    obtain rfl : [] = stages := by simpa [stagesOf] using h
    rfl
  | cons range ranges =>
    rw [stagesOf] at h
    split at h
    · cases h
    · obtain rfl := Outcome.ok.inj h
      rfl
    · obtain ⟨later, -, same⟩ := bind_eq_ok.mp h
      obtain rfl := Outcome.ok.inj same
      rfl

/-- Stages that are parsed one at a time run as if all of them had been parsed before. -/
theorem eval_runStages {tokens : List Token} {parsed : Bytes} {ranges : List (Nat × Nat)}
    {stages : List (Except Bytes StageParse)}
    (parses : stagesOf tokens parsed first ranges = .ok stages) (size : buf.length = maxIoBuf) :
    (runStages env tokens parsed first ranges ⟨pipe, buf⟩).eval (boot.answer 0) w =
      (boot.stages env first stages pipe w).map fun w' => ((), w') := by
  induction ranges generalizing first stages pipe buf w with
  | nil =>
    obtain rfl : [] = stages := by simpa [stagesOf] using parses
    simp [runStages, Boot.stages]
  | cons range ranges ih =>
    rw [stagesOf] at parses
    rw [runStages]
    cases checked : checkStage tokens parsed first ranges.isEmpty range with
    | panic => simp [checked] at parses
    | err msg =>
      obtain rfl := by simpa [checked] using parses
      simp [Boot.stages]
    | ok stage =>
      simp only [checked] at parses
      obtain ⟨later, parses', same⟩ := bind_eq_ok.mp parses
      obtain rfl := Outcome.ok.inj same
      dsimp only
      rw [eval_bind, eval_runStage env first _ stage size, Boot.stages, stagesOf_isEmpty parses']
      cases ran : boot.stage env first ranges.isEmpty stage pipe w with
      | none => simp
      | some ended =>
        obtain ⟨_ | out, w₁⟩ := ended
        · simp
        · have few := length_stage ran
          have size' : (Libos.overwrite buf out).length = maxIoBuf :=
            (length_overwrite (by omega)).trans size
          simp only [Option.map_some, Option.bind_some, Option.bind_eq_bind]
          -- Behind the last stage nothing reads the pipe
          cases ranges with
          | nil =>
            obtain rfl : [] = later := by simpa [stagesOf] using parses'
            simp [runStages, Boot.stages]
          | cons range' ranges => exact ih parses' size'

end Stages

/-! ### Parsing -/

section Parsing

variable {env : Shell.Env} {first : Bool}

open Shell

/-- No stage panics while it is parsed, so all of them can be parsed at once. -/
theorem stagesOf_value {tokens : List Token} {parsed : Bytes} (readable : Readable tokens parsed)
    {ranges : List (Nat × Nat)} {groups : List (List Token)}
    (slices : ranges.map (tokensAt tokens) = groups.map .ok) :
    ∃ stages, stagesOf tokens parsed first ranges = .ok stages := by
  induction ranges generalizing first groups with
  | nil => exact ⟨[], rfl⟩
  | cons range ranges ih =>
    obtain ⟨group, groups, rfl, at_, rest, -⟩ := slices_cons slices
    have sound := checkStage_sound readable at_ first ranges.isEmpty
    rw [stagesOf]
    cases checked : checkStage tokens parsed first ranges.isEmpty range with
    | panic =>
      rw [checked] at sound
      exact absurd sound not_sound_panic
    | err msg => exact ⟨_, rfl⟩
    | ok stage =>
      obtain ⟨later, parses⟩ := @ih false groups rest
      exact ⟨.ok stage :: later, by simp [parses]⟩

theorem pipelineOf_value {tokens : List Token} {parsed : Bytes} (readable : Readable tokens parsed) :
    ∃ command, pipelineOf tokens parsed = .ok command := by
  rw [pipelineOf]
  rcases splitStages_cases tokens with ⟨e, split, -⟩ | ⟨ranges, split, -, slices⟩
  · exact ⟨.refused e, by rw [split]; rfl⟩
  · obtain ⟨stages, parses⟩ := @stagesOf_value true _ _ readable _ _ slices
    exact ⟨.pipeline stages, by simp [split, parses]⟩

/-- Every line stands for a command. -/
theorem commandOf_value (env : Env) (line : Bytes) : ∃ command, commandOf env line = .ok command := by
  rw [commandOf]
  split
  · exact ⟨.nothing, rfl⟩
  have sound := tokenizeCommand_sound (expanded env line)
  cases tokenized : tokenizeCommand (expanded env line) with
  | panic =>
    rw [tokenized] at sound
    exact absurd sound not_sound_panic
  | err msg => exact ⟨_, rfl⟩
  | ok found =>
    obtain ⟨_ | ⟨cmdToken, argTokens⟩, parsed⟩ := found
    · exact ⟨.nothing, rfl⟩
    have readable : Readable (cmdToken :: argTokens) (parsedStorage parsed) := sound.of_ok tokenized
    dsimp only
    split
    · exact pipelineOf_value readable
    · obtain ⟨cmd, word, -⟩ := (tokenWord_sound (ε := Empty) readable List.mem_cons_self).value
      have joins : Sound ArgsFit (joinWordTokens (parsedStorage parsed) argTokens [] :
          Outcome Empty _) := joinWordTokens_sound readable
        (fun token later => List.mem_cons_of_mem _ later) (Nat.zero_le _)
      obtain ⟨args, joined, -⟩ := joins.value
      rw [word, ok_bind, joined, ok_bind]
      cases args <;> exact ⟨_, rfl⟩

end Parsing

/-! ### Lines -/

section Lines

variable {env env' : Shell.Env} {line : Bytes} {more : Bool}

open Shell

theorem eval_compound {tokens : List Token} {parsed : Bytes} {command : Command}
    (parses : pipelineOf tokens parsed = .ok command) :
    (do
      let more ← dispatchCompoundTokens env tokens parsed
      return (more, env) : User (Bool × Env)).eval (boot.answer 0) w =
      (boot.command env command w).map fun (more, env', w') => ((more, env'), w') := by
  rw [pipelineOf] at parses
  rw [dispatchCompoundTokens]
  cases split : splitStages tokens with
  | panic => simp [split] at parses
  | err msg =>
    obtain rfl := by simpa [split] using parses
    simp [eval_bind, Boot.command]
  | ok ranges =>
    simp only [split] at parses
    obtain ⟨stages, parses', same⟩ := bind_eq_ok.mp parses
    obtain rfl := Outcome.ok.inj same
    have runs : (runStages env tokens parsed true ranges PipeState.start).eval (boot.answer 0) w =
        (boot.stages env true stages [] w).map fun w' => ((), w') :=
      eval_runStages parses' List.length_replicate
    simp [eval_bind, runs, Boot.command, Option.map_eq_bind, Option.bind_assoc]

theorem eval_setEnv (env : Env) (key val : Bytes) :
    (setEnv env key val).eval (boot.answer 0) w = some (assign env key val w) := by
  rw [setEnv, assign]
  cases storeEnv env key val with
  | ok env' => simp
  | error msg => simp [eval_bind]

/-- A command without operators. -/
theorem eval_dispatchSimple (env : Env) (cmd args : Bytes) :
    (dispatchSimple env cmd args).eval (boot.answer 0) w =
      (boot.simple env cmd args w).map fun (more, env', w') => ((more, env'), w') := by
  rw [dispatchSimple, Boot.simple]
  split
  · simp [eval_bind, helpText, World.show_append]
  split
  · simp [eval_bind]
  split
  · simp
  split
  · -- `cd`
    rw [setCwd]
    cases dir : newCwd env args with
    | panic => simp
    | err e => cases e
    | ok buf =>
      cases text : fromUtf8 buf with
      | none => simp [text]
      | some path => simp [text, eval_bind, eval_setEnv]
  split
  · have whole : buildEnvStr env = .ok env.text := buildEnvStr_eq env
    simp [eval_lift_bind whole, eval_bind]
  split
  · -- `export`
    cases found : splitOnce 61 args with
    | none => simp [eval_bind]
    | some pair => simp [eval_bind, eval_setEnv]
  · rw [execFromBin, eval_bind, eval_bind, eval_execFromBinIo _ _ _ _ (by simp)]
    cases ran : boot.program env cmd args none false w with
    | none => simp
    | some ended =>
      obtain ⟨status, out, w'⟩ := ended
      by_cases failed : status = u64Max
      · simp [failed, unknownCommand, eval_bind, unknown, World.show_append]
      · simp [failed]

/-- Whatever the line is: what the shell does with it is what it means. -/
theorem eval_line (env : Env) (line : Bytes) :
    (Shell.dispatch env line).eval (boot.answer 0) w =
      (boot.line env line w).map fun (more, env', w') => ((more, env'), w') := by
  obtain ⟨command, parses⟩ := commandOf_value env line
  simp only [Boot.line, parses]
  rw [commandOf] at parses
  rw [Shell.dispatch]
  by_cases empty : trim (fromUtf8OrEmpty line) = []
  · obtain rfl : Command.nothing = command := by simpa [empty] using parses
    simp [empty, Boot.command]
  by_cases nothing : expanded env line = []
  · obtain rfl : Command.nothing = command := by simpa [nothing] using parses
    simp [empty, nothing, Boot.command]
  simp only [empty, nothing, or_self, if_false] at parses ⊢
  cases tokens : tokenizeCommand (expanded env line) with
  | panic => simp [tokens] at parses
  | err msg =>
    obtain rfl := by simpa [tokens] using parses
    simp [eval_bind, Boot.command, World.show_append]
  | ok found =>
    obtain ⟨_ | ⟨cmdToken, argTokens⟩, parsed⟩ := found
    · obtain rfl : Command.nothing = command := by simpa [tokens] using parses
      simp [Boot.command]
    simp only [tokens] at parses
    dsimp only
    split at parses
    next operators =>
      rw [if_pos operators]
      exact eval_compound parses
    next words =>
      rw [if_neg words]
      obtain ⟨cmd, word, parses⟩ := bind_eq_ok.mp parses
      obtain ⟨joined, args, parses⟩ := bind_eq_ok.mp parses
      rw [eval_lift_bind word, eval_lift_bind args]
      cases joined with
      | none =>
        obtain rfl := Outcome.ok.inj parses
        simp [eval_bind, Boot.command]
      | some args =>
        obtain rfl := Outcome.ok.inj parses
        exact eval_dispatchSimple env cmd _

end Lines

/-- Whatever the variables and the bytes of the line are, and whatever the programs of the boot image
mean: the line stands for a command, and its dispatch does what the command means, or does not end
where the command has no meaning. -/
theorem dispatch_means (boot : Boot) (env : Shell.Env) (line : Bytes) (w : World) :
    (∃ command, commandOf env line = .ok command) ∧
      (Shell.dispatch env line).eval (boot.answer 0) w =
        (boot.line env line w).map fun (more, env', w') => ((more, env'), w') :=
  ⟨commandOf_value env line, eval_line env line⟩

/-- On a kernel that shows the world, the dispatch of a line leaves the world that the line means. -/
theorem line_hosts {images : Images} {limits : Limits} {pm : ProcessManager} {k : Kernel}
    {env env' : Shell.Env} {line : Bytes} {more : Bool} (accepted : AcceptedImages images)
    (enough : 17 ≤ limits.rounds) (depth : Nat) (alone : Alone 0 pm) (hosts : Hosts pm k w)
    (meant : (bootMachine images).line env line w = some (more, env', w')) :
    ∃ k', (Shell.dispatch env line).eval
        (dispatch (bootSystem images limits) (runImage (bootSystem images limits) (depth + 1))) k =
          some ((more, env'), k') ∧
      Hosts pm k' w' := by
  have evaluated : (Shell.dispatch env line).eval ((bootMachine images).answer 0) w =
      some ((more, env'), w') := by rw [eval_line, meant, Option.map_some]
  exact simulates_eval (dispatch_simulates (bootSystem_holds accepted enough 0) alone depth) hosts
    evaluated

/-- On the kernel the shell does what the line means: pipelines, redirections, built-in commands and
programs leave the variables, the files and the console that the language says, and the process table
and the stdio context as they were. -/
theorem line_on_kernel (images : Images) (limits : Limits) (accepted : AcceptedImages images)
    (enough : 17 ≤ limits.rounds) (depth : Nat) (k : Kernel) (alone : Alone 0 k.pm)
    (context : k.io.stdio = ⟨none, none⟩) (env env' : Shell.Env) (line : Bytes) (more : Bool)
    (w' : World) (meant : (bootMachine images).line env line (ofKernel k) = some (more, env', w')) :
    ∃ k', (Shell.dispatch env line).eval
        (dispatch (bootSystem images limits) (runImage (bootSystem images limits) (depth + 1))) k =
          some ((more, env'), k') ∧
      ofKernel k' = w' ∧ k'.io.stdio = ⟨none, none⟩ ∧ Regained k.pm k'.pm := by
  obtain ⟨k', ran, hosts⟩ := line_hosts accepted enough depth alone
    ⟨rfl, context, .rfl alone.bound⟩ meant
  exact ⟨k', ran, hosts.world, hosts.context, hosts.table⟩

theorem line_on_kernel_pipeline :
    ∃ k k', ((Shell.dispatch Shell.Env.empty (str "echo hi | sed s/h/H/ > /a")).eval
        (dispatch (bootSystem bareImages ⟨17, 0, 0, 0⟩)
          (runImage (bootSystem bareImages ⟨17, 0, 0, 0⟩) 1)) k).map Prod.snd = some k' ∧
      readFileBytes bareImages k'.ram (str "/a") 4096 = some (str "Hi\n") := by
  obtain ⟨pm, alone⟩ := exists_alone
  have stored : ((bootMachine bareImages).line Shell.Env.empty (str "echo hi | sed s/h/H/ > /a")
      (ofKernel typing)).map (fun (_, _, w) => readFileBytes bareImages w.ram (str "/a") 4096) =
        some (some (str "Hi\n")) := by decide +kernel
  obtain ⟨⟨more, env', w'⟩, meant, file⟩ := Option.map_eq_some_iff.mp stored
  obtain ⟨k', ran, rfl, -, -⟩ := line_on_kernel bareImages ⟨17, 0, 0, 0⟩ acceptedImages_bare
    (Nat.le_refl 17) 0 { typing with pm } alone rfl Shell.Env.empty env' _ more w'
    meant
  exact ⟨_, k', by rw [ran, Option.map_some], file⟩

end Smultron
