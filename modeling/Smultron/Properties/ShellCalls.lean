import Smultron.Properties.ShellBounds
import Smultron.Properties.SlotSafety
import Smultron.Properties.Stdio

/-!
# The shell's system calls

What the shell can be answered: a call that fills a buffer returns at most the size of the buffer, and
an exec succeeds for the six programs that have a slot beside the shell's own. The kernel keeps to
that, and under such replies the functions of the shell that call it stay inside their buffers.
-/

namespace Smultron

open Process Vfs

/-- The reply reports no more bytes than the caller's buffer has. -/
def Bounded : Syscall → Reply → Prop
  | .readFile _ buf, r => (r.ret = u64Max ∨ r.ret ≤ buf.getD 0) ∧ r.data.length ≤ buf.getD 0
  | .execIo (some req), r =>
    (r.ret = u64Max ∨ r.ret ≤ req.stdoutCap.getD 0) ∧ r.data.length ≤ req.stdoutCap.getD 0
  | _, _ => True

/-- The paths with a slot of their own. The first slot is the one the shell itself runs in. -/
def Startable (path : Bytes) : Prop := ∃ slotIdx, slotForPath path = some slotIdx ∧ slotIdx ≠ 0

/-- The call asks for a program that can be started beside the shell. -/
def Syscall.Starts : Syscall → Prop
  | .execve path _ _ => ∃ p, cstr 64 path = some p ∧ Startable p
  | .execIo (some req) => ∃ p, cstr 64 req.path = some p ∧ Startable p
  | _ => False

/-- The status of an exec as the library reports it. -/
def Syscall.statusOf : Syscall → Reply → Nat
  | .execIo _, r => if r.ret = u64Max then u64Max else r.status.getD u64Max
  | _, r => r.ret

/-- The replies the kernel can give to the shell. -/
structure Legal (c : Syscall) (r : Reply) : Prop where
  bounded : Bounded c r
  granted : c.isExec = true → c.statusOf r ≠ u64Max → c.Starts

theorem length_readFileBytes {images : Images} {ram : RamFiles} {path data : Bytes} {outLen : Nat}
    (h : readFileBytes images ram path outLen = some data) : data.length ≤ outLen := by
  rw [readFileBytes] at h
  split at h
  next file _ =>
    obtain rfl := Option.some.inj h
    rw [List.length_take]
    omega
  · obtain ⟨f, -, rfl⟩ := Option.map_eq_some_iff.mp h
    rw [Buffer.length_front]
    omega

theorem length_tearDown (io : IoState) (cap : Option Nat) :
    (io.tearDown cap).1.length ≤ cap.getD 0 := by
  cases cap with
  | none => exact Nat.zero_le _
  | some cap =>
    have copied : (io.stdoutBuf.front (min io.stdoutLen cap)).length ≤ cap := by
      rw [Buffer.length_front]
      omega
    exact copied

theorem length_execWithIo {sys : System} {run : Runner} {k k' : Kernel}
    {path args env captured : Bytes} {stdin : Option Bytes} {cap : Option Nat} {status : Nat}
    (h : execWithIo sys run k path args env stdin cap = some (status, captured, k')) :
    captured.length ≤ cap.getD 0 := by
  obtain ⟨k₁, -, rfl, -⟩ := execWithIo_eq_some h
  exact length_tearDown ..

theorem execIo_bounded {sys : System} {run : Runner} {k k' : Kernel} {req : ExecIoRequest}
    {r : Reply} (h : dispatch sys run (.execIo (some req)) k = some (r, k')) :
    Bounded (.execIo (some req)) r := by
  rcases execIo_cases h with ⟨-, rfl, -⟩ | ⟨p, a, e, status, captured, -, -, ended, rfl⟩
  · exact ⟨.inl rfl, Nat.zero_le _⟩
  have room : req.stdio.2.getD 0 ≤ req.stdoutCap.getD 0 := by
    rw [ExecIoRequest.stdio]
    cases req.stdoutCap with
    | none => exact Nat.le_refl _
    | some cap =>
      by_cases none : cap = 0
      · simp [none]
      · simp only [none, if_false, Option.getD_some]
        exact Nat.min_le_left _ _
  have copied : captured.length ≤ req.stdoutCap.getD 0 :=
    Nat.le_trans (length_execWithIo ended) room
  exact ⟨.inr copied, copied⟩

theorem dispatch_bounded {sys : System} {run : Runner} {c : Syscall} {r : Reply} {k k' : Kernel}
    (h : dispatch sys run c k = some (r, k')) : Bounded c r := by
  cases c with
  | readFile path buf =>
    have refused : Bounded (.readFile path buf) .failed := ⟨.inl rfl, Nat.zero_le _⟩
    simp only [dispatch] at h
    split at h
    · obtain ⟨rfl, -⟩ := Prod.mk.inj (Option.some.inj h)
      exact refused
    split at h
    · obtain ⟨rfl, -⟩ := Prod.mk.inj (Option.some.inj h)
      exact refused
    split at h
    · obtain ⟨rfl, -⟩ := Prod.mk.inj (Option.some.inj h)
      exact refused
    next data read =>
      obtain ⟨rfl, -⟩ := Prod.mk.inj (Option.some.inj h)
      exact ⟨.inr (length_readFileBytes read), length_readFileBytes read⟩
  | execIo req =>
    cases req with
    | none => exact trivial
    | some req => exact execIo_bounded h
  | _ => exact trivial

theorem execArgs_path {path args env : Option Bytes} {p a e : Bytes}
    (h : execArgs path args env = some (p, a, e)) : cstr 64 path = some p := by
  obtain ⟨p', found, rest⟩ := Option.bind_eq_some_iff.mp h
  obtain ⟨a', -, rest⟩ := Option.bind_eq_some_iff.mp rest
  obtain ⟨e', -, rest⟩ := Option.bind_eq_some_iff.mp rest
  obtain ⟨rfl, -⟩ := Prod.mk.inj (Option.some.inj rest)
  exact found

/-- What runs has a slot, and the slot was free. -/
theorem execInternal_startable {sys : System} {run : Runner} {k k' : Kernel}
    {path args env : Bytes} {status : Nat} (busy : k.pm.slotsInUse[0]? = some true)
    (h : execInternal sys run k path args env = some (status, k')) (ran : status ≠ u64Max) :
    Startable path := by
  cases begun : startProcess sys.images k.pm path args env with
  | error msg =>
    simp only [execInternal, begun] at h
    obtain ⟨rfl, -⟩ := Prod.mk.inj (Option.some.inj h)
    exact absurd rfl ran
  | ok started =>
    rw [startProcess] at begun
    split at begun
    · cases begun
    split at begun
    · cases begun
    next slotIdx mapped =>
      split at begun
      · cases begun
      next pid _ pm spawned =>
        obtain ⟨rfl, -, free, -⟩ := ProcessManager.spawnSlot_eq_some spawned
        refine ⟨_, mapped, ?_⟩
        rintro rfl
        rw [busy] at free
        cases free

/-- While the shell holds its slot the kernel starts other programs only. -/
theorem dispatch_granted {sys : System} {run : Runner} {c : Syscall} {r : Reply} {k k' : Kernel}
    (busy : k.pm.slotsInUse[0]? = some true) (h : dispatch sys run c k = some (r, k'))
    (exec : c.isExec = true) (ran : c.statusOf r ≠ u64Max) : c.Starts := by
  have startable {path args env captured : Bytes} {stdin : Option Bytes} {cap : Option Nat}
      {status : Nat} (ended : execWithIo sys run k path args env stdin cap =
        some (status, captured, k')) (ran : status ≠ u64Max) : Startable path := by
    obtain ⟨k₁, internal, -⟩ := execWithIo_eq_some ended
    exact execInternal_startable (k := { k with io := k.io.setUp stdin cap.isSome }) busy internal ran
  cases c with
  | execve path args env =>
    rcases execve_cases h with ⟨-, rfl, -⟩ | ⟨p, a, e, status, captured, strings, ended, rfl⟩
    · exact absurd rfl ran
    · exact ⟨p, execArgs_path strings, startable ended ran⟩
  | execIo req =>
    cases req with
    | none =>
      obtain ⟨rfl, -⟩ := Prod.mk.inj (Option.some.inj h)
      exact absurd rfl ran
    | some req =>
      rcases execIo_cases h with ⟨-, rfl, -⟩ | ⟨p, a, e, status, captured, -, strings, ended, rfl⟩
      · exact absurd rfl ran
      · refine ⟨p, execArgs_path strings, startable ended fun failed => ran ?_⟩
        simp [Syscall.statusOf, failed]
  | _ => cases exec

/-- The kernel's own replies are of this kind. -/
theorem dispatch_legal {sys : System} {run : Runner} {c : Syscall} {r : Reply} {k k' : Kernel}
    (busy : k.pm.slotsInUse[0]? = some true) (h : dispatch sys run c k = some (r, k')) :
    Legal c r := ⟨dispatch_bounded h, dispatch_granted busy h⟩

/-- Every call can be turned away. -/
theorem legal_failed (c : Syscall) : Legal c .failed where
  bounded := by
    have refused (n : Nat) : (Reply.failed.ret = u64Max ∨ Reply.failed.ret ≤ n) ∧
        Reply.failed.data.length ≤ n := ⟨.inl rfl, Nat.zero_le n⟩
    cases c with
    | readFile path buf => exact refused _
    | execIo req =>
      cases req with
      | none => trivial
      | some req => exact refused _
    | _ => trivial
  granted exec ran := by
    cases c with
    | execve path args env => exact absurd rfl ran
    | execIo req => exact absurd rfl ran
    | _ => cases exec

namespace Shell

open Checked Checked.Outcome Proc Utf8

/-! ### The userspace library -/

theorem writeStr_safe {Q : Unit → Prop} (s : Bytes) (q : Q ()) : (writeStr s).Safe Legal Q :=
  safe_bind.mpr (safe_request_bind fun _ _ => safe_pure.mpr (safe_pure.mpr q))

/-- A message, and then the end. -/
theorem writeStr_end {α : Type} {Q : α → Prop} (s : Bytes) {a : α} (q : Q a) :
    (writeStr s >>= fun _ => (pure a : User α)).Safe Legal Q :=
  safe_bind.mpr (writeStr_safe s (safe_pure.mpr q))

theorem writeStr_then {α : Type} {Q : α → Prop} (s : Bytes) {next : User α}
    (h : next.Safe Legal Q) : (writeStr s >>= fun _ => next).Safe Legal Q :=
  safe_bind.mpr (writeStr_safe s h)

theorem cString_sound {size : Nat} {text : Bytes} (fits : text.length < size) :
    Sound (fun _ => True) (Libos.cString size text) := by
  refine sound_bind (sound_append (by simpa using Nat.le_of_lt fits) (sound_push ?_ trivial))
  simpa using fits

theorem cString_ok {size : Nat} {text : Bytes} (fits : text.length < size) :
    Libos.cString size text = .ok (text ++ [0]) := by
  rw [Libos.cString, append_of_le (by simpa using Nat.le_of_lt fits), ok_bind,
    push_of_lt (by simpa using fits), List.nil_append]

theorem execBuffers_ok {path args env : Bytes} (pathFits : path.length ≤ Libos.maxPath)
    (argsFits : args.length ≤ Libos.maxArgs) (envFits : env.length ≤ Libos.maxEnv) :
    Libos.execBuffers path args env = .ok (path ++ [0], args ++ [0], env ++ [0]) := by
  rw [Libos.execBuffers, cString_ok (by omega), ok_bind, cString_ok (by omega), ok_bind,
    cString_ok (by omega), ok_bind]
  rfl

/-- What the shell hands to an exec beside the path and the arguments fits, too. -/
theorem exec_fits (env : Env) {path args : Bytes} (pathFits : path.length ≤ Libos.maxPath)
    (argsFit : args.length ≤ maxArgs) :
    ∃ envBuf, buildEnvStr env = .ok envBuf ∧ ¬(Libos.maxPath < path.length ∨
      Libos.maxArgs < args.length ∨ Libos.maxEnv < (fromUtf8OrEmpty envBuf).length) := by
  obtain ⟨envBuf, built, few⟩ := (buildEnvStr_sound env).value
  have envFits : (fromUtf8OrEmpty envBuf).length ≤ Libos.maxEnv :=
    Nat.le_trans (length_fromUtf8OrEmpty_le _) few
  have same : Libos.maxArgs = maxArgs := rfl
  exact ⟨envBuf, built, by omega⟩

theorem length_overwrite {buf data : Bytes} (fits : data.length ≤ buf.length) :
    (Libos.overwrite buf data).length = buf.length := by
  rw [Libos.overwrite, List.length_append, List.length_drop]
  omega

theorem length_overwritten {stdout : Option Bytes} {data : Bytes}
    (fits : data.length ≤ (stdout.map List.length).getD 0) :
    (stdout.map (Libos.overwrite · data)).map List.length = stdout.map List.length := by
  cases stdout with
  | none => rfl
  | some out => exact congrArg some (length_overwrite fits)

theorem readFile_safe (path buf : Bytes) :
    (Libos.readFile path buf).Safe Legal fun found =>
      found.2.length = buf.length ∧
        ∀ len, found.1 = some len → len ≤ buf.length ∧ path.length < 128 := by
  rw [Libos.readFile]
  split
  · exact safe_pure.mpr ⟨rfl, nofun⟩
  next short =>
    refine safe_lift_bind ((cString_sound (Nat.not_le.mp short)).mono fun pathBuf _ =>
      safe_request_bind fun r legal => ?_)
    have kept : (Libos.overwrite buf r.data).length = buf.length := length_overwrite legal.bounded.2
    split
    · exact safe_pure.mpr ⟨kept, nofun⟩
    · refine safe_pure.mpr ⟨kept, ?_⟩
      rintro _ ⟨⟩
      exact ⟨Nat.min_le_right _ _, Nat.not_le.mp short⟩

theorem writeFile_safe (path data : Bytes) :
    (Libos.writeFile path data).Safe Legal fun _ => True := by
  rw [Libos.writeFile]
  split
  · exact safe_pure.mpr trivial
  next short =>
    refine safe_lift_bind ((cString_sound (Nat.not_le.mp short)).mono fun pathBuf _ =>
      safe_request_bind fun r _ => ?_)
    split <;> exact safe_pure.mpr trivial

/-- The library hands the path to the kernel, and it is one of a program that can be started. -/
def Executable (path : Bytes) : Prop :=
  path.length ≤ Libos.maxPath ∧ ∃ p, cstr 64 (some (path ++ [0])) = some p ∧ Startable p

theorem execStrEnv_safe (path args env : Bytes) :
    (Libos.execStrEnv path args env).Safe Legal fun status => status ≠ u64Max → Executable path := by
  rw [Libos.execStrEnv]
  split
  · exact safe_pure.mpr fun failed => absurd rfl failed
  next fits =>
    rw [execBuffers_ok (by omega) (by omega) (by omega), lift_ok, Proc.pure_bind]
    exact safe_request_bind fun r legal => safe_pure.mpr fun ran => ⟨by omega, legal.granted rfl ran⟩

theorem execIoStrEnv_safe (path args env : Bytes) (stdin stdout : Option Bytes) :
    (Libos.execIoStrEnv path args env stdin stdout).Safe Legal fun result =>
      result.2.1 ≤ (stdout.map List.length).getD 0 ∧
        result.2.2.map List.length = stdout.map List.length ∧
        (result.1 ≠ u64Max → Executable path) := by
  rw [Libos.execIoStrEnv]
  split
  · exact safe_pure.mpr ⟨Nat.zero_le _, rfl, fun failed => absurd rfl failed⟩
  next fits =>
    rw [execBuffers_ok (by omega) (by omega) (by omega), lift_ok, Proc.pure_bind]
    refine safe_request_bind fun r legal => ?_
    have kept := length_overwritten legal.bounded.2
    split
    · exact safe_pure.mpr ⟨Nat.zero_le _, kept, fun failed => absurd rfl failed⟩
    next answered =>
      refine safe_pure.mpr ⟨legal.bounded.1.resolve_left answered, kept, fun ran => ⟨by omega, ?_⟩⟩
      exact legal.granted rfl (by simpa [Syscall.statusOf, answered] using ran)

/-! ### Running a stage -/

/-- The command names a program that can be started. -/
def Launches (cmd : Bytes) : Prop :=
  ∃ path, (resolveBinPath cmd : Outcome Empty _) = .ok (some path) ∧ Executable path

theorem execFromBinIo_safe (env : Env) {cmd : Bytes} (short : cmd.length ≤ maxParsedLine)
    (args : Bytes) (stdin : Option Bytes) (capture : Bool) (captureBuf : Bytes) :
    (execFromBinIo env cmd args stdin capture captureBuf).Safe Legal fun result =>
      result.2.1 ≤ captureBuf.length ∧ result.2.2.length = captureBuf.length ∧
        (result.1 ≠ u64Max → Launches cmd) := by
  refine safe_lift_bind ((buildEnvStr_sound env).mono fun envBuf _ => ?_)
  obtain ⟨resolved, ok, -⟩ := (resolveBinPath_sound (ε := Empty) short).value
  rw [ok, lift_ok, pure_bind]
  cases resolved with
  | none => exact safe_pure.mpr ⟨Nat.zero_le _, rfl, fun failed => absurd rfl failed⟩
  | some path =>
    dsimp only
    split
    · exact safe_bind.mpr ((execStrEnv_safe _ _ _).mono fun status runs =>
        safe_pure.mpr ⟨Nat.zero_le _, rfl, fun ran => ⟨path, ok, runs ran⟩⟩)
    · refine safe_bind.mpr ((execIoStrEnv_safe _ _ _ _ _).mono fun result kept => safe_pure.mpr ?_)
      obtain ⟨status, outLen, out⟩ := result
      obtain ⟨few, size, runs⟩ := kept
      -- A buffer that was handed over comes back with its length
      cases capture with
      | false =>
        obtain rfl : out = none := by simpa using size
        exact ⟨Nat.le_trans few (Nat.zero_le _), rfl, fun ran => ⟨path, ok, runs ran⟩⟩
      | true =>
        obtain ⟨out', rfl, size'⟩ := Option.map_eq_some_iff.mp size
        exact ⟨few, size', fun ran => ⟨path, ok, runs ran⟩⟩

theorem unknownCommand_safe (cmd : Bytes) : (unknownCommand cmd).Safe Legal fun _ => True :=
  writeStr_then _ (writeStr_then _ (writeStr_safe _ trivial))

theorem redirectionError_safe (verb path : Bytes) :
    (redirectionError verb path).Safe Legal fun _ => True :=
  writeStr_then _ (writeStr_then _ (writeStr_safe _ trivial))

/-- The kernel can be asked for the file of a redirection. -/
def Opens (env : Env) (file : Option Bytes) : Prop :=
  ∀ path, file = some path →
    ∃ text, (resolvePath env path : Outcome Empty _) = .ok (some text) ∧ text.length < 128

theorem copyPrefix_sound {src : Bytes} {len : Nat} (inside : len ≤ src.length)
    (fits : len ≤ maxIoBuf) : Sound (fun part => part.length ≤ maxIoBuf) (copyPrefix src len) := by
  have copied : ((src.take len).drop 0).length ≤ len := by
    rw [List.drop_zero, List.length_take]
    omega
  refine sound_bind (sound_slice (Nat.zero_le _) inside (sound_append ?_ ?_))
  · rw [List.length_nil]
    omega
  · rw [List.nil_append]
    omega

theorem openInput_safe {env : Env} {file : Bytes} (short : file.length ≤ maxParsedLine)
    (usable : cwdOf env = [] → isAbsolute file = true) :
    (openInput env file).Safe Legal fun pipe =>
      ∀ data, pipe = some data → data.length ≤ maxIoBuf ∧ Opens env (some file) := by
  obtain ⟨resolved, ok, fits⟩ := (resolvePath_sound (ε := Empty) short usable).value
  rw [openInput, ok, lift_ok, pure_bind]
  cases resolved with
  | none => exact writeStr_end _ nofun
  | some path =>
    refine safe_bind.mpr ((readFile_safe _ _).mono fun found kept => ?_)
    obtain ⟨len, fileBuf⟩ := found
    obtain ⟨size, inside⟩ := kept
    -- The file is read into a buffer as long as the pipe
    have size' : fileBuf.length = maxIoBuf := size.trans List.length_replicate
    cases len with
    | none => exact safe_bind.mpr ((redirectionError_safe _ _).mono fun _ _ => safe_pure.mpr nofun)
    | some len =>
      obtain ⟨few, shortPath⟩ := inside len rfl
      rw [List.length_replicate] at few
      refine safe_lift_bind ((copyPrefix_sound (by omega) few).mono fun pipe fits' =>
        safe_pure.mpr ?_)
      rintro _ ⟨⟩
      refine ⟨fits', ?_⟩
      rintro _ ⟨⟩
      exact ⟨path, ok, shortPath⟩

theorem storeOutput_safe {env : Env} {file captureBuf : Bytes} {outLen : Nat}
    (short : file.length ≤ maxParsedLine) (usable : cwdOf env = [] → isAbsolute file = true)
    (inside : outLen ≤ captureBuf.length) :
    (storeOutput env file captureBuf outLen).Safe Legal fun _ => True := by
  obtain ⟨resolved, ok, fits⟩ := (resolvePath_sound (ε := Empty) short usable).value
  rw [storeOutput, ok, lift_ok, pure_bind]
  cases resolved with
  | none => exact writeStr_end _ trivial
  | some path =>
    refine safe_lift_bind (sound_slice (Nat.zero_le _) inside ?_)
    refine safe_bind.mpr ((writeFile_safe _ _).mono fun stored _ => ?_)
    cases stored with
    | none => exact safe_bind.mpr ((redirectionError_safe _ _).mono fun _ _ => safe_pure.mpr trivial)
    | some len => exact safe_pure.mpr trivial

/-- The two I/O buffers between the stages. -/
structure PipeState.Fit (state : PipeState) : Prop where
  pipe : state.pipe.length ≤ maxIoBuf
  capture : state.captureBuf.length = maxIoBuf

theorem stageInput_safe {env : Env} {first : Bool} {stage : StageParse} (fit : stage.Fit)
    {pipe : Bytes} (few : pipe.length ≤ maxIoBuf)
    (usable : first = true → ∀ file, stage.inFile = some file → cwdOf env = [] →
      isAbsolute file = true) :
    (stageInput env first stage pipe).Safe Legal fun pipe' =>
      ∀ data, pipe' = some data → data.length ≤ maxIoBuf ∧
        (first = true → Opens env stage.inFile) := by
  rw [stageInput]
  cases first with
  | false =>
    refine safe_pure.mpr ?_
    rintro _ ⟨⟩
    exact ⟨few, nofun⟩
  | true =>
    cases file : stage.inFile with
    | none =>
      refine safe_pure.mpr ?_
      rintro _ ⟨⟩
      exact ⟨few, fun _ => nofun⟩
    | some path =>
      exact (openInput_safe (fit.inFile path file) (usable rfl path file)).mono
        fun pipe' opened data same => ⟨(opened data same).1, fun _ => (opened data same).2⟩

/-- A stage whose redirections have a usable directory. What follows is reached only when the input
was there and the command could be run. -/
theorem runStage_safe {env : Env} {first last : Bool} {stage : StageParse} {state : PipeState}
    (fit : stage.Fit) (buffers : state.Fit)
    (input : first = true → ∀ file, stage.inFile = some file → cwdOf env = [] →
      isAbsolute file = true)
    (output : last = true → (first = true → Opens env stage.inFile) → Launches stage.cmd →
      ∀ file, stage.outFile = some file → cwdOf env = [] → isAbsolute file = true) :
    (runStage env first last stage state).Safe Legal fun next =>
      ∀ state', next = some state' →
        state'.Fit ∧ (first = true → Opens env stage.inFile) ∧ Launches stage.cmd := by
  refine safe_bind.mpr ((stageInput_safe fit buffers.pipe input).mono fun opened usable => ?_)
  cases opened with
  | none => exact safe_pure.mpr nofun
  | some pipe =>
    obtain ⟨few, opens⟩ := usable pipe rfl
    refine safe_bind.mpr ((execFromBinIo_safe env fit.cmd _ _ _ _).mono fun result kept => ?_)
    obtain ⟨status, outLen, captureBuf⟩ := result
    obtain ⟨inside, size, launches⟩ := kept
    have size' : captureBuf.length = maxIoBuf := size.trans buffers.capture
    have inside' : outLen ≤ maxIoBuf := by rwa [buffers.capture] at inside
    dsimp only
    split
    · exact safe_bind.mpr ((unknownCommand_safe _).mono fun _ _ => safe_pure.mpr nofun)
    next ran =>
      -- Whatever is handed on, the stage had its input and its program
      have goesOn {data : Bytes} (few : data.length ≤ maxIoBuf) :
          ∀ state', some (⟨data, captureBuf⟩ : PipeState) = some state' →
            state'.Fit ∧ (first = true → Opens env stage.inFile) ∧ Launches stage.cmd := by
        rintro _ ⟨⟩
        exact ⟨⟨few, size'⟩, opens, launches ran⟩
      split
      · exact safe_pure.mpr (goesOn few)
      split
      · exact safe_lift_bind ((copyPrefix_sound (by omega) inside').mono fun part fits =>
          safe_pure.mpr (goesOn fits))
      next isLast =>
        cases file : stage.outFile with
        | none => exact safe_pure.mpr (goesOn few)
        | some path =>
          have lastStage : last = true := by simpa using isLast
          refine safe_bind.mpr ((storeOutput_safe (fit.outFile path file)
            (output lastStage opens (launches ran) path file) (by omega)).mono fun stored _ => ?_)
          cases stored
          · exact safe_pure.mpr nofun
          · exact safe_pure.mpr (goesOn few)

end Shell

end Smultron
