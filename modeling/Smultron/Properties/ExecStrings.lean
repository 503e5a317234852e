import Smultron.Properties.EntryPoint
import Smultron.Properties.ProcessTable
import Smultron.Properties.ShellCalls
import Smultron.Userspace.Apps

/-!
# The strings of an exec

Path, arguments and environment are copied and measured four times on their way to a program: by
the library, by the system call, by the loader and by the program itself. Each of them bounds the
string by the size of the same buffer, so a string that the library takes arrives as it is.
-/

namespace Smultron

open Checked Checked.Outcome ElfLoader Memory Process Utf8

/-- A text without a NUL that leaves room for one in a buffer of `max + 1` bytes. -/
structure Passes (max : Nat) (s : Bytes) : Prop where
  text : Valid s
  nulFree : 0 ∉ s
  short : s.length ≤ max

theorem takeWhile_nul {s : Bytes} (nulFree : 0 ∉ s) (rest : Bytes) :
    (s ++ 0 :: rest).takeWhile (· != 0) = s := by
  rw [List.takeWhile_append_of_pos]
  · simp
  · intro b hb
    simpa using ne_of_mem_of_not_mem hb nulFree

theorem cstr_passes {max : Nat} {s : Bytes} (h : Passes max s) :
    cstr (max + 1) (some (s ++ [0])) = some s := by
  have all : (s ++ [0]).take (max + 1) = s ++ [0] := by
    apply List.take_of_length_le
    simpa using h.short
  have found : s.length < min (max + 1) (s ++ [0]).length := by
    have := h.short
    simp
    omega
  simp only [cstr, copyCstr, all, takeWhile_nul h.nulFree]
  rw [if_pos found, Option.map_some, fromUtf8OrEmpty_of_valid h.text]

theorem cstrToStr_passes {max : Nat} {s : Bytes} (h : Passes max s) :
    cstrToStr (s ++ [0]) = s := by
  rw [cstrToStr, takeWhile_nul h.nulFree, fromUtf8OrEmpty_of_valid h.text]

/-- A string that ends inside the buffer is never refused. -/
theorem cstr_isSome {max : Nat} {s : Bytes} (short : s.length ≤ max) :
    (cstr (max + 1) (some (s ++ [0]))).isSome = true := by
  have all : (s ++ [0]).take (max + 1) = s ++ [0] := by
    apply List.take_of_length_le
    simpa using short
  have found : ((s ++ [0]).takeWhile (· != 0)).length < min (max + 1) (s ++ [0]).length := by
    -- The NUL behind the string is found, if none inside it is
    have whole : (s ++ [0]).takeWhile (· != 0) = s.takeWhile (· != 0) := by
      rw [List.takeWhile_append]
      split
      next whole => simpa using ((List.takeWhile_prefix _).eq_of_length whole).symm
      · rfl
    have few := (List.takeWhile_prefix (· != (0 : UInt8)) (l := s)).length_le
    rw [whole]
    simp
    omega
  simp only [cstr, copyCstr, all]
  rw [if_pos found]
  rfl

/-- The kernel takes three strings that fit, each as it is unless it holds a NUL or is no text. -/
theorem execArgs_some {path args env : Bytes} (hp : path.length ≤ Libos.maxPath)
    (ha : args.length ≤ Libos.maxArgs) (he : env.length ≤ Libos.maxEnv) :
    ∃ found, execArgs (some (path ++ [0])) (some (args ++ [0])) (some (env ++ [0])) = some found ∧
      (Passes Libos.maxPath path → found.1 = path) ∧
      (Passes Libos.maxArgs args → found.2.1 = args) ∧
      (Passes Libos.maxEnv env → found.2.2 = env) := by
  obtain ⟨path', first⟩ := Option.isSome_iff_exists.mp
    (cstr_isSome hp : (cstr 64 (some (path ++ [0]))).isSome = true)
  obtain ⟨args', second⟩ := Option.isSome_iff_exists.mp
    (cstr_isSome ha : (cstr 192 (some (args ++ [0]))).isSome = true)
  obtain ⟨env', third⟩ := Option.isSome_iff_exists.mp
    (cstr_isSome he : (cstr 512 (some (env ++ [0]))).isSome = true)
  refine ⟨(path', args', env'), ?_, ?_, ?_, ?_⟩
  · simp only [execArgs, cstrOrEmpty, first, second, third]
    rfl
  · exact fun passes => Option.some.inj (first.symm.trans (cstr_passes passes))
  · exact fun passes => Option.some.inj (second.symm.trans (cstr_passes passes))
  · exact fun passes => Option.some.inj (third.symm.trans (cstr_passes passes))

theorem execArgs_passes {path args env : Bytes} (hp : Passes Libos.maxPath path)
    (ha : Passes Libos.maxArgs args) (he : Passes Libos.maxEnv env) :
    execArgs (some (path ++ [0])) (some (args ++ [0])) (some (env ++ [0])) =
      some (path, args, env) := by
  obtain ⟨⟨path', args', env'⟩, found, first, second, third⟩ :=
    execArgs_some hp.short ha.short he.short
  obtain rfl := first hp
  obtain rfl := second ha
  obtain rfl := third he
  exact found

/-! ### The strings of a call -/

/-- Path, arguments and environment of an exec as the kernel takes them. -/
def Syscall.strings : Syscall → Option (Bytes × Bytes × Bytes)
  | .execve path args env => execArgs path args env
  | .execIo (some req) => execArgs req.path req.args req.env
  | _ => none

/-- The arguments as the program that is started reads them. -/
def Syscall.childArgs (c : Syscall) : Option Bytes :=
  c.strings.map fun found => cstrToStr (found.2.1 ++ [0])

/-- The environment as the program that is started reads it. -/
def Syscall.childEnv (c : Syscall) : Option Bytes :=
  c.strings.map fun found => cstrToStr (found.2.2 ++ [0])

/-- A program that is entered finds these strings in its memory. -/
theorem child_of_started {c : Syscall} {images : Vfs.Images} {pm : ProcessManager}
    {path args env : Bytes} {started : Started} {entry : Entry}
    (strings : c.strings = some (path, args, env))
    (begun : startProcess images pm path args env = .ok started)
    (entered : started.entry = .ok entry) :
    c.childArgs = some (cstrToStr entry.argBuf) ∧ c.childEnv = some (cstrToStr entry.envBuf) := by
  rw [startProcess] at begun
  split at begun
  · cases begun
  split at begun
  · cases begun
  split at begun
  · cases begun
  · -- Started with these strings, and entered with their copies
    obtain rfl := Except.ok.inj begun
    obtain ⟨_, -, -, -, -, -, rfl⟩ := enterSlot_eq_ok.mp entered
    rw [Syscall.childArgs, Syscall.childEnv, strings]
    exact ⟨rfl, rfl⟩

/-- An image that is accepted and has an entry starts, as long as its slot is free. -/
theorem startProcess_enters {images : Vfs.Images} {pm : ProcessManager} {path args env image : Bytes}
    {slotIdx : Nat} {hdr : ElfHdr} (tidy : Tidy pm)
    (file : Vfs.readFile images path = some image) (slot : slotForPath path = some slotIdx)
    (free : pm.slotsInUse[slotIdx]? = some false)
    (accepted : validateElfForSlot image (slotForIndex slotIdx) = .ok hdr)
    (entry : hdr.entry ≠ 0) (argsFit : args.length ≤ maxArgLen) (envFits : env.length ≤ maxEnvLen) :
    ∃ started, startProcess images pm path args env = .ok started ∧ started.slotIdx = slotIdx ∧
      started.image = image ∧ started.entry = .ok ⟨hdr.entry, args ++ [0], env ++ [0]⟩ := by
  have entered : (enterSlot image (slotForIndex slotIdx) args env).2 =
      .ok ⟨hdr.entry, args ++ [0], env ++ [0]⟩ :=
    enterSlot_eq_ok.mpr ⟨hdr, accepted, slotForIndex_order _, entry, argsFit, envFits, rfl⟩
  -- A free slot is never refused: the table always has a record left
  cases spawned : pm.spawnSlot slotIdx with
  | none =>
    rcases (tidy.spawnSlot_eq_none slotIdx).mp spawned with outside | taken
    · have inside := (List.getElem?_eq_some_iff.mp free).1
      rw [pm.slots_length] at inside
      omega
    · rw [free] at taken
      cases taken
  | some result =>
    obtain ⟨⟨pid, slotIdx'⟩, pm'⟩ := result
    refine ⟨⟨pid, slotIdx, image, (enterSlot image (slotForIndex slotIdx) args env).1, _, pm'⟩, ?_,
      rfl, rfl, entered⟩
    simp only [startProcess, file, slot, spawned]

section Deliver

variable {sys : System} (run : Runner) {k : Kernel} {path args env : Bytes} {started : Started}
  {entry : Entry}

theorem execWithIo_status (begun : startProcess sys.images k.pm path args env = .ok started)
    (entered : started.entry = .ok entry) (stdin : Option Bytes) (cap : Option Nat) :
    (execWithIo sys run k path args env stdin cap).map Prod.fst =
      (run path entry.argBuf entry.envBuf (childKernel k stdin cap started)).map Prod.fst := by
  simp only [execWithIo, execInternal, begun, entered, childKernel]
  cases run path entry.argBuf entry.envBuf _ with
  | none => rfl
  | some ended => rfl

theorem dispatch_execve_ret {pathBuf argsBuf envBuf : Option Bytes}
    (strings : execArgs pathBuf argsBuf envBuf = some (path, args, env))
    (begun : startProcess sys.images k.pm path args env = .ok started)
    (entered : started.entry = .ok entry) :
    (dispatch sys run (.execve pathBuf argsBuf envBuf) k).map (·.1.ret) =
      (run path entry.argBuf entry.envBuf (childKernel k none none started)).map Prod.fst := by
  rw [← execWithIo_status run begun entered none none]
  simp only [dispatch, strings, exec]
  cases execWithIo sys run k path args env none none with
  | none => rfl
  | some ended => rfl

/-- A request with its strings runs them and reports the status. -/
theorem sysExecIo_eq (req : ExecIoRequest)
    (strings : execArgs req.path req.args req.env = some (path, args, env))
    (pointers : (req.path.isNone || !req.status) = false) :
    sysExecIo sys run k req = (execWithIo sys run k path args env req.stdio.1 req.stdio.2).map
      fun ended => (⟨ended.2.1.length, ended.2.1, some ended.1⟩, ended.2.2) := by
  simp only [sysExecIo, ExecIoRequest.stdio, pointers, strings, Bool.false_eq_true, if_false]
  cases execWithIo sys run k path args env _ _ with
  | none => rfl
  | some ended => rfl

/-- What a request captures is shorter than any error value. -/
theorem captured_ne_error (req : ExecIoRequest) {status : Nat} {captured : Bytes} {k' : Kernel}
    (ran : execWithIo sys run k path args env req.stdio.1 req.stdio.2 = some (status, captured, k')) :
    captured.length ≠ u64Max := by
  have few := length_execWithIo ran
  have small : req.stdio.2.getD 0 ≤ 4096 := by
    rw [ExecIoRequest.stdio]
    cases req.stdoutCap with
    | none => exact Nat.zero_le _
    | some cap =>
      dsimp only
      split
      · exact Nat.zero_le _
      · exact Nat.min_le_right _ _
  have big : 4096 < u64Max := by decide
  omega

theorem dispatch_execIo_status (req : ExecIoRequest)
    (strings : execArgs req.path req.args req.env = some (path, args, env))
    (pointers : (req.path.isNone || !req.status) = false)
    (begun : startProcess sys.images k.pm path args env = .ok started)
    (entered : started.entry = .ok entry) :
    (dispatch sys run (.execIo (some req)) k).map (fun answer =>
        if answer.1.ret = u64Max then none else answer.1.status) =
      (run path entry.argBuf entry.envBuf
        (childKernel k req.stdio.1 req.stdio.2 started)).map fun ended => some ended.1 := by
  have status := congrArg (Option.map some)
    (execWithIo_status run begun entered req.stdio.1 req.stdio.2)
  rw [Option.map_map, Option.map_map] at status
  refine Eq.trans ?_ status
  rw [dispatch, sysExecIo_eq run req strings pointers]
  cases ended : execWithIo sys run k path args env req.stdio.1 req.stdio.2 with
  | none => rfl
  | some result =>
    obtain ⟨status, captured, k'⟩ := result
    simp [captured_ne_error run req ended]

/-- Strings that fit are handed to the kernel, and its reply is returned. -/
theorem execStrEnv_eq (pathFits : path.length ≤ Libos.maxPath) (argsFits : args.length ≤ Libos.maxArgs)
    (envFits : env.length ≤ Libos.maxEnv) :
    Libos.execStrEnv path args env = Proc.request (.execve (some (path ++ [0])) (some (args ++ [0]))
      (some (env ++ [0]))) >>= fun r => pure r.ret := by
  rw [Libos.execStrEnv, if_neg (by omega), Shell.execBuffers_ok pathFits argsFits envFits,
    Proc.lift_ok, Proc.pure_bind]

/-- Through `exec` (59). -/
theorem execStrEnv_delivers (hp : Passes Libos.maxPath path) (ha : Passes Libos.maxArgs args)
    (he : Passes Libos.maxEnv env)
    (begun : startProcess sys.images k.pm path args env = .ok started)
    (entered : started.entry = .ok entry) :
    ((Libos.execStrEnv path args env).run (dispatch sys run) k).map (·.result) =
      (run path entry.argBuf entry.envBuf (childKernel k none none started)).map (.ok ·.1) := by
  have ret := congrArg (Option.map (Outcome.ok (ε := Empty)))
    (dispatch_execve_ret run (execArgs_passes hp ha he) begun entered)
  rw [Option.map_map, Option.map_map] at ret
  rw [execStrEnv_eq hp.short ha.short he.short, Proc.run_request_pure, Option.map_map]
  exact ret

/-- The request `exec_io_str_env` hands to the kernel. -/
def ioRequest (path args env : Bytes) (stdin stdout : Option Bytes) : ExecIoRequest where
  path := some (path ++ [0])
  args := some (args ++ [0])
  env := some (env ++ [0])
  stdin := stdin
  stdoutCap := stdout.map List.length
  status := true

/-- What it makes of the reply. -/
def ioAnswer (stdout : Option Bytes) (r : Reply) : Nat × Nat × Option Bytes :=
  if r.ret = u64Max then (u64Max, 0, stdout.map (Libos.overwrite · r.data))
  else (r.status.getD u64Max, r.ret, stdout.map (Libos.overwrite · r.data))

theorem execIoStrEnv_eq (pathFits : path.length ≤ Libos.maxPath)
    (argsFits : args.length ≤ Libos.maxArgs) (envFits : env.length ≤ Libos.maxEnv)
    (stdin stdout : Option Bytes) :
    Libos.execIoStrEnv path args env stdin stdout =
      Proc.request (.execIo (some (ioRequest path args env stdin stdout))) >>=
        fun r => pure (ioAnswer stdout r) := by
  rw [Libos.execIoStrEnv, if_neg (by omega), Shell.execBuffers_ok pathFits argsFits envFits,
    Proc.lift_ok, Proc.pure_bind]
  refine congrArg (Proc.request _ >>= ·) (funext fun r => ?_)
  rw [ioAnswer]
  split <;> rfl

/-- Through `exec_io` (80). -/
theorem execIoStrEnv_delivers (hp : Passes Libos.maxPath path) (ha : Passes Libos.maxArgs args)
    (he : Passes Libos.maxEnv env)
    (begun : startProcess sys.images k.pm path args env = .ok started)
    (entered : started.entry = .ok entry) (stdin stdout : Option Bytes) :
    ((Libos.execIoStrEnv path args env stdin stdout).run (dispatch sys run) k).map
        (Prod.fst <$> ·.result) =
      (run path entry.argBuf entry.envBuf
        (childKernel k (ioRequest path args env stdin stdout).stdio.1
          (ioRequest path args env stdin stdout).stdio.2 started)).map (.ok ·.1) := by
  have status := congrArg (Option.map fun s => (.ok (s.getD u64Max) : Outcome Empty Nat))
    (dispatch_execIo_status run (ioRequest path args env stdin stdout)
      (execArgs_passes hp ha he) rfl begun entered)
  rw [Option.map_map, Option.map_map] at status
  rw [execIoStrEnv_eq hp.short ha.short he.short, Proc.run_request_pure, Option.map_map]
  refine Eq.trans (congrArg (Option.map · _) (funext fun r => ?_)) status
  simp only [Function.comp, ioAnswer]
  split <;> rfl

end Deliver

/-- Whatever strings the library takes, the kernel starts the program at exactly that path, the
program reads exactly those arguments and that environment, and its status comes back. -/
theorem exec_strings_delivered (sys : System) (k : Kernel) (calls : List TableCall)
    (path args env image : Bytes) (slotIdx : Nat) (hdr : ElfHdr)
    (few : ProcessManager.new.spawns calls < u64Max)
    (table : k.pm = ProcessManager.new.after calls)
    (hp : Passes Libos.maxPath path) (ha : Passes Libos.maxArgs args) (he : Passes Libos.maxEnv env)
    (file : Vfs.readFile sys.images path = some image) (slot : slotForPath path = some slotIdx)
    (free : k.pm.slotsInUse[slotIdx]? = some false)
    (accepted : validateElfForSlot image (slotForIndex slotIdx) = .ok hdr)
    (nonzero : hdr.entry ≠ 0) :
    ∃ started entry, startProcess sys.images k.pm path args env = .ok started ∧
      started.entry = .ok entry ∧ entry.entry = hdr.entry ∧
      cstrToStr entry.argBuf = args ∧ cstrToStr entry.envBuf = env ∧
      ∀ run : Runner,
        ((Libos.execStrEnv path args env).run (dispatch sys run) k).map (·.result) =
          (run path entry.argBuf entry.envBuf (childKernel k none none started)).map (.ok ·.1) ∧
        ∀ stdin stdout,
          ((Libos.execIoStrEnv path args env stdin stdout).run (dispatch sys run) k).map
              (Prod.fst <$> ·.result) =
            (run path entry.argBuf entry.envBuf
              (childKernel k (ioRequest path args env stdin stdout).stdio.1
                (ioRequest path args env stdin stdout).stdio.2 started)).map (.ok ·.1) := by
  have tidy : Tidy k.pm := table ▸ (tidy_reached calls few).1
  obtain ⟨started, begun, -, -, entered⟩ := startProcess_enters tidy file slot free accepted nonzero
    (ha.short : args.length ≤ maxArgLen) (he.short : env.length ≤ maxEnvLen)
  refine ⟨started, _, begun, entered, rfl, cstrToStr_passes ha, cstrToStr_passes he, fun run => ?_⟩
  exact ⟨execStrEnv_delivers run hp ha he begun entered,
    execIoStrEnv_delivers run hp ha he begun entered⟩

/-- The longest strings there are. -/
theorem exec_strings_delivered_longest :
    ∃ started entry,
      startProcess bareImages ProcessManager.new (str "/bin/cat") (List.replicate 191 120)
        (List.replicate 511 121) = .ok started ∧
      started.entry = .ok entry ∧ cstrToStr entry.argBuf = List.replicate 191 120 ∧
      cstrToStr entry.envBuf = List.replicate 511 121 := by
  obtain ⟨started, entry, begun, entered, -, args, env, -⟩ :=
    exec_strings_delivered (uniform []) typing [] (str "/bin/cat") (List.replicate 191 120)
      (List.replicate 511 121) bareImage 4 ⟨1, 64, 56, 0⟩ (by decide +kernel) rfl
      ⟨by decide +kernel, by decide, by decide⟩
      ⟨valid_iff.mpr ⟨List.replicate 191 'x', by decide +kernel⟩, by decide +kernel,
        by decide +kernel⟩
      ⟨valid_iff.mpr ⟨List.replicate 511 'y', by decide +kernel⟩, by decide +kernel,
        by decide +kernel⟩
      (by decide +kernel) (by decide +kernel) (by decide +kernel) (by decide +kernel) (by decide)
  exact ⟨started, entry, begun, entered, args, env⟩

end Smultron
