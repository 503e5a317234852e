import Smultron.Kernel.Syscall

/-!
# What system calls do to the stdio context

`IoState.stdio` says what the context means to the running program. Each operation of the context
is an operation on that meaning, and each system call other than an exec either leaves it alone,
consumes redirected input, or captures output.
-/

namespace Smultron

open Memory Process Checked

namespace Process.IoState

/-! ### The context's operations -/

theorem stdio_setUp (io : IoState) (stdin : Option Bytes) (capture : Bool) :
    (io.setUp stdin capture).stdio =
      ⟨stdin.map (List.take maxIoStdin), if capture then some [] else none⟩ := by
  cases stdin with
  | none => simp [setUp, stdio]
  | some data =>
    have fits : 0 + (data.take (min data.length maxIoStdin)).length ≤ maxIoStdin := by
      rw [List.length_take]
      omega
    -- What the setup copies is what stands in front of the new length.
    have copied : (io.stdinBuf.blit 0 (data.take (min data.length maxIoStdin)) fits).front
        (min data.length maxIoStdin) = data.take (min data.length maxIoStdin) :=
      Buffer.front_blit_zero _ _ fits (by simp)
    simp only [setUp, stdio, Option.isSome_some, Bool.and_self, if_true, List.drop_zero,
      Option.map_some, Bool.true_and, Buffer.front_zero, copied]
    rw [Buffer.take_min_length]

theorem stdio_tearDown (io : IoState) (cap : Option Nat) :
    (io.tearDown cap).2.stdio = ⟨none, none⟩ := by
  simp [tearDown, stdio]

theorem takeStdinByte_console {io : IoState} (h : io.stdio.stdin = none) :
    io.takeStdinByte = (.unavailable, io) := by
  have off : (!io.active || !io.stdinEnabled) = true := by
    simp only [stdio] at h
    split at h
    · cases h
    next inactive => simpa [Decidable.imp_iff_not_or] using inactive
  simp [takeStdinByte, off]

theorem takeStdinByte_eof {io : IoState} (h : io.stdio.stdin = some []) :
    io.takeStdinByte = (.eof, io) := by
  simp only [stdio] at h
  split at h
  next on =>
    -- Nothing lies between the position and the length, so the position is at the length.
    have consumed : io.stdinLen ≤ io.stdinPos := by
      have len := congrArg List.length (Option.some.inj h)
      have fits := io.stdin_fits
      simp at len
      omega
    have on' : (!io.active || !io.stdinEnabled) = false := by simpa using on
    simp [takeStdinByte, on', consumed]
  · cases h

theorem takeStdinByte_byte {io : IoState} {b : UInt8} {rest : Bytes}
    (h : io.stdio.stdin = some (b :: rest)) :
    ∃ io', io.takeStdinByte = (.byte b, io') ∧ io'.stdio = ⟨some rest, io.stdio.stdout⟩ := by
  simp only [stdio] at h
  split at h
  next on =>
    have left := Option.some.inj h
    have open_ : io.stdinPos < io.stdinLen := by
      have len := congrArg List.length left
      simp at len
      omega
    rw [Buffer.drop_front _ open_ io.stdin_fits] at left
    obtain ⟨rfl, rfl⟩ := List.cons.inj left
    have on' : (!io.active || !io.stdinEnabled) = false := by simpa using on
    refine ⟨{ io with stdinPos := io.stdinPos + 1 }, ?_, ?_⟩
    · simp [takeStdinByte, on', Nat.not_le.mpr open_]
    · simp [stdio, on]
  · cases h

theorem captureStdout_console {io : IoState} (h : io.stdio.stdout = none) (buf : Bytes) :
    io.captureStdout buf = (false, io) := by
  have off : (!io.active || !io.stdoutCapture) = true := by
    simp only [stdio] at h
    split at h
    · cases h
    next inactive => simpa [Decidable.imp_iff_not_or] using inactive
  simp [captureStdout, off]

theorem captureStdout_full {io : IoState} {out : Bytes} (h : io.stdio.stdout = some out)
    (full : maxIoStdout ≤ out.length) (buf : Bytes) : io.captureStdout buf = (false, io) := by
  simp only [stdio] at h
  split at h
  next on =>
    have len := congrArg List.length (Option.some.inj h)
    have fits := io.stdout_fits
    -- The mark stands at the end of the buffer
    have mark : maxIoStdout ≤ io.stdoutLen := by
      simp at len
      omega
    simp [captureStdout, mark]
  · cases h

theorem captureStdout_room {io : IoState} {out : Bytes} (h : io.stdio.stdout = some out)
    (room : out.length < maxIoStdout) (buf : Bytes) :
    ∃ io', io.captureStdout buf = (true, io') ∧
      io'.stdio = ⟨io.stdio.stdin, some ((out ++ buf).take maxIoStdout)⟩ := by
  simp only [stdio] at h
  split at h
  next on =>
    have same := Option.some.inj h
    have len := congrArg List.length same
    have fits := io.stdout_fits
    have mark : io.stdoutLen = out.length := by
      simp at len
      omega
    have on' : (!io.active || !io.stdoutCapture) = false := by simpa using on
    have open_ : ¬maxIoStdout ≤ io.stdoutLen := by omega
    have fits' : io.stdoutLen + (buf.take (min (maxIoStdout - io.stdoutLen) buf.length)).length ≤
        maxIoStdout := by
      simp
      omega
    have appended : (io.stdoutBuf.blit io.stdoutLen _ fits').front
        (io.stdoutLen + min (maxIoStdout - io.stdoutLen) buf.length) = _ :=
      Buffer.front_blit _ _ _ fits' (by simp)
    -- The bytes that fit are the beginning of old and new output together.
    have written : out ++ buf.take (min (maxIoStdout - io.stdoutLen) buf.length) =
        (out ++ buf).take maxIoStdout := by
      rw [← List.take_take, List.take_length, List.take_append,
        List.take_of_length_le (Nat.le_of_lt room), mark]
    rw [same, written] at appended
    refine ⟨_, by simp [captureStdout, on', open_]; rfl, ?_⟩
    simp only [stdio, on, if_true, appended]
  · cases h

theorem stdout_fits_stdio {io : IoState} {out : Bytes} (h : io.stdio.stdout = some out) :
    out.length ≤ maxIoStdout := by
  simp only [stdio] at h
  split at h
  · have len := congrArg List.length (Option.some.inj h)
    simp at len
    omega
  · cases h

end Process.IoState

/-! ### Reading -/

/-- Redirected input is delivered in order and the console is not asked. -/
theorem readLoop_redirected (left : Nat) {io : IoState} {rest : Bytes} (console : Console)
    (h : io.stdio.stdin = some rest) :
    ∃ io', readLoop left io console = (rest.take left, io', console) ∧
      io'.stdio = ⟨some (rest.drop left), io.stdio.stdout⟩ := by
  induction left generalizing io rest with
  | zero => exact ⟨io, rfl, by rw [List.drop_zero, ← h]⟩
  | succ left ih =>
    cases rest with
    | nil =>
      -- The input has ended, and so does the read
      refine ⟨io, ?_, by rw [List.drop_nil, ← h]⟩
      simp [readLoop, IoState.takeStdinByte_eof h]
    | cons b rest =>
      obtain ⟨io₁, taken, after⟩ := IoState.takeStdinByte_byte h
      obtain ⟨io₂, looped, last⟩ := ih (congrArg Stdio.stdin after)
      refine ⟨io₂, by simp [readLoop, taken, looped], ?_⟩
      rw [last, after, List.drop_succ_cons]

/-- Without redirected input the context stays, and a read takes at least one console byte. -/
theorem readLoop_console (left : Nat) {io : IoState} (console : Console)
    (h : io.stdio.stdin = none) :
    ∃ bytes console', readLoop left io console = (bytes, io, console') ∧
      console'.serial = console.serial ∧ console'.vga = console.vga ∧
      console'.input = console.input ∧ console.taken + min left 1 ≤ console'.taken := by
  induction left generalizing console with
  | zero => exact ⟨[], console, rfl, rfl, rfl, rfl, Nat.le_refl _⟩
  | succ left ih =>
    simp only [readLoop, IoState.takeStdinByte_console h]
    split
    · -- A line end
      exact ⟨_, _, rfl, rfl, rfl, rfl, by simp⟩
    · obtain ⟨bytes, console', looped, serial, vga, input, taken⟩ :=
        ih { console with taken := console.taken + 1 }
      refine ⟨_, console', by rw [looped], serial, vga, input, ?_⟩
      simp only at taken
      omega

/-! ### What a call reads and writes -/

/-- The bytes a call hands to the output. -/
def Syscall.output : Syscall → Bytes
  | .write fd (some bytes) => if fd = 1 ∨ fd = 2 then bytes else []
  | _ => []

@[simp] theorem Syscall.output_read (fd : Nat) (buf : Option Nat) : (Syscall.read fd buf).output = [] :=
  rfl

@[simp] theorem Syscall.output_stdout (bytes : Bytes) : (Syscall.write 1 (some bytes)).output = bytes :=
  rfl

/-- The bytes a call got from the input. -/
def Syscall.inputOf : Syscall → Reply → Bytes
  | .read _ _, reply => reply.data
  | _, _ => []

def written (calls : List (Syscall × Reply)) : Bytes := calls.flatMap fun cr => cr.1.output

def delivered (calls : List (Syscall × Reply)) : Bytes := calls.flatMap fun cr => cr.1.inputOf cr.2

@[simp] theorem written_append (calls calls' : List (Syscall × Reply)) :
    written (calls ++ calls') = written calls ++ written calls' := List.flatMap_append

@[simp] theorem delivered_append (calls calls' : List (Syscall × Reply)) :
    delivered (calls ++ calls') = delivered calls ++ delivered calls' := List.flatMap_append

@[simp] theorem written_singleton (cr : Syscall × Reply) : written [cr] = cr.1.output := by
  simp [written]

@[simp] theorem delivered_singleton (cr : Syscall × Reply) :
    delivered [cr] = cr.1.inputOf cr.2 := by
  simp [delivered]

def Syscall.isExec : Syscall → Bool
  | .execve .. | .execIo _ => true
  | _ => false

/-- The call gets as far as `exec_with_io`: its pointers are not null and its strings fit. -/
def Syscall.entersExec : Syscall → Bool
  | .execve path args env => (execArgs path args env).isSome
  | .execIo (some req) =>
    req.path.isSome && req.status && (execArgs req.path req.args req.env).isSome
  | _ => false

theorem isExec_of_entersExec {c : Syscall} (h : c.entersExec = true) : c.isExec = true := by
  cases c with
  | execve _ _ _ => rfl
  | execIo _ => rfl
  | _ => cases h

theorem entersExec_of_isExec {c : Syscall} (h : c.isExec = false) : c.entersExec = false := by
  cases enters : c.entersExec with
  | false => rfl
  | true => exact absurd (isExec_of_entersExec enters) (by simp [h])

variable {sys : System} {run : Runner}

theorem sysRead_redirected {k : Kernel} {rest : Bytes} (h : k.io.stdio.stdin = some rest)
    (fd : Nat) (buf : Option Nat) :
    ∃ io', sysRead k fd buf = ((sysRead k fd buf).1, { k with io := io' }) ∧
      (sysRead k fd buf).1.data = (if fd = 0 then rest.take (buf.getD 0) else []) ∧
      io'.stdio = ⟨some (rest.drop (sysRead k fd buf).1.data.length), k.io.stdio.stdout⟩ := by
  have same : k.io.stdio = ⟨some (rest.drop 0), k.io.stdio.stdout⟩ := by rw [List.drop_zero, ← h]
  cases buf with
  | none => exact ⟨k.io, rfl, by simp [sysRead, Reply.failed, Reply.value], same⟩
  | some len =>
    by_cases zero : fd = 0
    · by_cases empty : len = 0
      · exact ⟨k.io, by simp [sysRead, zero, empty], by simp [sysRead, zero, empty, Reply.value],
          by simpa [sysRead, zero, empty, Reply.value] using same⟩
      · obtain ⟨io', looped, last⟩ := readLoop_redirected len k.console h
        refine ⟨io', by simp [sysRead, zero, empty, looped], by simp [sysRead, zero, empty, looped],
          ?_⟩
        simp only [sysRead, zero, empty, looped, ne_eq, not_true_eq_false, if_false, last,
          List.length_take, Buffer.drop_min_length]
    · exact ⟨k.io, by simp [sysRead, zero], by simp [sysRead, zero, Reply.failed, Reply.value],
        by simpa [sysRead, zero, Reply.failed, Reply.value] using same⟩

theorem sysRead_console {k : Kernel} (h : k.io.stdio.stdin = none) (fd : Nat) (buf : Option Nat) :
    (sysRead k fd buf).2.io = k.io ∧ (sysRead k fd buf).2.console.serial = k.console.serial ∧
      (sysRead k fd buf).2.console.vga = k.console.vga := by
  simp only [sysRead]
  split
  · exact ⟨rfl, rfl, rfl⟩
  next len =>
    split
    · exact ⟨rfl, rfl, rfl⟩
    split
    · exact ⟨rfl, rfl, rfl⟩
    · obtain ⟨bytes, console, looped, serial, vga, -⟩ := readLoop_console len k.console h
      simp only [looped, serial, vga, and_self]

theorem sysRead_outputs (k : Kernel) (fd : Nat) (buf : Option Nat) :
    (sysRead k fd buf).2.console.serial = k.console.serial ∧
      (sysRead k fd buf).2.console.vga = k.console.vga := by
  cases stdin : k.io.stdio.stdin with
  | none => exact (sysRead_console stdin fd buf).2
  | some rest =>
    obtain ⟨io', after, -⟩ := sysRead_redirected stdin fd buf
    rw [after]
    exact ⟨rfl, rfl⟩

theorem sysWrite_eq (k : Kernel) (fd : Nat) (buf : Option Bytes) :
    (sysWrite k fd buf).2 =
      if (Syscall.write fd buf).output = [] then k
      else
        match k.io.captureStdout (Syscall.write fd buf).output with
        | (true, io) => { k with io }
        | (false, io) =>
          { k with io, console := (Syscall.write fd buf).output.foldl .put k.console } := by
  cases buf with
  | none => rfl
  | some bytes =>
    by_cases wrong : fd ≠ 1 ∧ fd ≠ 2
    · have none : (Syscall.write fd (some bytes)).output = [] := by
        simp only [Syscall.output, ite_eq_right_iff]
        omega
      rw [none, if_pos rfl, sysWrite, if_pos wrong]
    · have all : (Syscall.write fd (some bytes)).output = bytes := if_pos (by omega)
      rw [all]
      by_cases empty : bytes = []
      · rw [if_pos empty, sysWrite, if_neg wrong, if_pos (List.length_eq_zero_iff.mpr empty)]
      · rw [if_neg empty, sysWrite, if_neg wrong, if_neg (mt List.length_eq_zero_iff.mp empty)]
        cases outcome : k.io.captureStdout bytes with
        | mk captured io => cases captured <;> rfl

theorem sysWrite_captured {k : Kernel} {out : Bytes} (h : k.io.stdio.stdout = some out)
    (room : out.length < maxIoStdout) (fd : Nat) (buf : Option Bytes) :
    ∃ io', (sysWrite k fd buf).2 = { k with io := io' } ∧
      io'.stdio = ⟨k.io.stdio.stdin, some ((out ++ (Syscall.write fd buf).output).take maxIoStdout)⟩ := by
  rw [sysWrite_eq]
  by_cases nothing : (Syscall.write fd buf).output = []
  · refine ⟨k.io, if_pos nothing, ?_⟩
    rw [nothing, List.append_nil, List.take_of_length_le (Nat.le_of_lt room), ← h]
  · -- There is room, so the capture takes at least the first byte
    obtain ⟨io', captured, after⟩ := IoState.captureStdout_room h room (Syscall.write fd buf).output
    exact ⟨io', by rw [if_neg nothing, captured], after⟩

/-- Where nothing is captured, a write goes to the console and the context stays. -/
theorem sysWrite_console {k : Kernel} (fd : Nat) (buf : Option Bytes)
    (h : k.io.captureStdout (Syscall.write fd buf).output = (false, k.io)) :
    (sysWrite k fd buf).2 =
      { k with console := (Syscall.write fd buf).output.foldl .put k.console } := by
  rw [sysWrite_eq]
  by_cases nothing : (Syscall.write fd buf).output = []
  · rw [if_pos nothing, nothing, List.foldl_nil]
  · rw [if_neg nothing, h]

/-! ### Execs -/

/-- What `sys_exec_io` passes on as input and as output buffer. -/
def ExecIoRequest.stdio (req : ExecIoRequest) : Option Bytes × Option Nat :=
  (match req.stdin with
    | none => none
    | some data => if data.length = 0 then none else some (data.take 4096),
   match req.stdoutCap with
    | none => none
    | some cap => if cap = 0 then none else some (min cap 4096))

theorem execWithIo_eq_some {k k' : Kernel} {path args env captured : Bytes}
    {stdin : Option Bytes} {cap : Option Nat} {status : Nat}
    (h : execWithIo sys run k path args env stdin cap = some (status, captured, k')) :
    ∃ k₁, execInternal sys run { k with io := k.io.setUp stdin cap.isSome } path args env =
        some (status, k₁) ∧
      captured = (k₁.io.tearDown cap).1 ∧ k' = { k₁ with io := (k₁.io.tearDown cap).2 } := by
  rw [execWithIo] at h
  split at h
  · cases h
  next ended =>
    obtain ⟨rfl, rest⟩ := Prod.mk.inj (Option.some.inj h)
    obtain ⟨rfl, rfl⟩ := Prod.mk.inj rest
    exact ⟨_, ended, rfl, rfl⟩

/-- Whatever an exec runs, it leaves no context behind. -/
theorem stdio_execWithIo {k k' : Kernel} {path args env captured : Bytes} {stdin : Option Bytes}
    {cap : Option Nat} {status : Nat}
    (h : execWithIo sys run k path args env stdin cap = some (status, captured, k')) :
    k'.io.stdio = ⟨none, none⟩ := by
  obtain ⟨k₁, -, -, rfl⟩ := execWithIo_eq_some h
  exact IoState.stdio_tearDown k₁.io cap

/-- What an `execve` can do: nothing, when it is turned away at its strings, or one run. -/
theorem execve_cases {k k' : Kernel} {path args env : Option Bytes} {r : Reply}
    (h : dispatch sys run (.execve path args env) k = some (r, k')) :
    (execArgs path args env = none ∧ r = .failed ∧ k' = k) ∨
      ∃ p a e status captured, execArgs path args env = some (p, a, e) ∧
        execWithIo sys run k p a e none none = some (status, captured, k') ∧
        r = .value status := by
  rw [dispatch] at h
  cases strings : execArgs path args env with
  | none =>
    simp only [strings] at h
    obtain ⟨rfl, rfl⟩ := Prod.mk.inj (Option.some.inj h)
    exact .inl ⟨rfl, rfl, rfl⟩
  | some found =>
    obtain ⟨p, a, e⟩ := found
    simp only [strings, exec] at h
    cases ended : execWithIo sys run k p a e none none with
    | none =>
      simp only [ended] at h
      cases h
    | some result =>
      obtain ⟨status, captured, k₁⟩ := result
      simp only [ended] at h
      obtain ⟨rfl, rfl⟩ := Prod.mk.inj (Option.some.inj h)
      -- The capture of a plain `execve` is empty and not copied
      exact .inr ⟨p, a, e, status, captured, rfl, ended, rfl⟩

/-- The check `sys_exec_io` makes of its pointers, and its strings. -/
theorem entersExec_execIo (req : ExecIoRequest) : (Syscall.execIo (some req)).entersExec =
    (!(req.path.isNone || !req.status) && (execArgs req.path req.args req.env).isSome) := by
  rw [Syscall.entersExec]
  cases req.path <;> simp

/-- What an `exec_io` can do: nothing, when it is turned away at a null pointer or at its strings,
or one run. -/
theorem execIo_cases {k k' : Kernel} {req : ExecIoRequest} {r : Reply}
    (h : dispatch sys run (.execIo (some req)) k = some (r, k')) :
    ((Syscall.execIo (some req)).entersExec = false ∧ r = .failed ∧ k' = k) ∨
      ∃ p a e status captured, (req.path.isNone || !req.status) = false ∧
        execArgs req.path req.args req.env = some (p, a, e) ∧
        execWithIo sys run k p a e req.stdio.1 req.stdio.2 = some (status, captured, k') ∧
        r = ⟨captured.length, captured, some status⟩ := by
  rw [entersExec_execIo]
  rw [dispatch, sysExecIo] at h
  split at h
  next null =>
    obtain ⟨rfl, rfl⟩ := Prod.mk.inj (Option.some.inj h)
    exact .inl ⟨by simp [null], rfl, rfl⟩
  next pointers =>
    split at h
    next strings =>
      obtain ⟨rfl, rfl⟩ := Prod.mk.inj (Option.some.inj h)
      exact .inl ⟨by simp [strings], rfl, rfl⟩
    next p a e strings =>
      dsimp only at h
      split at h
      · cases h
      next status captured k₁ ended =>
        obtain ⟨rfl, rfl⟩ := Prod.mk.inj (Option.some.inj h)
        exact .inr ⟨p, a, e, status, captured, (Bool.not_eq_true _).mp pointers, strings, ended, rfl⟩

theorem stdio_entered {k k' : Kernel} {c : Syscall} {r : Reply}
    (h : dispatch sys run c k = some (r, k')) (enters : c.entersExec = true) :
    k'.io.stdio = ⟨none, none⟩ := by
  cases c with
  | execve path args env =>
    rcases execve_cases h with ⟨strings, -, -⟩ | ⟨p, a, e, status, captured, -, ended, -⟩
    · rw [Syscall.entersExec, strings] at enters
      cases enters
    · exact stdio_execWithIo ended
  | execIo req =>
    cases req with
    | none => cases enters
    | some req =>
      rcases execIo_cases h with ⟨refused, -, -⟩ | ⟨p, a, e, status, captured, -, -, ended, -⟩
      · rw [refused] at enters
        cases enters
      · exact stdio_execWithIo ended
  | _ => cases enters

/-- An exec whose arguments are rejected does nothing. -/
theorem dispatch_refused {k : Kernel} {c : Syscall} (exec : c.isExec = true)
    (refused : c.entersExec = false) : dispatch sys run c k = some (.failed, k) := by
  cases c with
  | execve path args env =>
    have strings : execArgs path args env = none := by simpa [Syscall.entersExec] using refused
    simp only [dispatch, strings]
  | execIo req =>
    cases req with
    | none => rfl
    | some req =>
      simp only [dispatch, sysExecIo]
      split
      · rfl
      next pointers =>
        rw [entersExec_execIo, (Bool.not_eq_true _).mp pointers] at refused
        have strings : execArgs req.path req.args req.env = none := by simpa using refused
        simp only [strings]
  | _ => cases exec

/-! ### One call -/

/-- What a call that enters no exec can do: read, write, or change the files at most. -/
theorem dispatch_cases {k k' : Kernel} {c : Syscall} {r : Reply}
    (h : dispatch sys run c k = some (r, k')) (quiet : c.entersExec = false) :
    (∃ fd buf, c = .read fd buf ∧ sysRead k fd buf = (r, k')) ∨
      (∃ fd buf, c = .write fd buf ∧ sysWrite k fd buf = (r, k')) ∨
      (c.output = [] ∧ c.inputOf r = [] ∧ ∃ ram, k' = { k with ram }) := by
  cases c with
  | read fd buf => exact .inl ⟨fd, buf, rfl, Option.some.inj h⟩
  | write fd buf => exact .inr (.inl ⟨fd, buf, rfl, Option.some.inj h⟩)
  | execve path args env =>
    -- An exec that is turned away at its arguments is a call that does nothing
    rw [dispatch_refused rfl quiet] at h
    cases h
    exact .inr (.inr ⟨rfl, rfl, k.ram, rfl⟩)
  | execIo req =>
    rw [dispatch_refused rfl quiet] at h
    cases h
    exact .inr (.inr ⟨rfl, rfl, k.ram, rfl⟩)
  | exit code =>
    cases h
    exact .inr (.inr ⟨rfl, rfl, k.ram, rfl⟩)
  | readDir path buf =>
    -- A listing and a file are read without a trace in the kernel
    refine .inr (.inr ⟨rfl, rfl, k.ram, ?_⟩)
    simp only [dispatch] at h
    repeat' split at h
    all_goals cases h
    all_goals rfl
  | readFile path buf =>
    refine .inr (.inr ⟨rfl, rfl, k.ram, ?_⟩)
    simp only [dispatch] at h
    repeat' split at h
    all_goals cases h
    all_goals rfl
  | writeFile path data =>
    refine .inr (.inr ⟨rfl, rfl, k'.ram, ?_⟩)
    simp only [dispatch] at h
    repeat' split at h
    all_goals cases h
    all_goals rfl
  | other nr =>
    cases h
    exact .inr (.inr ⟨rfl, rfl, k.ram, rfl⟩)

theorem stdin_idle (io : IoState) : io.stdio.stdin.map (List.drop 0) = io.stdio.stdin := by
  cases io.stdio.stdin <;> rfl

theorem stdout_idle (io : IoState) :
    (io.stdio.stdout.map fun out => (out ++ []).take maxIoStdout) = io.stdio.stdout := by
  cases captured : io.stdio.stdout with
  | none => rfl
  | some out =>
    have fits := IoState.stdout_fits_stdio captured
    simp [List.take_of_length_le fits]

/-- Reads consume the redirected input and writes extend the capture. -/
theorem stdio_dispatch {k k' : Kernel} {c : Syscall} {r : Reply}
    (h : dispatch sys run c k = some (r, k')) (quiet : c.entersExec = false) :
    k'.io.stdio =
      ⟨k.io.stdio.stdin.map (List.drop (c.inputOf r).length),
       k.io.stdio.stdout.map fun out => (out ++ c.output).take maxIoStdout⟩ := by
  rcases dispatch_cases h quiet with ⟨fd, buf, rfl, read⟩ | ⟨fd, buf, rfl, wrote⟩ |
      ⟨output, input, ram, rfl⟩
  · have same : (Syscall.read fd buf).output = [] := rfl
    rw [same, stdout_idle]
    cases stdin : k.io.stdio.stdin with
    | none =>
      -- A read of the console does not touch the context
      obtain ⟨io, -⟩ := sysRead_console stdin fd buf
      rw [read] at io
      change k'.io = k.io at io
      rw [io, Option.map_none, ← stdin]
    | some rest =>
      obtain ⟨io', after, -, last⟩ := sysRead_redirected stdin fd buf
      rw [read] at after last
      have io : k'.io = io' := congrArg (fun p : Reply × Kernel => p.2.io) after
      rw [io, last, Option.map_some]
      rfl
  · obtain rfl : k' = (sysWrite k fd buf).2 := congrArg Prod.snd wrote.symm
    have input : (Syscall.write fd buf).inputOf r = [] := rfl
    rw [input, List.length_nil, stdin_idle]
    cases stdout : k.io.stdio.stdout with
    | none =>
      rw [sysWrite_console fd buf (IoState.captureStdout_console stdout _), Option.map_none, ← stdout]
    | some out =>
      by_cases room : out.length < maxIoStdout
      · obtain ⟨io', after, last⟩ := sysWrite_captured stdout room fd buf
        rw [after, last, Option.map_some]
      · -- A full capture stays as it is
        have full := Nat.not_lt.mp room
        have fits := IoState.stdout_fits_stdio stdout
        rw [sysWrite_console fd buf (IoState.captureStdout_full stdout full _), Option.map_some,
          List.take_append_of_le_length full, List.take_of_length_le fits, ← stdout]
  · rw [output, input, List.length_nil, stdin_idle, stdout_idle]

end Smultron
