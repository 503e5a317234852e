import Smultron.Properties.FileAppRuns

/-!
# A program in its slot

What it takes for an exec to run a program of the boot image: the image is accepted and has an
entry, and the slot of its path is free. What the program then does is what its `_start` does with
the two strings.
-/

namespace Smultron

open Checked Checked.Outcome ElfLoader Proc Process Utf8

variable {sys : System} {k : Kernel} {path args env out : Bytes} {slotIdx depth : Nat}
  {start : Bytes → Bytes → Program Syscall Reply Nat}

/-- The boot image holds the program under the path, and the kernel has its slot free. -/
structure Installed (sys : System) (k : Kernel) (path : Bytes) (slotIdx : Nat)
    (start : Bytes → Bytes → Program Syscall Reply Nat) : Prop where
  image : ∀ argBuf envBuf, sys.image path argBuf envBuf = start argBuf envBuf
  mapped : slotForPath path = some slotIdx
  accepted : ∃ bytes hdr, Vfs.readFile sys.images path = some bytes ∧
    validateElfForSlot bytes (slotForIndex slotIdx) = .ok hdr ∧ hdr.entry ≠ 0
  table : ∃ calls, ProcessManager.new.spawns calls < u64Max ∧ k.pm = ProcessManager.new.after calls
  free : k.pm.slotsInUse[slotIdx]? = some false

/-- The exec runs what starts at the entry, in a kernel with the context that was set up. -/
theorem Installed.childRun_eq (h : Installed sys k path slotIdx start) (ha : args.length ≤ Libos.maxArgs)
    (he : env.length ≤ Libos.maxEnv) (depth : Nat) (stdin : Option Bytes) (cap : Option Nat) :
    ∃ started, childRun sys depth k path args env stdin cap =
      (start (args ++ [0]) (env ++ [0])).run (dispatch sys (runImage sys depth))
        (childKernel k stdin cap started) := by
  obtain ⟨bytes, hdr, file, accepted, entry⟩ := h.accepted
  obtain ⟨calls, few, table⟩ := h.table
  obtain ⟨started, begun, -, -, entered⟩ := startProcess_enters (table ▸ (tidy_reached calls few).1)
    file h.mapped h.free accepted entry ha he
  exact ⟨started, by simp only [childRun, begun, entered, h.image]⟩

/-- A program that starts no other program. -/
theorem noExec_of_isIo {α : Type} {x : User α} (h : x.Only (·.isIo = true)) {runner : Runner}
    {ran : Program.Ran Syscall Reply Kernel (Outcome Empty α)}
    (ended : x.run (dispatch sys runner) k = some ran) : ∀ st ∈ ran.steps, st.call.isExec = false := by
  intro st hst
  have isIo := h.steps ended st hst
  cases call : st.call with
  | execve path args env => rw [call] at isIo; cases isIo
  | execIo req => rw [call] at isIo; cases isIo
  | _ => rfl

section Body

variable {body : Bytes → Bytes → User (Reading Unit)} {other : Nat}

/-- What `_start` makes of the two strings: the text of the arguments, and the directory. -/
def startOf (other : Nat) (body : Bytes → Bytes → User (Reading Unit)) (argBuf envBuf : Bytes) :
    Program Syscall Reply Nat :=
  (body (cstrToStr argBuf) (startCwd (cstrToStr envBuf))).program.bind fun o =>
    .ret (exitStatus other o)

/-- The exec of a program that comes to its end is the run of its body. -/
theorem Installed.childRun_body (h : Installed sys k path slotIdx (startOf other body))
    (ha : Passes Libos.maxArgs args) (he : Passes Libos.maxEnv env)
    (isIo : (body args (startCwd env)).Only (·.isIo = true)) (stdin : Option Bytes)
    (cap : Option Nat) :
    ∃ started ran, (body args (startCwd env)).run (dispatch sys (runImage sys depth))
        (childKernel k stdin cap started) = some ran ∧
      childRun sys depth k path args env stdin cap =
        some ⟨exitStatus other ran.result, ran.steps, ran.state⟩ ∧
      ∀ st ∈ ran.steps, st.call.isExec = false := by
  obtain ⟨started, whole⟩ := h.childRun_eq ha.short he.short depth stdin cap
  obtain ⟨ran, ended⟩ := exists_run isIo sys (runImage sys depth) (childKernel k stdin cap started)
  refine ⟨started, ran, ended, whole.trans ?_, noExec_of_isIo isIo ended⟩
  rw [startOf, cstrToStr_passes ha, cstrToStr_passes he, Program.run_bind_eq_some]
  exact ⟨ran, _, ended, Program.run_ret _ _, by simp⟩

/-- The output of a program that comes to its end, in a buffer of 4096 bytes. -/
theorem Installed.captured (h : Installed sys k path slotIdx (startOf other body))
    (ha : Passes Libos.maxArgs args) (he : Passes Libos.maxEnv env)
    (isIo : (body args (startCwd env)).Only (·.isIo = true)) (stdin : Option Bytes)
    (runs : ∀ k' : Kernel, k'.ram = k.ram → k'.io.stdio.stdin = stdin.map (List.take maxIoStdin) →
      Leads (dispatch sys (runImage sys depth)) [] k'
        (fun d o _ => o = .ok (.ended ()) ∧ written d = out) (body args (startCwd env))) :
    ∃ k', execWithIo sys (runImage sys (depth + 1)) k path args env stdin (some 4096) =
      some (0, out.take 4096, k') := by
  obtain ⟨started, ran, ended, child, noExec⟩ := h.childRun_body ha he isIo stdin (some 4096)
  obtain ⟨ok, wrote⟩ := (runs (childKernel k stdin (some 4096) started) rfl
    (congrArg Stdio.stdin (IoState.stdio_setUp ..))).ran ended
  have front := captured_run child fun st hst => entersExec_of_isExec (noExec st hst)
  obtain ⟨k', whole, -⟩ := execWithIo_child child
  have status : exitStatus other ran.result = 0 := by rw [ok]; rfl
  have same : written (Program.Ran.calls ⟨exitStatus other ran.result, ran.steps, ran.state⟩) = out :=
    wrote
  rw [front, same, status] at whole
  exact ⟨k', whole⟩

end Body

end Smultron
