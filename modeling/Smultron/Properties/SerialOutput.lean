import Smultron.Properties.StageRuns

/-!
# What the serial line shows of the output

A write that is captured copies its bytes as they are, and the VGA buffer gets them as they are,
too. The serial line is sent each byte as the character with its number, and from 128 on that
character takes two bytes. So a text that is not ASCII reads differently on the serial console than
behind a pipe, however its bytes are spread over calls.

## Main result

- `serial_eq_capture_iff`: the serial line is sent what the capture holds exactly when every byte
  that is written is ASCII.
-/

namespace Smultron

open Process Utf8

variable {sys : System} {run : Runner} {k k' : Kernel} {bufs : List (Option Bytes)}
  {ran : Program.Ran Syscall Reply Kernel Nat}

/-- The program that writes these buffers to the output, one call each; `none` is a null pointer. -/
def writing (bufs : List (Option Bytes)) : Program Syscall Reply Nat :=
  calling (bufs.map (Syscall.write 1))

/-- The bytes of the buffers. -/
def bytesOf (bufs : List (Option Bytes)) : Bytes := bufs.flatMap fun buf => buf.getD []

/-! ### The calls -/

theorem calling_calls {calls : List Syscall} (ended : (calling calls).run (dispatch sys run) k = some ran) :
    ran.calls.map Prod.fst = calls := by
  induction calls generalizing k ran with
  | nil =>
    cases ended
    rfl
  | cons c calls ih =>
    obtain ⟨r, k', rest, -, later, rfl⟩ := Program.run_call_eq_some.mp ended
    exact congrArg (c :: ·) (ih later)

theorem written_writing (ended : (writing bufs).run (dispatch sys run) k = some ran) :
    written ran.calls = bytesOf bufs := by
  have outputs : written ran.calls = (ran.calls.map Prod.fst).flatMap Syscall.output := by
    rw [written, List.flatMap_map]
  rw [outputs, calling_calls ended, List.flatMap_map, bytesOf]
  congr 1
  funext buf
  cases buf <;> rfl

theorem writing_only (bufs : List (Option Bytes)) :
    (writing bufs).Only fun c => ∃ buf, c = .write 1 buf := by
  induction bufs with
  | nil => exact trivial
  | cons buf bufs ih => exact ⟨⟨buf, rfl⟩, fun _ => ih⟩

/-- Every write is answered. -/
theorem writing_ends (sys : System) (run : Runner) (bufs : List (Option Bytes)) (k : Kernel) :
    ∃ ran, (writing bufs).run (dispatch sys run) k = some ran := by
  apply Option.isSome_iff_exists.mp
  apply (writing_only bufs).ends
  rintro _ k ⟨buf, rfl⟩
  rfl

/-! ### The two streams -/

/-- Outside a capture, the console is sent what is written. -/
theorem writing_console (console : k.io.stdio.stdout = none)
    (ended : (writing bufs).run (dispatch sys run) k = some ran) :
    Sent k.console ran.state.console (bytesOf bufs) := by
  have start : k.io.stdio.stdout = none ∧ Sent k.console k.console (written []) :=
    ⟨console, sent_nil k.console⟩
  have both := Program.run_invariant
    (I := fun done k' => k'.io.stdio.stdout = none ∧ Sent k.console k'.console (written done))
    (P := fun c => ∃ buf, c = .write 1 buf) ?step start ended ((writing_only bufs).steps ended)
  case step =>
    rintro done _ k₁ r k₂ ⟨buf, rfl⟩ answered ⟨uncaptured, sent⟩
    refine ⟨?_, sent_console rfl answered uncaptured sent⟩
    rw [stdio_dispatch answered rfl, uncaptured]
    rfl
  rw [← written_writing ended]
  exact both.2

/-- A capture that takes everything holds what is written. -/
theorem writing_captured (capture : k.io.stdio.stdout = some [])
    (fits : (bytesOf bufs).length ≤ maxIoStdout)
    (ended : (writing bufs).run (dispatch sys run) k = some ran) :
    ran.state.io.stdio.stdout = some (bytesOf bufs) := by
  have start : k.io.stdio.stdout = some ((written []).take maxIoStdout) := capture
  have held := Program.run_invariant
    (I := fun done k' => k'.io.stdio.stdout = some ((written done).take maxIoStdout))
    (P := fun c => ∃ buf, c = .write 1 buf) ?step start ended ((writing_only bufs).steps ended)
  case step =>
    rintro done _ k₁ r k₂ ⟨buf, rfl⟩ answered captured
    rw [stdio_dispatch answered rfl, captured, Option.map_some, written_append, written_singleton,
      take_append_take]
  rwa [List.nil_append, written_writing ended, List.take_of_length_le fits] at held

/-- The same writes, once to the console and once into a capture with room for them: the serial line
is sent what the capture holds if and only if all of it is ASCII. -/
theorem serial_eq_capture_iff (sys : System) (run : Runner) (k k' : Kernel)
    (bufs : List (Option Bytes)) (console : k.io.stdio.stdout = none)
    (capture : k'.io.stdio.stdout = some []) (few : (bytesOf bufs).length ≤ 4096) :
    ∃ shown piped sent captured,
      (writing bufs).run (dispatch sys run) k = some shown ∧
        shown.state.console.serial = k.console.serial ++ sent ∧
        (writing bufs).run (dispatch sys run) k' = some piped ∧
        piped.state.io.stdio.stdout = some captured ∧
        (sent = captured ↔ ∀ b ∈ bytesOf bufs, b < 128) := by
  obtain ⟨shown, ended⟩ := writing_ends sys run bufs k
  obtain ⟨piped, ended'⟩ := writing_ends sys run bufs k'
  exact ⟨shown, piped, _, _, ended, (writing_console console ended).2, ended',
    writing_captured capture few ended', encode_bytes_eq_iff⟩

/-- A kernel that captures the output from now on. -/
def capturingKernel : Kernel := { typing with io := IoState.new.setUp none true }

/-- The calls of a program, answered where no image is run. -/
def answering : Syscall → Kernel → Option (Reply × Kernel) :=
  dispatch (uniform []) (runImage (uniform []) 0)

/-- A greeting in two calls. -/
theorem serial_eq_capture_iff_greeting : ∃ shown piped sent,
    (writing [some (str "hi "), some (str "there")]).run answering typing = some shown ∧
      shown.state.console.serial = typing.console.serial ++ sent ∧
      (writing [some (str "hi "), some (str "there")]).run answering capturingKernel = some piped ∧
      piped.state.io.stdio.stdout = some sent := by
  obtain ⟨shown, piped, sent, captured, ended, serial, ended', stdout, same⟩ :=
    serial_eq_capture_iff (uniform []) (runImage (uniform []) 0) typing capturingKernel
      [some (str "hi "), some (str "there")] (by decide +kernel) (by decide +kernel)
      (by decide +kernel)
  obtain rfl := same.mpr (by decide +kernel)
  exact ⟨shown, piped, sent, ended, serial, ended', stdout⟩

/-- The two bytes of `é` are four on the serial line. -/
theorem serial_reencodes_bytes : ∃ shown piped,
    (writing [some [195, 169]]).run answering typing = some shown ∧
      shown.state.console.serial = typing.console.serial ++ [195, 131, 194, 169] ∧
      (writing [some [195, 169]]).run answering capturingKernel = some piped ∧
      piped.state.io.stdio.stdout = some [195, 169] ∧ Valid [195, 169] := by
  obtain ⟨shown, ended⟩ := writing_ends (uniform []) (runImage (uniform []) 0) [some [195, 169]] typing
  obtain ⟨piped, ended'⟩ :=
    writing_ends (uniform []) (runImage (uniform []) 0) [some [195, 169]] capturingKernel
  refine ⟨shown, piped, ended, ?_, ended', ?_, by decide +kernel⟩
  · rw [(writing_console (by decide +kernel) ended).2]
    decide +kernel
  · exact writing_captured (by decide +kernel) (by decide +kernel) ended'

end Smultron
