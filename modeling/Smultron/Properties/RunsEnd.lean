import Smultron.Properties.DirListing
import Smultron.Properties.FileAppRuns
import Smultron.Properties.MachineKernel
import Smultron.Properties.Nesting

/-!
# Every run ends, but for one call

A program that makes finitely many calls is answered each of them, whatever it asks for and whatever
the programs do that it starts: no call panics the kernel, and no nesting of execs is too deep. The
exception is a listing of a path that the kernel cuts inside a character.

## Main result

- `runs_end`: without such a call every run ends, and such a call panics in every state.
-/

namespace Smultron

open Checked Checked.Outcome Process SlotTable Utf8 Vfs

variable {sys : System} {run : Runner} {k : Kernel} {path args env : Bytes}

/-! ### Listings -/

/-- The stored paths are texts without a NUL. -/
def Vfs.Texts (ram : RamFiles) : Prop := ∀ p ∈ ram.paths, Valid p ∧ 0 ∉ p

theorem texts_empty : Texts RamFiles.empty := by simp [Texts, keys_empty]

theorem Vfs.Texts.write {ram : RamFiles} (h : Texts ram) (text : Valid path) (nulFree : 0 ∉ path)
    (data : Bytes) : Texts (writeFile ram path data).2 := by
  intro p stored
  rw [RamFiles.paths, slots_writeFile] at stored
  rcases mem_keys_write stored with old | ⟨rfl, -⟩
  · exact h p old
  · exact ⟨text, nulFree⟩

/-- A listing of a path that is not cut inside a character. -/
theorem listDir_ok (images : Images) {ram : RamFiles} (texts : Texts ram)
    (passes : Passes 127 path) (whole : path.length = 127 → Valid (path.take 126)) (bufLen : Nat) :
    ∃ listed, listDir images ram path bufLen = .ok listed := by
  have all : ∀ p ∈ entryPaths images ram, Valid p ∧ 0 ∉ p := by
    intro p hp
    rcases List.mem_append.mp hp with static | stored
    · exact files_texts images p static
    · exact texts p stored
  rcases Nat.lt_or_ge path.length 127 with short | long
  · exact ⟨_, listDir_eq_collect bufLen all (prefix_of_short (Nat.le_of_lt_succ short))
      (valid_dirPrefix passes.text)⟩
  · have size : path.length = 127 := Nat.le_antisymm passes.short long
    have notRoot : path ≠ str "/" := by
      rintro rfl
      revert size
      decide
    exact ⟨_, listDir_eq_collect bufLen all (if_neg notRoot)
      ((whole size).append (by decide +kernel))⟩

/-- A listing that cuts its path inside a character. -/
def Syscall.Splits : Syscall → Prop
  | .readDir path buf =>
    buf.getD 0 ≠ 0 ∧ ∃ p, cstr 128 path = some p ∧ p.length = 127 ∧ ¬Valid (p.take 126)
  | _ => False

theorem splits_panics {c : Syscall} (splits : c.Splits) : dispatch sys run c k = none := by
  cases c with
  | readDir path buf =>
    obtain ⟨room, p, text, long, inside⟩ := splits
    have given : ¬(path.isNone ∨ buf.getD 0 = 0) := by
      rintro (none_ | empty)
      · obtain rfl := Option.isNone_iff_eq_none.mp none_
        cases text
      · exact room empty
    simp only [dispatch, if_neg given, text, listDir_panics long inside]
  | _ => exact absurd splits id

/-! ### Calls -/

/-- What a call needs, and leaves. -/
structure Sane (k : Kernel) : Prop where
  slotted : Slotted k.pm
  texts : Texts k.ram

/-- A step or a run between two kernels. -/
structure Steady (k k' : Kernel) : Prop where
  balanced : Balanced k.pm k'.pm
  texts : Texts k'.ram

theorem Steady.sane {k' : Kernel} (h : Steady k k') : Sane k' := ⟨h.balanced.slotted, h.texts⟩

theorem Sane.steady (h : Sane k) : Steady k k := ⟨h.slotted.balanced, h.texts⟩

theorem Steady.trans {k' k'' : Kernel} (h : Steady k k') (h' : Steady k' k'') : Steady k k'' :=
  ⟨h.balanced.trans h'.balanced, h'.texts⟩

/-- A call that starts no program is answered. -/
theorem quiet_answered (sane : Sane k) {c : Syscall} (quiet : c.isExec = false)
    (whole : ¬c.Splits) : ∃ r k', dispatch sys run c k = some (r, k') ∧ Steady k k' := by
  suffices answered : ∃ r k', dispatch sys run c k = some (r, k') ∧ Texts k'.ram by
    obtain ⟨r, k', answered, texts⟩ := answered
    refine ⟨r, k', answered, ?_, texts⟩
    rw [dispatch_quiet_pm answered (entersExec_of_isExec quiet)]
    exact sane.slotted.balanced
  have texts := sane.texts
  cases c with
  | read fd buf =>
    refine ⟨_, (sysRead k fd buf).2, rfl, ?_⟩
    rw [sysRead_ram]
    exact texts
  | write fd buf =>
    refine ⟨_, (sysWrite k fd buf).2, rfl, ?_⟩
    rw [sysWrite_ram]
    exact texts
  | readDir path buf =>
    simp only [dispatch]
    split
    · exact ⟨_, _, rfl, texts⟩
    next given =>
      cases text : cstr 128 path with
      | none => exact ⟨_, _, rfl, texts⟩
      | some p =>
        have room : buf.getD 0 ≠ 0 := fun empty => given (.inr empty)
        obtain ⟨listed, shown⟩ := listDir_ok sys.images texts (passes_of_cstr text)
          (fun long => not_not.mp fun inside => whole ⟨room, p, text, long, inside⟩) (buf.getD 0)
        exact ⟨_, _, by simp only [shown]; rfl, texts⟩
  | readFile path buf =>
    simp only [dispatch]
    repeat' split
    all_goals exact ⟨_, _, rfl, texts⟩
  | writeFile path data =>
    simp only [dispatch]
    cases data with
    | none => exact ⟨_, _, rfl, texts⟩
    | some data =>
      cases text : cstr 128 path with
      | none => exact ⟨_, _, rfl, texts⟩
      | some p =>
        have passes : Passes 127 p := passes_of_cstr text
        have kept := texts.write passes.text passes.nulFree data
        dsimp only
        split
        next written =>
          rw [written] at kept
          exact ⟨_, _, rfl, kept⟩
        next written =>
          rw [written] at kept
          exact ⟨_, _, rfl, kept⟩
  | execve path args env => cases quiet
  | execIo req => cases quiet
  | exit code => exact ⟨_, _, rfl, texts⟩
  | other nr => exact ⟨_, _, rfl, texts⟩

/-- No image panics the loader. -/
theorem startProcess_ne_panic {images : Images} {pm : ProcessManager} {started : Started}
    (begun : startProcess images pm path args env = .ok started) : started.entry ≠ .panic := by
  rw [startProcess] at begun
  split at begun
  · cases begun
  split at begun
  · cases begun
  split at begun
  · cases begun
  · obtain rfl := Except.ok.inj begun
    exact (ElfLoader.enterSlot_inside _ _ args env (slotForIndex_order _)).1

/-- Where at least `n` processes run, images come to their end. -/
def EndsFrom (n : Nat) (run : Runner) : Prop :=
  ∀ path argBuf envBuf k, Sane k → n ≤ k.pm.pids.length →
    ∃ status k', run path argBuf envBuf k = some (status, k') ∧ Steady k k'

section Answered

variable (sys) {n : Nat} (images : EndsFrom (n + 1) run) (sane : Sane k) (many : n ≤ k.pm.pids.length)

include images sane many

theorem execInternal_ends (path args env : Bytes) :
    ∃ status k', execInternal sys run k path args env = some (status, k') ∧ Steady k k' := by
  cases begun : startProcess sys.images k.pm path args env with
  | error msg =>
    refine ⟨_, _, by simp only [execInternal, begun]; rfl, ?_⟩
    exact ⟨sane.slotted.balanced, sane.texts⟩
  | ok started =>
    obtain ⟨spawned, -⟩ := startProcess_eq_ok begun
    obtain ⟨own, pids⟩ := sane.slotted.spawn spawned
    cases entry : started.entry with
    | panic => exact absurd entry (startProcess_ne_panic begun)
    | err msg =>
      refine ⟨_, _, by simp only [execInternal, begun, entry]; rfl, ?_⟩
      exact ⟨sane.slotted.spawn_finish spawned own.balanced u64Max, sane.texts⟩
    | ok entered =>
      have more : n + 1 ≤ started.pm.pids.length := by
        rw [pids.length_eq, List.length_cons]
        omega
      obtain ⟨status, k', ended, steady⟩ := images path entered.argBuf entered.envBuf
        { k with pm := started.pm, mem := Memory.applyAll started.image started.ops k.mem }
        ⟨own, sane.texts⟩ more
      refine ⟨_, _, by simp only [execInternal, begun, entry, ended]; rfl, ?_⟩
      exact ⟨sane.slotted.spawn_finish spawned steady.balanced status, steady.texts⟩

theorem execWithIo_ends (path args env : Bytes) (stdin : Option Bytes) (cap : Option Nat) :
    ∃ status captured k', execWithIo sys run k path args env stdin cap = some (status, captured, k') ∧
      Steady k k' := by
  have started : Sane { k with io := k.io.setUp stdin cap.isSome } := ⟨sane.slotted, sane.texts⟩
  obtain ⟨status, k', ended, steady⟩ := execInternal_ends sys images started many path args env
  refine ⟨_, _, _, by simp only [execWithIo, ended]; rfl, ?_⟩
  exact ⟨steady.balanced, steady.texts⟩

theorem dispatch_answered (c : Syscall) (whole : ¬c.Splits) :
    ∃ r k', dispatch sys run c k = some (r, k') ∧ Steady k k' := by
  cases c with
  | execve path args env =>
    simp only [dispatch, exec]
    split
    · exact ⟨_, _, rfl, sane.steady⟩
    next path args env _ =>
      obtain ⟨status, captured, k', ended, steady⟩ :=
        execWithIo_ends sys images sane many path args env none none
      exact ⟨_, _, by simp only [ended]; rfl, steady⟩
  | execIo req =>
    cases req with
    | none => exact ⟨_, _, rfl, sane.steady⟩
    | some req =>
      cases pointers : req.path.isNone || !req.status with
      | true =>
        exact ⟨_, _, by simp only [dispatch, sysExecIo, pointers, if_true]; rfl, sane.steady⟩
      | false =>
        cases strings : execArgs req.path req.args req.env with
        | none =>
          refine ⟨.failed, k, ?_, sane.steady⟩
          simp only [dispatch, sysExecIo, pointers, strings, Bool.false_eq_true, if_false]
        | some found =>
          obtain ⟨path, args, env⟩ := found
          obtain ⟨status, captured, k', ended, steady⟩ :=
            execWithIo_ends sys images sane many path args env req.stdio.1 req.stdio.2
          refine ⟨⟨captured.length, captured, some status⟩, k', ?_, steady⟩
          rw [dispatch, sysExecIo_eq _ req strings pointers, ended, Option.map_some]
  | _ => exact quiet_answered sane rfl whole

end Answered

/-! ### Runs -/

theorem run_ends (sys : System) {n : Nat} (images : EndsFrom (n + 1) run) (sane : Sane k)
    (many : n ≤ k.pm.pids.length) {α : Type} {p : Program Syscall Reply α}
    (calls : p.Only fun c => ¬c.Splits) :
    ∃ ran, p.run (dispatch sys run) k = some ran ∧ Steady k ran.state :=
  Program.Only.ends_within (I := fun k' => Steady k k')
    (fun c k' whole held => by
      obtain ⟨r, k'', answered, after⟩ := dispatch_answered sys images held.sane
        (held.balanced.pids.length_eq ▸ many) c whole
      exact ⟨r, k'', answered, held.trans after⟩)
    calls sane.steady

theorem runImage_ends (whole : ∀ path argBuf envBuf,
      (sys.image path argBuf envBuf).Only fun c => ¬c.Splits) (depth : Nat) :
    EndsFrom (maxProcessSlots - depth + 1) (runImage sys depth) := by
  induction depth with
  | zero =>
    -- There would be more processes than slots
    intro path argBuf envBuf k sane many
    have few := sane.slotted.few
    omega
  | succ depth ih =>
    intro path argBuf envBuf k sane many
    have images : EndsFrom (maxProcessSlots - (depth + 1) + 1 + 1) (runImage sys depth) :=
      fun path argBuf envBuf k sane many => ih path argBuf envBuf k sane (by omega)
    obtain ⟨ran, ended, steady⟩ := run_ends sys images sane many (whole path argBuf envBuf)
    refine ⟨_, _, by simp only [runImage, ended]; rfl, ?_⟩
    exact ⟨steady.balanced, steady.texts⟩

/-- Every program comes to its end, with as many processes behind it as before it and with texts for
the paths of its files. Its calls and those of the programs it starts may be any but the listing that
cuts its path inside a character, and that one panics the kernel in whatever state it is. -/
theorem runs_end (sys : System)
    (whole : ∀ path argBuf envBuf, (sys.image path argBuf envBuf).Only fun c => ¬c.Splits)
    (k : Kernel) (slotted : Slotted k.pm) (texts : Texts k.ram) (depth : Nat)
    (enough : maxProcessSlots ≤ k.pm.pids.length + depth) {α : Type} (p : Program Syscall Reply α)
    (calls : p.Only fun c => ¬c.Splits) :
    (∃ ran, p.run (dispatch sys (runImage sys depth)) k = some ran ∧ Slotted ran.state.pm ∧
        ran.state.pm.pids.Perm k.pm.pids ∧ Texts ran.state.ram) ∧
      ∀ c, c.Splits → ∀ run k, dispatch sys run c k = none := by
  refine ⟨?_, fun c splits run k => splits_panics splits⟩
  obtain ⟨ran, ended, steady⟩ := run_ends sys (runImage_ends whole depth) ⟨slotted, texts⟩ (by omega) calls
  exact ⟨ran, ended, steady.balanced.slotted, steady.balanced.pids, steady.texts⟩

/-- Programs that start each other without end, as far as slots go. -/
theorem runs_end_startsLs : ∃ ran,
    (Program.request (.execve (some (str "/bin/cat" ++ [0])) none none)).run
      (dispatch startsLs (runImage startsLs 7)) typing = some ran ∧ Texts ran.state.ram := by
  obtain ⟨⟨ran, ended, -, -, texts⟩, -⟩ := runs_end startsLs
    (fun _ _ _ => ⟨id, fun _ => trivial⟩) typing tidy_new.slotted texts_empty 7 (Nat.le_add_left ..)
    (Program.request (.execve (some (str "/bin/cat" ++ [0])) none none)) ⟨id, fun _ => trivial⟩
  exact ⟨ran, ended, texts⟩

end Smultron
