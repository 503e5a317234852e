import Smultron.Lib.Simulation
import Smultron.Machine.World
import Smultron.Properties.ExecStrings
import Smultron.Properties.StageRuns

/-!
# The kernel runs the machine

Against the kernel, an exec puts a process in the table, loads an image, sets a stdio context up,
runs a program call by call, and takes all of that down again. When the images of the boot image
mean what the machine says, nothing of it shows: whatever program makes its calls to the kernel gets
the replies of the machine, one by one, and leaves the files and the console of the machine.

## Main result

- `kernel_refines_machine`: a run against the machine is a run against the kernel.
-/

namespace Smultron

open Checked Checked.Outcome ElfLoader Machine Memory Process Utf8 Vfs

variable {sys sys' : System} {run run' : Runner} {k k' : Kernel} {c : Syscall} {r : Reply}
  {path args env : Bytes}

/-! ### Strings of an exec -/

theorem passes_of_cstr {max : Nat} {src : Option Bytes} {s : Bytes}
    (h : cstr (max + 1) src = some s) : Passes max s := by
  cases src with
  | none => cases h
  | some bytes =>
    rw [cstr, copyCstr] at h
    split at h
    next found =>
      have few := (fromUtf8OrEmpty_sublist ((bytes.take (max + 1)).takeWhile (· != 0)))
      obtain rfl := Option.some.inj h
      refine ⟨valid_fromUtf8OrEmpty _, fun nul => ?_, ?_⟩
      · simpa using List.mem_takeWhile_imp (few.subset nul)
      · have := few.length_le
        omega
    · cases h

theorem passes_of_cstrOrEmpty {max : Nat} {src : Option Bytes} {s : Bytes}
    (h : cstrOrEmpty (max + 1) src = some s) : Passes max s := by
  cases src with
  | none =>
    cases h
    exact ⟨valid_nil, List.not_mem_nil, Nat.zero_le _⟩
  | some bytes => exact passes_of_cstr h

theorem passes_of_execArgs {p a e : Option Bytes} (h : execArgs p a e = some (path, args, env)) :
    Passes Libos.maxPath path ∧ Passes Libos.maxArgs args ∧ Passes Libos.maxEnv env := by
  obtain ⟨p', first, rest⟩ := Option.bind_eq_some_iff.mp h
  obtain ⟨a', second, rest⟩ := Option.bind_eq_some_iff.mp rest
  obtain ⟨e', third, rest⟩ := Option.bind_eq_some_iff.mp rest
  simp only [Option.pure_def, Option.some.injEq, Prod.mk.injEq] at rest
  obtain ⟨rfl, rfl, rfl⟩ := rest
  exact ⟨passes_of_cstr first, passes_of_cstrOrEmpty second, passes_of_cstrOrEmpty third⟩

/-! ### Calls that start no program -/

/-- What a read of the console takes: it ends behind a line end. -/
def Console.read : Nat → Console → Bytes × Console
  | 0, console => ([], console)
  | left + 1, console =>
    let b := console.input console.taken
    let console' := { console with taken := console.taken + 1 }
    if b = 10 ∨ b = 13 then ([b], console')
    else
      let (bs, last) := Console.read left console'
      (b :: bs, last)

theorem readLoop_eq (left : Nat) {io : IoState} (console : Console) (h : io.stdio.stdin = none) :
    readLoop left io console = ((console.read left).1, io, (console.read left).2) := by
  induction left generalizing console with
  | zero => rfl
  | succ left ih =>
    simp only [readLoop, Console.read, IoState.takeStdinByte_console h]
    split
    · rfl
    · rw [ih]

/-- Two kernels without a context that hold the same files and the same console answer alike. -/
theorem dispatch_world (images : sys'.images = sys.images) (context : k.io.stdio = ⟨none, none⟩)
    (context' : k'.io.stdio = ⟨none, none⟩) (same : ofKernel k' = ofKernel k)
    (quiet : c.isExec = false) :
    (dispatch sys' run' c k').map (fun answer => (answer.1, ofKernel answer.2)) =
      (dispatch sys run c k).map fun answer => (answer.1, ofKernel answer.2) := by
  obtain ⟨ram, console⟩ := World.mk.inj same
  have stdin := congrArg Stdio.stdin context
  have stdin' := congrArg Stdio.stdin context'
  have stdout := congrArg Stdio.stdout context
  have stdout' := congrArg Stdio.stdout context'
  cases c with
  | read fd buf =>
    simp only [dispatch, sysRead]
    cases buf with
    | none => simp [ofKernel, ram, console]
    | some len =>
      rcases eq_or_ne fd 0 with rfl | wrong
      · by_cases empty : len = 0
        · simp [empty, ofKernel, ram, console]
        · simp [empty, readLoop_eq _ _ stdin, readLoop_eq _ _ stdin', ofKernel, ram, console]
      · simp [wrong, ofKernel, ram, console]
  | write fd buf =>
    simp only [dispatch, sysWrite]
    cases buf with
    | none => simp [ofKernel, ram, console]
    | some bytes =>
      by_cases wrong : fd ≠ 1 ∧ fd ≠ 2
      · simp [wrong, ofKernel, ram, console]
      · simp only [if_neg wrong]
        by_cases empty : bytes.length = 0
        · simp [empty, ofKernel, ram, console]
        · simp [empty, IoState.captureStdout_console stdout,
            IoState.captureStdout_console stdout', ofKernel, ram, console]
  | readDir path buf =>
    simp only [dispatch, images, ram]
    repeat' split
    all_goals simp [ofKernel, ram, console]
  | readFile path buf =>
    simp only [dispatch, images, ram]
    repeat' split
    all_goals simp [ofKernel, ram, console]
  | writeFile path data =>
    simp only [dispatch, ram]
    repeat' split
    all_goals simp [ofKernel, ram, console]
  | execve path args env => cases quiet
  | execIo req => cases quiet
  | exit code => simp [dispatch, ofKernel, ram, console]
  | other nr => simp [dispatch, ofKernel, ram, console]

/-! ### What a program does to the console -/

theorem sysRead_idle {k : Kernel} {fd : Nat} {buf : Option Nat}
    (input : k.io.stdio.stdin.isSome = true ∨ (Syscall.read fd buf).asks = false) :
    (sysRead k fd buf).2.console = k.console := by
  rcases input with redirected | idle
  · obtain ⟨rest, stdin⟩ := Option.isSome_iff_exists.mp redirected
    obtain ⟨io', after, -⟩ := sysRead_redirected stdin fd buf
    rw [after]
  · cases buf with
    | none => rfl
    | some len =>
      rcases eq_or_ne fd 0 with rfl | wrong
      · have empty : len = 0 := by simpa [Syscall.asks] using idle
        simp [sysRead, empty]
      · simp [sysRead, wrong]

/-- A call that takes nothing from the console leaves it alone, or writes to it. -/
theorem dispatch_shows (answered : dispatch sys run c k = some (r, k'))
    (quiet : c.entersExec = false)
    (input : k.io.stdio.stdin.isSome = true ∨ c.asks = false) :
    (k.io.stdio.stdout = none → k'.console = c.output.foldl .put k.console) ∧
      ∀ out, k.io.stdio.stdout = some out → out.length + c.output.length ≤ maxIoStdout →
        k'.console = k.console := by
  rcases dispatch_cases answered quiet with ⟨fd, buf, rfl, read⟩ | ⟨fd, buf, rfl, wrote⟩ |
      ⟨output, -, ram, rfl⟩
  · obtain rfl : k' = (sysRead k fd buf).2 := congrArg Prod.snd read.symm
    have same := sysRead_idle input
    exact ⟨fun _ => same, fun _ _ _ => same⟩
  · obtain rfl : k' = (sysWrite k fd buf).2 := congrArg Prod.snd wrote.symm
    refine ⟨fun console => ?_, fun out captured room => ?_⟩
    · rw [sysWrite_console fd buf (IoState.captureStdout_console console _)]
    · by_cases nothing : (Syscall.write fd buf).output = []
      · rw [sysWrite_eq, if_pos nothing]
      · have some_ := List.length_pos_iff.mpr nothing
        obtain ⟨io', after, -⟩ := sysWrite_captured captured (by omega) fd buf
        rw [after]
  · rw [output]
    exact ⟨fun _ => rfl, fun _ _ _ => rfl⟩

section Child

variable {depth : Nat} {stdin : Option Bytes} {cap : Option Nat}
  {ran : Program.Ran Syscall Reply Kernel Nat}
  (h : childRun sys depth k path args env stdin cap = some ran)
  (noExec : ∀ st ∈ ran.steps, st.call.isExec = false)
  (idle : stdin = none → ∀ st ∈ ran.steps, st.call.asks = false)

include h noExec idle

/-- All that a program shows on the console is what it writes, when it is not captured. -/
theorem childRun_shows : (cap = none → ran.state.console = (written ran.calls).foldl .put k.console) ∧
    (cap.isSome = true → (written ran.calls).length ≤ maxIoStdout →
      ran.state.console = k.console) := by
  obtain ⟨started, entry, -, -, ended⟩ := childRun_eq_some.mp h
  have both := Program.run_invariant
    (I := fun done k' => Tracks stdin cap.isSome done k' ∧
      (cap = none → k'.console = (written done).foldl .put k.console) ∧
      (cap.isSome = true → (written done).length ≤ maxIoStdout → k'.console = k.console))
    (P := fun c => c.isExec = false ∧ (stdin = none → c.asks = false))
    (fun done c k₁ r k₂ quiet answered held => by
      obtain ⟨tracks, shown, silent⟩ := held
      have input : k₁.io.stdio.stdin.isSome = true ∨ c.asks = false := by
        rw [congrArg Stdio.stdin tracks]
        cases stdin with
        | none => exact .inr (quiet.2 rfl)
        | some data => exact .inl rfl
      have enters := entersExec_of_isExec quiet.1
      obtain ⟨console, captured⟩ := dispatch_shows answered enters input
      refine ⟨tracks_step enters answered tracks, ?_, ?_⟩
      · rintro rfl
        rw [written_append, written_singleton, List.foldl_append, ← shown rfl]
        exact console (congrArg Stdio.stdout tracks)
      · intro cap_ few
        rw [written_append, written_singleton, List.length_append] at few
        rw [← silent cap_ (by omega)]
        refine captured _ (congrArg Stdio.stdout tracks |>.trans (if_pos cap_)) ?_
        simp only [List.length_take] at few ⊢
        omega)
    ⟨tracks_start k stdin cap started, fun _ => rfl, fun _ _ => rfl⟩ ended
    (fun st hst => ⟨noExec st hst, fun none_ => idle none_ st hst⟩)
  exact both.2

end Child

/-! ### The process table -/

section Table

variable {pm pm' : ProcessManager}

/-- The table holds what it held; it may have given pids out. -/
structure Regained (pm pm' : ProcessManager) : Prop where
  slots : pm'.slotsInUse = pm.slotsInUse
  records : pm'.records = pm.records
  later : pm.nextPid ≤ pm'.nextPid
  bound : pm'.nextPid ≤ u64Max

theorem Regained.tidy (h : Regained pm pm') (tidy : Tidy pm) : Tidy pm' where
  owned := by
    have same : pm'.running = pm.running := by
      rw [ProcessManager.running, h.records, ProcessManager.running]
    obtain ⟨-, pids, slots, fresh, inUse⟩ := tidy.owned
    rw [same]
    exact ⟨by rw [same], pids, slots, fun f hf => Nat.lt_of_lt_of_le (fresh f hf) h.later,
      by rwa [h.slots]⟩
  blank := by
    rw [h.records]
    exact tidy.blank

theorem Regained.rfl (bound : pm.nextPid ≤ u64Max) : Regained pm pm :=
  ⟨Eq.refl _, Eq.refl _, Nat.le_refl _, bound⟩

theorem Regained.trans {pm'' : ProcessManager} (h : Regained pm pm') (h' : Regained pm' pm'') :
    Regained pm pm'' :=
  ⟨h'.slots.trans h.slots, h'.records.trans h.records, h.later.trans h'.later, h'.bound⟩

/-- A process is found again by its pid, also when the counter has reached its end: the processes
that were there before it have smaller ones, and there are no others when it finishes. -/
theorem Process.Tidy.finish_regained {pm'' : ProcessManager} (h : Tidy pm)
    (bound : pm.nextPid ≤ u64Max) {slotIdx pid slotIdx' : Nat}
    (spawned : pm.spawnSlot slotIdx = some ((pid, slotIdx'), pm')) (nested : Regained pm' pm'')
    (exitCode : Nat) : Regained pm (pm''.finish pid exitCode) := by
  obtain ⟨i, blank, records⟩ := h.spawnSlot_records spawned
  obtain ⟨-, rfl, free, next, slots, -⟩ := ProcessManager.spawnSlot_eq_some spawned
  obtain ⟨inside, isBlank⟩ := List.getElem?_eq_some_iff.mp blank
  obtain ⟨slotInside, isFree⟩ := List.getElem?_eq_some_iff.mp free
  have slotFits : slotIdx < maxProcessSlots := by rwa [pm.slots_length] at slotInside
  -- The process is the only record that has its pid
  have others : ∀ r ∈ pm.records, (r.pid == pm.nextPid && r.state == .running) = false := by
    intro r hr
    by_contra found
    obtain ⟨pid, active⟩ : r.pid = pm.nextPid ∧ r.state = .running := by simpa using found
    have older := h.owned.fresh (r.pid, r.slotIdx)
      (ProcessManager.mem_running.mpr ⟨r, hr, active, rfl, rfl⟩)
    exact absurd older (by simp [pid])
  have before : pm.records = pm.records.take i ++ ProcessRecord.empty :: pm.records.drop (i + 1) := by
    rw [← isBlank, List.getElem_cons_drop, List.take_append_drop]
  have after : pm''.records =
      pm.records.take i ++ ⟨pm.nextPid, slotIdx, .running, 0⟩ :: pm.records.drop (i + 1) := by
    rw [nested.records, records, List.set_eq_take_append_cons_drop, if_pos inside]
  have front : ∀ r ∈ pm.records.take i, (r.pid == pm.nextPid && r.state == .running) = false :=
    fun r hr => others r (List.mem_of_mem_take hr)
  have first : pm''.records.find? (fun r => r.pid == pm.nextPid && r.state == .running) =
      some ⟨pm.nextPid, slotIdx, .running, 0⟩ := by
    rw [after, List.find?_append, List.find?_eq_none.mpr (by simpa using front)]
    simp
  have cleared : SlotTable.updateFirst (fun r : ProcessRecord => r.pid == pm.nextPid &&
      r.state == .running) (fun _ => ProcessRecord.empty) pm''.records = some pm.records :=
    SlotTable.updateFirst_eq_some.mpr ⟨_, _, _, after, front, by simp, before⟩
  rw [ProcessManager.finish, first]
  dsimp only
  cases found : pm''.updateFirst (fun r => r.pid == pm.nextPid && r.state == .running)
      fun _ => ProcessRecord.empty with
  | none =>
    rw [ProcessManager.updateFirst] at found
    split at found
    · cases found
    next nothing =>
      rw [cleared] at nothing
      cases nothing
  | some pm₂ =>
    dsimp only
    obtain ⟨records₂, slots₂, next₂⟩ := ProcessManager.updateFirst_eq_some found
    have same : pm₂.records = pm.records := Option.some.inj (records₂.symm.trans cleared)
    rw [if_pos slotFits]
    have counter : (pm₂.setSlot slotIdx false).nextPid = pm''.nextPid := next₂
    have later := nested.later
    refine ⟨?_, same, by omega, counter ▸ nested.bound⟩
    have restored : pm.slotsInUse.set slotIdx false = pm.slotsInUse := by
      rw [← isFree, List.set_getElem_self]
    simp [ProcessManager.setSlot, slots₂, nested.slots, slots, restored]

end Table

/-! ### What it takes for the kernel to follow -/

/-- The program comes to its end with status 0. It has written `out` and leaves the files `ram`, has
started no program, and has asked the console for nothing. -/
def Does (sys : System) (runner : Runner) (k : Kernel) (out : Bytes) (ram : RamFiles)
    (p : Program Syscall Reply Nat) : Prop :=
  ∃ ran, p.run (dispatch sys runner) k = some ran ∧ ran.result = 0 ∧ written ran.calls = out ∧
    ran.state.ram = ram ∧ (∀ st ∈ ran.steps, st.call.isExec = false) ∧
    (k.io.stdio.stdin = none → ∀ st ∈ ran.steps, st.call.asks = false)

/-- The program at `path` does what it means. -/
def Computes (sys : System) (boot : Boot) (path : Bytes) : Prop :=
  ∀ (runner : Runner) (args env : Bytes) (k : Kernel) (out : Bytes) (ram : RamFiles),
    Passes Libos.maxArgs args → Passes Libos.maxEnv env →
      boot.meaning path args env k.ram k.io.stdio.stdin = some (out, ram) →
        Does sys runner k out ram (sys.image path (args ++ [0]) (env ++ [0]))

/-- The boot image holds what the machine says, and each image that the program in slot `own` can
start is accepted and computes its meaning. -/
structure Holds (sys : System) (boot : Boot) (own : Nat) : Prop where
  images : boot.images = sys.images
  accepted : ∀ path image slotIdx, readFile sys.images path = some image →
    slotForPath path = some slotIdx → slotIdx ≠ own →
      ∃ hdr, validateElfForSlot image (slotForIndex slotIdx) = .ok hdr ∧ hdr.entry ≠ 0
  computes : ∀ path slotIdx, slotForPath path = some slotIdx → slotIdx ≠ own →
    Computes sys boot path

/-- The program in slot `own` is the only one that runs. -/
structure Alone (own : Nat) (pm : ProcessManager) : Prop where
  tidy : Tidy pm
  bound : pm.nextPid ≤ u64Max
  slots : ∀ s < maxProcessSlots, pm.slotsInUse[s]? = some (s == own)

/-- The kernel shows the world `w`, and its table is the one there was. -/
structure Hosts (pm : ProcessManager) (k : Kernel) (w : World) : Prop where
  world : ofKernel k = w
  context : k.io.stdio = ⟨none, none⟩
  table : Regained pm k.pm

variable {boot : Boot} {own depth : Nat} {w w' : World} {pm : ProcessManager}

theorem slotForPath_lt {slotIdx : Nat} (h : slotForPath path = some slotIdx) :
    slotIdx < maxProcessSlots := by
  rw [slotForPath] at h
  repeat' split at h
  all_goals first | (obtain rfl := Option.some.inj h; decide) | cases h

theorem Regained.alone (h : Regained pm k.pm) (alone : Alone own pm) : Alone own k.pm where
  tidy := h.tidy alone.tidy
  bound := h.bound
  slots := by
    rw [h.slots]
    exact alone.slots

/-- A program that is the first to run is alone. -/
theorem alone_spawned {slotIdx pid slotIdx' : Nat} {pm : ProcessManager}
    (spawned : ProcessManager.new.spawnSlot slotIdx = some ((pid, slotIdx'), pm)) :
    Alone slotIdx pm := by
  obtain ⟨-, rfl, free, next, slots, -⟩ := ProcessManager.spawnSlot_eq_some spawned
  have first : ProcessManager.new.nextPid = 1 := rfl
  have many : 1 < u64Max := by decide
  refine ⟨tidy_new.spawn spawned (by omega), by omega, fun s hs => ?_⟩
  obtain ⟨inside, -⟩ := List.getElem?_eq_some_iff.mp free
  rw [slots]
  by_cases same : slotIdx = s
  · subst same
    rw [List.getElem?_set_self inside]
    simp
  · rw [List.getElem?_set_ne same]
    simp [ProcessManager.new, hs, Ne.symm same]

theorem exists_alone : ∃ pm, Alone 0 pm := by
  obtain ⟨⟨⟨pid, slotIdx⟩, pm⟩, spawned⟩ := Option.isSome_iff_exists.mp
    (by decide +kernel : (ProcessManager.new.spawnSlot 0).isSome = true)
  exact ⟨pm, alone_spawned spawned⟩

/-- The table is given back from one call to the next. -/
theorem Hosts.after (h : Hosts pm k w) (world : ofKernel k' = w')
    (context : k'.io.stdio = ⟨none, none⟩) (table : Regained k.pm k'.pm) : Hosts pm k' w' :=
  ⟨world, context, h.table.trans table⟩

/-! ### An exec -/

/-- An exec that starts nothing leaves its message. -/
theorem Hosts.refused (h : Hosts pm k w) {msg : Bytes}
    (error : startProcess sys.images k.pm path args env = .error msg) (stdin : Option Bytes)
    (cap : Option Nat) :
    ∃ k', execWithIo sys run k path args env stdin cap = some (u64Max, [], k') ∧
      Hosts pm k' (w.log msg) := by
  have nothing : ((k.io.setUp stdin cap.isSome).tearDown cap).1 = [] := by
    cases cap with
    | none => rfl
    | some cap =>
      have empty := congrArg Stdio.stdout (IoState.stdio_setUp k.io stdin true)
      simpa using tearDown_captured empty cap
  simp only [execWithIo, execInternal, error, nothing]
  refine ⟨_, rfl, h.after ?_ (IoState.stdio_tearDown _ cap) (.rfl h.table.bound)⟩
  rw [← h.world]
  rfl

/-- What a program computes in the run that an exec starts. -/
structure Computed (sys : System) (depth : Nat) (k : Kernel) (path args env : Bytes)
    (stdin : Option Bytes) (cap : Option Nat) (out : Bytes) (ram : RamFiles)
    (ran : Program.Ran Syscall Reply Kernel Nat) : Prop where
  child : childRun sys depth k path args env stdin cap = some ran
  result : ran.result = 0
  wrote : written ran.calls = out
  files : ran.state.ram = ram
  noExec : ∀ st ∈ ran.steps, st.call.isExec = false
  idle : stdin = none → ∀ st ∈ ran.steps, st.call.asks = false

theorem Hosts.computed (h : Hosts pm k w) (alone : Alone own pm) (holds : Holds sys boot own)
    {image : Bytes} {slotIdx : Nat} (file : readFile sys.images path = some image)
    (slot : slotForPath path = some slotIdx) (other : slotIdx ≠ own)
    (argsPass : Passes Libos.maxArgs args) (envPass : Passes Libos.maxEnv env)
    {stdin : Option Bytes} (short : ∀ data, stdin = some data → data.length ≤ maxIoStdin)
    {out : Bytes} {ram : RamFiles}
    (meaning : boot.meaning path args env w.ram stdin = some (out, ram)) (cap : Option Nat)
    (depth : Nat) : ∃ ran, Computed sys depth k path args env stdin cap out ram ran := by
  obtain ⟨hdr, accepted, nonzero⟩ := holds.accepted path image slotIdx file slot other
  obtain ⟨tidy, -, slots⟩ := h.table.alone alone
  have free : k.pm.slotsInUse[slotIdx]? = some false := by
    rw [slots slotIdx (slotForPath_lt slot)]
    simpa using other
  obtain ⟨started, begun, -, -, entered⟩ := startProcess_enters tidy file slot free accepted
    nonzero (argsPass.short : args.length ≤ maxArgLen) (envPass.short : env.length ≤ maxEnvLen)
  have input : (childKernel k stdin cap started).io.stdio.stdin = stdin := by
    change (k.io.setUp stdin cap.isSome).stdio.stdin = stdin
    rw [IoState.stdio_setUp]
    cases stdin with
    | none => rfl
    | some data => simp [List.take_of_length_le (short data rfl)]
  have found : (childKernel k stdin cap started).ram = w.ram := congrArg World.ram h.world
  obtain ⟨ran, ended, result, wrote, files, noExec, idle⟩ :=
    holds.computes path slotIdx slot other (runImage sys depth) args env
      (childKernel k stdin cap started) out ram argsPass envPass (by rw [found, input, meaning])
  exact ⟨ran, childRun_eq_some.mpr ⟨started, _, begun, entered, ended⟩, result, wrote, files, noExec,
    fun none_ => idle (input.trans none_)⟩

/-- Of the program's run, its output and its files are left. -/
theorem Hosts.ended (h : Hosts pm k w) (alone : Alone own pm) {stdin : Option Bytes} {cap : Option Nat}
    {out : Bytes} {ram : RamFiles} {ran : Program.Ran Syscall Reply Kernel Nat}
    (computed : Computed sys depth k path args env stdin cap out ram ran)
    (fits : cap.isSome = true → out.length ≤ maxIoStdout) :
    ∃ k', execWithIo sys (runImage sys (depth + 1)) k path args env stdin cap =
        some (0, cap.elim [] out.take, k') ∧
      Hosts pm k' (if cap.isSome then ⟨ram, w.console⟩ else World.show ⟨ram, w.console⟩ out) := by
  obtain ⟨child, result, wrote, files, noExec, idle⟩ := computed
  obtain ⟨started, entry, begun, entered, ended⟩ := childRun_eq_some.mp child
  obtain ⟨spawned, -⟩ := startProcess_eq_ok begun
  -- The program has left the table alone, so its process is still the last one
  have same : ran.state.pm = started.pm := Program.run_keeps
    (I := fun k' => k'.pm = started.pm) (P := fun c => c.isExec = false)
    (fun _ _ _ _ quiet answered held =>
      (dispatch_quiet_pm answered (entersExec_of_isExec quiet)).trans held)
    rfl ended noExec
  have table : Regained k.pm (ran.state.pm.finish started.pid ran.result) := by
    obtain ⟨tidy, bound, -⟩ := h.table.alone alone
    obtain ⟨-, -, -, next, -⟩ := ProcessManager.spawnSlot_eq_some spawned
    refine tidy.finish_regained bound spawned ?_ ran.result
    rw [same]
    exact .rfl (by omega)
  obtain ⟨shown, silent⟩ := childRun_shows child noExec idle
  have before : k.console = w.console := congrArg World.console h.world
  rw [wrote] at shown silent
  have captured : (ran.state.io.tearDown cap).1 = cap.elim [] out.take := by
    cases cap with
    | none => rfl
    | some cap =>
      rw [captured_run child fun st hst => entersExec_of_isExec (noExec st hst), wrote, Nat.min_comm,
        ← List.take_take, List.take_of_length_le (fits rfl)]
      rfl
  have world : World.mk ran.state.ram ran.state.console =
      if cap.isSome then ⟨ram, w.console⟩ else World.show ⟨ram, w.console⟩ out := by
    cases cap with
    | none => simp [World.show, files, shown rfl, before]
    | some cap => simp [files, silent rfl (fits rfl), before]
  simp only [childKernel] at ended
  simp only [execWithIo, execInternal, begun, entered, runImage, ended, captured]
  rw [result] at table ⊢
  refine ⟨_, rfl, h.after ?_ (IoState.stdio_tearDown _ cap) table⟩
  exact world

/-- Every exec of the machine is one of the kernel. -/
theorem Hosts.launch (h : Hosts pm k w) (alone : Alone own pm) (holds : Holds sys boot own)
    (argsPass : Passes Libos.maxArgs args) (envPass : Passes Libos.maxEnv env)
    {stdin : Option Bytes} (short : ∀ data, stdin = some data → data.length ≤ maxIoStdin)
    {cap : Option Nat} {status : Nat} {captured : Bytes}
    (launched : boot.launch own path args env stdin cap w = some (status, captured, w'))
    (depth : Nat) :
    ∃ k', execWithIo sys (runImage sys (depth + 1)) k path args env stdin cap =
        some (status, captured, k') ∧ Hosts pm k' w' := by
  cases file : readFile sys.images path with
  | none =>
    obtain ⟨rfl, rfl, rfl⟩ := by simpa [Boot.launch, holds.images, file] using launched
    exact h.refused (by simp only [startProcess, file]; rfl) stdin cap
  | some image =>
    cases slot : slotForPath path with
    | none =>
      obtain ⟨rfl, rfl, rfl⟩ := by simpa [Boot.launch, holds.images, file, slot] using launched
      exact h.refused (by simp only [startProcess, file, slot]; rfl) stdin cap
    | some slotIdx =>
      rcases eq_or_ne slotIdx own with rfl | other
      · -- Its own slot is the one that is in use
        obtain ⟨tidy, -, slots⟩ := h.table.alone alone
        have taken := (tidy.spawnSlot_eq_none slotIdx).mpr
          (.inr (by rw [slots slotIdx (slotForPath_lt slot)]; simp))
        obtain ⟨rfl, rfl, rfl⟩ := by simpa [Boot.launch, holds.images, file, slot] using launched
        exact h.refused (by simp only [startProcess, file, slot, taken]; rfl) stdin cap
      · cases meaning : boot.meaning path args env w.ram stdin with
        | none => simp [Boot.launch, holds.images, file, slot, other, meaning] at launched
        | some computes =>
          obtain ⟨out, ram⟩ := computes
          obtain ⟨ran, computed⟩ :=
            h.computed alone holds file slot other argsPass envPass short meaning cap depth
          cases cap with
          | none =>
            obtain ⟨rfl, rfl, rfl⟩ := by
              simpa [Boot.launch, holds.images, file, slot, other, meaning] using launched
            simpa using h.ended alone computed (by simp)
          | some cap =>
            obtain ⟨fits, rfl, rfl, rfl⟩ := by
              simpa [Boot.launch, holds.images, file, slot, other, meaning] using launched
            simpa using h.ended alone computed fun _ => fits

theorem ExecIoRequest.stdio_short {req : ExecIoRequest} {data : Bytes}
    (h : req.stdio.1 = some data) : data.length ≤ maxIoStdin := by
  rw [ExecIoRequest.stdio] at h
  cases given : req.stdin with
  | none => simp [given] at h
  | some bytes =>
    simp only [given] at h
    split at h
    · cases h
    · obtain rfl := Option.some.inj h
      rw [List.length_take]
      exact Nat.min_le_left ..

/-- A call that starts no program is answered as in the machine. -/
theorem Hosts.quiet (h : Hosts pm k w) (images : boot.images = sys.images)
    (quiet : c.isExec = false)
    (answered : boot.answer own c w = some (r, w')) :
    ∃ k', dispatch sys run c k = some (r, k') ∧ Hosts pm k' w' := by
  have machine : boot.answer own c w =
      (dispatch boot.idle (runImage boot.idle 0) c w.kernel).map
        fun answer => (answer.1, ofKernel answer.2) := by
    cases c with
    | execve path args env => cases quiet
    | execIo req => cases quiet
    | _ => rfl
  have alike : (dispatch boot.idle (runImage boot.idle 0) c w.kernel).map _ =
      (dispatch sys run c k).map _ := dispatch_world images h.context rfl h.world.symm quiet
  rw [machine] at answered
  rw [answered] at alike
  obtain ⟨⟨r', k'⟩, answered', same⟩ := Option.map_eq_some_iff.mp alike.symm
  obtain ⟨rfl, rfl⟩ := Prod.mk.inj same
  have table := dispatch_quiet_pm answered' (entersExec_of_isExec quiet)
  have context := stdio_dispatch answered' (entersExec_of_isExec quiet)
  rw [h.context] at context
  refine ⟨k', answered', h.after rfl context ?_⟩
  rw [table]
  exact .rfl h.table.bound

/-- The kernel gives every reply that the machine gives. -/
theorem dispatch_simulates (holds : Holds sys boot own) (alone : Alone own pm) (depth : Nat) :
    Program.Simulates (dispatch sys (runImage sys (depth + 1))) (boot.answer own) (Hosts pm) := by
  intro k w c r w' h answered
  cases c with
  | execve path args env =>
    cases strings : execArgs path args env with
    | none =>
      simp only [Boot.answer, strings] at answered
      obtain ⟨rfl, rfl⟩ := Prod.mk.inj (Option.some.inj answered)
      exact ⟨k, by simp only [dispatch, strings], h⟩
    | some found =>
      obtain ⟨path, args, env⟩ := found
      obtain ⟨-, argsPass, envPass⟩ := passes_of_execArgs strings
      simp only [Boot.answer, strings] at answered
      obtain ⟨⟨status, captured, w''⟩, launched, same⟩ := Option.map_eq_some_iff.mp answered
      obtain ⟨rfl, rfl⟩ := Prod.mk.inj same
      obtain ⟨k', ended, hosts⟩ := h.launch alone holds argsPass envPass (by simp) launched depth
      exact ⟨k', by simp only [dispatch, strings, exec, ended], hosts⟩
  | execIo req =>
    cases req with
    | none =>
      obtain ⟨rfl, rfl⟩ := Prod.mk.inj (Option.some.inj answered)
      exact ⟨k, rfl, h⟩
    | some req =>
      cases pointers : req.path.isNone || !req.status with
      | true =>
        simp only [Boot.answer, pointers, if_true] at answered
        obtain ⟨rfl, rfl⟩ := Prod.mk.inj (Option.some.inj answered)
        exact ⟨k, by simp only [dispatch, sysExecIo, pointers, if_true], h⟩
      | false =>
        cases strings : execArgs req.path req.args req.env with
        | none =>
          simp only [Boot.answer, pointers, strings, Bool.false_eq_true, if_false] at answered
          obtain ⟨rfl, rfl⟩ := Prod.mk.inj (Option.some.inj answered)
          exact ⟨k, by simp only [dispatch, sysExecIo, pointers, strings, Bool.false_eq_true,
            if_false], h⟩
        | some found =>
          obtain ⟨path, args, env⟩ := found
          obtain ⟨-, argsPass, envPass⟩ := passes_of_execArgs strings
          simp only [Boot.answer, pointers, strings, Bool.false_eq_true, if_false] at answered
          obtain ⟨⟨status, captured, w''⟩, launched, same⟩ := Option.map_eq_some_iff.mp answered
          obtain ⟨rfl, rfl⟩ := Prod.mk.inj same
          obtain ⟨k', ended, hosts⟩ := h.launch alone holds argsPass envPass
            (fun data given => ExecIoRequest.stdio_short given) launched depth
          refine ⟨k', ?_, hosts⟩
          rw [dispatch, sysExecIo_eq _ req strings pointers, ended, Option.map_some]
  | _ => exact h.quiet holds.images rfl answered

/-- Whatever program runs, and whatever the process table, the loader and the stdio context do on its
behalf: the kernel runs it as the machine does, and gets its table and its context back. -/
theorem kernel_refines_machine (sys : System) (boot : Boot) (own depth : Nat) (k : Kernel) {α : Type}
    (p : Program Syscall Reply α) (ran : Program.Ran Syscall Reply World α)
    (holds : Holds sys boot own) (alone : Alone own k.pm) (context : k.io.stdio = ⟨none, none⟩)
    (ended : p.run (boot.answer own) (ofKernel k) = some ran) :
    ∃ ran', p.run (dispatch sys (runImage sys (depth + 1))) k = some ran' ∧
      ran'.result = ran.result ∧ ran'.calls = ran.calls ∧ ofKernel ran'.state = ran.state ∧
      ran'.state.io.stdio = ⟨none, none⟩ ∧ Regained k.pm ran'.state.pm := by
  obtain ⟨ran', ended', result, calls, last⟩ :=
    (dispatch_simulates holds alone depth).run ⟨rfl, context, .rfl alone.bound⟩ ended
  exact ⟨ran', ended', result, calls, last.world, last.context, last.table⟩

/-- Every image of `bareImages` is accepted in its slot. -/
theorem bareImages_accepted {image : Bytes} {slotIdx : Nat}
    (file : readFile bareImages path = some image) (slot : slotForPath path = some slotIdx) :
    ∃ hdr, validateElfForSlot image (slotForIndex slotIdx) = .ok hdr ∧ hdr.entry ≠ 0 := by
  have all : ∀ slotIdx < maxProcessSlots,
      validateElfForSlot bareImage (slotForIndex slotIdx) = .ok ⟨1, 64, 56, 0⟩ := by decide +kernel
  obtain rfl : bareImage = image := by
    rw [slotForPath] at slot
    repeat' split at slot
    all_goals first | (subst path; exact Option.some.inj (Eq.trans (by decide +kernel) file)) |
      cases slot
  exact ⟨_, all slotIdx (slotForPath_lt slot), by decide⟩

/-- Every program says `hi`. -/
def greets : System := uniform [.write 1 (some (str "hi"))]

def greetsMachine : Boot := ⟨bareImages, fun _ _ _ ram _ => some (str "hi", ram)⟩

theorem greets_holds : Holds greets greetsMachine 0 where
  images := rfl
  accepted := fun path image slotIdx file slot _ => bareImages_accepted file slot
  computes := by
    intro path slotIdx _ _ runner args env k out ram _ _ meaning
    obtain ⟨rfl, rfl⟩ := Prod.mk.inj (Option.some.inj meaning)
    have kept : (sysWrite k 1 (some (str "hi"))).2.ram = k.ram := by
      rw [sysWrite_eq]
      repeat' split
      all_goals rfl
    exact ⟨_, Program.run_call_eq_some.mpr ⟨_, _, _, rfl, rfl, rfl⟩, rfl, by simp [Program.Ran.calls],
      kept, by simp [Syscall.isExec], by simp [Syscall.asks]⟩

/-- Init starts a program that greets. -/
theorem kernel_refines_machine_greets :
    ∃ k ran', (Program.request (.execve (some (str "/bin/cat" ++ [0])) none none)).run
        (dispatch greets (runImage greets 1)) k = some ran' ∧
      ran'.result = .value 0 ∧ ran'.state.console.vga = str "hi" ∧ Regained k.pm ran'.state.pm := by
  obtain ⟨pm, alone⟩ := exists_alone
  obtain ⟨ran, ended⟩ := Option.isSome_iff_exists.mp (by decide +kernel :
    ((Program.request (.execve (some (str "/bin/cat" ++ [0])) none none)).run
      (greetsMachine.answer 0) (ofKernel typing)).isSome = true)
  obtain ⟨ran', ended', result, -, world, -, table⟩ := kernel_refines_machine greets greetsMachine 0 0
    { typing with pm } _ ran greets_holds alone rfl ended
  have shows : ((Program.request (.execve (some (str "/bin/cat" ++ [0])) none none)).run
      (greetsMachine.answer 0) (ofKernel typing)).map (fun ran => (ran.result, ran.state.console.vga)) =
        some (.value 0, str "hi") := by decide +kernel
  rw [ended] at shows
  obtain ⟨status, vga⟩ := Prod.mk.inj (Option.some.inj shows)
  exact ⟨_, ran', ended', result.trans status, (congrArg (·.console.vga) world).trans vga, table⟩

end Smultron
