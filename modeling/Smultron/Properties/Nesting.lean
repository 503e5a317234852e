import Smultron.Lib.Simulation
import Smultron.Properties.ProcessTable

/-!
# How deep execs nest

A program that starts another one waits for it inside its call, so the kernel nests as deep as its
programs do. Nothing in the code counts that. But each of them sits in a slot, and there are seven.

Pids do not matter here. The counter stops at its last value, and then processes share a pid, so one
of them can be taken out of the table for another. The number of processes is right all the same.

## Main results

- `processes_balanced`: whatever runs, there are as many processes behind it as before it.
- `nesting_bounded`: seven levels are enough, so the depth of the model bounds nothing.
-/

namespace Smultron

open Checked Checked.Outcome Process

variable {sys : System} {run run' : Runner} {k k' : Kernel} {path args env : Bytes}

/-! ### Slots and their processes -/

namespace Process

variable {pm pm' : ProcessManager}

/-- Each slot that is in use has one running process, whatever their pids are. -/
structure Slotted (pm : ProcessManager) : Prop where
  distinct : (pm.running.map Prod.snd).Nodup
  inUse : ∀ i, pm.slotsInUse[i]? = some true ↔ i ∈ pm.running.map Prod.snd

/-- The pids that are running, each as often as it runs. -/
def ProcessManager.pids (pm : ProcessManager) : List Nat := pm.running.map Prod.fst

theorem Tidy.slotted (h : Tidy pm) : Slotted pm := ⟨h.owned.slots, h.owned.inUse⟩

theorem Slotted.slot_lt (h : Slotted pm) {i : Nat} (used : i ∈ pm.running.map Prod.snd) :
    i < maxProcessSlots := by
  have inside := (List.getElem?_eq_some_iff.mp ((h.inUse i).mpr used)).1
  rwa [pm.slots_length] at inside

/-- There are no more processes than slots. -/
theorem Slotted.few (h : Slotted pm) : pm.pids.length ≤ maxProcessSlots := by
  have inside : pm.running.map Prod.snd ⊆ List.range maxProcessSlots :=
    fun i used => List.mem_range.mpr (h.slot_lt used)
  simpa [ProcessManager.pids] using (h.distinct.subperm inside).length_le

theorem Slotted.spawn (h : Slotted pm) {slotIdx pid slotIdx' : Nat}
    (spawned : pm.spawnSlot slotIdx = some ((pid, slotIdx'), pm')) :
    Slotted pm' ∧ pm'.pids.Perm (pid :: pm.pids) := by
  obtain ⟨-, -, free, -, slots, running⟩ := ProcessManager.spawnSlot_eq_some spawned
  have unused : slotIdx ∉ pm.running.map Prod.snd := by
    intro used
    rw [(h.inUse slotIdx).mpr used] at free
    cases free
  have owners : (pm'.running.map Prod.snd).Perm (slotIdx :: pm.running.map Prod.snd) :=
    running.map Prod.snd
  refine ⟨⟨owners.nodup_iff.mpr (h.distinct.cons unused), fun i => ?_⟩, running.map Prod.fst⟩
  have inside := (List.getElem?_eq_some_iff.mp free).1
  rw [owners.mem_iff, List.mem_cons, ← h.inUse i, slots, List.getElem?_set]
  by_cases same : slotIdx = i
  · subst same
    simp [inside]
  · simp [same, Ne.symm same]

/-- One process with the pid is taken out, and its slot is free again. -/
theorem Slotted.finish (h : Slotted pm) {pid : Nat} (runs : pid ∈ pm.pids) (exitCode : Nat) :
    Slotted (pm.finish pid exitCode) ∧ (pm.finish pid exitCode).nextPid = pm.nextPid ∧
      ∃ slotIdx, pm.running.Perm ((pid, slotIdx) :: (pm.finish pid exitCode).running) := by
  obtain ⟨⟨pid', slotIdx⟩, owner, same⟩ := List.mem_map.mp runs
  obtain ⟨r, hr, active, pid'', -⟩ := ProcessManager.mem_running.mp owner
  obtain rfl : r.pid = pid := pid''.trans same
  cases found : pm.updateFirst (fun r' => r'.pid == r.pid && r'.state == .running)
      fun _ => ProcessRecord.empty with
  | none =>
    rw [ProcessManager.updateFirst] at found
    split at found
    · cases found
    next nothing =>
      exact absurd (SlotTable.updateFirst_eq_none.mp nothing r hr) (by simp [active])
  | some pm₁ =>
    obtain ⟨records, slots, next⟩ := ProcessManager.updateFirst_eq_some found
    obtain ⟨l, e, tail, whole, before, he, after⟩ := SlotTable.updateFirst_eq_some.mp records
    have first : pm.records.find? (fun r' => r'.pid == r.pid && r'.state == .running) = some e := by
      rw [whole, List.find?_append, List.find?_eq_none.mpr (by simpa using before)]
      simp [he]
    obtain ⟨samePid, run⟩ : e.pid = r.pid ∧ e.state = .running := by simpa using he
    have split : pm.running.Perm ((e.pid, e.slotIdx) :: pm₁.running) := by
      have taken : ProcessManager.ownerOf e = some (e.pid, e.slotIdx) := by
        simp [ProcessManager.ownerOf, run]
      have off : ProcessManager.ownerOf ProcessRecord.empty = none := by
        simp [ProcessManager.ownerOf, ProcessRecord.empty]
      simp only [ProcessManager.running, whole, after, List.filterMap_append, List.filterMap_cons,
        taken, off]
      exact List.perm_middle
    have owners : (pm.running.map Prod.snd).Perm (e.slotIdx :: pm₁.running.map Prod.snd) :=
      split.map Prod.snd
    obtain ⟨gone, distinct⟩ := List.nodup_cons.mp (owners.nodup_iff.mp h.distinct)
    have inside := h.slot_lt (owners.mem_iff.mpr List.mem_cons_self)
    have finished : pm.finish r.pid exitCode = pm₁.setSlot e.slotIdx false := by
      simp only [ProcessManager.finish, first, found, if_pos inside]
    rw [finished]
    refine ⟨⟨distinct, fun i => ?_⟩, next, e.slotIdx, samePid ▸ split⟩
    have used := h.inUse i
    rw [owners.mem_iff, List.mem_cons, ← slots] at used
    rw [show (pm₁.setSlot e.slotIdx false).running = pm₁.running from rfl,
      show (pm₁.setSlot e.slotIdx false).slotsInUse = pm₁.slotsInUse.set e.slotIdx false from rfl,
      List.getElem?_set]
    by_cases same : e.slotIdx = i
    · subst same
      simp only [if_true, gone, iff_false]
      split <;> simp
    · simpa [same, Ne.symm same] using used

/-- The pid has been given out, and it is not the last one, which is given out again. -/
def ProcessManager.Past (pm : ProcessManager) (pid : Nat) : Prop := pid < pm.nextPid ∧ pid < u64Max

/-- There are the same pids as before, each as often, and slots are in use for them. The processes that
were started before are in the slots that they had. -/
structure Balanced (pm pm' : ProcessManager) : Prop where
  slotted : Slotted pm'
  pids : pm'.pids.Perm pm.pids
  past : ∀ pid, pm.Past pid →
    pm'.Past pid ∧ ∀ slotIdx, (pid, slotIdx) ∈ pm'.running ↔ (pid, slotIdx) ∈ pm.running

theorem Slotted.balanced (h : Slotted pm) : Balanced pm pm := ⟨h, .refl _, fun _ past => ⟨past, by simp⟩⟩

theorem Balanced.trans {pm'' : ProcessManager} (h : Balanced pm pm') (h' : Balanced pm' pm'') :
    Balanced pm pm'' where
  slotted := h'.slotted
  pids := h'.pids.trans h.pids
  past pid past := by
    obtain ⟨past', same⟩ := h.past pid past
    obtain ⟨past'', same'⟩ := h'.past pid past'
    exact ⟨past'', fun slotIdx => (same' slotIdx).trans (same slotIdx)⟩

/-- A process that finishes behind its nested ones finds a record with its pid. -/
theorem Slotted.spawn_finish (h : Slotted pm) {slotIdx pid slotIdx' : Nat} {pm'' : ProcessManager}
    (spawned : pm.spawnSlot slotIdx = some ((pid, slotIdx'), pm')) (nested : Balanced pm' pm'')
    (exitCode : Nat) : Balanced pm (pm''.finish pid exitCode) := by
  obtain ⟨-, pids⟩ := h.spawn spawned
  obtain ⟨-, given, -, next, -, running⟩ := ProcessManager.spawnSlot_eq_some spawned
  have all : pm''.pids.Perm (pid :: pm.pids) := nested.pids.trans pids
  obtain ⟨slotted, next', gone, left⟩ :=
    nested.slotted.finish (all.mem_iff.mpr List.mem_cons_self) exitCode
  refine ⟨slotted, ((left.map Prod.fst).symm.trans all).cons_inv, fun older past => ?_⟩
  -- The new process got another pid, and it is this one that is taken out
  obtain ⟨before, notLast⟩ := past
  have other : older ≠ pid := by omega
  obtain ⟨past', same⟩ := nested.past older ⟨by omega, notLast⟩
  refine ⟨⟨next' ▸ past'.1, notLast⟩, fun slotIdx => ?_⟩
  have kept := same slotIdx
  rw [left.mem_iff, running.mem_iff, List.mem_cons, List.mem_cons] at kept
  simpa [other] using kept

end Process

/-! ### Every exec is balanced -/

/-- The runs of images leave as many processes as they find. -/
def Balances (run : Runner) : Prop :=
  ∀ path argBuf envBuf k status k', Slotted k.pm → run path argBuf envBuf k = some (status, k') →
    Balanced k.pm k'.pm

theorem execInternal_balanced (images : Balances run) (slotted : Slotted k.pm) {status : Nat}
    (ended : execInternal sys run k path args env = some (status, k')) : Balanced k.pm k'.pm := by
  cases begun : startProcess sys.images k.pm path args env with
  | error msg =>
    simp only [execInternal, begun] at ended
    obtain ⟨-, rfl⟩ := Prod.mk.inj (Option.some.inj ended)
    exact slotted.balanced
  | ok started =>
    obtain ⟨spawned, -⟩ := startProcess_eq_ok begun
    obtain ⟨own, -⟩ := slotted.spawn spawned
    cases entered : started.entry with
    | panic =>
      simp only [execInternal, begun, entered] at ended
      cases ended
    | err msg =>
      simp only [execInternal, begun, entered] at ended
      obtain ⟨-, rfl⟩ := Prod.mk.inj (Option.some.inj ended)
      exact slotted.spawn_finish spawned own.balanced u64Max
    | ok entry =>
      simp only [execInternal, begun, entered] at ended
      split at ended
      · cases ended
      next status' k₁ ran =>
        obtain ⟨-, rfl⟩ := Prod.mk.inj (Option.some.inj ended)
        exact slotted.spawn_finish spawned (images _ _ _ _ _ _ own ran) status'

theorem dispatch_balanced (images : Balances run) (slotted : Slotted k.pm) {c : Syscall} {r : Reply}
    (answered : dispatch sys run c k = some (r, k')) : Balanced k.pm k'.pm := by
  have same := dispatch_pm answered
  cases enters : c.entered k with
  | none =>
    rw [enters] at same
    rw [same]
    exact slotted.balanced
  | some entered =>
    obtain ⟨k₀, path, args, env⟩ := entered
    rw [enters] at same
    obtain ⟨status, k₁, internal, after⟩ := same
    have found := entered_pm enters
    rw [after, ← found]
    exact execInternal_balanced images (found ▸ slotted) internal

theorem run_balanced (images : Balances run) (slotted : Slotted k.pm) {α : Type}
    {p : Program Syscall Reply α} {ran : Program.Ran Syscall Reply Kernel α}
    (ended : p.run (dispatch sys run) k = some ran) : Balanced k.pm ran.state.pm :=
  Program.run_keeps (I := fun k' => Balanced k.pm k'.pm) (P := fun _ => True)
    (fun _ _ _ _ _ answered held => held.trans (dispatch_balanced images held.slotted answered))
    slotted.balanced ended fun _ _ => trivial

theorem runImage_balances (sys : System) (depth : Nat) : Balances (runImage sys depth) := by
  induction depth with
  | zero =>
    intro path argBuf envBuf k status k' _ ended
    cases ended
  | succ depth ih =>
    intro path argBuf envBuf k status k' slotted ended
    simp only [runImage] at ended
    split at ended
    · cases ended
    next ran steps =>
      obtain ⟨-, rfl⟩ := Prod.mk.inj (Option.some.inj ended)
      exact run_balanced ih slotted steps

/-- Whatever a program does, and whatever the programs do that it starts: behind its run there are the
processes that there were before it, also where the counter of the pids has come to its end. -/
theorem processes_balanced (sys : System) (depth : Nat) (k : Kernel) (slotted : Slotted k.pm) {α : Type}
    (p : Program Syscall Reply α) (ran : Program.Ran Syscall Reply Kernel α)
    (ended : p.run (dispatch sys (runImage sys depth)) k = some ran) :
    ran.state.pm.pids.Perm k.pm.pids ∧ Slotted ran.state.pm :=
  have balanced := run_balanced (runImage_balances sys depth) slotted ended
  ⟨balanced.pids, balanced.slotted⟩

/-- The counter has come to its end, and a process has the last pid. -/
def lastPid : ProcessManager := { ProcessManager.new with nextPid := u64Max }.after [.spawn 0]

theorem slotted_lastPid : Slotted lastPid := by
  have new : Slotted { ProcessManager.new with nextPid := u64Max } :=
    ⟨tidy_new.slotted.distinct, tidy_new.slotted.inUse⟩
  obtain ⟨⟨found, pm⟩, spawned⟩ := Option.isSome_iff_exists.mp (by decide +kernel :
    ({ ProcessManager.new with nextPid := u64Max }.spawnSlot 0).isSome = true)
  have after : lastPid = pm := by simp [lastPid, ProcessManager.after, ProcessManager.apply, spawned]
  exact after ▸ (new.spawn spawned).1

/-- A program with the last pid starts another one, which has it too. The slot of the first is free
behind it, but one process with that pid is still there. -/
theorem processes_balanced_last_pid :
    ∃ ran, (Program.request (.execve (some (str "/bin/cat" ++ [0])) none none)).run
        (dispatch startsLs (runImage startsLs 2)) { typing with pm := lastPid } = some ran ∧
      ran.state.pm.pids.Perm [u64Max] ∧ ran.state.pm.slotsInUse[0]? = some false := by
  obtain ⟨ran, ended⟩ := Option.isSome_iff_exists.mp (by decide +kernel :
    ((Program.request (.execve (some (str "/bin/cat" ++ [0])) none none)).run
      (dispatch startsLs (runImage startsLs 2)) { typing with pm := lastPid }).isSome = true)
  have same := (processes_balanced startsLs 2 { typing with pm := lastPid } slotted_lastPid _ ran
    ended).1
  have pids : lastPid.pids = [u64Max] := by decide +kernel
  have free : ((Program.request (.execve (some (str "/bin/cat" ++ [0])) none none)).run
      (dispatch startsLs (runImage startsLs 2)) { typing with pm := lastPid }).map
        (·.state.pm.slotsInUse[0]?) = some (some false) := by decide +kernel
  rw [ended] at free
  exact ⟨ran, ended, pids ▸ same, Option.some.inj free⟩

/-! ### The depth does not matter -/

/-- The runs of images are the same where at least `n` processes run. -/
def AgreeFrom (n : Nat) (run run' : Runner) : Prop :=
  ∀ path argBuf envBuf k, Slotted k.pm → n ≤ k.pm.pids.length →
    run path argBuf envBuf k = run' path argBuf envBuf k

section Agree

variable (sys) {n : Nat} (agree : AgreeFrom (n + 1) run run') (slotted : Slotted k.pm)
  (many : n ≤ k.pm.pids.length)

include agree slotted many

theorem execInternal_agree (path args env : Bytes) :
    execInternal sys run k path args env = execInternal sys run' k path args env := by
  cases begun : startProcess sys.images k.pm path args env with
  | error msg => simp only [execInternal, begun]
  | ok started =>
    obtain ⟨spawned, -⟩ := startProcess_eq_ok begun
    obtain ⟨own, pids⟩ := slotted.spawn spawned
    have more : n + 1 ≤ started.pm.pids.length := by
      rw [pids.length_eq, List.length_cons]
      omega
    cases entered : started.entry with
    | panic => simp only [execInternal, begun, entered]
    | err msg => simp only [execInternal, begun, entered]
    | ok entry =>
      have same := agree path entry.argBuf entry.envBuf
        { k with pm := started.pm, mem := Memory.applyAll started.image started.ops k.mem } own more
      simp only [execInternal, begun, entered, same]

theorem execWithIo_agree (path args env : Bytes) (stdin : Option Bytes) (cap : Option Nat) :
    execWithIo sys run k path args env stdin cap = execWithIo sys run' k path args env stdin cap := by
  have started : Slotted ({ k with io := k.io.setUp stdin cap.isSome } : Kernel).pm := slotted
  have same := execInternal_agree sys agree started many path args env
  rw [execWithIo, same, execWithIo]

theorem dispatch_agree (c : Syscall) : dispatch sys run c k = dispatch sys run' c k := by
  have execs := execWithIo_agree sys agree slotted many
  cases c with
  | execve path args env => simp only [dispatch, exec, execs]
  | execIo req =>
    cases req with
    | none => rfl
    | some req => simp only [dispatch, sysExecIo, execs]
  | _ => rfl

/-- Runs are the same, since every call leaves as many processes as it finds. -/
theorem run_agree (images : Balances run) {α : Type} (p : Program Syscall Reply α) :
    p.run (dispatch sys run) k = p.run (dispatch sys run') k :=
  Program.run_congr (I := fun k' => Slotted k'.pm ∧ n ≤ k'.pm.pids.length)
    (fun c _ held => dispatch_agree sys agree held.1 held.2 c)
    (fun _ _ _ _ held answered => by
      have balanced := dispatch_balanced images held.1 answered
      exact ⟨balanced.slotted, balanced.pids.length_eq ▸ held.2⟩)
    ⟨slotted, many⟩ p

end Agree

/-- With so many processes running, what is left of the depth is enough. -/
theorem runImage_agree (sys : System) (depth extra : Nat) :
    AgreeFrom (maxProcessSlots - depth + 1) (runImage sys (depth + extra)) (runImage sys depth) := by
  induction depth with
  | zero =>
    -- There would be more processes than slots
    intro path argBuf envBuf k slotted many
    have few := slotted.few
    omega
  | succ depth ih =>
    intro path argBuf envBuf k slotted many
    have agree : AgreeFrom (maxProcessSlots - (depth + 1) + 1 + 1) (runImage sys (depth + extra))
        (runImage sys depth) := fun path argBuf envBuf k slotted many =>
      ih path argBuf envBuf k slotted (by omega)
    have same := run_agree sys agree slotted many (runImage_balances sys (depth + extra))
      (sys.image path argBuf envBuf)
    rw [Nat.add_right_comm, runImage, runImage, same]

/-- As many levels as there are free slots do for every exec and for every program, and no more of
them change what comes of it. -/
theorem nesting_bounded (sys : System) (k : Kernel) (slotted : Slotted k.pm) (depth extra : Nat)
    (enough : maxProcessSlots ≤ k.pm.pids.length + depth) :
    (∀ path args env stdin cap,
      execWithIo sys (runImage sys (depth + extra)) k path args env stdin cap =
        execWithIo sys (runImage sys depth) k path args env stdin cap) ∧
      ∀ {α : Type} (p : Program Syscall Reply α),
        p.run (dispatch sys (runImage sys (depth + extra))) k =
          p.run (dispatch sys (runImage sys depth)) k := by
  have agree := runImage_agree sys depth extra
  have many : maxProcessSlots - depth ≤ k.pm.pids.length := by omega
  exact ⟨execWithIo_agree sys agree slotted many,
    run_agree sys agree slotted many (runImage_balances sys (depth + extra))⟩

theorem nesting_bounded_typing :
    execWithIo startsLs (runImage startsLs 9) typing (str "/bin/cat") [] [] none none =
      execWithIo startsLs (runImage startsLs 7) typing (str "/bin/cat") [] [] none none :=
  (nesting_bounded startsLs typing tidy_new.slotted 7 2 (Nat.le_add_left ..)).1 _ _ _ _ _

end Smultron
