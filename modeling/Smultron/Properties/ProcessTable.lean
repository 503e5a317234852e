import Smultron.Kernel.Syscall
import Smultron.Properties.SlotSafety
import Smultron.Properties.Redirection
import Mathlib.Data.List.Perm.Subperm

/-!
# The process table over arbitrary runs

Slots, records and the pid counter agree after any sequence of spawns and finishes, as long as the
counter has not saturated. An exec puts one process in the table and takes it out again, and so
does every exec nested in it, so an exec that returns leaves slots and records as it found them.
-/

namespace Smultron

open Checked ElfLoader Memory SlotTable

namespace Process

/-- A use of the table. -/
inductive TableCall where
  | spawn (slotIdx : Nat)
  | finish (pid exitCode : Nat)

namespace ProcessManager

def apply (pm : ProcessManager) : TableCall → ProcessManager
  | .spawn slotIdx =>
    match pm.spawnSlot slotIdx with
    | some (_, pm') => pm'
    | none => pm
  | .finish pid exitCode => pm.finish pid exitCode

/-- The table after some calls. -/
def after (pm : ProcessManager) (calls : List TableCall) : ProcessManager := calls.foldl apply pm

/-- How many of the calls spawn a process. -/
def spawns (pm : ProcessManager) : List TableCall → Nat
  | [] => 0
  | .spawn slotIdx :: calls =>
    (if (pm.spawnSlot slotIdx).isSome then 1 else 0) + (pm.apply (.spawn slotIdx)).spawns calls
  | .finish pid exitCode :: calls => (pm.finish pid exitCode).spawns calls

end ProcessManager

/-! ### The invariant -/

/-- The running records own the slots in use, and a record that is not running is blank. -/
structure Tidy (pm : ProcessManager) : Prop where
  owned : Owned pm pm.running
  blank : ∀ r ∈ pm.records, r.state = .empty → r = ProcessRecord.empty

theorem Owned.perm {pm : ProcessManager} {frames frames' : List (Nat × Nat)} (h : Owned pm frames)
    (same : frames.Perm frames') : Owned pm frames' where
  running := h.running.trans same
  pids := (same.map Prod.fst).nodup_iff.mp h.pids
  slots := (same.map Prod.snd).nodup_iff.mp h.slots
  fresh := fun f hf => h.fresh f (same.mem_iff.mpr hf)
  inUse := fun i => (h.inUse i).trans (same.map Prod.snd).mem_iff

theorem tidy_new : Tidy ProcessManager.new where
  owned := owned_boot.perm owned_boot.running.symm
  blank := by
    intro r hr _
    exact List.eq_of_mem_replicate hr

/-- Running records of one pid are one record. -/
theorem Tidy.pid_unique {pm : ProcessManager} (h : Tidy pm) {i j : Nat} {r r' : ProcessRecord}
    (hi : pm.records[i]? = some r) (hj : pm.records[j]? = some r') (active : r.state = .running)
    (active' : r'.state = .running) (same : r.pid = r'.pid) : i = j := by
  have distinct : pm.records.Pairwise fun a b =>
      a.state = .running → b.state = .running → a.pid ≠ b.pid := by
    have pids := h.owned.pids
    rw [ProcessManager.running, List.Nodup, List.pairwise_map, List.pairwise_filterMap] at pids
    refine pids.imp fun {a b} apart ha hb => ?_
    exact apart (a.pid, a.slotIdx) (by simp [ProcessManager.ownerOf, ha]) (b.pid, b.slotIdx)
      (by simp [ProcessManager.ownerOf, hb])
  obtain ⟨inside, rfl⟩ := List.getElem?_eq_some_iff.mp hi
  obtain ⟨inside', rfl⟩ := List.getElem?_eq_some_iff.mp hj
  rw [List.pairwise_iff_getElem] at distinct
  -- Of two positions one comes first, and then the pids differ
  rcases Nat.lt_trichotomy i j with below | equal | above
  · exact absurd same (distinct i j inside inside' below active active')
  · exact equal
  · exact absurd same.symm (distinct j i inside' inside above active' active)

/-- What a spawn does to the records: the first blank one is the new process. -/
theorem Tidy.spawnSlot_records {pm pm' : ProcessManager} (h : Tidy pm) {slotIdx : Nat}
    {process : Nat × Nat} (spawned : pm.spawnSlot slotIdx = some (process, pm')) :
    ∃ i, pm.records[i]? = some ProcessRecord.empty ∧
      pm'.records = pm.records.set i ⟨pm.nextPid, slotIdx, .running, 0⟩ := by
  rw [ProcessManager.spawnSlot] at spawned
  split at spawned
  · cases spawned
  simp only at spawned
  split at spawned
  · cases spawned
  next found =>
    cases spawned
    obtain ⟨records, -⟩ := ProcessManager.updateFirst_eq_some found
    obtain ⟨l, e, r, whole, -, empty, after⟩ := SlotTable.updateFirst_eq_some.mp records
    -- The first record that is not running is blank, so nothing is lost
    have blank : e = ProcessRecord.empty :=
      h.blank e (by rw [whole]; simp) (by simpa using empty)
    refine ⟨l.length, ?_, ?_⟩
    · rw [whole, blank]
      simp
    · rw [whole] at *
      simpa [ProcessManager.setSlot] using after

theorem Tidy.spawn {pm pm' : ProcessManager} (h : Tidy pm) {slotIdx pid slotIdx' : Nat}
    (spawned : pm.spawnSlot slotIdx = some ((pid, slotIdx'), pm'))
    (counts : pm.nextPid < u64Max) : Tidy pm' where
  owned := by
    obtain ⟨rfl, -, owned⟩ := h.owned.spawn spawned counts
    exact owned.perm owned.running.symm
  blank := by
    obtain ⟨i, -, records⟩ := h.spawnSlot_records spawned
    intro r hr empty
    rw [records] at hr
    rcases List.mem_or_eq_of_mem_set hr with old | rfl
    · exact h.blank r old empty
    · cases empty

/-- What finishing a running process does: its record is blank and its slot is free again. -/
theorem Tidy.finish_eq {pm : ProcessManager} (h : Tidy pm) {i : Nat} {r : ProcessRecord}
    (at_ : pm.records[i]? = some r) (active : r.state = .running) (exitCode : Nat) :
    (pm.finish r.pid exitCode).records = pm.records.set i ProcessRecord.empty ∧
      (pm.finish r.pid exitCode).slotsInUse = pm.slotsInUse.set r.slotIdx false ∧
      (pm.finish r.pid exitCode).nextPid = pm.nextPid := by
  have member : (r.pid, r.slotIdx) ∈ pm.running :=
    ProcessManager.mem_running.mpr ⟨r, List.mem_of_getElem? at_, active, rfl, rfl⟩
  have inRange := h.owned.slot_lt member
  rw [ProcessManager.finish]
  cases first : pm.records.find? fun r' => r'.pid == r.pid && r'.state == .running with
  | none =>
    have none_ := List.find?_eq_none.mp first r (List.mem_of_getElem? at_)
    exact absurd none_ (by simp [active])
  | some e =>
    dsimp only
    cases found : pm.updateFirst (fun r' => r'.pid == r.pid && r'.state == .running)
        fun _ => ProcessRecord.empty with
    | none =>
      rw [ProcessManager.updateFirst] at found
      split at found
      · cases found
      next nothing =>
        have none_ := SlotTable.updateFirst_eq_none.mp nothing r (List.mem_of_getElem? at_)
        exact absurd none_ (by simp [active])
    | some pm' =>
      dsimp only
      obtain ⟨records, slots, next⟩ := ProcessManager.updateFirst_eq_some found
      obtain ⟨l, e', tail, whole, before, he, after⟩ := SlotTable.updateFirst_eq_some.mp records
      -- The record found has the pid, so it is the record asked for.
      obtain ⟨samePid, run⟩ : e'.pid = r.pid ∧ e'.state = .running := by simpa using he
      have place : pm.records[l.length]? = some e' := by rw [whole]; simp
      obtain rfl := h.pid_unique at_ place active run samePid.symm
      obtain rfl : e' = r := Option.some.inj (place.symm.trans at_)
      have same : e = e' := by
        rw [whole, List.find?_append, List.find?_eq_none.mpr (by simpa using before),
          Option.none_or] at first
        simpa [active, eq_comm] using first
      rw [same, if_pos inRange]
      refine ⟨?_, by rw [← slots]; rfl, next⟩
      rw [whole] at *
      simpa [ProcessManager.setSlot] using after

theorem finish_absent {pm : ProcessManager} {pid : Nat}
    (absent : ∀ r ∈ pm.records, r.state = .running → r.pid ≠ pid) (exitCode : Nat) :
    pm.finish pid exitCode = pm := by
  have none_ : pm.records.find? (fun r => r.pid == pid && r.state == .running) = none := by
    rw [List.find?_eq_none]
    intro r hr
    have := absent r hr
    simp only [Bool.and_eq_true, beq_iff_eq, not_and]
    exact fun same active => this active same
  rw [ProcessManager.finish, none_]

theorem Tidy.finish {pm : ProcessManager} (h : Tidy pm) (pid exitCode : Nat) :
    Tidy (pm.finish pid exitCode) ∧ (pm.finish pid exitCode).nextPid = pm.nextPid := by
  by_cases absent : ∀ r ∈ pm.records, r.state = .running → r.pid ≠ pid
  · rw [finish_absent absent]
    exact ⟨h, rfl⟩
  · simp only [not_forall, not_not] at absent
    obtain ⟨r, hr, active, rfl⟩ := absent
    obtain ⟨i, at_⟩ := List.mem_iff_getElem?.mp hr
    obtain ⟨records, -, next⟩ := h.finish_eq at_ active exitCode
    refine ⟨⟨?_, ?_⟩, next⟩
    · -- The process is one of the frames; the others are left
      have member : (r.pid, r.slotIdx) ∈ pm.running :=
        ProcessManager.mem_running.mpr ⟨r, hr, active, rfl, rfl⟩
      have front := h.owned.perm (List.perm_cons_erase member)
      have owned := front.finish exitCode
      exact owned.perm owned.running.symm
    · intro r' hr' empty
      rw [records] at hr'
      rcases List.mem_or_eq_of_mem_set hr' with old | rfl
      · exact h.blank r' old empty
      · rfl

/-! ### Runs of the table -/

theorem Tidy.apply {pm : ProcessManager} (h : Tidy pm) (call : TableCall)
    (room : pm.nextPid + pm.spawns [call] ≤ u64Max) :
    Tidy (pm.apply call) ∧ (pm.apply call).nextPid = pm.nextPid + pm.spawns [call] := by
  cases call with
  | finish pid exitCode => exact h.finish pid exitCode
  | spawn slotIdx =>
    cases spawned : pm.spawnSlot slotIdx with
    | none =>
      simp only [ProcessManager.apply, ProcessManager.spawns, spawned]
      exact ⟨h, rfl⟩
    | some result =>
      obtain ⟨⟨pid, slotIdx'⟩, pm'⟩ := result
      simp only [ProcessManager.apply, ProcessManager.spawns, spawned, Option.isSome_some,
        if_true] at room ⊢
      have counts : pm.nextPid < u64Max := by omega
      obtain ⟨-, rfl, -, next, -⟩ := ProcessManager.spawnSlot_eq_some spawned
      exact ⟨h.spawn spawned counts, by omega⟩

theorem spawns_cons (pm : ProcessManager) (call : TableCall) (calls : List TableCall) :
    pm.spawns (call :: calls) = pm.spawns [call] + (pm.apply call).spawns calls := by
  cases call with
  | spawn slotIdx => rfl
  | finish pid exitCode => exact (Nat.zero_add _).symm

theorem Tidy.after {pm : ProcessManager} (h : Tidy pm) (calls : List TableCall)
    (room : pm.nextPid + pm.spawns calls ≤ u64Max) :
    Tidy (pm.after calls) ∧ (pm.after calls).nextPid = pm.nextPid + pm.spawns calls := by
  induction calls generalizing pm with
  | nil => exact ⟨h, rfl⟩
  | cons call calls ih =>
    rw [spawns_cons] at room ⊢
    obtain ⟨first, next⟩ := h.apply call (by omega)
    obtain ⟨last, next'⟩ := ih first (by omega)
    exact ⟨last, by rw [next, Nat.add_assoc] at next'; exact next'⟩

theorem tidy_reached (calls : List TableCall) (few : ProcessManager.new.spawns calls < u64Max) :
    Tidy (ProcessManager.new.after calls) ∧
      (ProcessManager.new.after calls).nextPid = 1 + ProcessManager.new.spawns calls :=
  tidy_new.after calls (by change 1 + _ ≤ _; omega)

/-! ### What the invariant says -/

/-- There is one running process for each slot in use, each has a pid of its own that was given
out before, and there are no more of them than slots. -/
structure Agrees (pm : ProcessManager) : Prop where
  inUse : ∀ s, pm.slotsInUse[s]? = some true ↔ (pm.running.map Prod.snd).count s = 1
  pids : (pm.running.map Prod.fst).Nodup
  fresh : ∀ pid ∈ pm.running.map Prod.fst, pid < pm.nextPid
  few : pm.running.length ≤ maxProcessSlots

theorem Tidy.agrees {pm : ProcessManager} (h : Tidy pm) : Agrees pm where
  inUse := by
    intro s
    rw [h.owned.inUse s]
    constructor
    · exact List.count_eq_one_of_mem h.owned.slots
    · intro one
      exact List.count_pos_iff.mp (by omega)
  pids := h.owned.pids
  fresh := by
    intro pid hpid
    obtain ⟨f, hf, rfl⟩ := List.mem_map.mp hpid
    exact h.owned.fresh f hf
  few := by
    -- The slots of the running processes are different numbers below seven.
    have below : pm.running.map Prod.snd ⊆ List.range maxProcessSlots := by
      intro s hs
      obtain ⟨f, hf, rfl⟩ := List.mem_map.mp hs
      exact List.mem_range.mpr (h.owned.slot_lt hf)
    simpa using (List.Nodup.subperm h.owned.slots below).length_le

/-- A spawn is refused because of its slot alone: there is always a blank record. -/
theorem Tidy.spawnSlot_eq_none {pm : ProcessManager} (h : Tidy pm) (slotIdx : Nat) :
    pm.spawnSlot slotIdx = none ↔
      maxProcessSlots ≤ slotIdx ∨ pm.slotsInUse[slotIdx]? = some true := by
  have slot : pm.slotsInUse[slotIdx]? ≠ some false ↔
      maxProcessSlots ≤ slotIdx ∨ pm.slotsInUse[slotIdx]? = some true := by
    rcases Nat.lt_or_ge slotIdx maxProcessSlots with inside | outside
    · have inside' : slotIdx < pm.slotsInUse.length := by rw [pm.slots_length]; exact inside
      rw [List.getElem?_eq_getElem inside']
      simp [Nat.not_le.mpr inside]
    · have none_ : pm.slotsInUse[slotIdx]? = none :=
        List.getElem?_eq_none (by rw [pm.slots_length]; exact outside)
      simp [none_, outside]
  rw [← slot, ProcessManager.spawnSlot]
  constructor
  · intro none_
    split at none_
    next taken => exact taken
    simp only at none_
    split at none_
    next full =>
      -- Sixteen running records would be more processes than slots.
      rw [ProcessManager.updateFirst] at full
      split at full
      · cases full
      next nothing =>
        have all := SlotTable.updateFirst_eq_none.mp nothing
        have owners : pm.running = pm.records.map fun r => (r.pid, r.slotIdx) := by
          rw [ProcessManager.running, ← List.filterMap_eq_map]
          apply List.filterMap_congr
          intro r hr
          have active : r.state = .running := by
            have := all r hr
            cases state : r.state <;> simp_all
          simp [ProcessManager.ownerOf, active]
        have few := h.agrees.few
        rw [owners, List.length_map, pm.records_length] at few
        exact absurd few (by decide)
    · cases none_
  · intro taken
    rw [if_pos taken]

/-- The table got back what it had, with `n` pids given out meanwhile. -/
structure Restored (pm pm' : ProcessManager) (n : Nat) : Prop where
  slots : pm'.slotsInUse = pm.slotsInUse
  records : pm'.records = pm.records
  next : pm'.nextPid = pm.nextPid + n

theorem Restored.rfl {pm : ProcessManager} : Restored pm pm 0 := ⟨by rfl, by rfl, by rfl⟩

theorem Restored.trans {pm pm' pm'' : ProcessManager} {n m : Nat} (h : Restored pm pm' n)
    (h' : Restored pm' pm'' m) : Restored pm pm'' (n + m) where
  slots := h'.slots.trans h.slots
  records := h'.records.trans h.records
  next := by rw [h'.next, h.next, Nat.add_assoc]

theorem Restored.tidy {pm pm' : ProcessManager} {n : Nat} (h : Restored pm pm' n)
    (tidy : Tidy pm) : Tidy pm' where
  owned := by
    have same : pm'.running = pm.running := by
      rw [ProcessManager.running, h.records, ProcessManager.running]
    obtain ⟨-, pids, slots, fresh, inUse⟩ := tidy.owned
    rw [same]
    refine ⟨by rw [same], pids, slots, fun f hf => ?_, by rwa [h.slots]⟩
    have := fresh f hf
    rw [h.next]
    omega
  blank := by
    rw [h.records]
    exact tidy.blank

/-- A process that finishes after its nested ones have all finished. -/
theorem Tidy.spawn_finish {pm pm' pm'' : ProcessManager} (h : Tidy pm) {slotIdx pid slotIdx' n : Nat}
    (spawned : pm.spawnSlot slotIdx = some ((pid, slotIdx'), pm'))
    (room : pm.nextPid + (1 + n) ≤ u64Max) (nested : Restored pm' pm'' n) (exitCode : Nat) :
    Restored pm (pm''.finish pid exitCode) (1 + n) := by
  have tidy : Tidy pm'' := nested.tidy (h.spawn spawned (by omega))
  obtain ⟨i, blank, records⟩ := h.spawnSlot_records spawned
  obtain ⟨-, rfl, free, next, slots, -⟩ := ProcessManager.spawnSlot_eq_some spawned
  obtain ⟨inside, isBlank⟩ := List.getElem?_eq_some_iff.mp blank
  obtain ⟨slotInside, isFree⟩ := List.getElem?_eq_some_iff.mp free
  have at_ : pm''.records[i]? = some ⟨pm.nextPid, slotIdx, .running, 0⟩ := by
    rw [nested.records, records, List.getElem?_set_self inside]
  obtain ⟨records', slots', next'⟩ := tidy.finish_eq at_ (by rfl) exitCode
  refine ⟨?_, ?_, ?_⟩
  · rw [slots', nested.slots, slots, List.set_set, ← isFree, List.set_getElem_self]
  · rw [records', nested.records, records, List.set_set, ← isBlank, List.set_getElem_self]
  · rw [next', nested.next, next, Nat.min_eq_left (by omega)]
    omega

end Process

/-! ### Execs -/

open Process

variable {sys : System}

/-- The call of `exec_internal` that a system call makes: the kernel it finds and its strings. -/
def Syscall.entered (k : Kernel) : Syscall → Option (Kernel × Bytes × Bytes × Bytes)
  | .execve path args env =>
    (execArgs path args env).map fun strings => ({ k with io := k.io.setUp none false }, strings)
  | .execIo (some req) =>
    if req.path.isNone || !req.status then none
    else
      (execArgs req.path req.args req.env).map fun strings =>
        ({ k with io := k.io.setUp req.stdio.1 req.stdio.2.isSome }, strings)
  | _ => none

section Spawns

variable (sys)

/-- The processes an exec puts in the table: its own, and those its image starts. -/
def execSpawns (inside : Bytes → Bytes → Bytes → Kernel → Nat) (k : Kernel)
    (path args env : Bytes) : Nat :=
  match startProcess sys.images k.pm path args env with
  | .error _ => 0
  | .ok started =>
    match started.entry with
    | .ok entry =>
      1 + inside path entry.argBuf entry.envBuf
        { k with pm := started.pm, mem := applyAll started.image started.ops k.mem }
    | _ => 1

/-- The processes a system call puts in the table. -/
def callSpawns (inside : Bytes → Bytes → Bytes → Kernel → Nat) (k : Kernel) (c : Syscall) : Nat :=
  match c.entered k with
  | none => 0
  | some (k', path, args, env) => execSpawns sys inside k' path args env

/-- The processes the run of an image puts in the table, with nesting up to a depth. -/
def imageSpawns : Nat → Bytes → Bytes → Bytes → Kernel → Nat
  | 0, _, _, _, _ => 0
  | depth + 1, path, argBuf, envBuf, k =>
    match (sys.image path argBuf envBuf).run (dispatch sys (runImage sys depth)) k with
    | none => 0
    | some ran => (ran.steps.map fun st => callSpawns sys (imageSpawns depth) st.before st.call).sum

end Spawns

theorem dispatch_quiet_pm {run : Runner} {c : Syscall} {k k' : Kernel} {r : Reply}
    (answered : dispatch sys run c k = some (r, k')) (quiet : c.entersExec = false) :
    k'.pm = k.pm := by
  rcases dispatch_cases answered quiet with ⟨fd, buf, rfl, read⟩ | ⟨fd, buf, rfl, wrote⟩ |
      ⟨-, -, ram, rfl⟩
  · obtain rfl : k' = (sysRead k fd buf).2 := congrArg Prod.snd read.symm
    simp only [sysRead]
    repeat' split
    all_goals rfl
  · obtain rfl : k' = (sysWrite k fd buf).2 := congrArg Prod.snd wrote.symm
    rw [sysWrite_eq]
    repeat' split
    all_goals rfl
  · rfl

theorem entered_refused {c : Syscall} (refused : c.entersExec = false) (k : Kernel) :
    c.entered k = none := by
  cases c with
  | execve path args env =>
    rw [Syscall.entered, Option.map_eq_none_iff]
    simpa [Syscall.entersExec] using refused
  | execIo req =>
    cases req with
    | none => rfl
    | some req =>
      rw [Syscall.entered]
      split
      · rfl
      next pointers =>
        rw [entersExec_execIo, (Bool.not_eq_true _).mp pointers] at refused
        rw [Option.map_eq_none_iff]
        simpa using refused
  | _ => rfl

/-- A system call with an exec does what the exec does, but for the stdio context. -/
theorem dispatch_entered {run : Runner} {c : Syscall} {k k₀ k' : Kernel} {r : Reply}
    {path args env : Bytes} (answered : dispatch sys run c k = some (r, k'))
    (enters : c.entered k = some (k₀, path, args, env)) :
    ∃ status k₁ io, execInternal sys run k₀ path args env = some (status, k₁) ∧
      k' = { k₁ with io := io } := by
  cases c with
  | execve path args env =>
    rw [Syscall.entered] at enters
    rcases execve_cases answered with ⟨strings, -, -⟩ | ⟨p, a, e, status, captured, strings, ended, -⟩
    · rw [strings] at enters
      cases enters
    · obtain ⟨k₁, internal, -, rfl⟩ := execWithIo_eq_some ended
      rw [strings] at enters
      cases enters
      exact ⟨status, k₁, _, internal, rfl⟩
  | execIo req =>
    cases req with
    | none => cases enters
    | some req =>
      rcases execIo_cases answered with
        ⟨refused, -, -⟩ | ⟨p, a, e, status, captured, pointers, strings, ended, -⟩
      · rw [entered_refused refused] at enters
        cases enters
      · obtain ⟨k₁, internal, -, rfl⟩ := execWithIo_eq_some ended
        rw [Syscall.entered, if_neg (by simp [pointers]), strings] at enters
        cases enters
        exact ⟨status, k₁, _, internal, rfl⟩
  | _ => cases enters

/-- An exec that is turned away at its arguments leaves the kernel as it is. -/
theorem dispatch_unentered {run : Runner} {c : Syscall} {k k' : Kernel} {r : Reply}
    (answered : dispatch sys run c k = some (r, k')) (exec : c.isExec = true)
    (enters : c.entered k = none) : k' = k := by
  cases c with
  | execve path args env =>
    rcases execve_cases answered with ⟨-, -, same⟩ | ⟨p, a, e, status, captured, strings, -⟩
    · exact same
    · rw [Syscall.entered, strings] at enters
      cases enters
  | execIo req =>
    cases req with
    | none => exact (Prod.mk.inj (Option.some.inj answered)).2.symm
    | some req =>
      rcases execIo_cases answered with
        ⟨-, -, same⟩ | ⟨p, a, e, status, captured, pointers, strings, -⟩
      · exact same
      · rw [Syscall.entered, if_neg (by simp [pointers]), strings] at enters
        cases enters
  | _ => cases exec

/-- A system call leaves the table alone, or does to it what its exec does. -/
theorem dispatch_pm {run : Runner} {c : Syscall} {k k' : Kernel} {r : Reply}
    (answered : dispatch sys run c k = some (r, k')) :
    match c.entered k with
    | none => k'.pm = k.pm
    | some (k₀, path, args, env) =>
      ∃ status k₁, execInternal sys run k₀ path args env = some (status, k₁) ∧ k'.pm = k₁.pm := by
  cases enters : c.entered k with
  | none =>
    cases exec : c.isExec with
    | false => exact dispatch_quiet_pm answered (entersExec_of_isExec exec)
    | true => exact congrArg Kernel.pm (dispatch_unentered answered exec enters)
  | some entered =>
    obtain ⟨k₀, path, args, env⟩ := entered
    obtain ⟨status, k₁, io, internal, rfl⟩ := dispatch_entered answered enters
    exact ⟨status, k₁, internal, rfl⟩

/-- The exec finds the kernel of the call, with a stdio context of its own. -/
theorem entered_kernel {c : Syscall} {k k₀ : Kernel} {strings : Bytes × Bytes × Bytes}
    (h : c.entered k = some (k₀, strings)) : ∃ io, k₀ = { k with io := io } := by
  cases c with
  | execve path args env =>
    obtain ⟨_, -, same⟩ := Option.map_eq_some_iff.mp h
    exact ⟨_, (Prod.mk.inj same).1.symm⟩
  | execIo req =>
    cases req with
    | none => cases h
    | some req =>
      simp only [Syscall.entered] at h
      split at h
      · cases h
      · obtain ⟨_, -, same⟩ := Option.map_eq_some_iff.mp h
        exact ⟨_, (Prod.mk.inj same).1.symm⟩
  | _ => cases h

theorem entered_pm {c : Syscall} {k k₀ : Kernel} {strings : Bytes × Bytes × Bytes}
    (h : c.entered k = some (k₀, strings)) : k₀.pm = k.pm := by
  obtain ⟨io, rfl⟩ := entered_kernel h
  rfl

/-- The image's run gives the table back what it had. -/
def Restores (run : Runner) (inside : Bytes → Bytes → Bytes → Kernel → Nat) : Prop :=
  ∀ path argBuf envBuf k status k', Tidy k.pm → run path argBuf envBuf k = some (status, k') →
    k.pm.nextPid + inside path argBuf envBuf k ≤ u64Max →
    Restored k.pm k'.pm (inside path argBuf envBuf k)

/-- If the runs of images restore the table, so does every exec that returns. -/
theorem execInternal_restores {run : Runner} {inside : Bytes → Bytes → Bytes → Kernel → Nat}
    (images : Restores run inside) {k k' : Kernel} (tidy : Tidy k.pm) {path args env : Bytes}
    {status : Nat} (ended : execInternal sys run k path args env = some (status, k'))
    (room : k.pm.nextPid + execSpawns sys inside k path args env ≤ u64Max) :
    Restored k.pm k'.pm (execSpawns sys inside k path args env) := by
  cases begun : startProcess sys.images k.pm path args env with
  | error msg =>
    simp only [execInternal, begun] at ended
    simp only [execSpawns, begun]
    obtain ⟨-, rfl⟩ := Prod.mk.inj (Option.some.inj ended)
    exact .rfl
  | ok started =>
    obtain ⟨spawned, -⟩ := startProcess_eq_ok begun
    cases entered : started.entry with
    | panic =>
      simp only [execInternal, begun, entered] at ended
      cases ended
    | err msg =>
      -- The image is not entered, and the process finishes at once
      simp only [execInternal, begun, entered] at ended
      simp only [execSpawns, begun, entered] at room ⊢
      obtain ⟨-, rfl⟩ := Prod.mk.inj (Option.some.inj ended)
      exact tidy.spawn_finish spawned room .rfl u64Max
    | ok entry =>
      simp only [execInternal, begun, entered] at ended
      simp only [execSpawns, begun, entered] at room ⊢
      split at ended
      · cases ended
      next status' k₁ ran =>
        obtain ⟨-, rfl⟩ := Prod.mk.inj (Option.some.inj ended)
        have counts : k.pm.nextPid < u64Max := by omega
        obtain ⟨-, pid, -, next, -⟩ := ProcessManager.spawnSlot_eq_some spawned
        -- The image gives back what it takes, and then the process itself finishes
        have nested := images _ _ _ _ _ _ (tidy.spawn spawned counts) ran
          (by dsimp only; omega)
        exact tidy.spawn_finish spawned room nested status'

/-- So does every system call. -/
theorem dispatch_restores {run : Runner} {inside : Bytes → Bytes → Bytes → Kernel → Nat}
    (images : Restores run inside) {k k' : Kernel} (tidy : Tidy k.pm) {c : Syscall} {r : Reply}
    (answered : dispatch sys run c k = some (r, k'))
    (room : k.pm.nextPid + callSpawns sys inside k c ≤ u64Max) :
    Restored k.pm k'.pm (callSpawns sys inside k c) := by
  have same := dispatch_pm answered
  rw [callSpawns] at room ⊢
  cases enters : c.entered k with
  | none =>
    rw [enters] at same
    simp only at same
    rw [same]
    exact .rfl
  | some entered =>
    -- The exec starts from the table of the call: only the stdio context has been set up
    obtain ⟨k₀, path, args, env⟩ := entered
    rw [enters] at same room
    obtain ⟨status, k₁, internal, after⟩ := same
    have found := entered_pm enters
    dsimp only at room ⊢
    rw [after, ← found]
    exact execInternal_restores images (found ▸ tidy) internal (by rw [found]; omega)

/-- If every exec of a program restores the table, so does its run. -/
theorem run_restores {run : Runner} {inside : Bytes → Bytes → Bytes → Kernel → Nat}
    (images : Restores run inside) {p : Program Syscall Reply Nat} {k : Kernel} (tidy : Tidy k.pm)
    {ran : Program.Ran Syscall Reply Kernel Nat} (ended : p.run (dispatch sys run) k = some ran)
    (room : k.pm.nextPid +
      (ran.steps.map fun st => callSpawns sys inside st.before st.call).sum ≤ u64Max) :
    Restored k.pm ran.state.pm
      (ran.steps.map fun st => callSpawns sys inside st.before st.call).sum := by
  induction p generalizing k ran with
  | ret status =>
    cases ended
    exact .rfl
  | call c next ih =>
    obtain ⟨r, k₁, rest, answered, tailEnded, rfl⟩ := Program.run_call_eq_some.mp ended
    simp only [List.map_cons, List.sum_cons] at room ⊢
    have first := dispatch_restores images tidy answered (by omega)
    have tail := ih r (first.tidy tidy) tailEnded (by rw [first.next]; omega)
    exact first.trans tail

/-- With nesting up to any depth. -/
theorem runImage_restores (sys : System) (depth : Nat) :
    Restores (runImage sys depth) (imageSpawns sys depth) := by
  induction depth with
  | zero =>
    intro path argBuf envBuf k status k' _ ended
    cases ended
  | succ depth ih =>
    intro path argBuf envBuf k status k' tidy ended room
    simp only [runImage] at ended
    split at ended
    · cases ended
    next ran steps =>
      obtain ⟨-, rfl⟩ := Prod.mk.inj (Option.some.inj ended)
      simp only [imageSpawns, steps] at room ⊢
      exact run_restores ih tidy steps room

/-- Slots, records and pids agree after any sequence of spawns and finishes. A spawn is refused for
its slot alone, a finish takes one process out or changes nothing, and an exec that returns leaves
slots and records as it found them. -/
theorem process_table_agrees (calls : List TableCall)
    (few : ProcessManager.new.spawns calls < u64Max) :
    Agrees (ProcessManager.new.after calls) ∧
    (∀ slotIdx, (ProcessManager.new.after calls).spawnSlot slotIdx = none ↔
      maxProcessSlots ≤ slotIdx ∨
        (ProcessManager.new.after calls).slotsInUse[slotIdx]? = some true) ∧
    (∀ slotIdx, (ProcessManager.new.after calls).spawnSlot slotIdx = none →
      (ProcessManager.new.after calls).apply (.spawn slotIdx) = ProcessManager.new.after calls) ∧
    (∀ i r exitCode, (ProcessManager.new.after calls).records[i]? = some r → r.state = .running →
      ((ProcessManager.new.after calls).finish r.pid exitCode).records =
          (ProcessManager.new.after calls).records.set i ProcessRecord.empty ∧
        ((ProcessManager.new.after calls).finish r.pid exitCode).slotsInUse =
          (ProcessManager.new.after calls).slotsInUse.set r.slotIdx false ∧
        ((ProcessManager.new.after calls).finish r.pid exitCode).nextPid =
          (ProcessManager.new.after calls).nextPid) ∧
    (∀ pid exitCode,
      (∀ r ∈ (ProcessManager.new.after calls).records, r.state = .running → r.pid ≠ pid) →
      (ProcessManager.new.after calls).finish pid exitCode = ProcessManager.new.after calls) ∧
    ∀ (sys : System) (depth : Nat) (k k' : Kernel) (path args env : Bytes) (status : Nat),
      k.pm = ProcessManager.new.after calls →
      execInternal sys (runImage sys depth) k path args env = some (status, k') →
      ProcessManager.new.spawns calls +
        execSpawns sys (imageSpawns sys depth) k path args env < u64Max →
      Restored (ProcessManager.new.after calls) k'.pm
        (execSpawns sys (imageSpawns sys depth) k path args env) := by
  obtain ⟨tidy, next⟩ := tidy_reached calls few
  refine ⟨tidy.agrees, tidy.spawnSlot_eq_none, ?_, ?_, ?_, ?_⟩
  · intro slotIdx refused
    rw [ProcessManager.apply, refused]
  · intro i r exitCode at_ active
    exact tidy.finish_eq at_ active exitCode
  · intro pid exitCode absent
    exact finish_absent absent exitCode
  · intro sys depth k k' path args env status found ended room
    -- The exec starts from the table the calls have left
    rw [← found] at tidy next ⊢
    exact execInternal_restores (runImage_restores sys depth) tidy ended (by omega)

/-- While `init` runs, a program starts `ls`, which starts itself again and is refused. -/
def startsLs : System := uniform [.execve (some (str "/bin/ls" ++ [0])) none none]

theorem process_table_agrees_nested :
    Agrees (ProcessManager.new.after [.spawn 0]) ∧
      ∃ status k', execInternal startsLs (runImage startsLs 2)
          { typing with pm := ProcessManager.new.after [.spawn 0] } (str "/bin/cat") [] [] =
            some (status, k') ∧
        Restored (ProcessManager.new.after [.spawn 0]) k'.pm 2 := by
  obtain ⟨agrees, -, -, -, -, restores⟩ := process_table_agrees [.spawn 0] (by decide +kernel)
  refine ⟨agrees, ?_⟩
  obtain ⟨⟨status, k'⟩, ended⟩ := Option.isSome_iff_exists.mp
    (by decide +kernel : (execInternal startsLs (runImage startsLs 2)
      { typing with pm := ProcessManager.new.after [.spawn 0] } (str "/bin/cat") [] []).isSome = true)
  have two : execSpawns startsLs (imageSpawns startsLs 2)
      { typing with pm := ProcessManager.new.after [.spawn 0] } (str "/bin/cat") [] [] = 2 := by
    decide +kernel
  have restored := restores _ _ _ _ _ _ _ _ rfl ended (by rw [two]; decide +kernel)
  rw [two] at restored
  exact ⟨status, k', ended, restored⟩

end Smultron
