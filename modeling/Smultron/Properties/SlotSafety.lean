import Smultron.Kernel.Process
import Smultron.Properties.ElfImage

/-!
# Loading a process leaves the running processes alone

Nested execs as a machine: the program on top of the stack starts another one, or returns. A pid
names one running record as long as the counter has not saturated, so the records in use are the
frames of the stack, each in a slot of its own, and a load stays inside the slot it was given.
-/

namespace Smultron.Process

open Checked ElfLoader Memory SlotTable

/-! ### The process table -/

namespace ProcessManager

/-- The pid and the slot of a running record. -/
def ownerOf (r : ProcessRecord) : Option (Nat × Nat) :=
  if r.state = .running then some (r.pid, r.slotIdx) else none

/-- The running processes, in table order. -/
def running (pm : ProcessManager) : List (Nat × Nat) := pm.records.filterMap ownerOf

theorem mem_running {pm : ProcessManager} {pid slotIdx : Nat} :
    (pid, slotIdx) ∈ pm.running ↔
      ∃ r ∈ pm.records, r.state = .running ∧ r.pid = pid ∧ r.slotIdx = slotIdx := by
  simp [running, ownerOf]

theorem updateFirst_eq_some {pm pm' : ProcessManager} {p : ProcessRecord → Bool}
    {f : ProcessRecord → ProcessRecord} (h : pm.updateFirst p f = some pm') :
    SlotTable.updateFirst p f pm.records = some pm'.records ∧
      pm'.slotsInUse = pm.slotsInUse ∧ pm'.nextPid = pm.nextPid := by
  rw [updateFirst] at h
  split at h
  next records found =>
    cases h
    exact ⟨found, rfl, rfl⟩
  · cases h

/-- What a spawn does: the slot was free, the first empty record is now the new process. -/
theorem spawnSlot_eq_some {pm pm' : ProcessManager} {slotIdx pid slotIdx' : Nat}
    (h : pm.spawnSlot slotIdx = some ((pid, slotIdx'), pm')) :
    slotIdx' = slotIdx ∧ pid = pm.nextPid ∧ pm.slotsInUse[slotIdx]? = some false ∧
      pm'.nextPid = min (pid + 1) u64Max ∧ pm'.slotsInUse = pm.slotsInUse.set slotIdx true ∧
      pm'.running.Perm ((pid, slotIdx) :: pm.running) := by
  rw [spawnSlot] at h
  split at h
  · cases h
  next free =>
    simp only at h
    split at h
    · cases h
    next found =>
      cases h
      obtain ⟨records, slots, next⟩ := updateFirst_eq_some found
      obtain ⟨l, e, r, before, -, empty, after⟩ := SlotTable.updateFirst_eq_some.mp records
      -- The record taken was empty, so it owned nothing before.
      have off : ownerOf e = none := by simp_all [ownerOf]
      refine ⟨rfl, rfl, not_not.mp free, rfl, by simp [setSlot, slots], ?_⟩
      simp only [running, setSlot, after, before, List.filterMap_append, List.filterMap_cons, off]
      exact List.perm_middle

/-- What finishing the running process `pid` does, when no other running process has that pid. -/
theorem finish_running {pm : ProcessManager} {pid slotIdx : Nat} {rest : List (Nat × Nat)}
    (status : Nat) (owns : pm.running.Perm ((pid, slotIdx) :: rest)) (only : pid ∉ rest.map Prod.fst)
    (inRange : slotIdx < maxProcessSlots) :
    (pm.finish pid status).running.Perm rest ∧
      (pm.finish pid status).slotsInUse = pm.slotsInUse.set slotIdx false ∧
      (pm.finish pid status).nextPid = pm.nextPid := by
  obtain ⟨r, hr, active, rfl, rfl⟩ := mem_running.mp (owns.mem_iff.mpr List.mem_cons_self)
  cases found : pm.updateFirst (fun r' => r'.pid == r.pid && r'.state == .running)
      fun _ => ProcessRecord.empty with
  | none =>
    rw [updateFirst] at found
    split at found
    · cases found
    next nothing => exact absurd (updateFirst_eq_none.mp nothing r hr) (by simp [active])
  | some pm' =>
    obtain ⟨records, slots, next⟩ := updateFirst_eq_some found
    obtain ⟨l, e, tail, whole, before, he, after⟩ := SlotTable.updateFirst_eq_some.mp records
    have first : pm.records.find? (fun r' => r'.pid == r.pid && r'.state == .running) = some e := by
      rw [whole, List.find?_append, List.find?_eq_none.mpr (by simpa using before)]
      simp [he]
    obtain ⟨samePid, run⟩ : e.pid = r.pid ∧ e.state = .running := by simpa using he
    have owner : ownerOf e = some (e.pid, e.slotIdx) := by simp [ownerOf, run]
    have split : pm.running.Perm ((e.pid, e.slotIdx) :: pm'.running) := by
      have off : ownerOf ProcessRecord.empty = none := by simp [ownerOf, ProcessRecord.empty]
      simp only [running, whole, after, List.filterMap_append, List.filterMap_cons, owner, off]
      exact List.perm_middle
    -- The pid is the top frame's alone, so the record found is its record.
    have same : e.slotIdx = r.slotIdx := by
      have mem := (owns.symm.trans split).mem_iff.mpr List.mem_cons_self
      rcases List.mem_cons.mp mem with h | h
      · exact congrArg Prod.snd h
      · exact absurd (List.mem_map_of_mem h) (samePid ▸ only)
    have finished : pm.finish r.pid status = pm'.setSlot r.slotIdx false := by
      simp only [finish, first, found, same, if_pos inRange]
    rw [finished]
    rw [samePid, same] at split
    exact ⟨((owns.symm.trans split).cons_inv).symm, by rw [← slots]; rfl, next⟩

end ProcessManager

/-! ### Nested execution -/

/-- The process table, the running programs with the innermost first, and the spawns so far. -/
structure Machine where
  pm : ProcessManager
  frames : List (Nat × Nat)
  spawned : Nat

/-- What the innermost program does next. -/
inductive Event where
  | exec (path args env : Bytes)
  | ret (status : Nat)

namespace Machine

def boot : Machine := ⟨ProcessManager.new, [], 0⟩

/-- A process in the table either gets the jump into its image or, when its image does not load,
finishes at once. -/
def enter (m : Machine) (started : Started) : Machine :=
  match started.entry with
  | .ok _ => ⟨started.pm, (started.pid, started.slotIdx) :: m.frames, m.spawned + 1⟩
  | _ => ⟨started.pm.finish started.pid u64Max, m.frames, m.spawned + 1⟩

def step (images : Vfs.Images) (m : Machine) : Event → Machine
  | .exec path args env =>
    match startProcess images m.pm path args env with
    | .error _ => m
    | .ok started => m.enter started
  | .ret status =>
    match m.frames with
    | [] => m
    | (pid, _) :: rest => { m with pm := m.pm.finish pid status, frames := rest }

def run (images : Vfs.Images) (events : List Event) (m : Machine) : Machine :=
  events.foldl (step images) m

end Machine

/-- The frames own the running records, each with a pid and a slot of its own. -/
structure Owned (pm : ProcessManager) (frames : List (Nat × Nat)) : Prop where
  running : pm.running.Perm frames
  pids : (frames.map Prod.fst).Nodup
  slots : (frames.map Prod.snd).Nodup
  fresh : ∀ f ∈ frames, f.1 < pm.nextPid
  inUse : ∀ i, pm.slotsInUse[i]? = some true ↔ i ∈ frames.map Prod.snd

theorem Owned.slot_lt {pm : ProcessManager} {frames : List (Nat × Nat)} (h : Owned pm frames)
    {f : Nat × Nat} (hf : f ∈ frames) : f.2 < maxProcessSlots := by
  have used := (h.inUse f.2).mpr (List.mem_map_of_mem hf)
  have inside := (List.getElem?_eq_some_iff.mp used).1
  rwa [pm.slots_length] at inside

theorem owned_boot : Owned ProcessManager.new [] where
  running := by simp [ProcessManager.running, ProcessManager.new, ProcessManager.ownerOf,
    ProcessRecord.empty]
  pids := .nil
  slots := .nil
  fresh := by simp
  inUse := by simp [ProcessManager.new, List.getElem?_replicate]

theorem Owned.spawn {pm pm' : ProcessManager} {frames : List (Nat × Nat)} (h : Owned pm frames)
    {slotIdx pid slotIdx' : Nat} (spawned : pm.spawnSlot slotIdx = some ((pid, slotIdx'), pm'))
    (counts : pm.nextPid < u64Max) :
    slotIdx' = slotIdx ∧ slotIdx ∉ frames.map Prod.snd ∧ Owned pm' ((pid, slotIdx) :: frames) := by
  obtain ⟨slot, rfl, free, next, slots, running⟩ := ProcessManager.spawnSlot_eq_some spawned
  have unused : slotIdx ∉ frames.map Prod.snd := by
    intro used
    rw [(h.inUse slotIdx).mpr used] at free
    cases free
  -- Below the saturation point the counter moves, so the new pid is no running one.
  have bumped : pm'.nextPid = pm.nextPid + 1 := by omega
  refine ⟨slot, unused, running.trans (h.running.cons _), ?_, ?_, ?_, ?_⟩
  · rw [List.map_cons, List.nodup_cons]
    refine ⟨fun used => ?_, h.pids⟩
    obtain ⟨f, hf, same⟩ := List.mem_map.mp used
    have := h.fresh f hf
    omega
  · rw [List.map_cons, List.nodup_cons]
    exact ⟨unused, h.slots⟩
  · intro f hf
    rw [bumped]
    rcases List.mem_cons.mp hf with rfl | hf
    · exact Nat.lt_succ_self _
    · exact Nat.lt_succ_of_lt (h.fresh f hf)
  · intro i
    have inside := (List.getElem?_eq_some_iff.mp free).1
    rw [slots, List.getElem?_set, List.map_cons, List.mem_cons, ← h.inUse i]
    by_cases hi : slotIdx = i
    · subst hi
      simp [inside]
    · rw [if_neg hi]
      simp [Ne.symm hi]

theorem Owned.finish_nextPid {pm : ProcessManager} {pid slotIdx : Nat} {frames : List (Nat × Nat)}
    (h : Owned pm ((pid, slotIdx) :: frames)) (status : Nat) :
    (pm.finish pid status).nextPid = pm.nextPid :=
  (ProcessManager.finish_running status h.running (List.nodup_cons.mp h.pids).1
    (h.slot_lt List.mem_cons_self)).2.2

theorem Owned.finish {pm : ProcessManager} {pid slotIdx : Nat} {frames : List (Nat × Nat)}
    (h : Owned pm ((pid, slotIdx) :: frames)) (status : Nat) : Owned (pm.finish pid status) frames := by
  have pids := h.pids
  have slots := h.slots
  rw [List.map_cons, List.nodup_cons] at pids slots
  have inRange := h.slot_lt List.mem_cons_self
  obtain ⟨running, inUse, next⟩ := ProcessManager.finish_running status h.running pids.1 inRange
  refine ⟨running, pids.2, slots.2, ?_, ?_⟩
  · intro f hf
    rw [next]
    exact h.fresh f (List.mem_cons_of_mem _ hf)
  · intro i
    have before := h.inUse i
    rw [List.map_cons, List.mem_cons] at before
    rw [inUse, List.getElem?_set]
    -- The slot is free again, and no other frame has it
    by_cases hi : slotIdx = i
    · subst hi
      simp only [if_true]
      split <;> simp [slots.1]
    · simpa [hi, Ne.symm hi] using before

/-! ### Runs of nested execs -/

theorem startProcess_eq_ok {images : Vfs.Images} {pm : ProcessManager} {path args env : Bytes}
    {started : Started} (h : startProcess images pm path args env = .ok started) :
    pm.spawnSlot started.slotIdx = some ((started.pid, started.slotIdx), started.pm) ∧
      started.ops = (enterSlot started.image (slotForIndex started.slotIdx) args env).1 := by
  rw [startProcess] at h
  split at h
  · cases h
  split at h
  · cases h
  split at h
  · cases h
  next spawned =>
    obtain rfl := Except.ok.inj h
    obtain ⟨rfl, -⟩ := ProcessManager.spawnSlot_eq_some spawned
    exact ⟨spawned, rfl⟩

theorem slotForIndex_order (i : Nat) : (slotForIndex i).base ≤ (slotForIndex i).end_ :=
  Nat.le_add_right ..

/-- The slots of two indices share no address. -/
theorem slotForIndex_disjoint {i j a : Nat}
    (hi : (slotForIndex i).base ≤ a ∧ a < (slotForIndex i).end_)
    (hj : (slotForIndex j).base ≤ a ∧ a < (slotForIndex j).end_) : i = j := by
  simp only [slotForIndex, slotBase, processSlotBase, processSlotSize] at hi hj
  omega

namespace Machine

/-- The invariant of a run whose spawns have not saturated the pid counter. -/
structure Inv (m : Machine) : Prop where
  owned : Owned m.pm m.frames
  counted : m.pm.nextPid = m.spawned + 1

variable {images : Vfs.Images}

theorem enter_spawned (m : Machine) (started : Started) :
    (m.enter started).spawned = m.spawned + 1 := by
  rw [enter]
  split <;> rfl

theorem step_exec {m : Machine} {path args env : Bytes} {started : Started}
    (begun : startProcess images m.pm path args env = .ok started) :
    m.step images (.exec path args env) = m.enter started := by
  simp only [step, begun]

theorem step_rejected {m : Machine} {path args env msg : Bytes}
    (begun : startProcess images m.pm path args env = .error msg) :
    m.step images (.exec path args env) = m := by
  simp only [step, begun]

theorem step_spawned (m : Machine) (e : Event) : m.spawned ≤ (m.step images e).spawned := by
  cases e with
  | exec path args env =>
    cases begun : startProcess images m.pm path args env with
    | error msg => exact Nat.le_of_eq (congrArg spawned (step_rejected begun).symm)
    | ok started =>
      rw [step_exec begun, enter_spawned]
      exact Nat.le_succ _
  | ret status =>
    simp only [step]
    split <;> exact Nat.le_refl _

theorem enter_inv {m : Machine} (h : m.Inv) {path args env : Bytes} {started : Started}
    (begun : startProcess images m.pm path args env = .ok started)
    (few : m.spawned + 1 < u64Max) : (m.enter started).Inv := by
  obtain ⟨spawned, -⟩ := startProcess_eq_ok begun
  have room : m.pm.nextPid < u64Max := h.counted ▸ few
  obtain ⟨-, -, owned⟩ := h.owned.spawn spawned room
  obtain ⟨-, pid, -, next, -⟩ := ProcessManager.spawnSlot_eq_some spawned
  have counted : started.pm.nextPid = m.spawned + 1 + 1 := by
    rw [next, pid, h.counted]
    exact Nat.min_eq_left few
  rw [enter]
  split
  · exact ⟨owned, counted⟩
  · -- The image does not load, and the process finishes at once
    exact ⟨owned.finish u64Max, (owned.finish_nextPid u64Max).trans counted⟩

theorem step_inv {m : Machine} (h : m.Inv) (e : Event)
    (few : (m.step images e).spawned < u64Max) : (m.step images e).Inv := by
  cases e with
  | exec path args env =>
    cases begun : startProcess images m.pm path args env with
    | error msg =>
      rw [step_rejected begun]
      exact h
    | ok started =>
      rw [step_exec begun] at few ⊢
      rw [enter_spawned] at few
      exact enter_inv h begun few
  | ret status =>
    obtain ⟨owned, counted⟩ := h
    simp only [step]
    cases frames : m.frames with
    | nil => exact ⟨owned, counted⟩
    | cons f rest =>
      -- The innermost process returns
      rw [frames] at owned
      exact ⟨owned.finish status, (owned.finish_nextPid status).trans counted⟩

theorem run_spawned (events : List Event) (m : Machine) :
    m.spawned ≤ (m.run images events).spawned := by
  induction events generalizing m with
  | nil => exact Nat.le_refl _
  | cons e events ih => exact Nat.le_trans (step_spawned m e) (ih _)

theorem run_inv (events : List Event) {m : Machine} (h : m.Inv)
    (few : (m.run images events).spawned < u64Max) : (m.run images events).Inv := by
  induction events generalizing m with
  | nil => exact h
  | cons e events ih =>
    have bound : (m.step images e).spawned < u64Max := Nat.lt_of_le_of_lt (run_spawned events _) few
    exact ih (step_inv h e bound) few

theorem run_concat (events : List Event) (e : Event) (m : Machine) :
    m.run images (events ++ [e]) = (m.run images events).step images e := by
  simp [run]

theorem boot_inv : boot.Inv := ⟨owned_boot, rfl⟩

end Machine

/-- The loader touches no slot of a process that is running when it loads another one. -/
theorem running_slots_untouched (images : Vfs.Images) (events : List Event)
    (path args env : Bytes) (started : Started)
    (begun : startProcess images (Machine.boot.run images events).pm path args env = .ok started)
    (few : (Machine.boot.run images (events ++ [.exec path args env])).spawned < u64Max) :
    (∀ r ∈ started.pm.records, r.state = .running →
      (r.pid, r.slotIdx) = (started.pid, started.slotIdx) ∨
        ∀ op ∈ started.ops, ∀ a, op.Writes a →
          ¬((slotForIndex r.slotIdx).base ≤ a ∧ a < (slotForIndex r.slotIdx).end_)) ∧
    ∀ f ∈ (Machine.boot.run images events).frames, f ≠ (started.pid, started.slotIdx) ∧
      ∃ r ∈ started.pm.records, r.state = .running ∧ (r.pid, r.slotIdx) = f := by
  rw [Machine.run_concat] at few
  generalize reached : Machine.boot.run images events = m at begun few ⊢
  have before : m.spawned < u64Max := Nat.lt_of_le_of_lt (Machine.step_spawned m _) few
  obtain ⟨owned, counted⟩ : m.Inv := reached ▸ Machine.run_inv events Machine.boot_inv (reached ▸ before)
  rw [Machine.step_exec begun, Machine.enter_spawned] at few
  obtain ⟨spawned, ops⟩ := startProcess_eq_ok begun
  have room : m.pm.nextPid < u64Max := counted ▸ few
  obtain ⟨-, unused, owned'⟩ := owned.spawn spawned room
  -- The load stays in the new slot, and no other frame has that slot.
  have writes : ∀ op ∈ started.ops, ∀ a, op.Writes a →
      (slotForIndex started.slotIdx).base ≤ a ∧ a < (slotForIndex started.slotIdx).end_ := by
    have inside := (enterSlot_inside started.image (slotForIndex started.slotIdx) args env
      (slotForIndex_order _)).2
    rwa [← ops] at inside
  constructor
  · -- A running record is the new process or a frame below it
    intro r hr active
    have frame : (r.pid, r.slotIdx) ∈ (started.pid, started.slotIdx) :: m.frames :=
      owned'.running.mem_iff.mp (ProcessManager.mem_running.mpr ⟨r, hr, active, rfl, rfl⟩)
    rcases List.mem_cons.mp frame with same | other
    · exact .inl same
    · refine .inr fun op hop a ha inside => ?_
      have clash := slotForIndex_disjoint inside (writes op hop a ha)
      exact unused (clash ▸ List.mem_map_of_mem other)
  · -- A frame below keeps its record
    intro f hf
    have fresh : f ≠ (started.pid, started.slotIdx) := by
      rintro rfl
      exact unused (List.mem_map_of_mem hf)
    obtain ⟨r, hr, active, pid, slot⟩ :=
      ProcessManager.mem_running.mp (owned'.running.mem_iff.mpr (List.mem_cons_of_mem _ hf))
    exact ⟨fresh, r, hr, active, Prod.ext pid slot⟩

/-- The smallest image the loader accepts: a header, and no segments. -/
def bareImage : Bytes :=
  elfMag ++ [2, 1] ++ List.replicate 18 0 ++ [1, 0, 0, 0, 0, 0, 0, 0] ++
    [64, 0, 0, 0, 0, 0, 0, 0] ++ List.replicate 14 0 ++ [56, 0] ++ List.replicate 8 0

def bareImages : Vfs.Images :=
  ⟨bareImage, bareImage, bareImage, bareImage, bareImage, bareImage, bareImage⟩

theorem running_slots_untouched_cat :
    ∃ started,
      startProcess bareImages
        (Machine.boot.run bareImages [.exec (str "/bin/init") [] []]).pm (str "/bin/cat") [] [] =
          .ok started ∧
      (1, 0) ≠ (started.pid, started.slotIdx) ∧
      ∃ r ∈ started.pm.records, r.state = .running ∧ (r.pid, r.slotIdx) = (1, 0) := by
  cases begun : startProcess bareImages
      (Machine.boot.run bareImages [.exec (str "/bin/init") [] []]).pm (str "/bin/cat") [] [] with
  | error msg =>
    have starts : (startProcess bareImages (Machine.boot.run bareImages
        [.exec (str "/bin/init") [] []]).pm (str "/bin/cat") [] []).isOk = true := by decide +kernel
    rw [begun] at starts
    cases starts
  | ok started =>
    have parent : (1, 0) ∈ (Machine.boot.run bareImages [.exec (str "/bin/init") [] []]).frames := by
      decide +kernel
    exact ⟨started, rfl, (running_slots_untouched bareImages [.exec (str "/bin/init") [] []]
      (str "/bin/cat") [] [] started begun (by decide +kernel)).2 (1, 0) parent⟩

end Smultron.Process
