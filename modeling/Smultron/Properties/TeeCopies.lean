import Smultron.Properties.CatCopies

/-!
# What tee writes

`tee` reads its input in pieces of 256 bytes, writes each piece on and collects them, and then
writes what it has collected to one file after the other. A write can fail only where the table of
files has no room, so where there is room for all of the paths at the start, each of them holds the
stream at the end, also one that is named twice.
-/

namespace Smultron.Tee

open Checked Checked.Outcome Proc Process SlotTable Vfs

variable {sys : System} {runner : Runner} {k : Kernel} {done : List (Syscall × Reply)}
  {rounds : Nat} {path data stream : Bytes} {paths : List Bytes}

/-! ### The files -/

/-- The library writes a file that the table takes. -/
theorem writeFile_leads (passes : Passes 127 path) (small : data.length < u64Max)
    (accepted : (Vfs.writeFile k.ram path data).1 = true) :
    Leads (dispatch sys runner) done k
      (fun d o k' => o = .ok (some data.length) ∧ written d = written done ∧
        k'.ram = (Vfs.writeFile k.ram path data).2) (Libos.writeFile path data) := by
  have short := passes.short
  rw [Libos.writeFile, if_neg (by omega), Shell.cString_ok (by omega), lift_ok, Proc.pure_bind]
  refine Leads.request_bind fun r k' answered => ?_
  have name : cstr 128 (some (path ++ [0])) = some path := cstr_passes passes
  simp only [dispatch, name] at answered
  cases outcome : Vfs.writeFile k.ram path data with
  | mk taken ram =>
    rw [outcome] at answered accepted
    obtain rfl : taken = true := accepted
    obtain ⟨rfl, rfl⟩ := Prod.mk.inj (Option.some.inj answered)
    have returned : (Reply.value data.length).ret ≠ u64Max := by
      simp only [Reply.value]
      omega
    rw [if_neg returned]
    exact Leads.pure ⟨rfl, by simp [Syscall.output], rfl⟩

theorem storable_of_passes (passes : Passes 127 path) (nonempty : path ≠ []) (data : Bytes) :
    storable path data = true := by
  rw [storable, Bool.and_eq_true, decide_eq_true_eq, decide_eq_true_eq]
  exact ⟨nonempty, passes.short.trans (Nat.le_succ 127)⟩

/-- The table takes a path for which there is room, and keeps the room for the others. -/
theorem writeFile_of_room {ram : RamFiles} (passes : Passes 127 path) (nonempty : path ≠ [])
    (room : Room ram.slots (path :: paths)) (data : Bytes) :
    (Vfs.writeFile ram path data).1 = true ∧ Room (Vfs.writeFile ram path data).2.slots paths := by
  rw [writeFile_accepted, slots_writeFile]
  exact write_of_room (storable_of_passes passes nonempty _) room

/-- Where there is room for all of the paths, every write is accepted and nothing is reported. -/
theorem writeFiles_leads (passes : ∀ p ∈ paths, Passes 127 p) (nonempty : ∀ p ∈ paths, p ≠ [])
    (room : Room k.ram.slots paths) (fits : stream.length ≤ maxStream) :
    Leads (dispatch sys runner) done k
      (fun d o k' => o = .ok () ∧ written d = written done ∧
        k'.ram = (Vfs.writeFiles k.ram (paths.map (·, stream))).2) (writeFiles stream paths) := by
  induction paths generalizing k done with
  | nil => exact Leads.pure ⟨rfl, rfl, rfl⟩
  | cons p paths ih =>
    have small : stream.length < u64Max := Nat.lt_of_le_of_lt fits (by decide)
    obtain ⟨accepted, rest⟩ := writeFile_of_room (passes p List.mem_cons_self)
      (nonempty p List.mem_cons_self) room stream
    rw [writeFiles]
    refine Leads.bind_ok ((writeFile_leads (passes p List.mem_cons_self) small accepted).mono ?_)
    rintro d o k₁ ⟨rfl, quiet, ram⟩
    rw [← ram] at rest
    refine ⟨_, rfl, (ih (fun q hq => passes q (List.mem_cons_of_mem _ hq))
      (fun q hq => nonempty q (List.mem_cons_of_mem _ hq)) rest).mono ?_⟩
    rintro d' o' k₂ ⟨rfl, quiet', ram'⟩
    exact ⟨rfl, quiet'.trans quiet, by rw [ram', ram]; rfl⟩

/-! ### The whole program -/

theorem writeFile_isIo (path data : Bytes) : (Libos.writeFile path data).Only (·.isIo = true) := by
  rw [Libos.writeFile]
  split
  · exact only_pure _
  · refine only_bind (only_lift _) fun _ => only_bind (only_request rfl) fun r => ?_
    split <;> exact only_pure _

theorem copyInput_isIo (rounds : Nat) (chunk stream : Bytes) :
    (copyInput rounds chunk stream).Only (·.isIo = true) := by
  induction rounds generalizing chunk stream with
  | zero => exact only_pure _
  | succ rounds ih =>
    rw [copyInput]
    refine only_bind (Cat.read_isIo ..) fun read => ?_
    dsimp only
    split
    · exact only_bind (writeStr_onlyWrites _).isIo fun _ => only_pure _
    split
    · exact only_pure _
    refine only_bind (write_onlyWrites ..).isIo fun _ => ?_
    split
    · exact only_bind (only_lift _) fun _ => only_bind (only_lift _) fun _ => ih ..
    · exact ih ..

theorem writeFiles_isIo (stream : Bytes) (paths : List Bytes) :
    (writeFiles stream paths).Only (·.isIo = true) := by
  induction paths with
  | nil => exact only_pure _
  | cons p paths ih =>
    rw [writeFiles]
    refine only_bind (writeFile_isIo ..) fun answer => ?_
    cases answer with
    | some len => exact ih
    | none =>
      exact only_bind (writeStr_onlyWrites _).isIo fun _ =>
        only_bind (writeStr_onlyWrites _).isIo fun _ =>
          only_bind (writeStr_onlyWrites _).isIo fun _ => ih

/-- tee starts no program. -/
theorem run_isIo (rounds : Nat) (args : Bytes) : (run rounds args).Only (·.isIo = true) := by
  rw [run]
  split
  · exact only_bind (writeStr_onlyWrites _).isIo fun _ => only_pure _
  · refine only_bind (copyInput_isIo ..) fun reading => ?_
    cases reading with
    | ended stream => exact only_bind (writeFiles_isIo ..) fun _ => only_pure _
    | failed => exact only_pure _
    | unfinished => exact only_pure _

theorem run_leads (k : Kernel) (args : files (Shell.joined paths) = some paths)
    (passes : ∀ p ∈ paths, Passes 127 p) (nonempty : ∀ p ∈ paths, p ≠ [])
    (room : Room k.ram.slots paths) (input : k.io.stdio.stdin = some stream)
    (fits : stream.length ≤ maxStream) (enough : stream.length + 256 ≤ 256 * rounds) :
    Leads (dispatch sys runner) [] k
      (fun d o k' => o = .ok (.ended ()) ∧ written d = stream ∧
        k'.ram = (Vfs.writeFiles k.ram (paths.map (·, stream))).2)
      (run rounds (Shell.joined paths)) := by
  rw [run, args]
  refine Leads.bind_ok ((tee_copyInput_leads List.length_replicate input (by simpa using fits)).mono
    ?_)
  rintro d o k₁ ⟨-, ram, collects, ends⟩
  obtain ⟨out, rfl⟩ := ends enough
  obtain ⟨rfl, wrote⟩ := collects out rfl
  rw [← ram] at room
  refine ⟨_, rfl, Leads.bind_ok ((writeFiles_leads passes nonempty room fits).mono ?_)⟩
  rintro d' o' k₂ ⟨rfl, quiet, ram'⟩
  refine ⟨_, rfl, Leads.pure ⟨rfl, ?_, by rw [ram', ram]⟩⟩
  rw [quiet, wrote]
  rfl

/-! ### What is stored -/

/-- Each path holds the stream, and every other one what it held. -/
theorem lookup_copies {ram : RamFiles} (passes : ∀ p ∈ paths, Passes 127 p)
    (nonempty : ∀ p ∈ paths, p ≠ []) (room : Room ram.slots paths)
    (fits : stream.length ≤ maxRamFileLen) :
    (∀ p ∈ paths, lookup p (Vfs.writeFiles ram (paths.map (·, stream))).2.slots = some stream) ∧
      ∀ q, q ∉ paths → lookup q (Vfs.writeFiles ram (paths.map (·, stream))).2.slots =
        lookup q ram.slots := by
  have same : (paths.map (·, stream)).map (fun w => (w.1, w.2.take maxRamFileLen)) =
      paths.map (·, stream) := by
    simp [List.take_of_length_le fits]
  have whole : (Vfs.writeFiles ram (paths.map (·, stream))).2.slots =
      (writeAll storable ram.slots (paths.map (·, stream))).2 :=
    (congrArg Prod.snd (writeFiles_refines ..)).trans (by rw [same])
  have ok : ∀ p ∈ paths, storable p stream = true :=
    fun p hp => storable_of_passes (passes p hp) (nonempty p hp) stream
  rw [whole]
  exact (writeAll_of_room ok room).2

/-- Run with redirected input and its output captured, tee hands on the stream, and every file it was
told then reads back as the stream; all other files read as before. -/
theorem tee_copies (sys : System) (runner : Runner) (k : Kernel) (rounds : Nat) (paths : List Bytes)
    (stream : Bytes) (fits : stream.length ≤ 4096) (enough : 17 ≤ rounds)
    (few : paths.length ≤ 16)
    (named : ∀ p ∈ paths, Passes 127 p ∧ Shell.Solid p ∧ readFile sys.images p = none)
    (room : Room k.ram.slots paths) :
    ∃ ran, (run rounds (Shell.joined paths)).run (dispatch sys runner)
        { k with io := k.io.setUp (some stream) true } = some ran ∧
      ran.result = .ok (.ended ()) ∧
      (ran.state.io.tearDown (some 4096)).1 = stream ∧
      (∀ p ∈ paths, ∀ size, readFileBytes sys.images ran.state.ram p size = some (stream.take size)) ∧
      ∀ q, q ∉ paths → ∀ size, readFileBytes sys.images ran.state.ram q size =
        readFileBytes sys.images k.ram q size := by
  have passes : ∀ p ∈ paths, Passes 127 p := fun p hp => (named p hp).1
  have nonempty : ∀ p ∈ paths, p ≠ [] := fun p hp => (named p hp).2.1.1
  have args : files (Shell.joined paths) = some paths :=
    (Shell.collectArgs_iff few).mpr (Shell.splitWhitespace_joined (fun p hp => (passes p hp).text)
      fun p hp => (named p hp).2.1)
  have start := tracks_setUp k (some stream) true
  have input : ({ k with io := k.io.setUp (some stream) true } : Kernel).io.stdio.stdin =
      some stream := by
    rw [congrArg Stdio.stdin start]
    exact congrArg some (List.take_of_length_le fits)
  obtain ⟨ran, ended⟩ := exists_run (run_isIo rounds (Shell.joined paths)) sys runner
    { k with io := k.io.setUp (some stream) true }
  obtain ⟨ok, wrote, ram⟩ :=
    (run_leads { k with io := k.io.setUp (some stream) true } args passes nonempty room input fits
      (by omega)).ran ended
  obtain ⟨copies, others⟩ := lookup_copies passes nonempty room fits
  refine ⟨ran, ended, ok, ?_, ?_, ?_⟩
  · -- The capture has what was written, and that is the stream
    have final := congrArg Stdio.stdout (start.run ended fun st hst =>
      entersExec_of_isExec (noExec_of_isIo (run_isIo ..) ended st hst))
    have kept : stream.length ≤ maxIoStdout := fits
    rw [tearDown_captured final, wrote, List.take_of_length_le kept, List.take_of_length_le fits]
  · intro p hp size
    rw [ram, readFileBytes_overlay _ _ _ _ (named p hp).2.2, copies p hp, Option.map_some]
  · intro q hq size
    rw [readFileBytes_eq, readFileBytes_eq, storedFile, storedFile, ram, others q hq]

/-- One file named twice and another one. -/
theorem tee_copies_note :
    ∃ ran, (run 17 (str "/a /a /b")).run (dispatch bareSystem (runImage bareSystem 0))
        { Kernel.boot (fun _ => 10) with io := IoState.new.setUp (some (str "hi")) true } = some ran ∧
      (ran.state.io.tearDown (some 4096)).1 = str "hi" ∧
      readFileBytes bareSystem.images ran.state.ram (str "/a") 64 = some (str "hi") ∧
      readFileBytes bareSystem.images ran.state.ram (str "/c") 64 = none := by
  have args : Shell.joined [str "/a", str "/a", str "/b"] = str "/a /a /b" := by decide +kernel
  have named : ∀ p ∈ [str "/a", str "/a", str "/b"],
      Passes 127 p ∧ Shell.Solid p ∧ readFile bareSystem.images p = none := by
    simp only [List.forall_mem_cons, List.not_mem_nil, false_implies, implies_true, and_true]
    exact ⟨⟨⟨by decide +kernel, by decide +kernel, by decide +kernel⟩, by decide +kernel, rfl⟩,
      ⟨⟨by decide +kernel, by decide +kernel, by decide +kernel⟩, by decide +kernel, rfl⟩,
      ⟨by decide +kernel, by decide +kernel, by decide +kernel⟩, by decide +kernel, rfl⟩
  obtain ⟨ran, ended, -, captured, copies, others⟩ :=
    tee_copies bareSystem (runImage bareSystem 0) (Kernel.boot fun _ => 10) 17
      [str "/a", str "/a", str "/b"] (str "hi") (by decide +kernel) (by decide) (by decide) named
      (by decide +kernel)
  rw [args] at ended
  refine ⟨ran, ended, captured, copies (str "/a") (by simp) 64, ?_⟩
  rw [others (str "/c") (by decide +kernel) 64]
  decide +kernel

end Smultron.Tee
