import Smultron.Properties.Overlay
import Smultron.Properties.ProcessTable

/-!
# Files over whole runs

Any program may be in any image, and a program starts others, which start others again. Still the files
are what `write_file` makes of them: all the `WriteFile` calls of the run, in the order in which they are
made, those of a program at the place of the exec that starts it. There is no other way to a file, and
there is no way at all to be rid of one.

## Main result

- `run_writes_files`: what a run leaves of the files it found.
-/

namespace Smultron

open Memory Process Vfs SlotTable

variable {sys : System} {run : Runner} {k k' : Kernel} {path args env : Bytes}

/-! ### Calls of `write_file` -/

/-- Writes one after the other. -/
theorem writeFiles_append (ram : RamFiles) (ws ws' : List (Bytes × Bytes)) :
    writeFiles ram (ws ++ ws') =
      ((writeFiles ram ws).1 ++ (writeFiles (writeFiles ram ws).2 ws').1,
        (writeFiles (writeFiles ram ws).2 ws').2) := by
  induction ws generalizing ram with
  | nil => rfl
  | cons w ws ih => simp only [List.cons_append, writeFiles, ih]

/-- The table holds what the last accepted write has left, or what it held before. -/
theorem lookup_writeFiles_or (ram : RamFiles) (ws : List (Bytes × Bytes)) (path : Bytes) :
    lookup path (writeFiles ram ws).2.slots =
      ((lastAccepted path (writeFiles ram ws).1).map (·.take maxRamFileLen)).or
        (lookup path ram.slots) := by
  have run := writeFiles_refines ram ws
  have log := congrArg Prod.fst run
  have last := congrArg Prod.snd run
  simp only at log last
  rw [last, lookup_writeAll, ← log]
  congr 1
  exact lastAccepted_map (fun data : Bytes => data.take maxRamFileLen) _ path

/-- No path is lost. -/
theorem paths_writeFiles_subset (ram : RamFiles) (ws : List (Bytes × Bytes)) (old : path ∈ ram.paths) :
    path ∈ (writeFiles ram ws).2.paths := by
  rw [RamFiles.paths, ← lookup_ne_none] at old ⊢
  rw [lookup_writeFiles_or]
  cases (lastAccepted path (writeFiles ram ws).1).map (·.take maxRamFileLen) with
  | none => exact old
  | some data => exact Option.some_ne_none data

/-! ### The writes of a run -/

section Writes

variable (sys)

/-- The writes of the image that an exec enters. -/
def execWrites (inside : Bytes → Bytes → Bytes → Kernel → List (Bytes × Bytes)) (k : Kernel)
    (path args env : Bytes) : List (Bytes × Bytes) :=
  match startProcess sys.images k.pm path args env with
  | .error _ => []
  | .ok started =>
    match started.entry with
    | .ok entry =>
      inside path entry.argBuf entry.envBuf
        { k with pm := started.pm, mem := applyAll started.image started.ops k.mem }
    | _ => []

/-- The path and the data that a `WriteFile` call hands to `write_file`. -/
def Syscall.written : Syscall → Option (Bytes × Bytes)
  | .writeFile path (some data) => (cstr 128 path).map (·, data)
  | _ => none

/-- What a system call writes to files: itself, or through the program it starts. -/
def callWrites (inside : Bytes → Bytes → Bytes → Kernel → List (Bytes × Bytes)) (k : Kernel)
    (c : Syscall) : List (Bytes × Bytes) :=
  match c.entered k with
  | none => c.written.toList
  | some (k', path, args, env) => execWrites sys inside k' path args env

/-- All the writes of the run of an image, in their order, with nesting up to a depth. -/
def imageWrites : Nat → Bytes → Bytes → Bytes → Kernel → List (Bytes × Bytes)
  | 0, _, _, _, _ => []
  | depth + 1, path, argBuf, envBuf, k =>
    match (sys.image path argBuf envBuf).run (dispatch sys (runImage sys depth)) k with
    | none => []
    | some ran => ran.steps.flatMap fun st => callWrites sys (imageWrites depth) st.before st.call

/-- All the writes of the run of a program, in their order. -/
def runWrites (depth : Nat) (steps : List (Program.Step Syscall Reply Kernel)) :
    List (Bytes × Bytes) :=
  steps.flatMap fun st => callWrites sys (imageWrites sys depth) st.before st.call

end Writes

/-! ### What has been stored -/

/-- The call has handed the bytes to `write_file`, and it is told whether they were stored. -/
def Asked (cr : Syscall × Reply) (e : (Bytes × Bytes) × Bool) : Prop :=
  cr.1.written = some e.1 ∧ cr.2 = if e.2 then .value e.1.2.length else .failed

/-- The files of `k'` are those of `k` behind these writes. They were asked for by these calls, or by
calls of programs that have run meanwhile. -/
structure Filed (calls : List (Syscall × Reply)) (ws : List (Bytes × Bytes)) (k k' : Kernel) : Prop where
  ram : k'.ram = (writeFiles k.ram ws).2
  asked : ∃ new, k'.history = k.history ++ new ∧
    ∀ e ∈ (writeFiles k.ram ws).1, ∃ cr ∈ calls ++ new.flatMap ProcessRun.calls, Asked cr e

theorem Filed.same (calls : List (Syscall × Reply)) (history : k'.history = k.history)
    (ram : k'.ram = k.ram) : Filed calls [] k k' := ⟨ram, [], by simp [history], nofun⟩

theorem Filed.trans {k'' : Kernel} {calls calls' : List (Syscall × Reply)} {ws ws' : List (Bytes × Bytes)}
    (h : Filed calls ws k k') (h' : Filed calls' ws' k' k'') :
    Filed (calls ++ calls') (ws ++ ws') k k'' := by
  obtain ⟨ram, new, history, asked⟩ := h
  obtain ⟨ram', new', history', asked'⟩ := h'
  rw [ram] at ram' asked'
  refine ⟨?_, new ++ new', ?_, fun e among => ?_⟩
  · rw [ram', writeFiles_append]
  · rw [history', history, List.append_assoc]
  · rw [writeFiles_append] at among
    rcases List.mem_append.mp among with first | second
    · obtain ⟨cr, made, wrote⟩ := asked e first
      refine ⟨cr, ?_, wrote⟩
      simp only [List.flatMap_append, List.mem_append] at made ⊢
      tauto
    · obtain ⟨cr, made, wrote⟩ := asked' e second
      refine ⟨cr, ?_, wrote⟩
      simp only [List.flatMap_append, List.mem_append] at made ⊢
      tauto

theorem Filed.mono {calls calls' : List (Syscall × Reply)} {ws : List (Bytes × Bytes)}
    (h : Filed calls ws k k') (more : calls ⊆ calls') : Filed calls' ws k k' := by
  obtain ⟨ram, new, history, asked⟩ := h
  refine ⟨ram, new, history, fun e among => ?_⟩
  obtain ⟨cr, made, wrote⟩ := asked e among
  exact ⟨cr, (List.mem_append.mp made).elim (fun own => List.mem_append_left _ (more own))
    (List.mem_append_right _), wrote⟩

/-! ### Runs -/

/-- The runs of images store what their calls write. -/
def StoresWrites (run : Runner)
    (inside : Bytes → Bytes → Bytes → Kernel → List (Bytes × Bytes)) : Prop :=
  ∀ path argBuf envBuf k status k', run path argBuf envBuf k = some (status, k') →
    Filed [] (inside path argBuf envBuf k) k k'

variable {inside : Bytes → Bytes → Bytes → Kernel → List (Bytes × Bytes)}

theorem execInternal_filed (images : StoresWrites run inside) {status : Nat}
    (ended : execInternal sys run k path args env = some (status, k')) :
    Filed [] (execWrites sys inside k path args env) k k' := by
  cases begun : startProcess sys.images k.pm path args env with
  | error msg =>
    simp only [execInternal, begun] at ended
    simp only [execWrites, begun]
    obtain ⟨-, rfl⟩ := Prod.mk.inj (Option.some.inj ended)
    exact .same [] rfl rfl
  | ok started =>
    cases entered : started.entry with
    | panic =>
      simp only [execInternal, begun, entered] at ended
      cases ended
    | err msg =>
      simp only [execInternal, begun, entered] at ended
      simp only [execWrites, begun, entered]
      obtain ⟨-, rfl⟩ := Prod.mk.inj (Option.some.inj ended)
      exact .same [] rfl rfl
    | ok entry =>
      simp only [execInternal, begun, entered] at ended
      simp only [execWrites, begun, entered]
      split at ended
      · cases ended
      next status' k₁ ran =>
        obtain ⟨-, rfl⟩ := Prod.mk.inj (Option.some.inj ended)
        obtain ⟨ram, asked⟩ := images _ _ _ _ _ _ ran
        exact ⟨ram, asked⟩

theorem exec_filed (images : StoresWrites run inside) {c : Syscall} {r : Reply}
    (exec : c.isExec = true) (answered : dispatch sys run c k = some (r, k')) :
    Filed [(c, r)] (callWrites sys inside k c) k k' := by
  rw [callWrites]
  cases enters : c.entered k with
  | none =>
    have none_ : c.written = none := by
      cases c with
      | writeFile text data => cases exec
      | _ => rfl
    obtain rfl := dispatch_unentered answered exec enters
    simp only [none_]
    exact .same _ rfl rfl
  | some entered =>
    obtain ⟨k₀, path, args, env⟩ := entered
    obtain ⟨status, k₁, io, internal, rfl⟩ := dispatch_entered answered enters
    obtain ⟨io₀, rfl⟩ := entered_kernel enters
    -- The exec changes the stdio context besides, and that is no file
    obtain ⟨ram, asked⟩ := (execInternal_filed images internal).mono (List.nil_subset [(c, r)])
    exact ⟨ram, asked⟩

theorem writeFile_filed {text data : Option Bytes} {r : Reply}
    (answered : dispatch sys run (.writeFile text data) k = some (r, k')) :
    Filed [(.writeFile text data, r)] (callWrites sys inside k (.writeFile text data)) k k' := by
  have writes : callWrites sys inside k (.writeFile text data) =
      (Syscall.written (.writeFile text data)).toList := rfl
  rw [writes]
  simp only [dispatch] at answered
  split at answered
  · cases answered
    exact .same _ rfl rfl
  next data =>
    split at answered
    next nameless =>
      cases answered
      rw [Syscall.written, nameless]
      exact .same _ rfl rfl
    next path named =>
      have given : Syscall.written (.writeFile text (some data)) = some (path, data) := by
        rw [Syscall.written, named, Option.map_some]
      have log : (writeFiles k.ram [(path, data)]).1 =
          [((path, data), (writeFile k.ram path data).1)] := rfl
      rw [given]
      -- One entry of the log, with what the reply says about it
      have asked {taken : Bool} {ram : RamFiles} (outcome : writeFile k.ram path data = (taken, ram)) :
          ∀ e ∈ (writeFiles k.ram [(path, data)]).1,
            Asked (.writeFile text (some data), if taken then .value data.length else .failed) e := by
        intro e among
        rw [log, outcome] at among
        obtain rfl := List.mem_singleton.mp among
        exact ⟨given, rfl⟩
      split at answered
      next ram outcome =>
        cases answered
        exact ⟨(congrArg Prod.snd outcome).symm, [], by simp, fun e among =>
          ⟨_, List.mem_cons_self, asked outcome e among⟩⟩
      next ram outcome =>
        cases answered
        exact ⟨(congrArg Prod.snd outcome).symm, [], by simp, fun e among =>
          ⟨_, List.mem_cons_self, asked outcome e among⟩⟩

theorem dispatch_filed (images : StoresWrites run inside) {c : Syscall} {r : Reply}
    (answered : dispatch sys run c k = some (r, k')) :
    Filed [(c, r)] (callWrites sys inside k c) k k' := by
  cases c with
  | execve path args env => exact exec_filed images rfl answered
  | execIo req => exact exec_filed images rfl answered
  | writeFile text data => exact writeFile_filed answered
  | read fd buf =>
    simp only [dispatch, sysRead] at answered
    repeat' split at answered
    all_goals obtain ⟨-, rfl⟩ := Prod.mk.inj (Option.some.inj answered)
    all_goals exact .same _ rfl rfl
  | write fd buf =>
    simp only [dispatch, sysWrite] at answered
    repeat' split at answered
    all_goals obtain ⟨-, rfl⟩ := Prod.mk.inj (Option.some.inj answered)
    all_goals exact .same _ rfl rfl
  | _ =>
    simp only [dispatch] at answered
    repeat' split at answered
    all_goals cases answered
    all_goals exact .same _ rfl rfl

/-- The writes of the calls, one call after the other. -/
theorem run_filed (images : StoresWrites run inside) {α : Type} {p : Program Syscall Reply α}
    {ran : Program.Ran Syscall Reply Kernel α} (ended : p.run (dispatch sys run) k = some ran) :
    Filed ran.calls (ran.steps.flatMap fun st => callWrites sys inside st.before st.call) k
      ran.state := by
  induction p generalizing k ran with
  | ret status =>
    cases ended
    exact .same [] rfl rfl
  | call c next ih =>
    obtain ⟨r, k₁, rest, answered, tailEnded, rfl⟩ := Program.run_call_eq_some.mp ended
    exact (dispatch_filed images answered).trans (ih r tailEnded)

theorem runImage_stores (sys : System) (depth : Nat) :
    StoresWrites (runImage sys depth) (imageWrites sys depth) := by
  induction depth with
  | zero =>
    intro path argBuf envBuf k status k' ended
    cases ended
  | succ depth ih =>
    intro path argBuf envBuf k status k' ended
    simp only [runImage] at ended
    split at ended
    · cases ended
    next ran steps =>
      obtain ⟨-, rfl⟩ := Prod.mk.inj (Option.some.inj ended)
      simp only [imageWrites, steps]
      obtain ⟨ram, new, history, asked⟩ := run_filed ih steps
      refine ⟨ram, _, (congrArg (· ++ _) history).trans (List.append_assoc ..), fun e among => ?_⟩
      -- The calls of the image are now those of a run in the history
      obtain ⟨cr, made, wrote⟩ := asked e among
      refine ⟨cr, ?_, wrote⟩
      simp only [List.nil_append, List.flatMap_append, List.flatMap_singleton, List.mem_append] at made ⊢
      tauto

/-- Whatever programs run, the files are changed by their `WriteFile` calls alone, all of them in their
order: a file holds what the last accepted one has written to its path, or it is as it was. No file is
lost, and each of the calls is told whether its data is stored. -/
theorem run_writes_files (sys : System) (depth : Nat) (k : Kernel) {α : Type}
    (p : Program Syscall Reply α) (ran : Program.Ran Syscall Reply Kernel α)
    (ended : p.run (dispatch sys (runImage sys depth)) k = some ran) :
    ran.state.ram = (writeFiles k.ram (runWrites sys depth ran.steps)).2 ∧
      (∃ new, ran.state.history = k.history ++ new ∧
        ∀ e ∈ (writeFiles k.ram (runWrites sys depth ran.steps)).1,
          ∃ cr ∈ ran.calls ++ new.flatMap ProcessRun.calls, Asked cr e) ∧
      (∀ path ∈ k.ram.paths, path ∈ ran.state.ram.paths) ∧
      ∀ path, storedFile sys.images ran.state.ram path =
        (readFile sys.images path).or
          (((lastAccepted path (writeFiles k.ram (runWrites sys depth ran.steps)).1).map
            (·.take 4096)).or (lookup path k.ram.slots)) := by
  obtain ⟨ram, asked⟩ := run_filed (runImage_stores sys depth) ended
  refine ⟨ram, asked, fun path old => ?_, fun path => ?_⟩
  · rw [ram]
    exact paths_writeFiles_subset k.ram _ old
  · rw [ram, storedFile, lookup_writeFiles_or]
    rfl

/-- Every program writes a note. -/
def takesNotes : System := uniform [.writeFile (some (str "/a" ++ [0])) (some (str "hi"))]

/-- A program writes nothing itself, but starts another one. -/
theorem run_writes_files_note :
    ∃ ran, (Program.request (.execve (some (str "/bin/cat" ++ [0])) none none)).run
        (dispatch takesNotes (runImage takesNotes 1)) typing = some ran ∧
      runWrites takesNotes 1 ran.steps = [(str "/a", str "hi")] ∧
      ran.state.ram = (writeFiles RamFiles.empty [(str "/a", str "hi")]).2 := by
  have written : ((Program.request (.execve (some (str "/bin/cat" ++ [0])) none none)).run
      (dispatch takesNotes (runImage takesNotes 1)) typing).map
        (runWrites takesNotes 1 ·.steps) = some [(str "/a", str "hi")] := by decide +kernel
  obtain ⟨ran, ended, ws⟩ := Option.map_eq_some_iff.mp written
  obtain ⟨ram, -⟩ := run_writes_files takesNotes 1 typing _ ran ended
  rw [ws] at ram
  exact ⟨ran, ended, ws, ram⟩

end Smultron
