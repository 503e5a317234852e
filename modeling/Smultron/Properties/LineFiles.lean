import Smultron.Properties.PipelineLaws
import Smultron.Properties.SessionMeanings

/-!
# The files that a line may change

Which files a line may change can be read off the line: those behind a `>`, and those that `tee` is
told to write. All other files are the same after the line, and so they are after a session.

## Main result

- `session_keeps_file`: on the kernel, the loop of the shell changes no other files.
-/

namespace Smultron

open Checked LineEditing Machine Proc Process Shell Utf8 Vfs

variable {images : Images} {env env' : Env} {path args envText cmd data : Bytes}
  {stdin : Option Bytes} {ram ram' : RamFiles} {w w' : World}

/-! ### What may be written -/

/-- The files that `tee` writes. -/
def teeTargets (args : Bytes) : List Bytes := ((Tee.files args).getD []).map cstrToStr

/-- The files that a program writes. -/
def programTargets (cmd args : Bytes) : List Bytes :=
  match (resolveBinPath cmd : Outcome Empty _) with
  | .ok (some path) => if cstrToStr path = str "/bin/tee" then teeTargets (cstrToStr args) else []
  | _ => []

def redirectTargets (env : Env) (file : Option Bytes) : List Bytes :=
  match file.map fun file => (resolvePath env file : Outcome Empty _) with
  | some (.ok (some path)) => [cstrToStr path]
  | _ => []

def stageTargets (env : Env) : Except Bytes StageParse → List Bytes
  | .error _ => []
  | .ok stage =>
    programTargets stage.cmd (fromUtf8OrEmpty stage.args) ++ redirectTargets env stage.outFile

def Machine.Command.targets (env : Env) : Command → List Bytes
  | .simple cmd args => programTargets cmd args
  | .pipeline stages => stages.flatMap (stageTargets env)
  | _ => []

def lineTargets (env : Env) (line : Bytes) : List Bytes :=
  match commandOf env line with
  | .ok command => command.targets env
  | .panic => []

/-! ### A line -/

/-- A file is the same in both worlds. -/
def SameFile (images : Images) (path : Bytes) (w w' : World) : Prop :=
  ∀ outLen, readFileBytes images w'.ram path outLen = readFileBytes images w.ram path outLen

theorem teeFiles_same {files : List Bytes} (spared : path ∉ files.map cstrToStr) (outLen : Nat) :
    readFileBytes images (teeFiles data files ram).2 path outLen =
      readFileBytes images ram path outLen := by
  induction files generalizing ram with
  | nil => rfl
  | cons file files ih =>
    rw [List.map_cons, List.mem_cons, not_or] at spared
    have first : readFileBytes images (Machine.store ram file data).2 path outLen = _ :=
      readFileBytes_store spared.1 outLen
    rw [← first, ← @ih (Machine.store ram file data).2 spared.2, teeFiles]
    dsimp only
    split <;> rfl

theorem tee_same {out : Bytes} (spared : path ∉ teeTargets args)
    (meant : tee args ram stdin = some (out, ram')) (outLen : Nat) :
    readFileBytes images ram' path outLen = readFileBytes images ram path outLen := by
  rw [tee] at meant
  split at meant
  · cases meant
    rfl
  next files collected =>
    obtain ⟨read, -, same⟩ := Option.map_eq_some_iff.mp meant
    cases same
    rw [teeTargets, collected] at spared
    exact teeFiles_same spared outLen

/-- No program but `tee` writes a file. -/
theorem meaning_same {program out : Bytes}
    (spared : program = str "/bin/tee" → path ∉ teeTargets args)
    (meant : (bootMachine images).meaning program args envText ram stdin = some (out, ram'))
    (outLen : Nat) :
    readFileBytes images ram' path outLen = readFileBytes images ram path outLen := by
  simp only [bootMachine] at meant
  split at meant
  · cases meant
    rfl
  split at meant
  · cases meant
    rfl
  split at meant
  · rw [ls] at meant
    repeat' split at meant
    all_goals cases meant
    all_goals rfl
  split at meant
  · rw [cat] at meant
    split at meant
    · obtain ⟨read, -, same⟩ := Option.map_eq_some_iff.mp meant
      cases same
      rfl
    · cases meant
      rfl
  split at meant
  next isTee => exact tee_same (spared isTee) meant outLen
  split at meant
  · rw [sed] at meant
    split at meant
    · cases meant
      rfl
    · cases meant
      rfl
    · split at meant
      · cases meant
        rfl
      · split at meant
        · obtain ⟨read, -, same⟩ := Option.map_eq_some_iff.mp meant
          cases same
          rfl
        · cases meant
          rfl
  · cases meant

theorem show_ram (w : World) (s : Bytes) : (w.show s).ram = w.ram := by
  obtain ⟨serial, h⟩ := World.show_eq w s
  rw [h]

/-- As long as it is no target of a program or of a redirection. -/
theorem sameFile_kept (images : Images) (path : Bytes) :
    Kept (bootMachine images) (fun program args => program = str "/bin/tee" → path ∉ teeTargets args)
      (fun target => path ≠ cstrToStr target) (SameFile images path) where
  refl _ _ := rfl
  trans first second outLen := (second outLen).trans (first outLen)
  shown w s outLen := by rw [show_ram]
  logged _ _ _ := rfl
  program spared meant := meaning_same spared meant
  stored _ apart := readFileBytes_store apart

theorem commandWithin_targets {command : Command} (spared : path ∉ command.targets env) :
    CommandWithin (fun program args => program = str "/bin/tee" → path ∉ teeTargets args)
      (fun target => path ≠ cstrToStr target) env command := by
  have launches : ∀ {cmd args}, path ∉ programTargets cmd args →
      Launches (fun program args => program = str "/bin/tee" → path ∉ teeTargets args) cmd args := by
    intro cmd args spared program resolved isTee
    simpa only [programTargets, resolved, if_pos isTee] using spared
  cases command with
  | simple cmd args => exact launches spared
  | pipeline stages =>
    intro stage among
    have spared : path ∉ stageTargets env (.ok stage) :=
      fun targeted => spared (List.mem_flatMap.mpr ⟨_, among, targeted⟩)
    rw [stageTargets, List.mem_append, not_or] at spared
    refine ⟨launches spared.1, fun file target isFile resolved => ?_⟩
    simpa [redirectTargets, isFile, resolved] using spared.2
  | _ => trivial

/-- A line changes none but its targets. -/
theorem line_same {line : Bytes} {more : Bool}
    (spared : path ∉ lineTargets env line)
    (meant : (bootMachine images).line env line w = some (more, env', w')) :
    SameFile images path w w' := by
  refine (sameFile_kept images path).line (fun command parses => commandWithin_targets ?_) meant
  rwa [lineTargets, parses] at spared

/-! ### Sessions -/

/-- The targets of the lines that a session comes to. -/
def Machine.Boot.targets (boot : Boot) : List TypedLine → Env → World → List Bytes
  | [], _, _ => []
  | e :: entries, env, w =>
    lineTargets env e.line ++
      match boot.line env e.line ((w.takes e.bytes.length).show e.shown) with
      | some (true, env, w) => Boot.targets boot entries env w
      | _ => []

theorem session_same {entries : List TypedLine} {more : Bool}
    (spared : path ∉ (bootMachine images).targets entries env w)
    (meant : (bootMachine images).session entries env w = some (more, env', w')) :
    SameFile images path w w' := by
  induction entries generalizing env w with
  | nil =>
    obtain ⟨-, -, rfl⟩ := by simpa [Boot.session] using meant
    exact fun _ => rfl
  | cons e entries ih =>
    rw [Boot.session] at meant
    obtain ⟨⟨more₁, env₁, w₁⟩, ran, meant⟩ := Option.bind_eq_some_iff.mp meant
    rw [Boot.targets, List.mem_append, not_or, ran] at spared
    have typed : SameFile images path w ((w.takes e.bytes.length).show e.shown) := by
      intro outLen
      rw [show_ram]
      rfl
    have here := (sameFile_kept images path).trans typed (line_same spared.1 ran)
    cases more₁ with
    | false =>
      obtain ⟨-, -, rfl⟩ := by simpa using meant
      exact here
    | true => exact (sameFile_kept images path).trans here (ih spared.2 meant)

/-- On the kernel, whatever is typed: between the lines of a session each file is what it was before
the session, unless a line has sent its output there or has told `tee` to write it. -/
theorem session_keeps_file (images : Images) (limits : Limits) (accepted : AcceptedImages images)
    (enough : 17 ≤ limits.rounds) (depth : Nat) (k : Kernel) (alone : Alone 0 k.pm)
    (context : k.io.stdio = ⟨none, none⟩) (reads : Nat) (entries : List TypedLine) (env env' : Env)
    (short : ∀ e ∈ entries, e.keys.length < reads)
    (typed : (ofKernel k).upcoming (entries.flatMap TypedLine.bytes).length =
      entries.flatMap TypedLine.bytes)
    (more : Bool) (w' : World)
    (meant : (bootMachine images).session entries env (ofKernel k) = some (more, env', w'))
    (path : Bytes) (spared : path ∉ (bootMachine images).targets entries env (ofKernel k)) :
    ∃ reading k', (Shell.runLoop reads entries.length env).eval
        (dispatch (bootSystem images limits) (runImage (bootSystem images limits) (depth + 1))) k =
          some (reading, k') ∧
      ofKernel k' = w' ∧
      ∀ outLen, readFileBytes images k'.ram path outLen = readFileBytes images k.ram path outLen := by
  have evaluated := eval_runLoop short typed meant 0
  obtain ⟨reading, evaluated⟩ : ∃ reading, (Shell.runLoop reads entries.length env).eval
      ((bootMachine images).answer 0) (ofKernel k) = some (reading, w') := by
    cases more with
    | false => exact ⟨_, evaluated⟩
    | true => exact ⟨_, evaluated⟩
  obtain ⟨k', ran, hosts⟩ := simulates_eval
    (dispatch_simulates (bootSystem_holds accepted enough 0) alone depth)
    ⟨rfl, context, .rfl alone.bound⟩ evaluated
  refine ⟨reading, k', ran, hosts.world, fun outLen => ?_⟩
  have ram : k'.ram = w'.ram := congrArg World.ram hosts.world
  rw [ram]
  exact session_same spared meant outLen

/-- A note is there before the session, which writes another file. -/
def notedKernel : Kernel :=
  { sampleKernel with ram := (Vfs.writeFile RamFiles.empty (str "/b") (str "old")).2 }

theorem session_keeps_file_note :
    ∃ k reading k', (Shell.runLoop 32 3 Env.empty).eval (dispatch (bootSystem bareImages ⟨17, 0, 0, 0⟩)
        (runImage (bootSystem bareImages ⟨17, 0, 0, 0⟩) 1)) k = some (reading, k') ∧
      readFileBytes bareImages k'.ram (str "/b") 4096 = some (str "old") := by
  obtain ⟨pm, alone⟩ := exists_alone
  have left : ((bootMachine bareImages).session sampleEntries Env.empty (ofKernel notedKernel)).map
      Prod.fst = some false := by decide +kernel
  obtain ⟨⟨more, env', w'⟩, meant, same⟩ := Option.map_eq_some_iff.mp left
  obtain rfl : more = false := same
  have spared : str "/b" ∉
      (bootMachine bareImages).targets sampleEntries Env.empty (ofKernel notedKernel) := by
    decide +kernel
  have typed : (ofKernel notedKernel).upcoming (sampleEntries.flatMap TypedLine.bytes).length =
      sampleEntries.flatMap TypedLine.bytes := by decide +kernel
  obtain ⟨reading, k', ran, -, kept⟩ := session_keeps_file bareImages ⟨17, 0, 0, 0⟩ acceptedImages_bare
    (Nat.le_refl 17) 0 { notedKernel with pm } alone rfl 32 sampleEntries Env.empty env'
    (by decide +kernel) typed false w' meant (str "/b") spared
  have old : readFileBytes bareImages notedKernel.ram (str "/b") 4096 = some (str "old") := by
    decide +kernel
  exact ⟨_, reading, k', ran, (kept 4096).trans old⟩

end Smultron
