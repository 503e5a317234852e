import Smultron.Properties.CommandMeanings

/-!
# What a line may do to the world

A line has few ways to change the world: it shows and logs something, its programs leave other files,
and its output is stored. A relation between worlds that is kept by each of these is kept by the line.

## Main result

- `Kept.line`: the line keeps what its parts keep.
-/

namespace Smultron

open Checked Machine Process Shell Utf8 Vfs

/-- The relation is kept by all that a line does, as long as it runs no programs but these, and stores
nothing under other paths than these. -/
structure Kept (boot : Boot) (Runs : Bytes → Bytes → Prop) (Stores : Bytes → Prop)
    (R : World → World → Prop) : Prop where
  refl : ∀ w, R w w
  trans : ∀ {w w₁ w'}, R w w₁ → R w₁ w' → R w w'
  shown : ∀ w s, R w (w.show s)
  logged : ∀ w msg, R w (w.log msg)
  program : ∀ {w path args env stdin out ram}, Runs path args →
    boot.meaning path args env w.ram stdin = some (out, ram) → R w { w with ram }
  stored : ∀ {w path} data, Stores path → R w { w with ram := (Machine.store w.ram path data).2 }

section Within

variable (Runs : Bytes → Bytes → Prop) (Stores : Bytes → Prop)

/-- The program of this name is one of those that may run. -/
def Launches (cmd args : Bytes) : Prop :=
  ∀ path, (resolveBinPath cmd : Outcome Empty _) = .ok (some path) →
    Runs (cstrToStr path) (cstrToStr args)

structure StageWithin (env : Env) (stage : StageParse) : Prop where
  runs : Launches Runs stage.cmd (fromUtf8OrEmpty stage.args)
  stores : ∀ file path, stage.outFile = some file →
    (resolvePath env file : Outcome Empty _) = .ok (some path) → Stores path

/-- The programs and the files of the command are among those. -/
def CommandWithin (env : Env) : Command → Prop
  | .simple cmd args => Launches Runs cmd args
  | .pipeline stages => ∀ stage, .ok stage ∈ stages → StageWithin Runs Stores env stage
  | _ => True

end Within

variable {boot : Boot} {Runs : Bytes → Bytes → Prop} {Stores : Bytes → Prop}
  {R : World → World → Prop} {env env' : Env} {path args envText cmd out : Bytes}
  {stdin : Option Bytes} {status : Nat} {first last capture more : Bool} {w w' : World}

namespace Kept

theorem launch (kept : Kept boot Runs Stores R) {own : Nat} {cap : Option Nat}
    (runs : Runs path args)
    (h : boot.launch own path args envText stdin cap w = some (status, out, w')) : R w w' := by
  rcases launch_cases h with ⟨-, -, msg, rfl⟩ | ⟨text, ram, launched, -, ends⟩
  · exact kept.logged _ _
  · have files : R w { w with ram } := kept.program runs launched.meaning
    rcases ends with ⟨-, -, rfl⟩ | ⟨size, -, -, -, rfl⟩
    · exact kept.trans files (kept.shown _ _)
    · exact files

theorem run (kept : Kept boot Runs Stores R) (launches : Launches Runs cmd args)
    (h : boot.program env cmd args stdin capture w = some (status, out, w')) : R w w' := by
  rcases program_cases h with ⟨-, -, rfl⟩ | ⟨path, resolved, -, launched⟩
  · exact kept.refl _
  · exact kept.launch (launches path resolved) launched

theorem storeIn (kept : Kept boot Runs Stores R) {file : Bytes} {taken : Bool}
    (stores : ∀ path, (resolvePath env file : Outcome Empty _) = .ok (some path) → Stores path)
    (h : Machine.storeIn env file out w = some (taken, w')) : R w w' := by
  rw [Machine.storeIn] at h
  split at h
  · cases h
  · obtain ⟨-, rfl⟩ := by simpa using h
    exact kept.shown _ _
  next path resolved =>
    have files := kept.stored (w := w) out (stores path resolved)
    dsimp only at h
    split at h
    · obtain ⟨-, rfl⟩ := by simpa using h
      exact files
    · obtain ⟨-, rfl⟩ := by simpa using h
      exact kept.trans files (kept.shown _ _)

theorem stage (kept : Kept boot Runs Stores R) {stage : StageParse} {pipe : Bytes}
    {handed : Option Bytes} (within : StageWithin Runs Stores env stage)
    (h : boot.stage env first last stage pipe w = some (handed, w')) : R w w' := by
  obtain ⟨input, -, h⟩ := Option.bind_eq_some_iff.mp h
  cases input with
  | error msg =>
    obtain ⟨-, rfl⟩ := by simpa using h
    exact kept.shown _ _
  | ok data =>
    obtain ⟨⟨status, out, w₁⟩, ran, h⟩ := Option.bind_eq_some_iff.mp h
    have runs := kept.run within.runs ran
    dsimp only at h
    split at h
    · obtain ⟨-, rfl⟩ := by simpa using h
      exact kept.trans runs (kept.shown _ _)
    split at h
    · obtain ⟨-, rfl⟩ := by simpa using h
      exact runs
    split at h
    · obtain ⟨-, rfl⟩ := by simpa using h
      exact runs
    next file target =>
      obtain ⟨⟨taken, w₂⟩, wrote, h⟩ := Option.bind_eq_some_iff.mp h
      obtain ⟨-, rfl⟩ := by simpa using h
      exact kept.trans runs (kept.storeIn (within.stores file · target) wrote)

theorem stages (kept : Kept boot Runs Stores R) {stages : List (Except Bytes StageParse)}
    {pipe : Bytes} (within : ∀ stage, .ok stage ∈ stages → StageWithin Runs Stores env stage)
    (h : boot.stages env first stages pipe w = some w') : R w w' := by
  induction stages generalizing first pipe w with
  | nil =>
    obtain rfl : w = w' := by simpa [Boot.stages] using h
    exact kept.refl _
  | cons stage stages ih =>
    cases stage with
    | error msg =>
      obtain rfl : w.show msg = w' := by simpa [Boot.stages] using h
      exact kept.shown _ _
    | ok stage =>
      rw [Boot.stages] at h
      obtain ⟨⟨_ | out, w₁⟩, ran, h⟩ := Option.bind_eq_some_iff.mp h
      · obtain rfl : w₁ = w' := by simpa using h
        exact kept.stage (within stage List.mem_cons_self) ran
      · exact kept.trans (kept.stage (within stage List.mem_cons_self) ran)
          (ih (fun stage among => within stage (List.mem_cons_of_mem _ among)) h)

theorem assign (kept : Kept boot Runs Stores R) {key val : Bytes}
    (h : Machine.assign env key val w = (env', w')) : R w w' := by
  rw [Machine.assign] at h
  split at h
  · obtain ⟨-, rfl⟩ := Prod.mk.inj h
    exact kept.refl _
  · obtain ⟨-, rfl⟩ := Prod.mk.inj h
    exact kept.shown _ _

theorem simple (kept : Kept boot Runs Stores R) (launches : Launches Runs cmd args)
    (h : boot.simple env cmd args w = some (more, env', w')) : R w w' := by
  rw [Boot.simple] at h
  split at h
  · obtain ⟨-, -, rfl⟩ := by simpa using h
    exact kept.shown _ _
  split at h
  · obtain ⟨-, -, rfl⟩ := by simpa using h
    exact kept.shown _ _
  split at h
  · obtain ⟨-, -, rfl⟩ := by simpa using h
    exact kept.refl _
  split at h
  · -- `cd`
    split at h
    · cases h
    · split at h
      · obtain ⟨-, -, rfl⟩ := by simpa using h
        exact kept.refl _
      · obtain ⟨-, same⟩ := Prod.mk.inj (Option.some.inj h)
        exact kept.assign same
  split at h
  · obtain ⟨-, -, rfl⟩ := by simpa using h
    exact kept.shown _ _
  split at h
  · -- `export`
    split at h
    · obtain ⟨-, same⟩ := Prod.mk.inj (Option.some.inj h)
      exact kept.assign same
    · obtain ⟨-, -, rfl⟩ := by simpa using h
      exact kept.shown _ _
  · obtain ⟨⟨status, out, w₁⟩, ran, h⟩ := Option.bind_eq_some_iff.mp h
    obtain ⟨-, -, rfl⟩ := by simpa using h
    split
    · exact kept.trans (kept.run launches ran) (kept.shown _ _)
    · exact kept.run launches ran

theorem line (kept : Kept boot Runs Stores R) {line : Bytes}
    (within : ∀ command, commandOf env line = .ok command → CommandWithin Runs Stores env command)
    (h : boot.line env line w = some (more, env', w')) : R w w' := by
  rw [Boot.line] at h
  split at h
  next command parses =>
    have within := within command parses
    cases command with
    | nothing =>
      obtain ⟨-, -, rfl⟩ := by simpa [Boot.command] using h
      exact kept.refl _
    | refused msg =>
      obtain ⟨-, -, rfl⟩ := by simpa [Boot.command] using h
      exact kept.shown _ _
    | simple cmd args => exact kept.simple within h
    | pipeline stages =>
      obtain ⟨w₁, ran, same⟩ := Option.map_eq_some_iff.mp h
      obtain ⟨-, -, rfl⟩ := by simpa using same
      exact kept.stages within ran
  · cases h

end Kept

/-- Any command is within these bounds. -/
theorem commandWithin_any (env : Env) (command : Command) :
    CommandWithin (fun _ _ => True) (fun _ => True) env command := by
  cases command with
  | simple cmd args => exact fun _ _ => trivial
  | pipeline stages => exact fun stage _ => ⟨fun _ _ => trivial, fun _ _ _ _ => trivial⟩
  | _ => trivial

end Smultron
