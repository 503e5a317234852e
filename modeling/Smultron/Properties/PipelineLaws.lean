import Smultron.Properties.CommandMeanings

/-!
# Laws of pipelines

Since a line has a meaning, lines can be compared. `cat` in a pipeline is no stage at all, and what goes
into a file comes out of it again. That the lines are run by a shell on a kernel, each program in a slot
of its own and each stage with a stdio context of its own, makes no difference.

## Main results

- `cat_keeps_pipeline`: a pipeline with `cat` in it does what it does without.
- `cat_opens_pipeline`: a pipeline may get its input from a `cat`.
- `redirect_round_trip`: a file that takes the output of a pipeline shows it.
-/

namespace Smultron

open Checked Checked.Outcome Machine Process Shell SlotTable Utf8 Vfs

variable {images : Images} {boot : Boot} {env : Env} {stage : StageParse} {first last capture : Bool}
  {init later : List (Except Bytes StageParse)} {pipe out args path : Bytes} {w w' w₁ : World}
  {status : Nat}

/-! ### Stages that hand on -/

/-- What stages hand on that are not at the end of their pipeline. -/
def Machine.Boot.handsOn (boot : Boot) (env : Env) :
    (first : Bool) → List (Except Bytes StageParse) → Bytes → World → Option (Option Bytes × World)
  | _, [], pipe, w => some (some pipe, w)
  | _, .error msg :: _, _, w => some (none, w.show msg)
  | first, .ok stage :: later, pipe, w => do
    match ← boot.stage env first false stage pipe w with
    | (none, w) => return (none, w)
    | (some out, w) => Machine.Boot.handsOn boot env false later out w

theorem stages_append (rest : List (Except Bytes StageParse)) (some_ : rest ≠ []) :
    boot.stages env first (init ++ rest) pipe w =
      (boot.handsOn env first init pipe w).bind fun (handed, w') =>
        handed.elim (some w') fun out => boot.stages env (first && init.isEmpty) rest out w' := by
  induction init generalizing first pipe w with
  | nil => simp [Boot.handsOn]
  | cons stage init ih =>
    cases stage with
    | error msg => simp [Boot.stages, Boot.handsOn]
    | ok stage =>
      have more : (init ++ rest).isEmpty = false := by simp [some_]
      rw [List.cons_append, Boot.stages, Boot.handsOn, more]
      cases boot.stage env first false stage pipe w with
      | none => rfl
      | some handed =>
        obtain ⟨handed, w'⟩ := handed
        cases handed with
        | none => rfl
        | some out => simpa using @ih false out w'

theorem handsOn_append (rest : List (Except Bytes StageParse)) :
    boot.handsOn env first (init ++ rest) pipe w =
      (boot.handsOn env first init pipe w).bind fun (handed, w') =>
        handed.elim (some (none, w')) fun out =>
          boot.handsOn env (first && init.isEmpty) rest out w' := by
  induction init generalizing first pipe w with
  | nil => simp [Boot.handsOn]
  | cons stage init ih =>
    cases stage with
    | error msg => simp [Boot.handsOn]
    | ok stage =>
      rw [List.cons_append, Boot.handsOn, Boot.handsOn]
      cases boot.stage env first false stage pipe w with
      | none => rfl
      | some handed =>
        obtain ⟨handed, w'⟩ := handed
        cases handed with
        | none => rfl
        | some out => simpa using @ih false out w'

/-! ### Programs with and without a capture -/

/-- What is captured of a program is what it shows where it is not captured. -/
theorem launch_shown {own : Nat} {stdin : Option Bytes} {envText : Bytes}
    (ran : boot.launch own path args envText stdin (some maxIoBuf) w = some (status, out, w'))
    (started : status ≠ u64Max) :
    boot.launch own path args envText stdin none w = some (status, [], w'.show out) := by
  rcases launch_cases ran with ⟨failed, -⟩ | ⟨text, ram, launched, rfl, ends⟩
  · exact absurd failed started
  · rcases ends with ⟨none_, -⟩ | ⟨size, same, few, rfl, rfl⟩
    · cases none_
    · obtain rfl := Option.some.inj same
      have whole : text.take maxIoBuf = text := List.take_of_length_le few
      rw [launched.shown, whole]

theorem program_shown {cmd : Bytes} {stdin : Option Bytes}
    (ran : boot.program env cmd args stdin true w = some (status, out, w'))
    (started : status ≠ u64Max) :
    boot.program env cmd args stdin false w = some (status, [], w'.show out) := by
  rcases program_cases ran with ⟨failed, -⟩ | ⟨path, resolved, fits, launched⟩
  · exact absurd failed started
  · rw [program_eq resolved fits]
    exact launch_shown launched started

/-- The variables always fit into what a program is given of them. -/
theorem length_envText (env : Env) : (fromUtf8OrEmpty env.text).length ≤ Libos.maxEnv :=
  Nat.le_trans (length_fromUtf8OrEmpty_le _) ((buildEnvStr_sound env).of_ok (buildEnvStr_eq env))

/-! ### Cat -/

/-- `cat`, with the file that its output goes to. -/
def catTo (file : Option Bytes) : StageParse := ⟨str "cat", [], none, file⟩

/-- `cat` writes what it reads. -/
theorem program_cat (some_ : out ≠ []) (few : out.length ≤ maxIoBuf) :
    (bootMachine images).program env (str "cat") [] (some out) true w = some (0, out, w) := by
  have resolved : (resolveBinPath (str "cat") : Outcome Empty _) = .ok (some (str "/bin/cat")) := by
    decide +kernel
  have whole : cstrToStr (str "/bin/cat") = str "/bin/cat" := by decide
  have none_ : cstrToStr ([] : Bytes) = [] := by decide
  have all : out.take maxIoBuf = out := List.take_of_length_le few
  have given : redirected (some out) = some out := by
    have all : out.take 4096 = out := all
    simp [redirected, some_, all]
  have meant : (bootMachine images).meaning (str "/bin/cat") [] (cstrToStr (fromUtf8OrEmpty env.text))
      w.ram (some out) = some (out, w.ram) := by
    simp only [bootMachine]
    rw [if_neg (by decide), if_neg (by decide), if_neg (by decide), if_pos trivial, cat,
      if_pos (by decide), Option.map_some]
  have launched : Launched (bootMachine images) 0 (str "/bin/cat") [] (cstrToStr (fromUtf8OrEmpty env.text))
      (some out) w out w.ram := ⟨rfl, ⟨4, by decide, by decide⟩, meant⟩
  rw [program_eq resolved ⟨by decide, by decide, length_envText env⟩, whole, none_, given, if_pos rfl,
    launched.captured maxIoBuf few, all]

/-- What a stage makes of its output at the end of a pipeline. -/
def ends (env : Env) (file : Option Bytes) (out : Bytes) (w : World) :
    Option (Option Bytes × World) :=
  match file with
  | none => some (some [], w.show out)
  | some file => (storeIn env file out w).map fun (stored, w) => (if stored then some out else none, w)

/-- The redirected input of a stage. -/
def stdinOf (first : Bool) (stage : StageParse) (data : Bytes) : Option Bytes :=
  if first && stage.inFile.isNone then none else some data

/-- A stage that has got its input. -/
theorem stage_opened {data : Bytes}
    (given : boot.input env (if first then stage.inFile else none) pipe w = some (.ok data)) :
    boot.stage env first last stage pipe w =
      (boot.program env stage.cmd (fromUtf8OrEmpty stage.args) (stdinOf first stage data)
        (!last || stage.outFile.isSome) w).bind fun (status, out, w) =>
          if status = u64Max then some (none, w.show (unknown stage.cmd))
          else if !last then some (some out, w)
          else
            match stage.outFile with
            | none => some (some out, w)
            | some file =>
              (storeIn env file out w).bind fun (stored, w) =>
                some (if stored then some out else none, w) := by
  rw [Boot.stage, given]
  rfl

/-- A stage hands on what its program writes. -/
theorem stage_handed (handed : boot.stage env first false stage pipe w = some (some out, w')) :
    ∃ data status, boot.input env (if first then stage.inFile else none) pipe w = some (.ok data) ∧
      boot.program env stage.cmd (fromUtf8OrEmpty stage.args) (stdinOf first stage data) true w =
        some (status, out, w') ∧ status ≠ u64Max := by
  obtain ⟨input, given, -⟩ := Option.bind_eq_some_iff.mp handed
  cases input with
  | error msg => simp [Boot.stage, given] at handed
  | ok data =>
    rw [stage_opened given] at handed
    obtain ⟨⟨status, out', w₁⟩, ran, handed⟩ := Option.bind_eq_some_iff.mp handed
    dsimp only at handed
    split at handed
    · simp at handed
    next started =>
      obtain ⟨rfl, rfl⟩ := by simpa using handed
      exact ⟨data, status, given, ran, started⟩

/-- The same stage at the end of a pipeline. -/
theorem stage_last (handed : boot.stage env first false stage pipe w = some (some out, w')) :
    boot.stage env first true stage pipe w = ends env stage.outFile out w' := by
  obtain ⟨data, status, given, ran, started⟩ := stage_handed handed
  rw [stage_opened given]
  cases file : stage.outFile with
  | none => simp [program_shown ran started, started, ends]
  | some file => simp [ran, started, ends, Option.map_eq_bind]

theorem stage_cat (some_ : out ≠ []) (few : out.length ≤ maxIoBuf) (file : Option Bytes) :
    (bootMachine images).stage env false false (catTo file) out w = some (some out, w) := by
  have none_ : fromUtf8OrEmpty [] = ([] : Bytes) := by decide
  have input : (bootMachine images).input env (if false then (catTo file).inFile else none) out w =
    some (.ok out) := rfl
  rw [stage_opened input]
  simp [catTo, stdinOf, none_, program_cat some_ few, u64Max]

/-- `cat` takes over the output of the stage before it. -/
theorem stages_cat {pipe : Bytes}
    (handed : (bootMachine images).stage env first false stage pipe w = some (some out, w₁))
    (some_ : out ≠ []) :
    (bootMachine images).stages env first
        (.ok { stage with outFile := none } :: .ok (catTo stage.outFile) :: later) pipe w =
      (bootMachine images).stages env first (.ok stage :: later) pipe w := by
  have few := length_stage handed
  -- Where a stage is not the last one, it does not look at the file
  have same : (bootMachine images).stage env first false { stage with outFile := none } pipe w =
      some (some out, w₁) := handed
  rw [Boot.stages, Boot.stages, List.isEmpty_cons, same]
  simp only [Option.bind_eq_bind, Option.bind_some]
  rw [Boot.stages]
  cases later with
  | nil =>
    rw [List.isEmpty_nil, stage_last handed, stage_last (stage_cat some_ few stage.outFile)]
    rfl
  | cons next later =>
    rw [List.isEmpty_cons, handed, stage_cat some_ few stage.outFile]
    rfl

/-- `cat` with an input of its own. -/
def catFrom (file : Bytes) : StageParse := ⟨str "cat", [], some file, none⟩

theorem stage_catFrom {file : Bytes}
    (given : (bootMachine images).input env (some file) pipe w = some (.ok out))
    (some_ : out ≠ []) (few : out.length ≤ maxIoBuf) :
    (bootMachine images).stage env true false (catFrom file) pipe w = some (some out, w) := by
  have none_ : fromUtf8OrEmpty [] = ([] : Bytes) := by decide
  have input : (bootMachine images).input env (if true then (catFrom file).inFile else none) pipe w =
    some (.ok out) := given
  rw [stage_opened input]
  simp [catFrom, stdinOf, none_, program_cat some_ few, u64Max]

/-- It makes no difference to a stage whether its input has come from a file or from a pipe. -/
theorem stage_piped {file : Bytes}
    (given : boot.input env (some file) pipe w = some (.ok out)) :
    boot.stage env true last { stage with inFile := some file } pipe w =
      boot.stage env false last { stage with inFile := none } out w := by
  have opened : boot.input env (if true then some file else none) pipe w = some (.ok out) := given
  have piped : boot.input env (if false then (none : Option Bytes) else none) out w =
    some (.ok out) := rfl
  rw [stage_opened opened, stage_opened piped]
  rfl

theorem length_input {file : Bytes} (given : boot.input env (some file) pipe w = some (.ok out)) :
    out.length ≤ maxIoBuf := by
  rw [Boot.input] at given
  split at given
  · cases given
  · cases given
  next path resolved =>
    cases found : fileAt boot.images w.ram path with
    | none => simp [found] at given
    | some data =>
      obtain rfl : data = out := by simpa [found] using given
      exact length_fileAt found

/-- `cat` takes over the input of the first stage. -/
theorem stages_catFrom {file : Bytes}
    (some_ : (bootMachine images).input env (some file) pipe w ≠ some (.ok [])) :
    (bootMachine images).stages env true
        (.ok (catFrom file) :: .ok { stage with inFile := none } :: later) pipe w =
      (bootMachine images).stages env true (.ok { stage with inFile := some file } :: later) pipe w := by
  rw [Boot.stages, Boot.stages, List.isEmpty_cons]
  cases given : (bootMachine images).input env (some file) pipe w with
  | none => simp [Boot.stage, catFrom, given]
  | some opened =>
    cases opened with
    | error msg => simp [Boot.stage, catFrom, given]
    | ok out =>
      have nonempty : out ≠ [] := fun none_ => some_ (by rw [given, none_])
      rw [stage_catFrom given nonempty (length_input given), stage_piped given]
      simp [Boot.stages]

/-! ### Files -/

/-- What is stored is read again, unless a file of the boot image has the name. -/
theorem fileAt_store {ram : RamFiles} (stored : (Machine.store ram path out).1 = true)
    (overlaid : readFile images (cstrToStr path) = none) (few : out.length ≤ maxIoBuf) :
    fileAt images (Machine.store ram path out).2 path = some out := by
  rw [Machine.store] at stored ⊢
  split at stored
  next short =>
    have accepted := stored
    rw [writeFile_accepted] at accepted
    have whole : out.take 4096 = out := List.take_of_length_le few
    rw [if_pos short, fileAt, if_pos short, readFileBytes_overlay _ _ _ _ overlaid, slots_writeFile,
      lookup_write, if_pos ⟨accepted, rfl⟩, Option.map_some, List.take_take, maxRamFileLen, Nat.min_self,
      whole]
  · cases stored

/-- Other files stay as they are. -/
theorem readFileBytes_store {ram : RamFiles} {other : Bytes} (apart : other ≠ cstrToStr path)
    (outLen : Nat) :
    readFileBytes images (Machine.store ram path out).2 other outLen = readFileBytes images ram other outLen := by
  rw [Machine.store]
  split
  · exact readFileBytes_frame images ram _ out other outLen apart
  · rfl

/-! ### Whole pipelines -/

/-- The stages behind others that have handed on. -/
theorem stages_after {given : Bytes} {w₀ : World} {rest : List (Except Bytes StageParse)}
    (before : boot.handsOn env first init pipe w = some (some given, w₀)) (some_ : rest ≠ []) :
    boot.stages env first (init ++ rest) pipe w =
      boot.stages env (first && init.isEmpty) rest given w₀ := by
  rw [stages_append rest some_, before]
  rfl

/-- The last stage of a pipeline, when the others have handed on. -/
theorem handsOn_last
    (handed : boot.handsOn env first (init ++ [.ok stage]) pipe w = some (some out, w₁)) :
    ∃ given w₀, boot.handsOn env first init pipe w = some (some given, w₀) ∧
      boot.stage env (first && init.isEmpty) false stage given w₀ = some (some out, w₁) := by
  rw [handsOn_append] at handed
  obtain ⟨⟨given, w₀⟩, before, handed⟩ := Option.bind_eq_some_iff.mp handed
  cases given with
  | none => simp at handed
  | some given =>
    refine ⟨given, w₀, before, ?_⟩
    have handed : boot.handsOn env (first && init.isEmpty) [.ok stage] given w₀ =
      some (some out, w₁) := handed
    rw [Boot.handsOn] at handed
    obtain ⟨⟨_ | out', w'⟩, ran, same⟩ := Option.bind_eq_some_iff.mp handed
    · simp at same
    · obtain ⟨rfl, rfl⟩ := by simpa [Boot.handsOn] using same
      exact ran

theorem stages_keep_cat
    (handed : (bootMachine images).handsOn env first (init ++ [.ok stage]) pipe w = some (some out, w₁))
    (some_ : out ≠ []) :
    (bootMachine images).stages env first
        (init ++ .ok { stage with outFile := none } :: .ok (catTo stage.outFile) :: later) pipe w =
      (bootMachine images).stages env first (init ++ .ok stage :: later) pipe w := by
  obtain ⟨given, w₀, before, handed⟩ := handsOn_last handed
  rw [stages_after before (List.cons_ne_nil _ _), stages_after before (List.cons_ne_nil _ _),
    stages_cat handed some_]

/-- What the last stage hands on is shown, or it goes into the file that the stage has got. -/
theorem stages_last
    (handed : boot.handsOn env first (init ++ [.ok stage]) pipe w = some (some out, w₁))
    (file : Option Bytes) :
    boot.stages env first (init ++ [.ok { stage with outFile := file }]) pipe w =
      (ends env file out w₁).map Prod.snd := by
  obtain ⟨given, w₀, before, handed⟩ := handsOn_last handed
  have same : boot.stage env (first && init.isEmpty) false { stage with outFile := file } given w₀ =
    some (some out, w₁) := handed
  rw [stages_after before (List.cons_ne_nil _ _), Boot.stages, List.isEmpty_nil, stage_last same,
    Option.bind_eq_bind, Option.map_eq_bind]
  congr
  funext ended
  obtain ⟨_ | out, w'⟩ := ended <;> rfl

theorem line_pipeline {line : Bytes} {stages : List (Except Bytes StageParse)}
    (parses : commandOf env line = .ok (.pipeline stages))
    (means : boot.stages env true stages [] w = some w') :
    boot.line env line w = some (true, env, w') := by
  simp [Boot.line, parses, Boot.command, means]

/-! ### On the kernel -/

section Kernel

variable (images : Images) (limits : Limits)

/-- The kernel runs a line of the shell, and goes from `k` to `k'` in it. -/
def RunsLine (depth : Nat) (env : Env) (line : Bytes) (k k' : Kernel) : Prop :=
  (Shell.dispatch env line).eval
    (dispatch (bootSystem images limits) (runImage (bootSystem images limits) (depth + 1))) k =
      some ((true, env), k')

/-- Two pipelines that mean the same. -/
theorem pipelines_agree {images : Images} {limits : Limits} (accepted : AcceptedImages images)
    (enough : 17 ≤ limits.rounds) (depth : Nat) {k : Kernel} (alone : Alone 0 k.pm)
    (context : k.io.stdio = ⟨none, none⟩) {line line' : Bytes}
    {stages stages' : List (Except Bytes StageParse)}
    (parses : commandOf env line = .ok (.pipeline stages))
    (parses' : commandOf env line' = .ok (.pipeline stages'))
    (same : (bootMachine images).stages env true stages' [] (ofKernel k) =
      (bootMachine images).stages env true stages [] (ofKernel k))
    (means : (bootMachine images).stages env true stages [] (ofKernel k) = some w') :
    ∃ k₁ k₂, RunsLine images limits depth env line k k₁ ∧ RunsLine images limits depth env line' k k₂ ∧
      ofKernel k₁ = w' ∧ ofKernel k₂ = w' := by
  have hosts : Hosts k.pm k (ofKernel k) := ⟨rfl, context, .rfl alone.bound⟩
  obtain ⟨k₁, plain, hosts₁⟩ := line_hosts accepted enough depth alone hosts
    (line_pipeline parses means)
  obtain ⟨k₂, with_, hosts₂⟩ := line_hosts accepted enough depth alone hosts
    (line_pipeline parses' (same.trans means))
  exact ⟨k₁, k₂, plain, with_, hosts₁.world, hosts₂.world⟩

/-- A pipeline does the same with a `cat` behind one of its stages, if that stage is reached and hands
something on, which is no more than a buffer holds. Where the stage is the last one, the `cat` takes over
its output file. -/
theorem cat_keeps_pipeline (accepted : AcceptedImages images) (enough : 17 ≤ limits.rounds)
    (depth : Nat) (k : Kernel) (alone : Alone 0 k.pm) (context : k.io.stdio = ⟨none, none⟩) (env : Env)
    (line line' : Bytes) (init later : List (Except Bytes StageParse)) (stage : StageParse)
    (parses : commandOf env line = .ok (.pipeline (init ++ .ok stage :: later)))
    (parses' : commandOf env line' =
      .ok (.pipeline (init ++ .ok { stage with outFile := none } ::
        .ok (catTo stage.outFile) :: later)))
    (out : Bytes) (w₁ w' : World)
    (handed : (bootMachine images).handsOn env true (init ++ [.ok stage]) [] (ofKernel k) =
      some (some out, w₁))
    (some_ : out ≠ [])
    (means : (bootMachine images).stages env true (init ++ .ok stage :: later) [] (ofKernel k) =
      some w') :
    ∃ k₁ k₂, RunsLine images limits depth env line k k₁ ∧ RunsLine images limits depth env line' k k₂ ∧
      ofKernel k₁ = w' ∧ ofKernel k₂ = w' :=
  pipelines_agree accepted enough depth alone context parses parses' (stages_keep_cat handed some_) means

/-- `echo hi`, and a `sed` behind it. -/
def echoStage : Except Bytes StageParse := .ok ⟨str "echo", str "hi", none, none⟩
def sedStage : StageParse := ⟨str "sed", str "s/h/H/", none, none⟩

theorem cat_keeps_pipeline_upper :
    ∃ k k₁ k₂,
      RunsLine bareImages ⟨17, 0, 0, 0⟩ 0 Env.empty (str "echo hi | sed s/h/H/ > /a") k k₁ ∧
        RunsLine bareImages ⟨17, 0, 0, 0⟩ 0 Env.empty (str "echo hi | sed s/h/H/ | cat > /a") k k₂ ∧
        ofKernel k₁ = ofKernel k₂ := by
  obtain ⟨pm, alone⟩ := exists_alone
  have hands : ((bootMachine bareImages).handsOn Env.empty true
      ([echoStage] ++ [.ok { sedStage with outFile := some (str "/a") }]) [] (ofKernel typing)).map
        Prod.fst = some (some (str "Hi\n")) := by decide +kernel
  obtain ⟨⟨handed, w₁⟩, hands, rfl⟩ := Option.map_eq_some_iff.mp hands
  obtain ⟨w', means⟩ := Option.isSome_iff_exists.mp (by decide +kernel :
    ((bootMachine bareImages).stages Env.empty true
      ([echoStage] ++ .ok { sedStage with outFile := some (str "/a") } :: []) []
        (ofKernel typing)).isSome = true)
  obtain ⟨k₁, k₂, runs, runs', rfl, same⟩ := cat_keeps_pipeline bareImages ⟨17, 0, 0, 0⟩
    acceptedImages_bare (Nat.le_refl 17) 0 { typing with pm } alone rfl Env.empty
    (str "echo hi | sed s/h/H/ > /a") (str "echo hi | sed s/h/H/ | cat > /a") [echoStage] []
    { sedStage with outFile := some (str "/a") } (by decide +kernel) (by decide +kernel) (str "Hi\n") w₁
    w' hands (by decide) means
  exact ⟨_, k₁, k₂, runs, runs', same.symm⟩

/-- The input file of a pipeline may as well be given to a `cat` in front of it, unless it is empty. -/
theorem cat_opens_pipeline (accepted : AcceptedImages images) (enough : 17 ≤ limits.rounds)
    (depth : Nat) (k : Kernel) (alone : Alone 0 k.pm) (context : k.io.stdio = ⟨none, none⟩) (env : Env)
    (line line' file : Bytes) (later : List (Except Bytes StageParse)) (stage : StageParse)
    (parses : commandOf env line = .ok (.pipeline (.ok { stage with inFile := some file } :: later)))
    (parses' : commandOf env line' =
      .ok (.pipeline (.ok (catFrom file) :: .ok { stage with inFile := none } :: later)))
    (some_ : (bootMachine images).input env (some file) [] (ofKernel k) ≠ some (.ok []))
    (w' : World)
    (means : (bootMachine images).stages env true (.ok { stage with inFile := some file } :: later) []
      (ofKernel k) = some w') :
    ∃ k₁ k₂, RunsLine images limits depth env line k k₁ ∧ RunsLine images limits depth env line' k k₂ ∧
      ofKernel k₁ = w' ∧ ofKernel k₂ = w' :=
  pipelines_agree accepted enough depth alone context parses parses' (stages_catFrom some_) means

theorem cat_opens_pipeline_hello :
    ∃ k k₁ k₂,
      RunsLine bareImages ⟨17, 0, 0, 0⟩ 0 Env.empty (str "sed s/h/H/ < /hello.txt") k k₁ ∧
        RunsLine bareImages ⟨17, 0, 0, 0⟩ 0 Env.empty (str "cat < /hello.txt | sed s/h/H/") k k₂ ∧
        ofKernel k₁ = ofKernel k₂ := by
  obtain ⟨pm, alone⟩ := exists_alone
  obtain ⟨w', means⟩ := Option.isSome_iff_exists.mp (by decide +kernel :
    ((bootMachine bareImages).stages Env.empty true
      (.ok { sedStage with inFile := some (str "/hello.txt") } :: []) [] (ofKernel typing)).isSome =
        true)
  have some_ : (bootMachine bareImages).input Env.empty (some (str "/hello.txt")) [] (ofKernel typing) ≠
    some (.ok []) := by decide +kernel
  obtain ⟨k₁, k₂, runs, runs', rfl, same⟩ := cat_opens_pipeline bareImages ⟨17, 0, 0, 0⟩
    acceptedImages_bare (Nat.le_refl 17) 0 { typing with pm } alone rfl Env.empty
    (str "sed s/h/H/ < /hello.txt") (str "cat < /hello.txt | sed s/h/H/") (str "/hello.txt") [] sedStage
    (by decide +kernel) (by decide +kernel) some_ w' means
  exact ⟨_, k₁, k₂, runs, runs', same.symm⟩

/-- What a pipeline writes into a file, `cat` shows: after the two lines the console is what it is
after the pipeline alone, the file holds the output, and the other files are the same. -/
theorem redirect_round_trip (accepted : AcceptedImages images) (enough : 17 ≤ limits.rounds)
    (depth : Nat) (k : Kernel) (alone : Alone 0 k.pm) (context : k.io.stdio = ⟨none, none⟩) (env : Env)
    (shows stores reads file path : Bytes) (init : List (Except Bytes StageParse)) (stage : StageParse)
    (shown : commandOf env shows = .ok (.pipeline (init ++ [.ok { stage with outFile := none }])))
    (stored : commandOf env stores =
      .ok (.pipeline (init ++ [.ok { stage with outFile := some file }])))
    (read : commandOf env reads = .ok (.pipeline [.ok (catFrom file)]))
    (out : Bytes) (w₁ : World)
    (handed : (bootMachine images).handsOn env true (init ++ [.ok stage]) [] (ofKernel k) =
      some (some out, w₁))
    (some_ : out ≠ [])
    (resolved : (resolvePath env file : Outcome Empty _) = .ok (some path))
    (overlaid : readFile images (cstrToStr path) = none) (taken : (Machine.store w₁.ram path out).1 = true) :
    ∃ k₁ k₂ k₃, RunsLine images limits depth env shows k k₁ ∧
      RunsLine images limits depth env stores k k₂ ∧ RunsLine images limits depth env reads k₂ k₃ ∧
      k₃.console = k₁.console ∧ fileAt images k₃.ram path = some out ∧
      ∀ other ≠ cstrToStr path, ∀ outLen,
        readFileBytes images k₃.ram other outLen = readFileBytes images k₁.ram other outLen := by
  obtain ⟨given, w₀, before, last⟩ := handsOn_last handed
  have few := length_stage last
  have file_ := fileAt_store taken overlaid few
  have hosts : Hosts k.pm k (ofKernel k) := ⟨rfl, context, .rfl alone.bound⟩
  -- The stages before the last one, and the program of the last one, know nothing of the file
  have shows_ : (bootMachine images).stages env true (init ++ [.ok { stage with outFile := none }]) []
      (ofKernel k) = some (w₁.show out) := by
    rw [stages_last handed]
    rfl
  have stores_ : (bootMachine images).stages env true
      (init ++ [.ok { stage with outFile := some file }]) [] (ofKernel k) =
        some { w₁ with ram := (Machine.store w₁.ram path out).2 } := by
    rw [stages_last handed]
    simp [ends, storeIn, resolved, taken]
  have reads_ : (bootMachine images).stages env true [.ok (catFrom file)] []
      { w₁ with ram := (Machine.store w₁.ram path out).2 } =
        some (World.show { w₁ with ram := (Machine.store w₁.ram path out).2 } out) := by
    have opened : (bootMachine images).input env (some file) []
        { w₁ with ram := (Machine.store w₁.ram path out).2 } = some (.ok out) := by
      have found : fileAt (bootMachine images).images (Machine.store w₁.ram path out).2 path = some out := file_
      simp [Boot.input, resolved, found]
    rw [Boot.stages, List.isEmpty_nil, stage_last (stage_catFrom opened some_ few)]
    rfl
  obtain ⟨k₁, runs₁, hosts₁⟩ := line_hosts accepted enough depth alone hosts
    (line_pipeline shown shows_)
  obtain ⟨k₂, runs₂, hosts₂⟩ := line_hosts accepted enough depth alone hosts
    (line_pipeline stored stores_)
  obtain ⟨k₃, runs₃, hosts₃⟩ := line_hosts accepted enough depth alone hosts₂
    (line_pipeline read reads_)
  have ram₁ : k₁.ram = w₁.ram := congrArg World.ram hosts₁.world
  have ram₃ : k₃.ram = (Machine.store w₁.ram path out).2 := congrArg World.ram hosts₃.world
  have console₁ : k₁.console = (w₁.show out).console := congrArg World.console hosts₁.world
  have console₃ : k₃.console = (w₁.show out).console := congrArg World.console hosts₃.world
  refine ⟨k₁, k₂, k₃, runs₁, runs₂, runs₃, console₃.trans console₁.symm, ?_, fun other apart outLen => ?_⟩
  · rw [ram₃, file_]
  · rw [ram₃, ram₁, readFileBytes_store apart]

theorem redirect_round_trip_upper :
    ∃ k k₁ k₂ k₃, RunsLine bareImages ⟨17, 0, 0, 0⟩ 0 Env.empty (str "echo hi | sed s/h/H/") k k₁ ∧
      RunsLine bareImages ⟨17, 0, 0, 0⟩ 0 Env.empty (str "echo hi | sed s/h/H/ > /a") k k₂ ∧
      RunsLine bareImages ⟨17, 0, 0, 0⟩ 0 Env.empty (str "cat < /a") k₂ k₃ ∧
      k₃.console = k₁.console ∧ fileAt bareImages k₃.ram (str "/a") = some (str "Hi\n") := by
  obtain ⟨pm, alone⟩ := exists_alone
  have hands : ((bootMachine bareImages).handsOn Env.empty true ([echoStage] ++ [.ok sedStage]) []
      (ofKernel typing)).map (fun (out, w) => (out, (Machine.store w.ram (str "/a") (str "Hi\n")).1)) =
        some (some (str "Hi\n"), true) := by decide +kernel
  obtain ⟨⟨handed, w₁⟩, hands, same⟩ := Option.map_eq_some_iff.mp hands
  obtain ⟨rfl, taken⟩ := Prod.mk.inj same
  obtain ⟨k₁, k₂, k₃, runs₁, runs₂, runs₃, console, file, -⟩ := redirect_round_trip bareImages
    ⟨17, 0, 0, 0⟩ acceptedImages_bare (Nat.le_refl 17) 0 { typing with pm } alone rfl
    Env.empty (str "echo hi | sed s/h/H/") (str "echo hi | sed s/h/H/ > /a") (str "cat < /a")
    (str "/a") (str "/a") [echoStage] sedStage (by decide +kernel) (by decide +kernel)
    (by decide +kernel) (str "Hi\n") w₁ hands (by decide) (by decide +kernel) (by decide +kernel) taken
  exact ⟨_, k₁, k₂, k₃, runs₁, runs₂, runs₃, console, file⟩

end Kernel

end Smultron
