import Smultron.Properties.StageExecs
import Smultron.Properties.StageRuns
import Mathlib.Data.List.Chain

/-!
# What the stages of a pipeline hand on

The output of a stage goes through the capture buffer of the kernel, the two buffers of the shell
and the input of the next `exec_io`, and arrives there unchanged, unless it is empty: `exec_io`
takes an input of no bytes for no input, so the next stage reads the console.
-/

namespace Smultron

open Checked Process

/-- The input `exec_io` redirects: a text of no bytes is none. -/
def redirected (stdin : Option Bytes) : Option Bytes :=
  match stdin with
  | none => none
  | some data => if data.length = 0 then none else some (data.take 4096)

theorem redirected_short (stdin : Option Bytes) :
    ∀ data, redirected stdin = some data → data.length ≤ maxIoStdin := by
  intro data same
  cases stdin with
  | none => cases same
  | some text =>
    simp only [redirected] at same
    split at same
    · cases same
    · obtain rfl := Option.some.inj same
      rw [List.length_take]
      exact Nat.min_le_left _ _

variable {sys : System} {depth : Nat} {k k' : Kernel} {r : Reply}

/-- The buffer `exec_io` captures for. -/
def capturedFor (cap : Option Nat) : Option Nat :=
  match cap with
  | none => none
  | some cap => if cap = 0 then none else some (min cap 4096)

theorem sysExecIo_history (noExec : ∀ path a e, (sys.image path a e).Only (·.isExec = false))
    {req : ExecIoRequest} (h : sysExecIo sys (runImage sys depth) k req = some (r, k')) :
    (k'.history = k.history ∧ (r.ret = u64Max ∨ r.status = some u64Max)) ∨
      ∃ run : ProcessRun, k'.history = k.history ++ [run] ∧ cstr 64 req.path = some run.path ∧
        r.status = some run.status ∧ run.Reads (redirected req.stdin) ∧
        ∀ c, req.stdoutCap = some c → 0 < c → r.ret = r.data.length ∧
          r.data = (written run.calls).take (min maxIoStdout c) := by
  rcases execIo_cases h with
    ⟨-, rfl, rfl⟩ | ⟨path, args, env, status, captured, -, strings, ended, rfl⟩
  · exact .inl ⟨rfl, .inl rfl⟩
  have passed : req.stdio = (redirected req.stdin, capturedFor req.stdoutCap) := rfl
  rw [passed] at ended
  rcases execWithIo_history noExec (redirected_short _) ended with
    ⟨rfl, same⟩ | ⟨run, grown, rfl, rfl, reads, output⟩
  · exact .inl ⟨same, .inr rfl⟩
  · refine .inr ⟨run, grown, execArgs_path strings, rfl, reads, fun c cap room => ⟨rfl, ?_⟩⟩
    have forCap : capturedFor req.stdoutCap = some (min c 4096) := by
      rw [cap, capturedFor, if_neg (Nat.ne_of_gt room)]
    -- The kernel's own limit applies in any case
    have least : min maxIoStdout (min c 4096) = min maxIoStdout c := by
      have size : maxIoStdout = 4096 := rfl
      omega
    rw [output _ forCap, least]

theorem execve_history (noExec : ∀ path a e, (sys.image path a e).Only (·.isExec = false))
    {path args env : Option Bytes}
    (h : dispatch sys (runImage sys depth) (.execve path args env) k = some (r, k')) :
    (k'.history = k.history ∧ r.ret = u64Max) ∨
      ∃ run : ProcessRun, k'.history = k.history ++ [run] ∧ cstr 64 path = some run.path ∧
        r.ret = run.status ∧ run.Reads none := by
  rcases execve_cases h with
    ⟨-, rfl, rfl⟩ | ⟨p, a, e, status, captured, strings, ended, rfl⟩
  · exact .inl ⟨rfl, rfl⟩
  have short : ∀ data : Bytes, none = some data → data.length ≤ maxIoStdin :=
    fun _ impossible => by cases impossible
  rcases execWithIo_history noExec short ended with
    ⟨rfl, same⟩ | ⟨run, grown, rfl, rfl, reads, -⟩
  · exact .inl ⟨same, rfl⟩
  · exact .inr ⟨run, grown, execArgs_path strings, rfl, reads⟩

/-! ### Two stages -/

/-- A text read to its end is read whole. -/
theorem whole_at_end {front data : Bytes} {len : Nat} (h : front <+: data) (room : 0 < len)
    (none : ((data.drop front.length).take len).length = 0) : front = data := by
  obtain ⟨rest, rfl⟩ := h
  rw [List.drop_left, List.length_take] at none
  have nothing : rest = [] := List.length_eq_zero_iff.mp (by omega)
  rw [nothing, List.append_nil]

/-- What the pipe between two stages is for: the second one reads what the first one wrote, in
order, it meets the end of its input when it has read everything, and the console is never asked. -/
structure Piped (r r' : ProcessRun) : Prop where
  inOrder : delivered r'.calls <+: written r.calls
  toEnd : ∀ pre len reply post, r'.calls = pre ++ (.read 0 (some len), reply) :: post → 0 < len →
    reply.ret = 0 → delivered pre = written r.calls
  noConsole : r'.taken = 0

/-- There is something to read, or nobody reads. -/
def Fed (r r' : ProcessRun) : Prop := written r.calls ≠ [] ∨ r'.asks = false

theorem piped_iff {r r' : ProcessRun} (reads : r'.Reads (redirected (some (written r.calls))))
    (small : (written r.calls).length ≤ maxIoStdin) : Piped r r' ↔ Fed r r' := by
  by_cases empty : written r.calls = []
  · -- An empty text is not redirected, so the second program has the console
    rw [empty] at reads
    constructor
    · intro piped
      cases asks : r'.asks with
      | false => exact .inr asks
      | true =>
        have taken := reads.console rfl asks
        rw [piped.noConsole] at taken
        exact absurd taken (Nat.lt_irrefl 0)
    · rintro (some | idle)
      · exact absurd empty some
      · obtain ⟨taken, nothing⟩ := reads.idle idle
        refine ⟨by rw [nothing]; exact List.nil_prefix, ?_, taken⟩
        intro pre len reply post split room _
        have asks : r'.asks = true := by
          rw [ProcessRun.asks, split]
          simp [Syscall.asks, room]
        rw [asks] at idle
        cases idle
  · -- Any other text arrives as it is
    have short : (written r.calls).length ≤ 4096 := small
    have some : redirected (some (written r.calls)) = some (written r.calls) := by
      rw [redirected, if_neg (by simpa using empty), List.take_of_length_le short]
    obtain ⟨taken, inOrder, each⟩ := reads.text _ some
    refine iff_of_true ⟨inOrder, ?_, taken⟩ (.inl empty)
    intro pre len reply post split room ended
    obtain ⟨front, ret, data⟩ := each pre len reply post split
    rw [ended, data] at ret
    exact whole_at_end front room ret.symm

namespace Shell

open Proc Utf8 Checked.Outcome

/-! ### The shell's own calls -/

/-- The procedure starts no program. -/
abbrev StartsNothing {α : Type} (x : User α) : Prop := x.Only (·.isExec = false)

theorem history_after {α : Type} {x : User α} (h : StartsNothing x) (k : Kernel) :
    After (Smultron.dispatch sys (runImage sys depth)) k
      (fun _ k' => k'.history = k.history) x :=
  h.after (fun _ _ _ _ quiet answered same =>
    (dispatch_history answered (entersExec_of_isExec quiet)).trans same) rfl

theorem writeStr_starts (s : Bytes) : StartsNothing (writeStr s) := writeStr_only (fun _ => id) s

theorem unknownCommand_starts (cmd : Bytes) : StartsNothing (unknownCommand cmd) :=
  unknownCommand_only (fun _ => id) cmd

theorem starts_partWise : PartWise fun x => StartsNothing x := only_partWise fun _ => id

/-! ### A stage -/

/-- The run is one of the program that `exec_from_bin_io` starts for this command. -/
def LaunchedBy (cmd : Bytes) (run : ProcessRun) : Prop :=
  ∃ path, (resolveBinPath cmd : Outcome Empty _) = .ok (some path) ∧
    cstr 64 (some (path ++ [0])) = some run.path

/-- What `exec_from_bin_io` comes to: no program has run and the status says so, or one has run and
its output is at the front of the buffer. -/
def Launched (cmd : Bytes) (stdin : Option Bytes) (capture : Bool) (k : Kernel)
    (o : Outcome Empty (Nat × Nat × Bytes)) (k' : Kernel) : Prop :=
  (k'.history = k.history ∧ ∀ result, o = .ok result → result.1 = u64Max) ∨
    ∃ run status outLen buf, k'.history = k.history ++ [run] ∧ LaunchedBy cmd run ∧
      run.Reads (redirected stdin) ∧ o = .ok (status, outLen, buf) ∧ buf.length = maxIoBuf ∧
      (capture = true → buf.take outLen = (written run.calls).take maxIoBuf)

theorem copyPrefix_eq {src part : Bytes} {len : Nat} (h : copyPrefix src len = .ok part) :
    part = src.take len := by
  obtain ⟨front, cut, stored⟩ := bind_eq_ok.mp h
  rw [slice] at cut
  split at cut
  · obtain rfl := Outcome.ok.inj cut
    rw [append] at stored
    split at stored
    · exact (Outcome.ok.inj stored).symm
    · cases stored
  · cases cut

theorem stageInput_history (k : Kernel) (env : Env) (first : Bool) (stage : StageParse)
    (pipe : Bytes) :
    After (Smultron.dispatch sys (runImage sys depth)) k
      (fun o k' => k'.history = k.history ∧ (first = false → o = .ok (some pipe)))
      (stageInput env first stage pipe) := by
  cases first with
  | true => exact (history_after (starts_partWise.stageInput ..) k).mono fun _ _ same => ⟨same, nofun⟩
  | false => exact After.pure ⟨rfl, fun _ => rfl⟩

section Stage

variable (noExec : ∀ path a e, (sys.image path a e).Only (·.isExec = false))

include noExec

theorem execStrEnv_history (k : Kernel) (path args env : Bytes) :
    After (Smultron.dispatch sys (runImage sys depth)) k (fun o k' =>
      (k'.history = k.history ∧ ∀ status, o = .ok status → status = u64Max) ∨
        ∃ run status, k'.history = k.history ++ [run] ∧
          cstr 64 (some (path ++ [0])) = some run.path ∧ run.Reads none ∧ o = .ok status)
      (Libos.execStrEnv path args env) := by
  rw [Libos.execStrEnv]
  split
  · exact After.pure (.inl ⟨rfl, by rintro _ ⟨⟩; rfl⟩)
  next fits =>
    rw [execBuffers_ok (by omega) (by omega) (by omega), lift_ok, Proc.pure_bind]
    refine After.request_bind fun r k' answered => After.pure ?_
    rcases execve_history noExec answered with ⟨same, failed⟩ | ⟨run, grown, path, -, reads⟩
    · exact .inl ⟨same, by rintro _ ⟨⟩; exact failed⟩
    · exact .inr ⟨run, _, grown, path, reads, rfl⟩

theorem execIoStrEnv_history (k : Kernel) (path args env : Bytes) (stdin stdout : Option Bytes) :
    After (Smultron.dispatch sys (runImage sys depth)) k (fun o k' =>
      (k'.history = k.history ∧ ∀ result, o = .ok result → result.1 = u64Max) ∨
        ∃ run status outLen out, k'.history = k.history ++ [run] ∧
          cstr 64 (some (path ++ [0])) = some run.path ∧ run.Reads (redirected stdin) ∧
          o = .ok (status, outLen, out) ∧ out.map List.length = stdout.map List.length ∧
          ∀ buf, stdout = some buf → buf.length = maxIoBuf →
            out.map (List.take outLen) = some ((written run.calls).take maxIoBuf))
      (Libos.execIoStrEnv path args env stdin stdout) := by
  rw [Libos.execIoStrEnv]
  split
  · exact After.pure (.inl ⟨rfl, by rintro _ ⟨⟩; rfl⟩)
  next fits =>
    rw [execBuffers_ok (by omega) (by omega) (by omega), lift_ok, Proc.pure_bind]
    apply After.request_bind
    intro r k' answered
    have kept := length_overwritten (dispatch_bounded answered).2
    rcases sysExecIo_history noExec answered with
      ⟨same, failed⟩ | ⟨run, grown, path, status, reads, output⟩
    · -- No program has run: the length returned says so, or the status does
      split
      · exact After.pure (.inl ⟨same, by rintro _ ⟨⟩; rfl⟩)
      next answer =>
        refine After.pure (.inl ⟨same, ?_⟩)
        rintro _ ⟨⟩
        rw [failed.resolve_left answer]
        rfl
    · have filled : ∀ buf, stdout = some buf → buf.length = maxIoBuf →
          r.ret = r.data.length ∧ r.data = (written run.calls).take maxIoBuf := by
        rintro buf rfl size
        exact output maxIoBuf (congrArg some size) (by decide)
      split
      next overflow =>
        -- A program has run, so the length returned is one of at most 4096 bytes
        refine After.pure (.inr ⟨run, _, _, _, grown, path, reads, rfl, kept, ?_⟩)
        intro buf same size
        obtain ⟨length, data⟩ := filled buf same size
        have few : r.data.length ≤ 4096 := by
          rw [data, List.length_take]
          exact Nat.min_le_left _ _
        rw [overflow] at length
        have large : 4096 < u64Max := by decide
        omega
      · refine After.pure (.inr ⟨run, _, _, _, grown, path, reads, rfl, kept, ?_⟩)
        intro buf same size
        obtain ⟨length, data⟩ := filled buf same size
        rw [same, Option.map_some, Option.map_some, length, Libos.overwrite, List.take_left, data]

theorem execFromBinIo_history (k : Kernel) (env : Env) (cmd args : Bytes) (stdin : Option Bytes)
    (capture : Bool) {captureBuf : Bytes} (size : captureBuf.length = maxIoBuf) :
    After (Smultron.dispatch sys (runImage sys depth)) k (Launched cmd stdin capture k)
      (execFromBinIo env cmd args stdin capture captureBuf) := by
  refine After.lift_bind (.inl ⟨rfl, nofun⟩) fun envBuf _ =>
    After.lift_bind (.inl ⟨rfl, nofun⟩) fun resolved found => ?_
  cases resolved with
  | none => exact After.pure (.inl ⟨rfl, by rintro _ ⟨⟩; rfl⟩)
  | some path =>
    dsimp only
    split
    -- Without input and capture `exec` is enough, and there is no output to hand on
    next alone =>
      have plain : stdin = none ∧ capture = false := by
        simpa [Option.isNone_iff_eq_none] using alone
      obtain ⟨rfl, rfl⟩ := plain
      refine After.bind ((execStrEnv_history noExec k _ _ _).mono fun o k' ran => ?_)
      rcases ran with ⟨same, failed⟩ | ⟨run, status, grown, launched, reads, rfl⟩
      · refine ⟨fun _ => .inl ⟨same, nofun⟩, fun status ok => After.pure (.inl ⟨same, ?_⟩)⟩
        rintro _ ⟨⟩
        exact failed status ok
      · refine ⟨nofun, fun _ ok => After.pure (.inr ?_)⟩
        exact ⟨run, _, _, _, grown, ⟨path, found, launched⟩, reads, rfl, size, nofun⟩
    · refine After.bind ((execIoStrEnv_history noExec k _ _ _ _ _).mono fun o k' ran => ?_)
      rcases ran with ⟨same, failed⟩ | ⟨run, status, outLen, out, grown, launched, reads, rfl, kept, output⟩
      · refine ⟨fun _ => .inl ⟨same, nofun⟩, fun result ok => After.pure (.inl ⟨same, ?_⟩)⟩
        rintro _ ⟨⟩
        exact failed result ok
      · refine ⟨nofun, fun _ ok => ?_⟩
        cases ok
        refine After.pure (.inr ⟨run, _, _, _, grown, ⟨path, found, launched⟩, reads, rfl, ?_⟩)
        cases capture with
        | false =>
          obtain rfl : out = none := by simpa using kept
          exact ⟨size, nofun⟩
        | true =>
          obtain ⟨buf, rfl, length⟩ := Option.map_eq_some_iff.mp kept
          have front := output captureBuf rfl size
          exact ⟨length.trans size, fun _ => Option.some.inj front⟩

/-- What a stage leaves for the next one: the output of its run. -/
def HandsOn (last : Bool) (run : ProcessRun) (o : Outcome Empty (Option PipeState)) : Prop :=
  ∀ state', o = .ok (some state') → state'.captureBuf.length = maxIoBuf ∧
    (last = false → state'.pipe = (written run.calls).take maxIoBuf)

/-- A stage that gets this pipe has added at most one run to the history. -/
def StageRan (stage : StageParse) (first last : Bool) (pipe : Bytes) (k : Kernel)
    (o : Outcome Empty (Option PipeState)) (k' : Kernel) : Prop :=
  (k'.history = k.history ∧ ∀ state', o ≠ .ok (some state')) ∨
    ∃ run, k'.history = k.history ++ [run] ∧ LaunchedBy stage.cmd run ∧
      (first = false → run.Reads (redirected (some pipe))) ∧ HandsOn last run o

theorem runStage_history (k : Kernel) (env : Env) (first last : Bool) (stage : StageParse)
    {state : PipeState} (size : state.captureBuf.length = maxIoBuf) :
    After (Smultron.dispatch sys (runImage sys depth)) k (StageRan stage first last state.pipe k)
      (runStage env first last stage state) := by
  refine After.bind ((stageInput_history k env first stage state.pipe).mono
    fun o k₁ opened => ?_)
  obtain ⟨same, later⟩ := opened
  refine ⟨fun _ => .inl ⟨same, nofun⟩, fun input ok => ?_⟩
  cases input with
  | none => exact After.pure (.inl ⟨same, nofun⟩)
  | some pipe =>
    refine After.bind ((execFromBinIo_history noExec k₁ env stage.cmd _ _ _ size).mono
      fun o k₂ ran => ?_)
    rcases ran with ⟨same', failed⟩ | ⟨run, status, outLen, buf, grown, launched, reads, rfl, size', output⟩
    · refine ⟨fun _ => .inl ⟨same'.trans same, nofun⟩, fun result ok' => ?_⟩
      -- No program has run: the shell says so, and the pipeline ends
      have status := failed result ok'
      obtain ⟨status', outLen, buf⟩ := result
      dsimp only at status ⊢
      rw [if_pos status]
      refine After.bind ((history_after (unknownCommand_starts _) k₂).mono fun _ k₃ last => ?_)
      have kept : k₃.history = k.history := last.trans (same'.trans same)
      exact ⟨fun _ => .inl ⟨kept, nofun⟩, fun _ _ => After.pure (.inl ⟨kept, nofun⟩)⟩
    · refine ⟨nofun, fun result ok' => ?_⟩
      cases ok'
      dsimp only
      -- The run is in the history, whatever the shell does after it.
      have stands {o : Outcome Empty (Option PipeState)} {k₃ : Kernel}
          (kept : k₃.history = k₂.history) (next : HandsOn last run o) :
          StageRan stage first last state.pipe k o k₃ := by
        refine .inr ⟨run, by rw [kept, grown, same], launched, ?_, next⟩
        rintro rfl
        have piped : pipe = state.pipe := Option.some.inj (Outcome.ok.inj (ok.symm.trans (later rfl)))
        rw [← piped]
        exact reads
      split
      · refine After.bind ((history_after (unknownCommand_starts _) k₂).mono fun _ k₃ kept => ?_)
        exact ⟨fun _ => stands kept nofun, fun _ _ => After.pure (stands kept nofun)⟩
      split
      -- Only the last stage runs uncaptured, when it has no file to write
      next noCapture =>
        refine After.pure (stands rfl ?_)
        rintro _ ⟨⟩
        refine ⟨size', fun notLast => ?_⟩
        rw [notLast] at noCapture
        cases noCapture
      split
      next capture notLast =>
        refine After.lift_bind (stands rfl nofun) fun part copied => After.pure (stands rfl ?_)
        rintro _ ⟨⟩
        -- What was captured goes to the pipe as it is
        have captured := output (by rw [notLast, Bool.true_or])
        exact ⟨size', fun _ => (copyPrefix_eq copied).trans captured⟩
      next isLast =>
        have lastStage : last = true := by simpa using isLast
        -- Behind the last stage nobody reads the pipe
        have goesOn {o : Outcome Empty (Option PipeState)}
            (next : ∀ state', o = .ok (some state') → state' = ⟨pipe, buf⟩) : HandsOn last run o := by
          intro state' same
          rw [next state' same, lastStage]
          exact ⟨size', nofun⟩
        cases stage.outFile with
        | none => exact After.pure (stands rfl (goesOn (by rintro _ ⟨⟩; rfl)))
        | some file =>
          refine After.bind ((history_after (starts_partWise.storeOutput ..) k₂).mono fun _ k₃ kept => ?_)
          refine ⟨fun _ => stands kept nofun, fun stored _ => ?_⟩
          cases stored with
          | false => exact After.pure (stands kept nofun)
          | true => exact After.pure (stands kept (goesOn (by rintro _ ⟨⟩; rfl)))

/-! ### The pipeline -/

/-- The path of the program that `exec` starts for the tokens of a stage. -/
def stagePath (parsed : Bytes) (first last : Bool) (group : List Token) : Option Bytes :=
  match parseStage parsed first last group with
  | .ok stage =>
    match (resolveBinPath stage.cmd : Outcome Empty _) with
    | .ok (some path) => cstr 64 (some (path ++ [0]))
    | _ => none
  | _ => none

/-- The paths of all stages in their order. -/
def stagePaths (parsed : Bytes) : Bool → List (List Token) → List (Option Bytes)
  | _, [] => []
  | first, group :: groups =>
    stagePath parsed first groups.isEmpty group :: stagePaths parsed false groups

omit noExec in
theorem stagePath_of_launched {parsed : Bytes} {first last : Bool} {group : List Token}
    {stage : StageParse} (parses : parseStage parsed first last group = .ok stage)
    {run : ProcessRun} (launched : LaunchedBy stage.cmd run) :
    stagePath parsed first last group = some run.path := by
  obtain ⟨path, resolved, started⟩ := launched
  simp only [stagePath, parses, resolved, started]

/-- What the stages from one on add to the history, where `before` is the run whose output the pipe
holds. -/
def Adds (before : Option ProcessRun) (paths : List (Option Bytes)) (k k' : Kernel) : Prop :=
  ∃ runs, k'.history = k.history ++ runs ∧ runs.map (some ·.path) <+: paths ∧
    ((∀ run ∈ before.toList ++ runs, (written run.calls).length ≤ maxIoBuf) →
      (before.toList ++ runs).IsChain fun r r' => Piped r r' ↔ Fed r r')

omit noExec in
theorem adds_nothing {before : Option ProcessRun} {paths : List (Option Bytes)} {k k' : Kernel}
    (same : k'.history = k.history) : Adds before paths k k' := by
  refine ⟨[], by rw [same, List.append_nil], List.nil_prefix, fun _ => ?_⟩
  cases before with
  | none => exact .nil
  | some run => exact .singleton run

omit noExec in
/-- One more run in front of what the later stages add. -/
theorem adds_cons {before : Option ProcessRun} {path : Option Bytes} {paths : List (Option Bytes)}
    {k k₁ k' : Kernel} {run : ProcessRun} (grown : k₁.history = k.history ++ [run])
    (same : path = some run.path)
    (link : ∀ prev, before = some prev → (written prev.calls).length ≤ maxIoBuf →
      (Piped prev run ↔ Fed prev run))
    (later : Adds (some run) paths k₁ k') : Adds before (path :: paths) k k' := by
  obtain ⟨runs, grown', front, chain⟩ := later
  refine ⟨run :: runs, by rw [grown', grown, List.append_assoc]; rfl, ?_, fun small => ?_⟩
  · rw [List.map_cons, same, List.prefix_cons_inj]
    exact front
  · have rest : (run :: runs).IsChain fun r r' => Piped r r' ↔ Fed r r' :=
      chain fun r among => small r (List.mem_append_right _ among)
    cases before with
    | none => exact rest
    | some prev =>
      exact List.isChain_cons_cons.mpr ⟨link prev rfl (small prev (by simp)), rest⟩

theorem runStages_history {env : Env} {tokens : List Token} {parsed : Bytes} {first : Bool}
    {ranges : List (Nat × Nat)} {groups : List (List Token)}
    (slices : ranges.map (tokensAt tokens) = groups.map .ok) {state : PipeState}
    (size : state.captureBuf.length = maxIoBuf) (k : Kernel) {before : Option ProcessRun}
    (holds : ∀ run, before = some run → first = false ∧
      state.pipe = (written run.calls).take maxIoBuf) :
    After (Smultron.dispatch sys (runImage sys depth)) k
      (fun _ k' => Adds before (stagePaths parsed first groups) k k')
      (runStages env tokens parsed first ranges state) := by
  induction ranges generalizing first groups state k before with
  | nil => exact After.pure (adds_nothing rfl)
  | cons range ranges ih =>
    obtain ⟨group, groups, rfl, at_, rest, alone⟩ := slices_cons slices
    rw [runStages]
    cases checked : checkStage tokens parsed first ranges.isEmpty range with
    | panic => exact After.lift (adds_nothing rfl)
    | err msg => exact (history_after (writeStr_starts msg) k).mono fun _ _ => adds_nothing
    | ok stage =>
      have parses := ((checkStage_ok_iff at_).mp checked).1
      rw [alone] at parses
      refine After.bind ((runStage_history noExec k env first _ stage size).mono fun o k₁ ran => ?_)
      rcases ran with ⟨same, stops⟩ | ⟨run, grown, launched, reads, next⟩
      · -- No program has run, and the pipeline ends
        refine ⟨fun _ => adds_nothing same, fun state' ok => ?_⟩
        cases state' with
        | none => exact After.pure (adds_nothing same)
        | some state' => exact absurd ok (stops state')
      · -- The pipe holds the output of the run before, and this run reads it
        have link : ∀ prev, before = some prev → (written prev.calls).length ≤ maxIoBuf →
            (Piped prev run ↔ Fed prev run) := by
          intro prev isBefore small
          obtain ⟨notFirst, pipe⟩ := holds prev isBefore
          have given := reads notFirst
          rw [pipe, List.take_of_length_le small] at given
          exact piped_iff given small
        have add {k' : Kernel} (later : Adds (some run) (stagePaths parsed false groups) k₁ k') :
            Adds before (stagePaths parsed first (group :: groups)) k k' :=
          adds_cons grown (stagePath_of_launched parses launched) link later
        refine ⟨fun _ => add (adds_nothing rfl), fun state' ok => ?_⟩
        cases state' with
        | none => exact After.pure (add (adds_nothing rfl))
        | some state' =>
          obtain ⟨size', handsOn⟩ := next state' ok
          cases more : ranges.isEmpty with
          | true =>
            obtain rfl := List.isEmpty_iff.mp more
            exact After.pure (add (adds_nothing rfl))
          | false =>
            have pipe : ∀ r, some run = some r → false = false ∧
                state'.pipe = (written r.calls).take maxIoBuf := by
              rintro _ ⟨⟩
              exact ⟨rfl, handsOn more⟩
            exact (ih rest size' k₁ pipe).mono fun _ _ => add

/-- What a whole command adds to the history. -/
theorem dispatchCompoundTokens_history (env : Env) (tokens : List Token) (parsed : Bytes)
    (k : Kernel) :
    After (Smultron.dispatch sys (runImage sys depth)) k
      (fun _ k' => Adds none (stagePaths parsed true (stageGroups tokens)) k k')
      (dispatchCompoundTokens env tokens parsed) := by
  rw [dispatchCompoundTokens]
  rcases splitStages_cases tokens with ⟨e, split, -⟩ | ⟨ranges, split, -, slices⟩
  · rw [split]
    refine After.bind ((history_after (writeStr_starts e) k).mono fun _ _ same => ?_)
    exact ⟨fun _ => adds_nothing same, fun _ _ => After.pure (adds_nothing same)⟩
  · rw [split]
    have size : PipeState.start.captureBuf.length = maxIoBuf := List.length_replicate
    -- The first stage has no run before it, so nothing is asked of the empty pipe.
    have begins : ∀ run : ProcessRun, none = some run → true = false ∧
        PipeState.start.pipe = (written run.calls).take maxIoBuf :=
      fun _ impossible => by cases impossible
    refine After.bind ((runStages_history noExec slices size k begins).mono fun _ _ added => ?_)
    exact ⟨fun _ => added, fun _ _ => After.pure added⟩

end Stage

/-- An exec that does not fail adds the run of its program to the history. -/
theorem dispatch_adds (noExec : ∀ path a e, (sys.image path a e).Only (·.isExec = false)) {c : Syscall}
    (exec : c.isExec = true) (answered : Smultron.dispatch sys (runImage sys depth) c k = some (r, k'))
    (succeeds : Succeeds c r) : k'.history.length = k.history.length + 1 := by
  have started := succeeds exec
  cases c with
  | execve path args env =>
    rcases execve_history noExec answered with ⟨-, failed⟩ | ⟨run, grown, -⟩
    · exact absurd failed started
    · rw [grown, List.length_append, List.length_singleton]
  | execIo req =>
    cases req with
    | none =>
      obtain ⟨rfl, -⟩ := Prod.mk.inj (Option.some.inj answered)
      exact absurd rfl started
    | some req =>
      rcases sysExecIo_history noExec answered with ⟨-, failed⟩ | ⟨run, grown, -⟩
      · rw [Syscall.statusOf] at started
        split at started
        · exact absurd rfl started
        next ret => exact absurd (by rw [failed.resolve_left ret]; rfl) started
      · rw [grown, List.length_append, List.length_singleton]
  | _ => cases exec

/-- Where no exec fails there are as many runs as execs. -/
theorem history_execs (noExec : ∀ path a e, (sys.image path a e).Only (·.isExec = false)) {α : Type}
    {p : Program Syscall Reply α} {ran : Program.Ran Syscall Reply Kernel α}
    (ended : p.run (Smultron.dispatch sys (runImage sys depth)) k = some ran)
    (succeed : ∀ cr ∈ ran.calls, Succeeds cr.1 cr.2) :
    ran.state.history.length = k.history.length + execs ran.calls := by
  induction p generalizing k ran with
  | ret a =>
    cases ended
    rfl
  | call c next ih =>
    obtain ⟨r, k₁, rest, answered, tailEnded, rfl⟩ := Program.run_call_eq_some.mp ended
    obtain ⟨first, later⟩ := List.forall_mem_cons.mp succeed
    have grown : k₁.history.length = k.history.length + execs [(c, r)] := by
      cases exec : c.isExec with
      | true => simp [execs, exec, dispatch_adds noExec exec answered first]
      | false => simp [execs, exec, dispatch_history answered (entersExec_of_isExec exec)]
    have all : execs (Program.Ran.calls ⟨rest.result, ⟨k, c, r, k₁⟩ :: rest.steps, rest.state⟩) =
      execs [(c, r)] + execs rest.calls := execs_append [(c, r)] rest.calls
    rw [ih r tailEnded later, grown, all, Nat.add_assoc]

/-- The runs a command adds to the history. -/
def stageRuns {α : Type} (k : Kernel) (ran : Program.Ran Syscall Reply Kernel α) : List ProcessRun :=
  ran.state.history.drop k.history.length

theorem length_stagePaths (parsed : Bytes) (first : Bool) (groups : List (List Token)) :
    (stagePaths parsed first groups).length = groups.length := by
  induction groups generalizing first with
  | nil => rfl
  | cons group groups ih => rw [stagePaths, List.length_cons, List.length_cons, ih]

/-- The runs of a pipeline are those of its stages, in order, and each reads exactly what the one
before it wrote precisely when nobody reads behind a stage that wrote nothing. When the stages are
commands that can be asked for and no exec fails, none of them is missing. -/
theorem pipeline_iff (sys : System) (depth : Nat)
    (noExec : ∀ path a e, (sys.image path a e).Only (·.isExec = false)) (env : Env)
    (tokens : List Token) (parsed : Bytes) (k : Kernel)
    (ran : Program.Ran Syscall Reply Kernel (Outcome Empty Bool))
    (h : (dispatchCompoundTokens env tokens parsed).run
      (Smultron.dispatch sys (runImage sys depth)) k = some ran)
    (small : ∀ run ∈ stageRuns k ran, (written run.calls).length ≤ 4096) :
    (stageRuns k ran).map (some ·.path) <+: stagePaths parsed true (stageGroups tokens) ∧
      ((stageRuns k ran).IsChain Piped ↔ (stageRuns k ran).IsChain Fed) ∧
      (Runnable parsed true (stageGroups tokens) → (∀ cr ∈ ran.calls, Succeeds cr.1 cr.2) →
        ran.result ≠ .panic → stageRuns k ran ≠ [] →
        (stageRuns k ran).map (some ·.path) = stagePaths parsed true (stageGroups tokens)) := by
  obtain ⟨runs, grown, paths, chain⟩ := dispatchCompoundTokens_history noExec env tokens parsed k ran h
  have all : stageRuns k ran = runs := by rw [stageRuns, grown, List.drop_left]
  rw [all] at small ⊢
  have pairs := List.isChain_iff_forall_rel_of_append_cons_cons.mp (chain small)
  refine ⟨paths, ?_, fun runnable succeed calm some_ => ?_⟩
  · -- Each chain is about neighbours, and any two neighbours are piped exactly when they are fed
    rw [List.isChain_iff_forall_rel_of_append_cons_cons,
      List.isChain_iff_forall_rel_of_append_cons_cons]
    constructor
    · exact fun piped r r' pre post split => (pairs split).mp (piped split)
    · exact fun fed r r' pre post split => (pairs split).mpr (fed split)
  · have counted := history_execs noExec h succeed
    rw [grown, List.length_append, Nat.add_left_cancel_iff] at counted
    have exec := Program.exec_of_calls h succeed
    have made := @dispatchCompoundTokens_execs [] _ _ _ runnable _ _ exec calm
    rw [List.nil_append, ← counted] at made
    rcases made with whole | none_
    · refine paths.eq_of_length ?_
      rw [List.length_map, length_stagePaths, whole]
      exact Nat.zero_add _
    · exact absurd (List.length_eq_zero_iff.mp none_) some_

/-! ### Two small pipelines -/

/-- A system whose `cat` makes the second calls and whose other programs make the first ones. -/
def piping (calls calls' : List Syscall) : System :=
  ⟨bareImages, fun path _ _ => if path = str "/bin/cat" then calling calls' else calling calls⟩

theorem calling_only {calls : List Syscall} (h : ∀ c ∈ calls, c.isExec = false) :
    (calling calls).Only (·.isExec = false) := by
  induction calls with
  | nil => exact trivial
  | cons c calls ih =>
    obtain ⟨first, rest⟩ := List.forall_mem_cons.mp h
    exact ⟨first, fun _ => ih rest⟩

theorem piping_noExec {calls calls' : List Syscall} (h : ∀ c ∈ calls, c.isExec = false)
    (h' : ∀ c ∈ calls', c.isExec = false) :
    ∀ path a e, ((piping calls calls').image path a e).Only (·.isExec = false) := by
  intro path a e
  simp only [piping]
  split
  · exact calling_only h'
  · exact calling_only h

/-- The run of `echo | cat` on the booted kernel. -/
def echoCat (calls calls' : List Syscall) :
    Option (Program.Ran Syscall Reply Kernel (Outcome Empty Bool)) :=
  (dispatchCompoundTokens Env.empty [⟨.word, 0, 4⟩, ⟨.pipe, 0, 0⟩, ⟨.word, 4, 3⟩]
    (parsedStorage (str "echocat"))).run
      (Smultron.dispatch (piping calls calls') (runImage (piping calls calls') 1)) typing

theorem pipeline_iff_echo :
    ∃ ran, echoCat [.write 1 (some (str "hi"))] [.read 0 (some 8), .read 0 (some 8)] = some ran ∧
      (stageRuns typing ran).map (fun r => (written r.calls, delivered r.calls)) =
        [(str "hi", []), ([], str "hi")] ∧
      (stageRuns typing ran).IsChain Piped := by
  have ended : (echoCat [.write 1 (some (str "hi"))] [.read 0 (some 8), .read 0 (some 8)]).map
      (fun ran => (stageRuns typing ran).map fun r => (written r.calls, delivered r.calls)) =
        some [(str "hi", []), ([], str "hi")] := by decide +kernel
  obtain ⟨ran, hran, seen⟩ := Option.map_eq_some_iff.mp ended
  have texts : (stageRuns typing ran).map (fun r => written r.calls) = [str "hi", []] := by
    have firsts := congrArg (List.map Prod.fst) seen
    rwa [List.map_map] at firsts
  have small : ∀ run ∈ stageRuns typing ran, (written run.calls).length ≤ 4096 := by
    intro run among
    have text : written run.calls ∈ [str "hi", []] := texts ▸ List.mem_map_of_mem among
    revert text
    generalize written run.calls = bytes
    intro text
    have listed : bytes = str "hi" ∨ bytes = [] := by simpa using text
    rcases listed with rfl | rfl <;> decide
  obtain ⟨first, rest, split, text, others⟩ := List.map_eq_cons_iff.mp texts
  obtain ⟨second, last, rfl, -, none⟩ := List.map_eq_cons_iff.mp others
  obtain rfl := List.map_eq_nil_iff.mp none
  have fed : (stageRuns typing ran).IsChain Fed := by
    have some : written first.calls ≠ [] := by
      rw [text]
      decide
    rw [split]
    exact List.isChain_pair.mpr (.inl some)
  exact ⟨ran, hran, seen, (pipeline_iff _ 1
    (piping_noExec (by decide) (by decide)) _ _ _ typing ran hran small).2.1.mpr fed⟩

/-- A first stage that writes nothing: the second one gets what is typed. -/
theorem empty_output_reads_console :
    tokenizeCommand (str "echo | cat") =
        .ok ([⟨.word, 0, 4⟩, ⟨.pipe, 0, 0⟩, ⟨.word, 4, 3⟩], str "echocat") ∧
      (∀ path a e, ((piping [] [.read 0 (some 1)]).image path a e).Only (·.isExec = false)) ∧
      ∃ ran, echoCat [] [.read 0 (some 1)] = some ran ∧
        (stageRuns typing ran).map (fun r => (written r.calls, delivered r.calls, r.taken)) =
          [([], [], 0), ([], [99], 1)] ∧
        ¬(stageRuns typing ran).IsChain Piped := by
  have ended : (echoCat [] [.read 0 (some 1)]).map
      (fun ran => (stageRuns typing ran).map fun r => (written r.calls, delivered r.calls, r.taken)) =
        some [([], [], 0), ([], [99], 1)] := by decide +kernel
  obtain ⟨ran, hran, seen⟩ := Option.map_eq_some_iff.mp ended
  refine ⟨by decide +kernel, piping_noExec nofun (by decide), ran, hran, seen, ?_⟩
  obtain ⟨first, rest, split, -, others⟩ := List.map_eq_cons_iff.mp seen
  obtain ⟨second, last, rfl, took, none⟩ := List.map_eq_cons_iff.mp others
  obtain rfl := List.map_eq_nil_iff.mp none
  have taken : second.taken = 1 := congrArg (fun seen => seen.2.2) took
  rw [split, List.isChain_pair]
  intro piped
  rw [piped.noConsole] at taken
  cases taken

end Shell

end Smultron
