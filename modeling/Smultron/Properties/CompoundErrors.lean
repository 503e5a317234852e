import Smultron.Properties.Redirection
import Smultron.Properties.StageParts
import Smultron.Properties.Stages

/-!
# Errors of compound commands

The stages of a compound command are counted before anything runs, but a stage is parsed when its
turn comes. So an error of the stage splitter, or of the first stage, is reported before any effect,
and an error of a later stage after the stages before it were executed.
-/

namespace Smultron

/-- A call that executes a stage or writes a file. -/
def Syscall.hasEffect : Syscall → Bool
  | .execve .. | .execIo _ | .writeFile .. => true
  | _ => false

namespace Shell

open Checked Checked.Outcome Proc

abbrev Calls := List (Syscall × Reply)

/-- The texts of the parse errors, and the one for builtins. -/
def parseErrors : List Bytes :=
  [str "parse error: too many pipeline stages\n",
   str "parse error: empty pipeline stage\n",
   str "parse error: invalid '<' placement\n",
   str "parse error: missing file after '<'\n",
   str "parse error: invalid '>' placement\n",
   str "parse error: missing file after '>'\n",
   str "parse error: unexpected '|'\n",
   str "parse error: too many tokens\n",
   str "parse error: empty command stage\n",
   str "parse error: args too long\n",
   builtinError]

/-- The last call does not report one of these errors. -/
def Quiet (calls : Calls) : Prop :=
  ∀ before msg r, calls = before ++ [(.write 1 (some msg), r)] → msg ∉ parseErrors

def Acted (calls : Calls) : Prop := ∃ cr ∈ calls, cr.1.hasEffect = true

theorem quiet_nil : Quiet [] := by
  intro before msg r h
  simp at h

theorem quiet_concat {calls : Calls} {c : Syscall} {r : Reply}
    (h : ∀ msg, c = .write 1 (some msg) → msg ∉ parseErrors) : Quiet (calls ++ [(c, r)]) := by
  intro before msg r' same
  have last := (List.append_inj' same rfl).2
  exact h msg (congrArg Prod.fst (List.cons.inj last).1)

theorem acted_concat {calls : Calls} {c : Syscall} {r : Reply} (h : c.hasEffect = true) :
    Acted (calls ++ [(c, r)]) := ⟨(c, r), by simp, h⟩

theorem Acted.more {calls calls' : Calls} (h : Acted calls) (longer : calls <+: calls') :
    Acted calls' := by
  obtain ⟨cr, hcr, effect⟩ := h
  exact ⟨cr, longer.subset hcr, effect⟩

/-! ### The calls of a stage -/

variable {legal : Syscall → Reply → Prop} {done : Calls}

theorem writeStr_traces {Q : Calls → Outcome Empty Unit → Prop} {s : Bytes}
    (h : ∀ r, Q (done ++ [(.write 1 (some s), r)]) (.ok ())) :
    Traces legal done Q (writeStr s) :=
  Traces.bind (Traces.request_bind fun r _ => Traces.pure ⟨nofun, fun _ _ => Traces.pure (h r)⟩)

theorem writeStr_bind {α : Type} {Q : Calls → Outcome Empty α → Prop} {s : Bytes}
    {f : Unit → User α} (h : ∀ r, Traces legal (done ++ [(.write 1 (some s), r)]) Q (f ())) :
    Traces legal done Q (writeStr s >>= f) :=
  Traces.bind (writeStr_traces fun r => ⟨nofun, fun _ _ => h r⟩)

theorem quiet_newline (calls : Calls) (r : Reply) :
    Quiet (calls ++ [(.write 1 (some (str "\n")), r)]) := by
  apply quiet_concat
  intro msg same
  obtain rfl : str "\n" = msg := Option.some.inj (Syscall.write.inj same).2
  decide

/-- A procedure that, after no report, ends with no report. -/
def Hushed {α : Type} (legal : Syscall → Reply → Prop) (x : User α) : Prop :=
  ∀ done, Quiet done → Traces legal done (fun d _ => Quiet d) x

variable {α β : Type}

theorem hushed_pure (a : α) : Hushed legal (pure a : User α) := fun _ quiet => Traces.pure quiet

theorem hushed_lift (x : Outcome Empty α) : Hushed legal (lift x : User α) :=
  fun _ quiet => Traces.lift quiet

theorem hushed_request {c : Syscall} (h : ∀ msg, c ≠ .write 1 (some msg)) :
    Hushed legal (request c : User Reply) :=
  fun _ _ => Traces.request fun _ _ => quiet_concat fun msg same => absurd same (h msg)

theorem hushed_bind {x : User α} {f : α → User β} (hx : Hushed legal x)
    (hf : ∀ a, Hushed legal (f a)) : Hushed legal (x >>= f) :=
  fun done quiet => Traces.bind ((hx done quiet).mono fun d _ _ quiet' =>
    ⟨fun _ => quiet', fun a _ => hf a d quiet'⟩)

theorem unknownCommand_hushed (cmd : Bytes) : Hushed legal (unknownCommand cmd) :=
  fun _ _ => writeStr_bind fun _ => writeStr_bind fun _ => writeStr_traces fun r => quiet_newline _ r

theorem redirectionError_hushed (verb path : Bytes) : Hushed legal (redirectionError verb path) :=
  fun _ _ => writeStr_bind fun _ => writeStr_bind fun _ => writeStr_traces fun r => quiet_newline _ r

theorem pathTooLong_hushed : Hushed legal pathTooLong := by
  refine fun _ _ => writeStr_traces fun r => quiet_concat fun msg same => ?_
  obtain rfl := Option.some.inj (Syscall.write.inj same).2
  decide

theorem hushed_partWise : PartWise fun x => Hushed legal x where
  ofPure := hushed_pure
  ofLift := hushed_lift
  ofBind := hushed_bind
  fileRead _ _ := hushed_request nofun
  fileWrite _ _ := hushed_request nofun
  unknown := unknownCommand_hushed
  redirection := redirectionError_hushed
  tooLong := pathTooLong_hushed

theorem execStrEnv_hushed (path args env : Bytes) :
    Hushed legal (Libos.execStrEnv path args env) := by
  rw [Libos.execStrEnv]
  split
  · exact hushed_pure _
  · exact hushed_bind (hushed_lift _) fun _ => hushed_bind (hushed_request nofun) fun _ =>
      hushed_pure _

theorem execIoStrEnv_hushed (path args env : Bytes) (stdin stdout : Option Bytes) :
    Hushed legal (Libos.execIoStrEnv path args env stdin stdout) := by
  rw [Libos.execIoStrEnv]
  split
  · exact hushed_pure _
  · refine hushed_bind (hushed_lift _) fun _ => hushed_bind (hushed_request nofun) fun r => ?_
    split <;> exact hushed_pure _

theorem execFromBinIo_hushed (env : Env) (cmd args : Bytes) (stdin : Option Bytes) (capture : Bool)
    (captureBuf : Bytes) : Hushed legal (execFromBinIo env cmd args stdin capture captureBuf) := by
  refine hushed_bind (hushed_lift _) fun _ => hushed_bind (hushed_lift _) fun path => ?_
  split
  · exact hushed_pure _
  · split
    · exact hushed_bind (execStrEnv_hushed _ _ _) fun _ => hushed_pure _
    · exact hushed_bind (execIoStrEnv_hushed _ _ _ _ _) fun _ => hushed_pure _

theorem runStage_hushed (env : Env) (first last : Bool) (stage : StageParse) (state : PipeState) :
    Hushed legal (runStage env first last stage state) :=
  hushed_partWise.runStage (execFromBinIo_hushed env) first last stage state

/-! ### A stage that goes on has been executed -/

theorem execStrEnv_acted (path args env : Bytes) :
    Traces legal done (fun d o => ∀ status, o = .ok status → status ≠ u64Max → Acted d)
      (Libos.execStrEnv path args env) := by
  rw [Libos.execStrEnv]
  split
  · exact Traces.pure fun _ same failed => by cases same; exact absurd rfl failed
  · exact Traces.bind (Traces.lift ⟨nofun, fun _ _ => Traces.request_bind fun _ _ =>
      Traces.pure fun _ _ _ => acted_concat rfl⟩)

theorem execIoStrEnv_acted (path args env : Bytes) (stdin stdout : Option Bytes) :
    Traces legal done (fun d o => ∀ result, o = .ok result → result.1 ≠ u64Max → Acted d)
      (Libos.execIoStrEnv path args env stdin stdout) := by
  rw [Libos.execIoStrEnv]
  split
  · exact Traces.pure fun _ same failed => by cases same; exact absurd rfl failed
  · refine Traces.bind (Traces.lift ⟨nofun, fun _ _ => Traces.request_bind fun r _ => ?_⟩)
    split <;> exact Traces.pure fun _ _ _ => acted_concat rfl

theorem execFromBinIo_acted (env : Env) (cmd args : Bytes) (stdin : Option Bytes) (capture : Bool)
    (captureBuf : Bytes) :
    Traces legal done (fun d o => ∀ result, o = .ok result → result.1 ≠ u64Max → Acted d)
      (execFromBinIo env cmd args stdin capture captureBuf) := by
  refine Traces.bind (Traces.lift ⟨nofun, fun envBuf _ => Traces.bind (Traces.lift ⟨nofun,
    fun path _ => ?_⟩)⟩)
  split
  · exact Traces.pure fun _ same failed => by cases same; exact absurd rfl failed
  · split
    · exact Traces.bind ((execStrEnv_acted _ _ _).mono fun d o _ acted => ⟨nofun, fun status same =>
        Traces.pure fun _ same' failed => by cases same'; exact acted status same failed⟩)
    · exact Traces.bind ((execIoStrEnv_acted _ _ _ _ _).mono fun d o _ acted => ⟨nofun,
        fun result same => Traces.pure fun _ same' failed => by
          cases same'
          exact acted result same failed⟩)

/-- Where a stage hands something on, its program has been executed. -/
theorem runStage_acted (env : Env) (first last : Bool) (stage : StageParse) (state : PipeState) :
    Traces legal done (fun d o => ∀ state', o = .ok (some state') → Acted d)
      (runStage env first last stage state) := by
  refine Traces.bind fun calls o _ => ⟨nofun, fun opened _ => ?_⟩
  split
  · exact Traces.pure nofun
  · refine Traces.bind ((execFromBinIo_acted _ _ _ _ _ _).mono fun d o _ acted => ⟨nofun,
      fun ran same => ?_⟩)
    split
    split
    · exact Traces.bind fun _ _ _ => ⟨nofun, fun _ _ => Traces.pure nofun⟩
    next status outLen buf failed =>
      -- The program has been executed, whatever follows
      have executed := acted _ same failed
      split
      · exact Traces.pure fun _ _ => executed
      split
      · exact Traces.bind (Traces.lift ⟨nofun, fun _ _ => Traces.pure fun _ _ => executed⟩)
      split
      · exact Traces.pure fun _ _ => executed
      · refine Traces.bind fun calls' _ _ => ⟨nofun, fun stored _ => ?_⟩
        split
        · exact Traces.pure fun _ _ => executed.more ⟨calls', rfl⟩
        · exact Traces.pure nofun

/-! ### What is reported, and when -/

theorem closeStage_err (stages : List (Nat × Nat)) (start i : Nat) :
    ErrIn (· ∈ parseErrors) (closeStage stages start i) :=
  errIn_bind (errIn_errIf (by decide)) fun _ => errIn_bind (errIn_errIf (by decide)) fun _ =>
    errIn_push _ _ _

theorem splitFrom_err (tokens : List Token) (i start : Nat) (stages : List (Nat × Nat)) :
    ErrIn (· ∈ parseErrors) (splitFrom tokens i start stages) := by
  induction tokens generalizing i start stages with
  | nil => exact closeStage_err _ _ _
  | cons t rest ih =>
    rw [splitFrom]
    split
    · exact errIn_bind (closeStage_err _ _ _) fun _ => ih _ _ _
    · exact ih _ _ _

theorem tokenWord_err {P : Bytes → Prop} (token : Token) (parsed : Bytes) :
    ErrIn P (tokenWord token parsed) :=
  errIn_bind (errIn_add _ _) fun _ => errIn_bind (errIn_slice _ _ _) fun _ => errIn_ok _

theorem stageWords_err (parsed : Bytes) (allowIn allowOut : Bool) :
    ∀ (tokens : List Token) (acc : StageWords),
      ErrIn (· ∈ parseErrors) (stageWords parsed allowIn allowOut tokens acc)
  | [], _ => errIn_ok _
  | ⟨.redirectIn, _, _⟩ :: [], _ => errIn_bind (errIn_errIf (by decide)) fun _ =>
      errIn_err (by decide)
  | ⟨.redirectIn, _, _⟩ :: _ :: rest, _ => errIn_bind (errIn_errIf (by decide)) fun _ =>
      errIn_bind (errIn_errIf (by decide)) fun _ => errIn_bind (tokenWord_err _ _) fun _ =>
      stageWords_err parsed allowIn allowOut rest _
  | ⟨.redirectOut, _, _⟩ :: [], _ => errIn_bind (errIn_errIf (by decide)) fun _ =>
      errIn_err (by decide)
  | ⟨.redirectOut, _, _⟩ :: _ :: rest, _ => errIn_bind (errIn_errIf (by decide)) fun _ =>
      errIn_bind (errIn_errIf (by decide)) fun _ => errIn_bind (tokenWord_err _ _) fun _ =>
      stageWords_err parsed allowIn allowOut rest _
  | ⟨.pipe, _, _⟩ :: _, _ => errIn_err (by decide)
  | ⟨.word, _, _⟩ :: rest, _ => errIn_bind (errIn_errIf (by decide)) fun _ =>
      errIn_bind (tokenWord_err _ _) fun _ => errIn_bind (errIn_push _ _ _) fun _ =>
      stageWords_err parsed allowIn allowOut rest _

theorem joinPart_err {P : Bytes → Prop} (out part : Bytes) : ErrIn P (joinPart out part) := by
  rw [joinPart]
  split
  · exact errIn_ok _
  · refine errIn_bind ?_ fun _ => errIn_bind (errIn_add _ _) fun stop => ?_
    · split
      · exact errIn_push _ _ _
      · exact errIn_ok _
    · split
      · exact errIn_ok _
      · exact errIn_bind (errIn_append _ _ _) fun _ => errIn_ok _

theorem joinWords_err (parts : List Bytes) (out : Bytes) :
    ErrIn (· ∈ parseErrors) (joinWords parts out) := by
  induction parts generalizing out with
  | nil => exact errIn_ok _
  | cons part parts ih =>
    refine errIn_bind (joinPart_err _ _) fun joined => ?_
    split
    · exact errIn_err (by decide)
    · exact ih _

/-- Every error a stage is rejected with is in the list. -/
theorem checkStage_err (tokens : List Token) (parsed : Bytes) (first last : Bool)
    (range : Nat × Nat) : ErrIn (· ∈ parseErrors) (checkStage tokens parsed first last range) := by
  refine errIn_bind (errIn_slice _ _ _) fun stageTokens => errIn_bind ?_ fun stage =>
    errIn_bind (errIn_errIf (by decide)) fun _ => errIn_ok _
  apply errIn_bind (stageWords_err _ _ _ _ _)
  intro found
  split
  · exact errIn_err (by decide)
  · exact errIn_bind (joinWords_err _ _) fun _ => errIn_ok _

/-- A stage is missing or there are too many, or it is the first stage that is rejected. -/
def RejectedFirst (tokens : List Token) (parsed : Bytes) : Prop :=
  BadStages (stageGroups tokens) ∨
    ∃ group groups, stageGroups tokens = group :: groups ∧
      StageRejected parsed true groups.isEmpty group

theorem writeStr_exec {α : Type} {s : Bytes} {calls : Calls} {a : α} {o : Outcome Empty α}
    (e : (do writeStr s; pure a : User α).Exec legal calls o) :
    ∃ r, calls = [(.write 1 (some s), r)] ∧ o = .ok a := by
  have shape : Traces legal [] (fun d o => ∃ r, d = [(.write 1 (some s), r)] ∧ o = .ok a)
      (do writeStr s; pure a : User α) :=
    writeStr_bind fun r => Traces.pure ⟨r, rfl, rfl⟩
  exact shape _ _ e

/-- A command rejected before its first stage runs makes one call, which reports an error, and the
shell goes on. -/
theorem rejected_reports {env : Env} {tokens : List Token} {parsed : Bytes} {calls : Calls}
    {o : Outcome Empty Bool} (rejected : RejectedFirst tokens parsed)
    (run : (dispatchCompoundTokens env tokens parsed).Exec legal calls o) :
    ∃ msg ∈ parseErrors, ∃ r, calls = [(.write 1 (some msg), r)] ∧ o = .ok true := by
  rw [dispatchCompoundTokens] at run
  rcases splitStages_cases tokens with ⟨e, split, -⟩ | ⟨ranges, split, good, slices⟩
  · rw [split] at run
    -- No stage is looked at
    exact ⟨e, splitFrom_err _ _ _ _ e split, writeStr_exec run⟩
  · rw [split] at run
    obtain ⟨group, groups, all, rejected⟩ := rejected.resolve_left good
    rw [all] at slices
    cases ranges with
    | nil => cases slices
    | cons range ranges =>
      -- The first stage is checked, and does not run
      obtain ⟨_, _, same, at_, -, alone⟩ := slices_cons slices
      cases same
      rw [← alone, ← checkStage_err_iff at_] at rejected
      obtain ⟨e, failed⟩ := rejected
      dsimp only at run
      rw [runStages, failed] at run
      exact ⟨e, checkStage_err _ _ _ _ _ e failed, writeStr_exec run⟩

/-- The run over the stages from an accepted stage on ends with no report, or after it was executed. -/
theorem accepted_trace {env : Env} {tokens : List Token} {parsed : Bytes} {first : Bool}
    {ranges : List (Nat × Nat)} {stage : StageParse} {state : PipeState} (quiet : Quiet done) :
    Traces legal done (fun d _ => Quiet d ∨ Acted d) (do
      match ← runStage env first ranges.isEmpty stage state with
      | none => return ()
      | some state => runStages env tokens parsed false ranges state : User Unit) := by
  apply Traces.bind
  intro calls o e
  -- The stage writes no report of its own, and if it hands on it has run a program
  have hushed := runStage_hushed env first ranges.isEmpty stage state done quiet calls o e
  have acted : ∀ state', o = .ok (some state') → Acted (done ++ calls) :=
    runStage_acted env first ranges.isEmpty stage state calls o e
  refine ⟨fun _ => .inl hushed, fun next same => ?_⟩
  cases next with
  | none => exact Traces.pure (.inl hushed)
  | some state' =>
    exact fun more _ _ => .inr ((acted state' same).more ⟨more, rfl⟩)

/-- A command whose first stage is accepted and that ends with a report has executed a stage. -/
theorem accepted_has_effect {env : Env} {tokens : List Token} {parsed : Bytes} {range : Nat × Nat}
    {ranges : List (Nat × Nat)} {stage : StageParse} {state : PipeState} {calls : Calls}
    {msg : Bytes} {reply : Reply} {o : Outcome Empty Bool} (reported : msg ∈ parseErrors)
    (checked : checkStage tokens parsed true ranges.isEmpty range = .ok stage)
    (run : (do runStages env tokens parsed true (range :: ranges) state; pure true : User Bool).Exec
      legal (calls ++ [(.write 1 (some msg), reply)]) o) :
    ∃ cr ∈ calls, cr.1.hasEffect = true := by
  rw [runStages, checked] at run
  obtain ⟨o', ran⟩ := exec_of_bind_pure run
  rcases accepted_trace quiet_nil _ _ ran with quiet | executed
  · exact absurd reported (quiet calls msg reply rfl)
  · -- The report itself is no effect, so the effect comes before it.
    obtain ⟨cr, among, effect⟩ := executed
    rcases List.mem_append.mp (List.nil_append _ ▸ among) with before | last
    · exact ⟨cr, before, effect⟩
    · obtain rfl := List.mem_singleton.mp last
      cases effect

/-- A report that follows no effect is one about the number of stages or about the first stage, and
conversely. -/
theorem malformed_without_effect_iff (legal : Syscall → Reply → Prop) (env : Env)
    (tokens : List Token) (parsed : Bytes) (calls : List (Syscall × Reply)) (msg : Bytes)
    (reply : Reply) (o : Outcome Empty Bool) (reported : msg ∈ parseErrors)
    (run : (dispatchCompoundTokens env tokens parsed).Exec legal
      (calls ++ [(.write 1 (some msg), reply)]) o) :
    (∀ cr ∈ calls, cr.1.hasEffect = false) ↔ RejectedFirst tokens parsed := by
  constructor
  · intro none
    by_contra accepted
    rw [dispatchCompoundTokens] at run
    rcases splitStages_cases tokens with ⟨e, -, bad⟩ | ⟨ranges, split, -, slices⟩
    · exact accepted (.inl bad)
    · rw [split] at run
      cases ranges with
      | nil =>
        have nothing := (exec_pure.mp run).1
        simp at nothing
      | cons range ranges =>
        obtain ⟨group, groups, all, at_, -, alone⟩ := slices_cons slices
        cases checked : checkStage tokens parsed true ranges.isEmpty range with
        | panic =>
          dsimp only at run
          rw [runStages, checked] at run
          have nothing := (exec_lift.mp run).1
          simp at nothing
        | err e =>
          have rejected := (checkStage_err_iff at_).mp ⟨e, checked⟩
          exact accepted (.inr ⟨group, groups, all, alone ▸ rejected⟩)
        | ok stage =>
          obtain ⟨cr, among, effect⟩ := accepted_has_effect reported checked run
          rw [none cr among] at effect
          cases effect
  · intro rejected
    -- The report is the only call.
    obtain ⟨_, -, _, one, -⟩ := rejected_reports rejected run
    have alone : calls = [] := by simpa using congrArg List.length one
    rw [alone]
    exact List.forall_mem_nil _

/-- The run of a compound command on the booted kernel, where every program returns at once. -/
def compoundRun (tokens : List Token) (parsed : Bytes) :
    Option (Program.Ran Syscall Reply Kernel (Outcome Empty Bool)) :=
  (dispatchCompoundTokens Env.empty tokens (parsedStorage parsed)).run
    (Smultron.dispatch (uniform []) (runImage (uniform []) 1)) typing

/-- The last call of a run, and whether one before it has an effect. -/
def summary (ran : Program.Ran Syscall Reply Kernel (Outcome Empty Bool)) : Option Syscall × Bool :=
  (ran.calls.getLast?.map Prod.fst, ran.calls.dropLast.any (·.1.hasEffect))

theorem calls_of_summary {ran : Program.Ran Syscall Reply Kernel (Outcome Empty Bool)} {c : Syscall}
    {effect : Bool} (h : summary ran = (some c, effect)) :
    ∃ calls reply, ran.calls = calls ++ [(c, reply)] ∧ calls.any (·.1.hasEffect) = effect := by
  obtain ⟨last, before⟩ := Prod.mk.inj h
  obtain ⟨⟨c', reply⟩, isLast, same⟩ := Option.map_eq_some_iff.mp last
  obtain rfl : c' = c := same
  exact ⟨ran.calls.dropLast, reply, (List.dropLast_append_getLast? _ isLast).symm, before⟩

/-- `echo hi | cat < f`: the second stage is rejected when the first one has run. -/
theorem later_stage_reported_after_exec :
    ∃ tokens parsed ran calls reply,
      tokenizeCommand (str "echo hi | cat < f") = .ok (tokens, parsed) ∧
      compoundRun tokens parsed = some ran ∧
      ran.calls = calls ++ [(.write 1 (some (str "parse error: invalid '<' placement\n")), reply)] ∧
      ∃ cr ∈ calls, cr.1.hasEffect = true := by
  have tokenized : tokenizeCommand (str "echo hi | cat < f") =
      .ok ([⟨.word, 0, 4⟩, ⟨.word, 4, 2⟩, ⟨.pipe, 0, 0⟩, ⟨.word, 6, 3⟩, ⟨.redirectIn, 0, 0⟩,
        ⟨.word, 9, 1⟩], str "echohicatf") := by decide +kernel
  have ended : (compoundRun [⟨.word, 0, 4⟩, ⟨.word, 4, 2⟩, ⟨.pipe, 0, 0⟩, ⟨.word, 6, 3⟩,
      ⟨.redirectIn, 0, 0⟩, ⟨.word, 9, 1⟩] (str "echohicatf")).map summary =
        some (some (.write 1 (some (str "parse error: invalid '<' placement\n"))), true) := by
    decide +kernel
  obtain ⟨ran, hran, same⟩ := Option.map_eq_some_iff.mp ended
  obtain ⟨calls, reply, split, effect⟩ := calls_of_summary same
  exact ⟨_, _, ran, calls, reply, tokenized, hran, split, List.any_eq_true.mp effect⟩

/-- `cd | cat` names a builtin in its first stage. -/
theorem malformed_without_effect_builtin :
    ∃ ran calls reply,
      compoundRun [⟨.word, 0, 2⟩, ⟨.pipe, 0, 0⟩, ⟨.word, 2, 3⟩] (str "cdcat") = some ran ∧
      ran.calls = calls ++ [(.write 1 (some builtinError), reply)] ∧
      ∀ cr ∈ calls, cr.1.hasEffect = false := by
  have ended : (compoundRun [⟨.word, 0, 2⟩, ⟨.pipe, 0, 0⟩, ⟨.word, 2, 3⟩] (str "cdcat")).map
      summary = some (some (.write 1 (some builtinError)), false) := by
    decide +kernel
  obtain ⟨ran, hran, same⟩ := Option.map_eq_some_iff.mp ended
  obtain ⟨calls, reply, split, -⟩ := calls_of_summary same
  have exec : Program.Exec (fun _ _ => True) _ ran.calls ran.result :=
    (Program.exec_of_run (I := fun _ => True) (fun _ _ _ _ _ _ => ⟨trivial, trivial⟩) trivial
      hran).1
  rw [split] at exec
  have first : StageRejected (parsedStorage (str "cdcat")) true false [⟨.word, 0, 2⟩] :=
    .inr ⟨⟨str "cd", [], none, none⟩, by decide +kernel, by decide⟩
  exact ⟨ran, calls, reply, hran, split,
    (malformed_without_effect_iff (fun _ _ => True) Env.empty _ _ calls builtinError reply _
      (by decide) exec).mpr (.inr ⟨_, _, rfl, first⟩)⟩

end Shell

end Smultron
