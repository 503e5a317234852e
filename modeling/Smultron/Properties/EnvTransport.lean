import Smultron.Properties.EnvTable
import Smultron.Properties.ExecStrings
import Smultron.Properties.ShellPanics
import Smultron.Properties.WordLines

/-!
# The variables a child sees

Every exec of the shell carries the text of the variables as they are at the start of the line.
No line can put a separator into a key or a value, and `CWD` keeps the first place in the table, so
a child finds the variables in table order, up to the first one for which there is no room, and
always the directory.
-/

namespace Smultron.Shell

open Checked Checked.Outcome Proc Process SlotTable Terminated Utf8

/-! ### Bytes that cannot be taken for an end -/

/-- No byte ends the string or a line of it. -/
def Clean (s : Bytes) : Prop := 0 ∉ s ∧ 10 ∉ s

theorem Clean.of_subset {s s' : Bytes} (h : Clean s) (sub : s' ⊆ s) : Clean s' :=
  ⟨fun nul => h.1 (sub nul), fun newline => h.2 (sub newline)⟩

theorem Clean.of_sublist {s s' : Bytes} (h : Clean s) (sub : s'.Sublist s) : Clean s' :=
  h.of_subset sub.subset

theorem Clean.append {s s' : Bytes} (h : Clean s) (h' : Clean s') : Clean (s ++ s') := by
  constructor <;> rw [List.mem_append, not_or]
  · exact ⟨h.1, h'.1⟩
  · exact ⟨h.2, h'.2⟩

theorem clean_nil : Clean [] := ⟨List.not_mem_nil, List.not_mem_nil⟩

instance (s : Bytes) : Decidable (Clean s) := inferInstanceAs (Decidable (_ ∧ _))

/-- A text of one line. -/
structure OneLine (s : Bytes) : Prop where
  text : Valid s
  clean : Clean s

theorem OneLine.trim {s : Bytes} (h : OneLine s) : OneLine (trim s) :=
  ⟨valid_trim h.text, h.clean.of_sublist (trim_sublist s)⟩

/-! ### The table of a running shell -/

/-- `CWD` comes first, and the keys and values can be told apart in the text. -/
structure Presentable (t : Slots Bytes Bytes) : Prop where
  first : ∃ cwd rest, t = some (cwdKey, cwd) :: rest
  distinct : (keys t).Nodup
  texts : ∀ key val, some (key, val) ∈ t → OneLine key ∧ 61 ∉ key ∧ OneLine val

/-- What a line does to the table: nothing, or one write of such a key and value. -/
def Updated (t t' : Slots Bytes Bytes) : Prop :=
  t' = t ∨ ∃ key val, OneLine key ∧ 61 ∉ key ∧ OneLine val ∧ upsert key val t = some t'

theorem Presentable.step {t t' : Slots Bytes Bytes} (h : Presentable t) (updated : Updated t t') :
    Presentable t' := by
  rcases updated with rfl | ⟨key, val, keyOk, noEquals, valOk, stored⟩
  · exact h
  obtain ⟨front, s, back, rfl, rfl, -, old⟩ := upsert_cases stored
  refine ⟨?_, nodup_upsert stored h.distinct, ?_⟩
  · obtain ⟨cwd, rest, same⟩ := h.first
    cases front with
    | nil =>
      -- The first slot is `CWD`, so the write is to `CWD`
      obtain ⟨rfl, rfl⟩ := List.cons.inj same
      rcases old with ⟨_, same⟩ | ⟨impossible, -⟩
      · obtain ⟨rfl, -⟩ := Prod.mk.inj (Option.some.inj same)
        exact ⟨val, _, rfl⟩
      · cases impossible
    | cons x front =>
      obtain ⟨rfl, -⟩ := List.cons.inj same
      exact ⟨cwd, _, rfl⟩
  · intro key' val' member
    rcases List.mem_append.mp member with before | after
    · exact h.texts key' val' (List.mem_append_left _ before)
    rcases List.mem_cons.mp after with new | after
    · obtain ⟨rfl, rfl⟩ := Prod.mk.inj (Option.some.inj new)
      exact ⟨keyOk, noEquals, valOk⟩
    · exact h.texts key' val' (List.mem_append_right _ (List.mem_cons_of_mem _ after))

theorem mem_of_lookup {t : Slots Bytes Bytes} {key val : Bytes} (h : lookup key t = some val) :
    some (key, val) ∈ t := by
  induction t with
  | nil => cases h
  | cons s t ih =>
    rcases s with _ | ⟨key', val'⟩
    · exact List.mem_cons_of_mem _ (ih h)
    · rw [lookup] at h
      split at h
      next same =>
        obtain rfl := Option.some.inj h
        rw [same]
        exact List.mem_cons_self
      · exact List.mem_cons_of_mem _ (ih h)

/-- The value of a variable is one line. -/
theorem getEnv_oneLine {env : Env} (h : Presentable env.slots) {key val : Bytes}
    (nonempty : key ≠ []) (found : getEnv env key = some val) : OneLine val := by
  rw [getEnv_eq_lookup env nonempty] at found
  exact (h.texts key val (mem_of_lookup found)).2.2

/-! ### What a line stores -/

section Line

variable {env : Env} (h : Presentable env.slots)

include h

theorem expandFrom_clean {cap rounds : Nat} {line out : Bytes} (typed : Clean line)
    (before : Clean out) : Clean (expandFrom env cap rounds line out) := by
  induction rounds generalizing line out with
  | zero => exact before
  | succ rounds ih =>
    cases line with
    | nil => exact before
    | cons b rest =>
      have rest_clean : Clean rest := typed.of_subset (List.subset_cons_self b rest)
      have copied {more : Bytes} (more_clean : Clean more) : Clean (copyWhileRoom cap out more) :=
        before.append (more_clean.of_sublist (List.take_sublist _ _))
      rw [expandFrom]
      split
      · exact before
      split
      next dollar =>
        subst dollar
        have later := rest_clean.of_sublist (List.drop_sublist (rest.takeWhile isNameByte).length _)
        dsimp only
        split
        · exact ih later (copied (by decide))
        next named =>
          -- The key is looked up as it stands in the line: a name is always a text
          have ascii : ∀ c ∈ rest.takeWhile isNameByte, c < 128 :=
            fun c hc => (nameByte_facts c (List.mem_takeWhile_imp hc)).1
          rw [fromUtf8OrEmpty_of_valid (valid_ascii ascii)]
          split
          next val found => exact ih later (copied (getEnv_oneLine h named found).clean)
          · exact ih later before
      · exact ih rest_clean (copied (typed.of_subset (by simp)))

theorem expanded_clean {line : Bytes} (typed : Clean line) : Clean (expanded env line) := by
  rw [expanded]
  apply Clean.of_sublist _ (trim_sublist _)
  apply Clean.of_sublist _ (fromUtf8OrEmpty_sublist _)
  -- Reading as text and trimming only take bytes away
  apply expandFrom_clean h _ clean_nil
  exact (typed.of_sublist (fromUtf8OrEmpty_sublist _)).of_sublist (trim_sublist _)

theorem cwdFront_clean : OkIn Clean (cwdFront env) := by
  rw [cwdFront]
  cases found : getEnv env cwdKey with
  | none => exact okIn_push (by decide)
  | some cwd =>
    have whole := (getEnv_oneLine h (by decide) found).clean
    have kept : Clean ([] ++ cwd.take (128 - 1)) := whole.of_sublist (List.take_sublist _ _)
    refine okIn_bind (okIn_append (okIn_ite (fun _ => okIn_pure kept) fun _ => ?_))
    refine okIn_bind (okIn_of _ fun _ => okIn_bind (okIn_of _ fun b => ?_))
    exact okIn_ite (fun _ => okIn_pure kept) fun _ => okIn_push (kept.append (by decide))

theorem newCwd_clean {args : Bytes} (typed : Clean args) : OkIn Clean (newCwd env args) := by
  have given : Clean (if trim args = [] then str "/" else trim args) := by
    split
    · decide
    · exact typed.of_sublist (trim_sublist args)
  rw [newCwd]
  generalize (if trim args = [] then str "/" else trim args) = path at given
  -- The new directory is made of the old one, the argument and slashes
  have joined : OkIn Clean
      (if isAbsolute path then append 128 [] (path.take (128 - 1)) else relativeCwd env path) := by
    apply okIn_ite
    · intro _
      exact okIn_append (given.of_sublist (List.take_sublist _ _))
    · intro _
      refine okIn_bind ((cwdFront_clean h).mono fun buf front => ?_)
      refine okIn_bind (okIn_of _ fun _ => okIn_bind (okIn_of _ fun _ => ?_))
      exact okIn_append (front.append (given.of_sublist (List.take_sublist _ _)))
  refine okIn_bind (joined.mono fun buf clean => ?_)
  apply okIn_ite (fun _ => okIn_pure clean)
  intro _
  refine okIn_bind (okIn_of _ fun last => okIn_bind (okIn_of _ fun b => ?_))
  exact okIn_ite (fun _ => okIn_pure (clean.of_sublist (List.take_sublist _ _))) fun _ =>
    okIn_pure clean

omit h in
theorem setEnv_updates {key val : Bytes} (keyOk : OneLine key) (noEquals : 61 ∉ key)
    (valOk : OneLine val) :
    (setEnv env key val).Yields Legal fun env' => Updated env.slots env'.slots := by
  rw [setEnv]
  cases stored : storeEnv env key val with
  | error msg => exact yields_bind (yields_of _ fun _ => yields_pure (.inl rfl))
  | ok env' =>
    apply yields_pure
    rcases storeEnv_slots stored with ⟨-, same⟩ | ⟨-, upserted⟩
    · exact .inl same
    · exact .inr ⟨key, val, keyOk, noEquals, valOk, upserted⟩

theorem setCwd_updates {args : Bytes} (typed : Clean args) :
    (setCwd env args).Yields Legal fun env' => Updated env.slots env'.slots := by
  refine yields_bind (yields_lift ((newCwd_clean h typed).mono fun buf clean => ?_))
  split
  next path text =>
    obtain ⟨valid, rfl⟩ := fromUtf8_eq_some.mp text
    exact setEnv_updates ⟨by decide +kernel, by decide⟩ (by decide) ⟨valid, clean⟩
  · exact yields_pure (.inl rfl)

theorem dispatchSimple_updates (cmd : Bytes) {args : Bytes} (typed : OneLine args) :
    (dispatchSimple env cmd args).Yields Legal fun r => Updated env.slots r.2.slots := by
  have kept (more : Bool) : (pure (more, env) : User (Bool × Env)).Yields Legal
      fun r => Updated env.slots r.2.slots := yields_pure (.inl rfl)
  -- Only `cd` and `export` store anything
  rw [dispatchSimple]
  split
  · exact yields_bind (yields_of _ fun _ => yields_bind (yields_of _ fun _ =>
      yields_bind (yields_of _ fun _ => kept true)))
  split
  · exact yields_bind (yields_of _ fun _ => kept true)
  split
  · exact kept false
  split
  · exact yields_bind ((setCwd_updates h typed.clean).mono fun _ updated => yields_pure updated)
  split
  · exact yields_bind (yields_of _ fun _ => yields_bind (yields_of _ fun _ => kept true))
  split
  · cases split : splitOnce 61 args with
    | none => exact yields_bind (yields_of _ fun _ => kept true)
    | some pair =>
      -- What stands before the first `=` is a text without one
      obtain ⟨k, v⟩ := pair
      obtain ⟨rfl, noEquals⟩ := splitOnce_eq_some split
      obtain ⟨keyText, valText⟩ := typed.text.split _ (by decide)
      have keyOk : OneLine k := ⟨keyText, typed.clean.of_sublist (List.sublist_append_left _ _)⟩
      have valOk : OneLine v := ⟨valText, typed.clean.of_subset (by simp)⟩
      have noEquals' : 61 ∉ trim k := fun inside => noEquals ((trim_sublist k).subset inside)
      exact yields_bind ((setEnv_updates keyOk.trim noEquals' valOk.trim).mono fun _ updated =>
        yields_pure updated)
  · refine yields_bind (yields_of _ fun status => ?_)
    split
    · exact yields_bind (yields_of _ fun _ => kept true)
    · exact kept true

omit h in
theorem joinPart_clean {ε : Type} {out part : Bytes} (before : Clean out) (more : Clean part) :
    OkIn (fun joined => ∀ args, joined = some args → Clean args)
      (joinPart out part : Outcome ε (Option Bytes)) := by
  have behind {out : Bytes} (before : Clean out) :
      OkIn (fun joined => ∀ args, joined = some args → Clean args) (do
        let stop ← add out.length part.length
        if maxArgs < stop then return none
        let out ← append maxArgs out part
        return some out : Outcome ε (Option Bytes)) := by
    refine okIn_bind (okIn_of _ fun stop => okIn_ite (fun _ => okIn_pure nofun) fun _ => ?_)
    refine okIn_bind (okIn_append (okIn_pure ?_))
    rintro _ ⟨⟩
    exact before.append more
  rw [joinPart]
  apply okIn_ite (fun _ => okIn_pure nofun)
  intro _
  by_cases some_ : 0 < out.length
  · rw [if_pos some_]
    exact okIn_bind (okIn_push (behind (before.append (by decide))))
  · rw [if_neg some_]
    exact behind before

omit h in
theorem joinWordTokens_clean {ε : Type} {buffer : Bytes} {tokens : List Token}
    (words : ∀ token ∈ tokens, OkIn Clean (tokenWord token buffer : Outcome ε Bytes)) {out : Bytes}
    (before : Clean out) :
    OkIn (fun joined => ∀ args, joined = some args → Clean args)
      (joinWordTokens buffer tokens out : Outcome ε (Option Bytes)) := by
  induction tokens generalizing out with
  | nil =>
    apply okIn_pure
    rintro _ ⟨⟩
    exact before
  | cons token tokens ih =>
    rw [List.forall_mem_cons] at words
    rw [joinWordTokens]
    have nothing : OkIn (fun joined => ∀ args, joined = some args → Clean args)
        (pure none : Outcome ε (Option Bytes)) := by
      apply okIn_pure
      intro args none_
      cases none_
    apply okIn_ite (fun _ => nothing)
    intro _
    refine okIn_bind (words.1.mono fun part clean => ?_)
    refine okIn_bind ((joinPart_clean before clean).mono fun joined fine => ?_)
    cases joined with
    | none => exact nothing
    | some out => exact ih words.2 (fine out rfl)

/-- A line writes at most one variable, with a key and a value that can be told apart. -/
theorem dispatch_updates {line : Bytes} (typed : Clean line) :
    (dispatch env line).Yields Legal fun r => Updated env.slots r.2.slots := by
  have kept : (pure (true, env) : User (Bool × Env)).Yields Legal
      fun r => Updated env.slots r.2.slots := yields_pure (.inl rfl)
  rw [dispatch]
  split
  · exact kept
  split
  · exact kept
  have clean := expanded_clean h typed
  have short := length_expanded env line
  cases ok : tokenizeCommand (expanded env line) with
  | panic => exact yields_lift okIn_panic
  | err msg =>
    exact yields_bind (yields_of _ fun _ => yields_bind (yields_of _ fun _ =>
      yields_bind (yields_of _ fun _ => kept)))
  | ok found =>
    obtain ⟨tokens, parsed⟩ := found
    cases tokens with
    | nil => exact kept
    | cons cmdToken argTokens =>
      dsimp only
      split
      · -- No stage of a pipeline changes a variable of the shell
        exact yields_bind (yields_of _ fun _ => yields_pure (.inl rfl))
      · -- Words are parts of the expanded line
        have words : ∀ token ∈ argTokens,
            OkIn Clean (tokenWord token (parsedStorage parsed) : Outcome Empty Bytes) := by
          intro token among
          exact OkIn.intro fun w read =>
            clean.of_subset (tokenWord_subset short ok (List.mem_cons_of_mem _ among) read)
        refine yields_bind (yields_of _ fun cmd => ?_)
        refine yields_bind (yields_lift ((joinWordTokens_clean words clean_nil).mono ?_))
        intro joined fine
        cases joined with
        | none => exact yields_bind (yields_of _ fun _ => kept)
        | some args =>
          have clean' : Clean (fromUtf8OrEmpty args) :=
            (fine args rfl).of_sublist (fromUtf8OrEmpty_sublist args)
          exact dispatchSimple_updates h cmd ⟨valid_fromUtf8OrEmpty args, clean'⟩

end Line

/-- The table a shell starts with. -/
theorem presentable_start :
    (setEnv Env.empty cwdKey (str "/")).Yields Legal fun env => Presentable env.slots := by
  have taken : (storeEnv Env.empty cwdKey (str "/")).toOption.isSome = true := by decide +kernel
  have slots : upsert cwdKey (str "/") Env.empty.slots =
      some (some (cwdKey, str "/") :: List.replicate 15 none) := by decide +kernel
  -- `CWD` takes the first entry of the empty table
  rw [setEnv]
  cases stored : storeEnv Env.empty cwdKey (str "/") with
  | error msg =>
    rw [stored] at taken
    cases taken
  | ok env =>
    apply yields_pure
    rcases storeEnv_slots stored with ⟨impossible, -⟩ | ⟨-, upserted⟩
    · cases impossible
    rw [slots] at upserted
    rw [← Option.some.inj upserted]
    refine ⟨⟨_, _, rfl⟩, by decide +kernel, ?_⟩
    intro key val member
    rcases List.mem_cons.mp member with same | later
    · obtain ⟨rfl, rfl⟩ := Prod.mk.inj (Option.some.inj same)
      exact ⟨⟨by decide +kernel, by decide⟩, by decide, ⟨by decide +kernel, by decide⟩⟩
    · cases List.eq_of_mem_replicate later

/-- Lines as the shell reads them. -/
def Typed (line : Bytes) : Prop := ∀ b ∈ line, b ≠ 0 ∧ b ≠ 13 ∧ b ≠ 10

theorem Typed.clean {line : Bytes} (h : Typed line) : Clean line :=
  ⟨fun nul => (h 0 nul).1 rfl, fun newline => (h 10 newline).2.2 rfl⟩

theorem presentable_through {env env' : Env} {lines : List Bytes} (h : Presentable env.slots)
    (through : Through env lines env') (typed : ∀ line ∈ lines, Typed line) :
    Presentable env'.slots := by
  induction through with
  | none => exact h
  | line dispatched _ ih =>
    rw [List.forall_mem_cons] at typed
    have updated := (dispatch_updates h typed.1.clean).result dispatched
    exact ih (h.step updated) typed.2

theorem presentable_reached {env : Env} {lines : List Bytes} (reached : Reached lines env)
    (typed : ∀ line ∈ lines, Typed line) : Presentable env.slots := by
  obtain ⟨start, calls, begun, through⟩ := reached
  exact presentable_through (presentable_start.result begun) through typed

/-! ### What a child reads -/

/-- Whatever the kernel has in store for the call: a program that it enters finds this text. -/
def EntersWith (c : Syscall) (envStr : Bytes) : Prop :=
  ∀ images pm path args env started entry, c.strings = some (path, args, env) →
    startProcess images pm path args env = .ok started → started.entry = .ok entry →
    cstrToStr entry.envBuf = envStr

theorem entersWith_of_childEnv {c : Syscall} {envStr : Bytes} (child : c.childEnv = some envStr) :
    EntersWith c envStr := by
  intro images pm path args env started entry strings begun entered
  have read := (child_of_started strings begun entered).2
  exact Option.some.inj (read.symm.trans child)

/-- The call starts no program, or one that reads this environment. -/
def Carries (envStr : Bytes) (c : Syscall) : Prop := c.isExec = true → c.childEnv = some envStr

theorem childEnv_eq {c : Syscall} {path args envStr : Bytes} (passes : Passes Libos.maxEnv envStr)
    (hp : path.length ≤ Libos.maxPath) (ha : args.length ≤ Libos.maxArgs)
    (strings : c.strings =
      execArgs (some (path ++ [0])) (some (args ++ [0])) (some (envStr ++ [0]))) :
    c.childEnv = some envStr := by
  obtain ⟨found, taken, -, -, env⟩ := execArgs_some hp ha passes.short
  rw [Syscall.childEnv, strings, taken, Option.map_some, env passes, cstrToStr_passes passes]

theorem execStrEnv_carries {envStr : Bytes} (passes : Passes Libos.maxEnv envStr)
    (path args : Bytes) : (Libos.execStrEnv path args envStr).Only (Carries envStr) := by
  rw [Libos.execStrEnv]
  split
  · exact only_pure _
  next fits =>
    rw [execBuffers_ok (by omega) (by omega) (by omega), lift_ok, Proc.pure_bind]
    have carried (_ : true = true) := childEnv_eq
      (c := .execve (some (path ++ [0])) (some (args ++ [0])) (some (envStr ++ [0]))) passes
      (by omega) (by omega) rfl
    exact only_bind (only_request carried) fun _ => only_pure _

theorem execIoStrEnv_carries {envStr : Bytes} (passes : Passes Libos.maxEnv envStr)
    (path args : Bytes) (stdin stdout : Option Bytes) :
    (Libos.execIoStrEnv path args envStr stdin stdout).Only (Carries envStr) := by
  rw [Libos.execIoStrEnv]
  split
  · exact only_pure _
  next fits =>
    rw [execBuffers_ok (by omega) (by omega) (by omega), lift_ok, Proc.pure_bind]
    have carried (_ : true = true) := childEnv_eq
      (c := .execIo (some (ioRequest path args envStr stdin stdout))) passes (by omega) (by omega)
      rfl
    refine only_bind (only_request carried) fun r => ?_
    split <;> exact only_pure _

/-- The text of the variables. -/
def Env.text (env : Env) : Bytes := layout 10 (env.sent.map envLine)

theorem mem_pairs {env : Env} {p : Bytes × Bytes} : p ∈ env.pairs ↔ some p ∈ env.slots := by
  rw [Env.pairs, List.mem_filterMap]
  constructor
  · rintro ⟨s, hs, same⟩
    rwa [show s = some p from same] at hs
  · intro h
    exact ⟨some p, h, rfl⟩

section Text

variable {env : Env} (h : Presentable env.slots)

include h

theorem separable_sent : ∀ p ∈ env.sent, Separable p := by
  intro p hp
  obtain ⟨key, noEquals, val⟩ := h.texts p.1 p.2 (mem_pairs.mp ((fitting_front ..).subset hp))
  exact ⟨key.clean.2, noEquals, val.clean.2⟩

omit h in
theorem sum_sent : (env.sent.map pairSize).sum ≤ maxEnvLen := by
  have fits := fitting_fits pairSize env.pairs (Nat.zero_le maxEnvLen)
  rwa [Nat.zero_add] at fits

omit h in
theorem valid_layout {sep : UInt8} {lines : List Bytes}
    (texts : ∀ line ∈ lines, Valid (line ++ [sep])) : Valid (layout sep lines) := by
  rw [layout]
  induction lines with
  | nil => exact valid_nil
  | cons line lines ih =>
    rw [List.forall_mem_cons] at texts
    exact texts.1.append (ih texts.2)

/-- The text of the variables is one the kernel takes. -/
theorem text_passes : Passes Libos.maxEnv env.text := by
  have lines : ∀ line ∈ env.sent.map envLine, Valid (line ++ [10]) ∧ 0 ∉ line ++ [10] := by
    intro line hl
    obtain ⟨p, hp, rfl⟩ := List.mem_map.mp hl
    obtain ⟨key, -, val⟩ := h.texts p.1 p.2 (mem_pairs.mp ((fitting_front ..).subset hp))
    have equals : Valid [61] := by decide +kernel
    have newline : Valid [10] := by decide +kernel
    refine ⟨?_, ?_⟩
    · rw [envLine, ← List.singleton_append]
      exact (key.text.append (equals.append val.text)).append newline
    · simp [envLine, key.clean.1, val.clean.1]
  refine ⟨?_, ?_, ?_⟩
  · exact valid_layout fun line hl => (lines line hl).1
  · rw [Env.text, layout, List.mem_flatMap]
    rintro ⟨line, hl, nul⟩
    exact (lines line hl).2 nul
  · have size : (env.text).length = (env.sent.map pairSize).sum := by
      rw [Env.text, length_layout, List.map_map]
      congr 1
      apply List.map_congr_left
      intro p _
      simp [envLine, pairSize]
      omega
    rw [size]
    exact sum_sent

/-- The directory that a program finds in the text is the one of the shell. -/
theorem startCwd_text : getEnv env cwdKey = some (startCwd env.text) := by
  obtain ⟨cwd, rest, first⟩ := h.first
  have stored : getEnv env cwdKey = some cwd := by
    rw [getEnv_eq_lookup env (by decide), first, lookup, if_pos rfl]
  -- The directory is the first pair, and there is always room for one
  have small : cwd.length ≤ maxVal := getEnv_length stored
  have size : ¬maxEnvLen < 0 + pairSize (cwdKey, cwd) := by
    have key : cwdKey.length = 3 := by decide
    have bounds : maxVal = 64 ∧ maxEnvLen = 511 := ⟨rfl, rfl⟩
    simp only [pairSize, key]
    omega
  have sent : ∃ more, env.sent = (cwdKey, cwd) :: more := by
    rw [Env.sent, Env.pairs, first, List.filterMap_cons_some (f := id) rfl, fitting, if_neg size]
    exact ⟨_, rfl⟩
  obtain ⟨more, sent⟩ := sent
  have separable := separable_sent h
  rw [stored, Env.text, sent, startCwd_layout (sent ▸ separable)]

theorem execFromBinIo_carries (cmd args : Bytes) (stdin : Option Bytes) (capture : Bool)
    (captureBuf : Bytes) :
    (execFromBinIo env cmd args stdin capture captureBuf).Only (Carries env.text) := by
  have passes := text_passes h
  rw [execFromBinIo, buildEnvStr_eq, lift_ok, Proc.pure_bind]
  have text : fromUtf8OrEmpty (layout 10 (env.sent.map envLine)) = env.text :=
    fromUtf8OrEmpty_of_valid passes.text
  rw [text]
  apply only_bind (only_lift _)
  intro resolved
  cases resolved with
  | none => exact only_pure _
  | some path =>
    dsimp only
    split
    · exact only_bind (execStrEnv_carries passes _ _) fun _ => only_pure _
    · exact only_bind (execIoStrEnv_carries passes _ _ _ _) fun _ => only_pure _

/-- Whatever a line does, its programs read the text of the variables. -/
theorem exec_carries {legal : Syscall → Reply → Prop} {line : Bytes}
    {calls : List (Syscall × Reply)} {o : Outcome Empty (Bool × Env)}
    (e : (dispatch env line).Exec legal calls o)
    {cr : Syscall × Reply} (called : cr ∈ calls) : Carries env.text cr.1 :=
  (dispatch_only (P := Carries env.text) (fun _ quiet exec => absurd exec (by simp [quiet]))
    (execFromBinIo_carries h) line).calls e cr called

end Text

/-! ### After any history -/

section History

variable {lines : List Bytes} {env : Env}

/-- The variables a child finds: in table order, up to the first one that does not fit. -/
structure Delivered (env : Env) (found : List (Bytes × Bytes)) : Prop where
  front : found <+: env.pairs
  fits : (found.map pairSize).sum ≤ 511
  stops : ∀ p rest, env.pairs = found ++ p :: rest → 511 < (found.map pairSize).sum + pairSize p
  all : found = env.pairs ↔ (env.pairs.map pairSize).sum ≤ 511
  distinct : (env.pairs.map Prod.fst).Nodup

theorem keys_eq (env : Env) : env.pairs.map Prod.fst = keys env.slots := by
  rw [Env.pairs, keys, List.map_filterMap]
  rfl

theorem delivered_sent (h : Presentable env.slots) : Delivered env env.sent where
  front := fitting_front ..
  fits := sum_sent
  stops p rest split := by
    have stops := fitting_stops pairSize split
    rwa [Nat.zero_add] at stops
  all := by
    have whole := fitting_eq_iff pairSize env.pairs (Nat.zero_le maxEnvLen)
    rwa [Nat.zero_add] at whole
  distinct := keys_eq env ▸ h.distinct

/-- At every exec the program finds the variables of the shell in table order, up to the first one
for which there is no room in the text. -/
theorem child_finds_variables (reached : Reached lines env) (typed : ∀ line ∈ lines, Typed line)
    (legal : Syscall → Reply → Prop) (line : Bytes) (calls : List (Syscall × Reply))
    (o : Outcome Empty (Bool × Env)) (e : (dispatch env line).Exec legal calls o) (c : Syscall)
    (r : Reply) (called : (c, r) ∈ calls) (exec : c.isExec = true) :
    ∃ envStr, c.childEnv = some envStr ∧ EntersWith c envStr ∧ Delivered env (decodeEnv envStr) := by
  have h := presentable_reached reached typed
  have child := exec_carries h e called exec
  refine ⟨env.text, child, entersWith_of_childEnv child, ?_⟩
  rw [Env.text, decodeEnv_layout (separable_sent h)]
  exact delivered_sent h

/-- At every exec the program works in the directory of the shell. -/
theorem child_shares_cwd (reached : Reached lines env) (typed : ∀ line ∈ lines, Typed line)
    (legal : Syscall → Reply → Prop) (line : Bytes) (calls : List (Syscall × Reply))
    (o : Outcome Empty (Bool × Env)) (e : (dispatch env line).Exec legal calls o) (c : Syscall)
    (r : Reply) (called : (c, r) ∈ calls) (exec : c.isExec = true) :
    ∃ envStr, c.childEnv = some envStr ∧ EntersWith c envStr ∧
      getEnv env cwdKey = some (startCwd envStr) := by
  have h := presentable_reached reached typed
  have child := exec_carries h e called exec
  exact ⟨env.text, child, entersWith_of_childEnv child, startCwd_text h⟩

end History

/-! ### Shells that export variables -/

/-- `export KEY=VALUE` -/
def exportLine (p : Bytes × Bytes) : Bytes := str "export " ++ envLine p

theorem Letters.trim {s : Bytes} (h : Letters s) : trim s = s :=
  trim_ascii (fun b hb => (nameByte_facts b (h.2 b hb)).1)
    (fun b hb => (nameByte_facts b (h.2 b (List.mem_of_head? hb))).2.2.2.2.2.2.2)
    (fun b hb => (nameByte_facts b (h.2 b (List.mem_of_getLast? hb))).2.2.2.2.2.2.2)

/-- A line of `export` and one word stores what stands at the two sides of the equals sign. -/
theorem dispatch_assignment {env env' : Env} {line word key val : Bytes}
    (means : Means env line ([str "export", word].map fun w => ⟨.word, w⟩))
    (fits : word.length ≤ maxArgs) (split : splitOnce 61 word = some (key, val))
    (stored : storeEnv env (trim key) (trim val) = .ok env') :
    dispatch env line = pure (true, env') := by
  have alone : joined [word] = word := by
    rw [joined, List.foldl_cons, List.foldl_nil, putWord, if_pos rfl]
  rw [dispatch_words means (alone ▸ fits), alone, dispatchSimple_export split, setEnv, stored]
  rfl

section Export

variable {key val : Bytes} (hk : Letters key) (hv : Letters val)

include hk hv

theorem exportLine_bytes : ∀ b ∈ exportLine (key, val),
    b < 128 ∧ b ≠ 36 ∧ b ≠ 0 ∧ b ≠ 13 ∧ b ≠ 10 := by
  intro b hb
  have letter (h : isNameByte b = true) : b < 128 ∧ b ≠ 36 ∧ b ≠ 0 ∧ b ≠ 13 ∧ b ≠ 10 := by
    obtain ⟨ascii, -, dollar, -, nul, newline, cr, -⟩ := nameByte_facts b h
    exact ⟨ascii, dollar, nul, cr, newline⟩
  have word : ∀ b ∈ str "export ", b < 128 ∧ b ≠ 36 ∧ b ≠ 0 ∧ b ≠ 13 ∧ b ≠ 10 := by
    decide +kernel
  simp only [exportLine, envLine, List.mem_append, List.mem_cons] at hb
  rcases hb with front | inKey | rfl | inVal
  · exact word b front
  · exact letter (hk.2 b inKey)
  · decide
  · exact letter (hv.2 b inVal)

theorem exportLine_typed : Typed (exportLine (key, val)) :=
  fun b hb => (exportLine_bytes hk hv b hb).2.2

theorem trim_exportLine : trim (exportLine (key, val)) = exportLine (key, val) := by
  apply trim_ascii fun b hb => (exportLine_bytes hk hv b hb).1
  · intro b hb
    obtain rfl : (101 : UInt8) = b := Option.some.inj hb
    decide
  · intro b hb
    have last : val.getLast? = some b := by
      rw [exportLine, envLine, ← List.append_assoc, List.getLast?_append_of_ne_nil _ (by simp),
        List.getLast?_cons] at hb
      rw [List.getLast?_eq_some_getLast hv.1] at hb ⊢
      simpa using hb
    exact (nameByte_facts b (hv.2 b (List.mem_of_getLast? last))).2.2.2.2.2.2.2

theorem lineText_export : LineText (exportLine (key, val))
    [⟨.word, str "export"⟩, ⟨.word, envLine (key, val)⟩] := by
  have word : WordText (str "export") (str "export") := by
    refine wordText_plain (by decide) fun b hb => (nameByte_facts b ?_).2.1
    revert b
    decide +kernel
  have pair : WordText (envLine (key, val)) (envLine (key, val)) := by
    apply wordText_plain (by simp [envLine])
    intro b hb
    simp only [envLine, List.mem_append, List.mem_cons] at hb
    rcases hb with inKey | rfl | inVal
    · exact (nameByte_facts b (hk.2 b inKey)).2.1
    · exact ⟨by decide, by decide, by decide, by decide, by decide⟩
    · exact (nameByte_facts b (hv.2 b inVal)).2.1
  have ends : Boundary [] := trivial
  have between : Boundary (32 :: envLine (key, val)) := .inl (.inl rfl)
  have rest := LineText.word pair ends .nil
  rw [List.append_nil] at rest
  exact .word word between (.blank (.inl rfl) rest)

/-- Such a line stores the variable and makes no call. -/
theorem dispatch_export {env env' : Env} (short : key.length + val.length ≤ 183)
    (stored : storeEnv env key val = .ok env') :
    dispatch env (exportLine (key, val)) = pure (true, env') := by
  have bytes := exportLine_bytes hk hv
  have length : (exportLine (key, val)).length = key.length + val.length + 8 := by
    have front : (str "export ").length = 7 := by decide
    simp [exportLine, envLine, front]
    omega
  have few : (exportLine (key, val)).length ≤ maxParsedLine := by
    have size : maxParsedLine = 512 := rfl
    omega
  have same : expanded env (exportLine (key, val)) = exportLine (key, val) := by
    rw [expanded_plain (valid_ascii fun b hb => (bytes b hb).1)
      (fun dollar => (bytes 36 dollar).2.1 rfl) few, trim_exportLine hk hv]
  have means : Means env (exportLine (key, val))
      ([str "export", envLine (key, val)].map fun w => ⟨.word, w⟩) :=
    ⟨by rw [same]; exact scan_iff.mpr (lineText_export hk hv), by simp [maxTokens]⟩
  apply dispatch_assignment means
  · rw [envLine]
    simp [maxArgs]
    omega
  · apply splitOnce_append
    exact fun equals => (nameByte_facts 61 (hk.2 61 equals)).2.2.2.1 rfl
  · rw [hk.trim, hv.trim, stored]

end Export

theorem setEnv_exec {env env' : Env} {key val : Bytes} (stored : storeEnv env key val = .ok env') :
    (setEnv env key val).Exec Legal [] (.ok env') := by
  rw [setEnv, stored]
  exact exec_pure.mpr ⟨rfl, rfl⟩

/-- The table after these variables have been stored. -/
def exports (env : Env) : List (Bytes × Bytes) → Option Env
  | [] => some env
  | (key, val) :: ps =>
    match storeEnv env key val with
    | .ok env' => exports env' ps
    | .error _ => none

theorem exports_cons {env env'' : Env} {p : Bytes × Bytes} {ps : List (Bytes × Bytes)} :
    exports env (p :: ps) = some env'' ↔
      ∃ env', storeEnv env p.1 p.2 = .ok env' ∧ exports env' ps = some env'' := by
  rw [exports]
  cases stored : storeEnv env p.1 p.2 with
  | error msg => simp
  | ok env' => simp

/-- A shell whose first line assigns goes on with the value in its table. -/
theorem reached_assignment {env : Env} {line key val : Bytes} (word : Bytes) (text : Valid line)
    (plain : 36 ∉ line) (short : line.length ≤ maxParsedLine)
    (scanned : scan .between (trim line) = some ([str "export", word].map fun w => ⟨.word, w⟩))
    (fits : word.length ≤ maxArgs) (split : splitOnce 61 word = some (key, val))
    (stored : exports Env.empty [(cwdKey, str "/"), (trim key, trim val)] = some env) :
    Reached [line] env := by
  obtain ⟨start, begun, later⟩ := exports_cons.mp stored
  obtain ⟨env', assigned, last⟩ := exports_cons.mp later
  obtain rfl : env' = env := Option.some.inj last
  have means : Means start line ([str "export", word].map fun w => ⟨.word, w⟩) :=
    ⟨by rw [expanded_plain text plain short]; exact scanned, by simp [maxTokens]⟩
  have dispatched : (dispatch start line).Exec Legal [] (.ok (true, env')) := by
    rw [dispatch_assignment means fits split assigned]
    exact exec_pure.mpr ⟨rfl, rfl⟩
  exact ⟨start, [], setEnv_exec begun, .line dispatched (.none env')⟩

/-- A pair that an `export` line can carry. -/
def Exportable (p : Bytes × Bytes) : Prop :=
  Letters p.1 ∧ Letters p.2 ∧ p.1.length + p.2.length ≤ 183

instance (p : Bytes × Bytes) : Decidable (Exportable p) := inferInstanceAs (Decidable (_ ∧ _))

theorem through_exports {env env' : Env} {ps : List (Bytes × Bytes)} (ok : ∀ p ∈ ps, Exportable p)
    (h : exports env ps = some env') : Through env (ps.map exportLine) env' := by
  induction ps generalizing env with
  | nil =>
    obtain rfl := Option.some.inj h
    exact .none env
  | cons p ps ih =>
    rw [List.forall_mem_cons] at ok
    obtain ⟨⟨hk, hv, short⟩, ok⟩ := ok
    obtain ⟨env₁, stored, later⟩ := exports_cons.mp h
    have dispatched : (dispatch env (exportLine p)).Exec Legal [] (.ok (true, env₁)) := by
      rw [dispatch_export hk hv short stored]
      exact exec_pure.mpr ⟨rfl, rfl⟩
    exact .line dispatched (ih ok later)

/-- A shell can be told to store these variables. -/
theorem reached_exports {env : Env} (ps : List (Bytes × Bytes)) (ok : ∀ p ∈ ps, Exportable p)
    (h : exports Env.empty ((cwdKey, str "/") :: ps) = some env) :
    Reached (ps.map exportLine) env ∧ ∀ line ∈ ps.map exportLine, Typed line := by
  constructor
  · obtain ⟨start, stored, later⟩ := exports_cons.mp h
    exact ⟨start, [], setEnv_exec stored, through_exports ok later⟩
  · intro line hl
    obtain ⟨p, hp, rfl⟩ := List.mem_map.mp hl
    exact exportLine_typed (ok p hp).1 (ok p hp).2.1

/-- The environment a shell starts with. -/
theorem root_reached : ∃ env, Reached [] env ∧ getEnv env cwdKey = some (str "/") := by
  obtain ⟨env, start⟩ := Option.isSome_iff_exists.mp (by decide +kernel :
    (exports Env.empty [(cwdKey, str "/")]).isSome = true)
  have value : (exports Env.empty [(cwdKey, str "/")]).map (getEnv · cwdKey) =
      some (some (str "/")) := by decide +kernel
  rw [start, Option.map_some, Option.some.injEq] at value
  exact ⟨env, (reached_exports [] nofun start).1, value⟩

/-- `echo` is a program. -/
theorem echo_execs (env : Env) : ∃ calls o c r, (dispatch env (str "echo")).Exec Legal calls o ∧
    (c, r) ∈ calls ∧ c.isExec = true := by
  have same : expanded env (str "echo") = str "echo" :=
    (expanded_plain (by decide +kernel) (by decide) (by decide)).trans (by decide +kernel)
  have means : Means env (str "echo") ([str "echo"].map fun w => ⟨.word, w⟩) :=
    ⟨by rw [same]; decide +kernel, by decide⟩
  have program : isBuiltin (str "echo") = false := by decide
  have resolved : (resolveBinPath (str "echo") : Outcome Empty _) = .ok (some (str "/bin/echo")) := by
    decide +kernel
  obtain ⟨envStr, -, first⟩ := firstCall_program env [] program resolved (by decide) (by decide)
  obtain ⟨calls, o, r, e, called⟩ :=
    exists_exec_firstCall (fun c => ⟨_, legal_failed c⟩) first
  rw [dispatch_words means (by decide)]
  exact ⟨calls, o, _, r, e, called, rfl⟩

/-- `A` and its value, and the directory. -/
theorem child_finds_variables_one : ∃ (env : Env) (c : Syscall) (envStr : Bytes),
    Reached [exportLine (str "A", str "1")] env ∧ c.childEnv = some envStr ∧
      decodeEnv envStr = [(cwdKey, str "/"), (str "A", str "1")] := by
  obtain ⟨env, h⟩ := Option.isSome_iff_exists.mp (by decide +kernel :
    (exports Env.empty [(cwdKey, str "/"), (str "A", str "1")]).isSome = true)
  have pairs : (exports Env.empty [(cwdKey, str "/"), (str "A", str "1")]).map Env.pairs =
      some [(cwdKey, str "/"), (str "A", str "1")] := by decide +kernel
  rw [h, Option.map_some, Option.some.injEq] at pairs
  obtain ⟨reached, typed⟩ := reached_exports [(str "A", str "1")] (by decide +kernel) h
  obtain ⟨calls, o, c, r, e, called, exec⟩ := echo_execs env
  obtain ⟨envStr, child, -, delivered⟩ :=
    child_finds_variables reached typed Legal (str "echo") calls o e c r called exec
  refine ⟨env, c, envStr, reached, child, (delivered.all.mpr ?_).trans pairs⟩
  rw [pairs]
  decide

theorem child_shares_cwd_one : ∃ (env : Env) (c : Syscall) (envStr : Bytes),
    Reached [exportLine (str "CWD", str "tmp")] env ∧ c.childEnv = some envStr ∧
      startCwd envStr = str "tmp" := by
  obtain ⟨env, h⟩ := Option.isSome_iff_exists.mp (by decide +kernel :
    (exports Env.empty [(cwdKey, str "/"), (str "CWD", str "tmp")]).isSome = true)
  have cwd : (exports Env.empty [(cwdKey, str "/"), (str "CWD", str "tmp")]).bind
      (getEnv · cwdKey) = some (str "tmp") := by decide +kernel
  rw [h, Option.bind_some] at cwd
  obtain ⟨reached, typed⟩ := reached_exports [(str "CWD", str "tmp")] (by decide +kernel) h
  obtain ⟨calls, o, c, r, e, called, exec⟩ := echo_execs env
  obtain ⟨envStr, child, -, same⟩ :=
    child_shares_cwd reached typed Legal (str "echo") calls o e c r called exec
  exact ⟨env, c, envStr, reached, child, Option.some.inj (same.symm.trans cwd)⟩

/-- Six variables of the greatest size. -/
def sixVariables : List (Bytes × Bytes) :=
  (List.range 6).map fun i => (List.replicate 32 (UInt8.ofNat (65 + i)), List.replicate 64 97)

/-- With six variables of the greatest size a child misses one. -/
theorem child_misses_variable : ∃ env calls o c r envStr,
    Reached (sixVariables.map exportLine) env ∧
      (∀ line ∈ sixVariables.map exportLine, Typed line) ∧
      (dispatch env (str "echo")).Exec Legal calls o ∧ (c, r) ∈ calls ∧ c.isExec = true ∧
      c.childEnv = some envStr ∧ decodeEnv envStr ≠ env.pairs := by
  obtain ⟨env, h⟩ := Option.isSome_iff_exists.mp (by decide +kernel :
    (exports Env.empty ((cwdKey, str "/") :: sixVariables)).isSome = true)
  have size : (exports Env.empty ((cwdKey, str "/") :: sixVariables)).map
      (fun env => (env.pairs.map pairSize).sum) = some 594 := by decide +kernel
  rw [h, Option.map_some, Option.some.injEq] at size
  obtain ⟨reached, typed⟩ := reached_exports sixVariables (by decide +kernel) h
  obtain ⟨calls, o, c, r, e, called, exec⟩ := echo_execs env
  have presentable := presentable_reached reached typed
  refine ⟨env, calls, o, c, r, env.text, reached, typed, e, called, exec,
    exec_carries presentable e called exec, fun all => ?_⟩
  -- 594 bytes do not fit in 511
  rw [Env.text, decodeEnv_layout (separable_sent presentable),
    (delivered_sent presentable).all, size] at all
  omega

end Smultron.Shell
