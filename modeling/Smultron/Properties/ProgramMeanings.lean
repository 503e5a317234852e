import Smultron.Machine.Programs
import Smultron.Properties.LsListing
import Smultron.Properties.MachineKernel
import Smultron.Properties.SedStreams
import Smultron.Properties.TeeCopies

/-!
# The programs compute what they mean

Every program of the boot image, whatever its two strings and whatever the files, writes what the
machine says and leaves the files that the machine says. Only a program that asks the console for its
input is left out.

## Main result

- `bootSystem_holds`: the built system is one that the machine describes.
-/

namespace Smultron

open Checked Checked.Outcome ElfLoader Machine Memory Proc Process Utf8 Vfs

variable {sys : System} {runner : Runner} {k : Kernel} {done : List (Syscall × Reply)}
  {args env cwd path s : Bytes} {n : Nat} {α : Type}

/-! ### Strings inside strings -/

theorem Passes.of_sublist {s' : Bytes} (h : Passes n s) (inside : s'.Sublist s) (text : Valid s') :
    Passes n s' where
  text := text
  nulFree nul := h.nulFree (inside.subset nul)
  short := inside.length_le.trans h.short

theorem Passes.trim (h : Passes n s) : Passes n (trim s) :=
  h.of_sublist (trim_sublist s) (valid_trim h.text)

theorem Passes.word {w : Bytes} (h : Passes n s) (word : w ∈ splitWhitespace s) : Passes n w :=
  h.of_sublist (splitWhitespace_sublist word).2 (splitWhitespace_sublist word).1

theorem findCwd_cases (lines : List Bytes) :
    findCwd lines = str "/" ∨
      ∃ line ∈ lines, ∃ key, splitOnce 61 line = some (key, findCwd lines) := by
  induction lines with
  | nil => exact .inl rfl
  | cons line lines ih =>
    have later : (findCwd lines = str "/" ∨
        ∃ l ∈ lines, ∃ key, splitOnce 61 l = some (key, findCwd lines)) →
        findCwd lines = str "/" ∨
          ∃ l ∈ line :: lines, ∃ key, splitOnce 61 l = some (key, findCwd lines) :=
      Or.imp_right fun ⟨l, hl, found⟩ => ⟨l, List.mem_cons_of_mem _ hl, found⟩
    rw [findCwd]
    split
    next key val found =>
      split
      · exact .inr ⟨line, List.mem_cons_self, key, found⟩
      · exact later ih
    · exact later ih

/-- The directory is a text of the environment. -/
theorem Passes.startCwd (h : Passes Libos.maxEnv env) : Passes Libos.maxEnv (startCwd env) := by
  rcases findCwd_cases (env.splitOn 10) with root | ⟨line, hline, key, found⟩
  · rw [Smultron.startCwd, root]
    exact ⟨by decide +kernel, by decide, by decide⟩
  · have inside := sublist_of_mem_splitOnP hline
    have text := h.text.of_mem_splitOn (by decide) hline
    obtain ⟨whole, -⟩ := splitOnce_eq_some found
    have part : (findCwd (env.splitOn 10)).Sublist line := by
      rw [whole]
      exact (List.suffix_append_of_suffix (List.suffix_cons _ _)).sublist
    rw [whole] at text
    exact h.of_sublist (part.trans inside) (text.split _ (by decide)).2

/-! ### The path of an argument -/

theorem length_pathUnder_gt (cwd : Bytes) (some_ : path ≠ []) (relative : Shell.isAbsolute path = false) :
    cwd.length < (pathUnder cwd path).length := by
  have size := List.length_pos_iff.mpr some_
  rw [pathUnder, if_neg (by simp [relative])]
  split
  · rw [List.length_append]
    omega
  · rw [List.length_append, List.length_cons]
    omega

theorem Passes.pathUnder (dir : Passes Libos.maxEnv cwd) (h : Passes n path) :
    Valid (pathUnder cwd path) ∧ 0 ∉ pathUnder cwd path := by
  have slash : Valid [47] := valid_ascii (by simp)
  rw [Smultron.pathUnder]
  split
  · exact ⟨h.text, h.nulFree⟩
  · split
    · refine ⟨dir.text.append h.text, ?_⟩
      simp only [List.mem_append, not_or]
      exact ⟨dir.nulFree, h.nulFree⟩
    · refine ⟨dir.text.append (slash.append h.text), ?_⟩
      simp only [List.mem_append, List.mem_cons, not_or]
      exact ⟨dir.nulFree, by decide, h.nulFree⟩

/-- Also where the directory is longer than those that the shell keeps. -/
theorem resolveFrom_meant {ε : Type} (h : Passes Libos.maxArgs path) (some_ : path ≠ [])
    (dir : Passes Libos.maxEnv cwd) :
    (resolveFrom path cwd : Outcome ε _) = .ok (pathMeant cwd path) := by
  have word : 128 + 512 < wordBound := by decide
  have few : path.length ≤ 191 := h.short
  have dirFew : cwd.length ≤ 511 := dir.short
  cases absolute : Shell.isAbsolute path with
  | true => rw [resolveFrom, pathMeant, absolute, if_pos rfl, if_pos rfl, pure_eq]
  | false =>
    have size := length_slashed cwd
    have longer := length_pathUnder_gt cwd some_ absolute
    have fitting : fittingPath (slashed cwd ++ path) = pathMeant cwd path := by
      rw [fittingPath, pathMeant, absolute, if_neg Bool.false_ne_true, ← pathUnder_relative absolute,
        fromUtf8_of_valid (dir.pathUnder h).1]
    rw [resolveFrom, absolute, if_neg Bool.false_ne_true, ← fitting]
    split
    next root =>
      rw [root, push_of_lt (by decide), ok_bind, joinPath_eq (by simp; omega)]
      rfl
    · rw [add_of_lt (by omega), ok_bind]
      split
      next long =>
        rw [fitting, pathMeant, absolute, if_neg Bool.false_ne_true, if_neg (by omega), pure_eq]
      next room =>
        rw [append_of_le (by simp; omega), ok_bind, List.nil_append]
        split
        next empty =>
          obtain rfl := List.length_eq_zero_iff.mp empty
          rw [push_of_lt (by decide), ok_bind, joinPath_eq (by simp; omega)]
          rfl
        next nonempty =>
          rw [slash_bind (by simpa using nonempty) (by omega), joinPath_eq (by omega)]

theorem pathMeant_text {p : Bytes} (h : Passes n path) (dir : Passes Libos.maxEnv cwd)
    (meant : pathMeant cwd path = some p) : Valid p ∧ 0 ∉ p := by
  rw [pathMeant] at meant
  split at meant
  · obtain rfl := Option.some.inj meant
    exact ⟨h.text, h.nulFree⟩
  · split at meant
    · obtain rfl := Option.some.inj meant
      exact dir.pathUnder h
    · cases meant

/-! ### Calls -/

/-- A call that leaves files and other programs alone. -/
def Syscall.isPlain : Syscall → Bool
  | .read _ _ | .write _ _ | .readFile _ _ => true
  | _ => false

section Only

variable {P : Syscall → Prop}

theorem OnlyWrites.only {x : User α} (h : OnlyWrites x) (write : ∀ fd buf, P (.write fd buf)) :
    x.Only P := by
  refine h.mono fun c isWrite => ?_
  cases c with
  | write fd buf => exact write fd buf
  | _ => cases isWrite

theorem readFile_only (file : ∀ path buf, P (.readFile path buf)) (path buf : Bytes) :
    (Libos.readFile path buf).Only P := by
  rw [Libos.readFile]
  split
  · exact only_pure _
  · refine only_bind (only_lift _) fun _ => only_bind (only_request (file _ _)) fun r => ?_
    split <;> exact only_pure _

theorem OpensFirst.only {x : User α} (h : OpensFirst path x) (write : ∀ fd buf, P (.write fd buf))
    (file : ∀ path buf, P (.readFile path buf)) : x.Only P := by
  obtain ⟨tail, writes, rfl⟩ := h
  exact only_bind (readFile_only file ..) fun found => (writes found).only write

theorem read_only (read : ∀ fd buf, P (.read fd buf)) (fd : Nat) (buf : Bytes) :
    (Libos.read fd buf).Only P := only_bind (only_request (read _ _)) fun _ => only_pure _

end Only

theorem dispatch_plain_ram {c : Syscall} {k' : Kernel} {r : Reply} (plain : c.isPlain = true)
    (answered : dispatch sys runner c k = some (r, k')) : k'.ram = k.ram := by
  cases c with
  | read fd buf =>
    rw [← sysRead_ram k fd buf]
    exact congrArg (·.2.ram) (Option.some.inj answered).symm
  | write fd buf =>
    rw [← sysWrite_ram k fd buf]
    exact congrArg (·.2.ram) (Option.some.inj answered).symm
  | readFile path buf =>
    simp only [dispatch] at answered
    repeat' split at answered
    all_goals
      obtain ⟨-, rfl⟩ := Prod.mk.inj (Option.some.inj answered)
      rfl
  | _ => cases plain

/-- A run of plain calls leaves the files alone. -/
theorem plain_ram {x : User α} (plain : x.Only (·.isPlain = true))
    {ran : Program.Ran Syscall Reply Kernel (Outcome Empty α)}
    (ended : x.run (dispatch sys runner) k = some ran) : ran.state.ram = k.ram :=
  plain.after (I := fun k' => k'.ram = k.ram)
    (fun _ _ _ _ plain answered same => (dispatch_plain_ram plain answered).trans same) rfl ran ended

/-! ### Messages and files -/

theorem writeStr_leads {k : Kernel} (done : List (Syscall × Reply)) (s : Bytes) :
    Leads (dispatch sys runner) done k
      (fun d o k' => o = .ok () ∧ written d = written done ++ s ∧ k'.ram = k.ram)
      (Shell.writeStr s) := by
  refine Leads.bind_ok (write_leads fun r k' ram _ => ⟨_, rfl, Leads.pure ⟨rfl, ?_, ram⟩⟩)
  rw [written_append, written_singleton, Syscall.output_stdout]

/-- A message about a path. -/
theorem message_leads {k : Kernel} (done : List (Syscall × Reply)) (front path : Bytes) :
    Leads (dispatch sys runner) done k
      (fun d o k' => o = .ok () ∧ written d = written done ++ (front ++ path ++ str "\n") ∧
        k'.ram = k.ram)
      (do
        Shell.writeStr front
        Shell.writeStr path
        Shell.writeStr (str "\n")) := by
  refine Leads.bind_ok ((writeStr_leads done front).mono ?_)
  rintro d₁ _ k₁ ⟨rfl, wrote₁, ram₁⟩
  refine ⟨_, rfl, Leads.bind_ok ((writeStr_leads d₁ path).mono ?_)⟩
  rintro d₂ _ k₂ ⟨rfl, wrote₂, ram₂⟩
  refine ⟨_, rfl, (writeStr_leads d₂ (str "\n")).mono ?_⟩
  rintro d₃ _ k₃ ⟨rfl, wrote₃, ram₃⟩
  refine ⟨rfl, ?_, ram₃.trans (ram₂.trans ram₁)⟩
  rw [wrote₃, wrote₂, wrote₁]
  simp

theorem cstrToStr_text (text : Valid s) (nulFree : 0 ∉ s) : cstrToStr s = s := by
  have all : ∀ b ∈ s, (b != 0) = true := by
    intro b hb
    simpa using ne_of_mem_of_not_mem hb nulFree
  rw [cstrToStr, List.takeWhile_eq_self_iff.mpr all, fromUtf8OrEmpty_of_valid text]

/-- The library reads a file as the machine does. -/
theorem readFile_fileAt {buf : Bytes} (text : Valid path) (nulFree : 0 ∉ path)
    (size : buf.length = 4096)
    {Q : List (Syscall × Reply) → Outcome Empty (Option Nat × Bytes) → Kernel → Prop}
    (h : ∀ d, written d = written done →
      Q d (.ok ((fileAt sys.images k.ram path).map List.length,
        Libos.overwrite buf ((fileAt sys.images k.ram path).getD []))) k) :
    Leads (dispatch sys runner) done k Q (Libos.readFile path buf) := by
  by_cases short : path.length < 128
  · have passes : Passes 127 path := ⟨text, nulFree, by omega⟩
    rw [fileAt, if_pos short, cstrToStr_text text nulFree] at h
    refine readFile_leads passes (by omega) (by rw [size]; decide) (size ▸ rfl) (h _ ?_)
    rw [written_append, written_singleton]
    exact List.append_nil _
  · rw [fileAt, if_neg short] at h
    rw [Libos.readFile, if_pos (by omega)]
    exact Leads.pure (h done rfl)

theorem does_of_leads {x : User α} {status : Outcome Empty α → Nat} {out : Bytes} {ram : RamFiles}
    (io : x.Only (·.isIo = true))
    (deaf : k.io.stdio.stdin = none → x.Only (·.asks = false))
    (leads : Leads (dispatch sys runner) [] k
      (fun d o k' => status o = 0 ∧ written d = out ∧ k'.ram = ram) x) :
    Does sys runner k out ram (x.program.bind fun o => .ret (status o)) := by
  obtain ⟨ran, ended⟩ := exists_run io sys runner k
  obtain ⟨status, wrote, files⟩ := leads.ran ended
  refine ⟨⟨_, ran.steps, ran.state⟩, ?_, status, wrote, files, noExec_of_isIo io ended,
    fun none_ => (deaf none_).steps ended⟩
  rw [Program.run_bind_eq_some]
  exact ⟨ran, _, ended, Program.run_ret _ _, by simp⟩

theorem OnlyWrites.deaf {x : User α} (h : OnlyWrites x) : x.Only (·.asks = false) :=
  h.only fun _ _ => rfl

/-- A program that has nothing but a message. -/
theorem message_does {x : User (Reading Unit)} {other : Nat} {s : Bytes}
    (whole : x = (do
      Shell.writeStr s
      return .ended ())) :
    Does sys runner k s k.ram (x.program.bind fun o => .ret (exitStatus other o)) := by
  subst whole
  have writes : OnlyWrites (do
      Shell.writeStr s
      return .ended () : User (Reading Unit)) :=
    only_bind (writeStr_onlyWrites _) fun _ => only_pure _
  refine does_of_leads writes.isIo (fun _ => writes.deaf) ?_
  refine Leads.bind_ok ((writeStr_leads [] s).mono ?_)
  rintro d o k' ⟨rfl, wrote, kept⟩
  exact ⟨_, rfl, Leads.pure ⟨rfl, wrote, kept⟩⟩

/-! ### `echo` and `env` -/

theorem Echo.run_leads (args : Bytes) :
    Leads (dispatch sys runner) [] k
      (fun d o k' => o = .ok () ∧ written d = args ++ str "\n" ∧ k'.ram = k.ram) (run args) := by
  rw [run]
  split
  · refine Leads.bind_ok (write_leads fun r k₁ ram _ => ⟨_, rfl, ?_⟩)
    refine Leads.bind_ok (write_leads fun r' k₂ ram' _ => ⟨_, rfl, Leads.pure ⟨rfl, ?_, ?_⟩⟩)
    · simp [written]
    · exact ram'.trans ram
  next empty =>
    obtain rfl := not_not.mp empty
    exact Leads.bind_ok (write_leads fun r k₁ ram _ => ⟨_, rfl, Leads.pure ⟨rfl, by simp, ram⟩⟩)

theorem Echo.run_onlyWrites (args : Bytes) : OnlyWrites (run args) := by
  rw [run]
  split
  · exact only_bind (write_onlyWrites ..) fun _ => only_bind (write_onlyWrites ..) fun _ => only_pure _
  · exact only_bind (write_onlyWrites ..) fun _ => only_pure _

theorem EnvApp.run_leads (env : Bytes) :
    Leads (dispatch sys runner) [] k
      (fun d o k' => o = .ok () ∧ written d = env ∧ k'.ram = k.ram) (run env) := by
  rw [run]
  split
  · exact Leads.bind_ok (write_leads fun r k₁ ram _ => ⟨_, rfl, Leads.pure ⟨rfl, by simp, ram⟩⟩)
  next empty =>
    obtain rfl := not_not.mp empty
    exact Leads.pure ⟨rfl, rfl, rfl⟩

theorem EnvApp.run_onlyWrites (env : Bytes) : OnlyWrites (run env) := by
  rw [run]
  split
  · exact only_bind (write_onlyWrites ..) fun _ => only_pure _
  · exact only_pure _

/-! ### `cat` -/

namespace Cat

section Only

variable {P : Syscall → Prop} (read : ∀ fd buf, P (.read fd buf)) (write : ∀ fd buf, P (.write fd buf))
  (file : ∀ path buf, P (.readFile path buf))

include read write in
theorem copyInput_only (rounds : Nat) (buf : Bytes) : (copyInput rounds buf).Only P := by
  induction rounds generalizing buf with
  | zero => exact only_pure _
  | succ rounds ih =>
    refine only_bind (read_only read ..) fun found => ?_
    dsimp only
    split
    · exact only_pure _
    · exact only_bind ((write_onlyWrites _ _).only write) fun _ => ih _

include write file in
/-- With an argument no input is read. -/
theorem run_file_only {args : Bytes} (named : trim args ≠ []) (rounds : Nat) (cwd : Bytes) :
    (run rounds args cwd).Only P := by
  rw [run, if_neg named]
  refine only_bind (only_lift _) fun resolved => ?_
  cases resolved with
  | none => exact only_bind ((writeStr_onlyWrites _).only write) fun _ => only_pure _
  | some path => exact only_bind ((printFile_opensFirst path).only write file) fun _ => only_pure _

end Only

theorem printFile_meant (text : Valid path) (nulFree : 0 ∉ path) :
    Leads (dispatch sys runner) done k
      (fun d o _ => o = .ok () ∧
        written d = written done ++ catText path (fileAt sys.images k.ram path))
      (printFile path) := by
  cases found : fileAt sys.images k.ram path with
  | none =>
    rw [printFile]
    refine Leads.bind_ok (readFile_fileAt text nulFree List.length_replicate fun d silent => ?_)
    rw [found]
    refine ⟨_, rfl, (message_leads d (str "cat: cannot read ") path).mono ?_⟩
    rintro d' o k' ⟨rfl, wrote, -⟩
    rw [wrote, silent]
    exact ⟨rfl, rfl⟩
  | some content =>
    by_cases empty : content = []
    · rw [printFile]
      refine Leads.bind_ok (readFile_fileAt text nulFree List.length_replicate fun d silent => ?_)
      rw [found, empty]
      exact ⟨_, rfl, Leads.pure ⟨rfl, by simpa [catText] using silent⟩⟩
    · have short : path.length < 128 := by
        by_contra long
        simp [fileAt, long] at found
      rw [fileAt, if_pos short, cstrToStr_text text nulFree] at found
      refine (printFile_leads ⟨text, nulFree, by omega⟩ empty found).mono ?_
      rintro d o k' ⟨rfl, wrote⟩
      rw [wrote, catText, if_neg empty, List.append_assoc]
      exact ⟨rfl, rfl⟩

theorem run_file_meant (argsPass : Passes Libos.maxArgs args) (dir : Passes Libos.maxEnv cwd)
    (named : trim args ≠ []) (rounds : Nat) :
    Leads (dispatch sys runner) [] k
      (fun d o _ => o = .ok (.ended ()) ∧ written d = catFile sys.images k.ram cwd (trim args))
      (run rounds args cwd) := by
  have resolved : (resolvePath (trim args) cwd : Outcome Empty _) = .ok (pathMeant cwd (trim args)) :=
    resolveFrom_meant argsPass.trim named dir
  rw [run, if_neg named, resolved, lift_ok, Proc.pure_bind, catFile]
  cases meant : pathMeant cwd (trim args) with
  | none =>
    refine Leads.bind_ok ((writeStr_leads [] (str "cat: path too long\n")).mono ?_)
    rintro d o k' ⟨rfl, wrote, -⟩
    exact ⟨_, rfl, Leads.pure ⟨rfl, wrote⟩⟩
  | some path =>
    obtain ⟨text, nulFree⟩ := pathMeant_text argsPass.trim dir meant
    refine Leads.bind_ok ((printFile_meant text nulFree).mono ?_)
    rintro d o k' ⟨rfl, wrote⟩
    exact ⟨_, rfl, Leads.pure ⟨rfl, wrote⟩⟩

/-- The input of a program never has more than 4096 bytes. -/
theorem stdin_fits {rest : Bytes} (input : k.io.stdio.stdin = some rest) : rest.length ≤ maxIoStdin := by
  simp only [IoState.stdio] at input
  split at input
  · have size := congrArg List.length (Option.some.inj input)
    have fits := k.io.stdin_fits
    simp at size
    omega
  · cases input

/-- All of what `cat` does, unless it reads the console. -/
theorem start_does (runner : Runner) {rounds other : Nat} (enough : 17 ≤ rounds) {out : Bytes}
    {ram : RamFiles} (argsPass : Passes Libos.maxArgs args) (envPass : Passes Libos.maxEnv env)
    (meaning : cat sys.images args env k.ram k.io.stdio.stdin = some (out, ram)) :
    Does sys runner k out ram (start rounds other (args ++ [0]) (env ++ [0])) := by
  rw [start, cstrToStr_passes argsPass, cstrToStr_passes envPass]
  rw [cat] at meaning
  split at meaning
  next blank =>
    -- The redirected input is copied
    obtain ⟨data, input, same⟩ := Option.map_eq_some_iff.mp meaning
    obtain ⟨rfl, rfl⟩ := Prod.mk.inj same
    have fits := stdin_fits input
    have most : maxIoStdin = 4096 := rfl
    refine does_of_leads (run_isIo ..) (by simp [input]) ?_
    rw [run, if_pos blank]
    intro ran ended
    obtain ⟨ok, wrote⟩ := (copyInput_leads List.length_replicate input (by omega)).ran ended
    exact ⟨by rw [ok]; rfl, wrote, plain_ram (copyInput_only (fun _ _ => rfl) (fun _ _ => rfl) ..) ended⟩
  next named =>
    obtain ⟨rfl, rfl⟩ := Prod.mk.inj (Option.some.inj meaning)
    refine does_of_leads (run_isIo ..)
      (fun _ => run_file_only (fun _ _ => rfl) (fun _ _ => rfl) named ..) fun ran ended => ?_
    obtain ⟨ok, wrote⟩ := (run_file_meant argsPass envPass.startCwd named rounds).ran ended
    exact ⟨by rw [ok]; rfl, wrote,
      plain_ram (run_file_only (fun _ _ => rfl) (fun _ _ => rfl) named ..) ended⟩

end Cat

/-! ### `tee` -/

namespace Tee

/-- A write of a file, whether it is taken or not. -/
theorem writeFile_meant {data : Bytes} (text : Valid path) (nulFree : 0 ∉ path)
    (small : data.length < u64Max) {stored : Bool × RamFiles}
    (outcome : store k.ram path data = stored) :
    Leads (dispatch sys runner) done k
      (fun d o k' => o = .ok (if stored.1 then some data.length else none) ∧
        written d = written done ∧ k'.ram = stored.2) (Libos.writeFile path data) := by
  have never : data.length ≠ u64Max := by omega
  rw [store, cstrToStr_text text nulFree] at outcome
  by_cases short : path.length < 128
  · have name : cstr 128 (some (path ++ [0])) = some path :=
      cstr_passes (⟨text, nulFree, by omega⟩ : Passes 127 path)
    have notLong : ¬128 ≤ path.length := by omega
    rw [if_pos short] at outcome
    rw [Libos.writeFile, if_neg notLong, Shell.cString_ok (by omega), lift_ok, Proc.pure_bind]
    refine Leads.request_bind fun r k' answered => ?_
    obtain ⟨taken, ram⟩ := stored
    simp only [dispatch, name, outcome] at answered
    have silent : written (done ++ [(.writeFile (some (path ++ [0])) (some data), r)]) =
        written done := by
      rw [written_append, written_singleton]
      exact List.append_nil _
    cases taken with
    | true =>
      obtain ⟨rfl, rfl⟩ := Prod.mk.inj (Option.some.inj answered)
      have accepted : (Reply.value data.length).ret ≠ u64Max := never
      rw [if_neg accepted]
      exact Leads.pure ⟨rfl, silent, rfl⟩
    | false =>
      obtain ⟨rfl, rfl⟩ := Prod.mk.inj (Option.some.inj answered)
      have failed : Reply.failed.ret = u64Max := rfl
      rw [if_pos failed]
      exact Leads.pure ⟨rfl, silent, rfl⟩
  · have long : 128 ≤ path.length := by omega
    rw [if_neg short] at outcome
    subst outcome
    rw [Libos.writeFile, if_pos long]
    exact Leads.pure ⟨rfl, rfl, rfl⟩

theorem writeFiles_meant {data : Bytes} {paths : List Bytes} (small : data.length < u64Max)
    (texts : ∀ p ∈ paths, Valid p ∧ 0 ∉ p) :
    Leads (dispatch sys runner) done k
      (fun d o k' => o = .ok () ∧ written d = written done ++ (teeFiles data paths k.ram).1 ∧
        k'.ram = (teeFiles data paths k.ram).2) (writeFiles data paths) := by
  induction paths generalizing k done with
  | nil => exact Leads.pure ⟨rfl, by simp [teeFiles], rfl⟩
  | cons p paths ih =>
    obtain ⟨⟨text, nulFree⟩, texts⟩ := List.forall_mem_cons.mp texts
    rw [writeFiles]
    generalize outcome : store k.ram p data = stored
    refine Leads.bind_ok ((writeFile_meant text nulFree small outcome).mono ?_)
    rintro d₁ o₁ k₁ ⟨rfl, silent, files⟩
    obtain ⟨taken, ram⟩ := stored
    have whole : teeFiles data (p :: paths) k.ram =
        if taken then teeFiles data paths ram
        else (str "tee: cannot write " ++ p ++ str "\n" ++ (teeFiles data paths ram).1,
          (teeFiles data paths ram).2) := by
      simp only [teeFiles, outcome]
    rw [whole]
    cases taken with
    | true =>
      refine ⟨_, rfl, (ih texts).mono ?_⟩
      rintro d o k' ⟨rfl, wrote, last⟩
      rw [files] at wrote last
      exact ⟨rfl, by simpa [silent] using wrote, last⟩
    | false =>
      have apart : (do
          Shell.writeStr (str "tee: cannot write ")
          Shell.writeStr p
          Shell.writeStr (str "\n")
          writeFiles data paths) = (do
            Shell.writeStr (str "tee: cannot write ")
            Shell.writeStr p
            Shell.writeStr (str "\n")) >>= fun _ => writeFiles data paths := by
        simp only [Proc.bind_assoc]
      refine ⟨_, rfl, ?_⟩
      dsimp only
      rw [if_neg Bool.false_ne_true, apart]
      refine Leads.bind_ok ((message_leads d₁ (str "tee: cannot write ") p).mono ?_)
      rintro d₂ o₂ k₂ ⟨rfl, told, kept⟩
      refine ⟨_, rfl, (ih texts).mono ?_⟩
      rintro d o k' ⟨rfl, wrote, last⟩
      rw [kept, files] at wrote last
      refine ⟨rfl, ?_, last⟩
      rw [wrote, told, silent]
      simp

theorem files_passes {files : List Bytes} (h : Passes Libos.maxArgs args)
    (given : Tee.files args = some files) : ∀ p ∈ files, Passes Libos.maxArgs p := by
  obtain rfl := Shell.collectArgs_eq_some given
  exact fun p hp => h.word hp

/-- All of what `tee` does, unless it reads the console. -/
theorem start_does (runner : Runner) {rounds other : Nat} (enough : 17 ≤ rounds) {out : Bytes}
    {ram : RamFiles} (argsPass : Passes Libos.maxArgs args)
    (meaning : tee args k.ram k.io.stdio.stdin = some (out, ram)) (envBuf : Bytes) :
    Does sys runner k out ram (start rounds other (args ++ [0]) envBuf) := by
  rw [start, cstrToStr_passes argsPass]
  rw [tee] at meaning
  split at meaning
  next many =>
    obtain ⟨rfl, rfl⟩ := Prod.mk.inj (Option.some.inj meaning)
    exact message_does (by simp only [run, many])
  next files given =>
    obtain ⟨data, input, same⟩ := Option.map_eq_some_iff.mp meaning
    obtain ⟨rfl, rfl⟩ := Prod.mk.inj same
    have fits := Cat.stdin_fits input
    have most : maxIoStdin = 4096 := rfl
    have room : maxStream = 4096 := rfl
    have never : 4096 < u64Max := by decide
    refine does_of_leads (run_isIo ..) (by simp [input]) ?_
    simp only [run, given]
    refine Leads.bind_ok ((tee_copyInput_leads List.length_replicate input
      (by rw [List.length_nil]; omega)).mono ?_)
    rintro d₁ o₁ k₁ ⟨-, kept, collects, ends⟩
    obtain ⟨stream, rfl⟩ := ends (by omega)
    obtain ⟨rfl, copied⟩ := collects stream rfl
    refine ⟨_, rfl, Leads.bind_ok ((writeFiles_meant (by omega)
      fun p hp => ⟨(files_passes argsPass given p hp).text,
        (files_passes argsPass given p hp).nulFree⟩).mono ?_)⟩
    rintro d o k' ⟨rfl, wrote, last⟩
    rw [kept] at wrote last
    refine ⟨_, rfl, Leads.pure ⟨rfl, ?_, last⟩⟩
    rw [wrote, copied]
    rfl

end Tee

/-! ### `sed` -/

namespace Sed

theorem edit_nil (script : Script) : edit script [] = [] := by
  rw [edit, substitute]
  split <;> rfl

theorem runOnFile_meant {script : Script} {file : Bytes} (given : Passes Libos.maxArgs file)
    (some_ : file ≠ []) (dir : Passes Libos.maxEnv cwd) :
    Leads (dispatch sys runner) done k
      (fun d o k' => o = .ok () ∧
        written d = written done ++ sedFile sys.images script k.ram cwd file ∧ k'.ram = k.ram)
      (runOnFile script file cwd) := by
  have resolved : (resolvePath file cwd : Outcome Empty _) = .ok (pathMeant cwd file) :=
    resolveFrom_meant given some_ dir
  rw [runOnFile, resolved, lift_ok, Proc.pure_bind, sedFile]
  cases meant : pathMeant cwd file with
  | none => exact writeStr_leads done _
  | some path =>
    obtain ⟨text, nulFree⟩ := pathMeant_text given dir meant
    dsimp only
    cases found : fileAt sys.images k.ram path with
    | none =>
      refine Leads.bind_ok (readFile_fileAt text nulFree List.length_replicate fun d silent => ?_)
      rw [found]
      refine ⟨_, rfl, (message_leads d (str "sed: cannot read ") path).mono ?_⟩
      rintro d' o k' ⟨rfl, wrote, kept⟩
      exact ⟨rfl, by rw [wrote, silent]; rfl, kept⟩
    | some content =>
      refine Leads.bind_ok (readFile_fileAt text nulFree List.length_replicate fun d silent => ?_)
      rw [found]
      refine ⟨_, rfl, ?_⟩
      have inside : content.length ≤ (Libos.overwrite (List.replicate 4096 0) content).length :=
        (List.length_append ..).symm ▸ Nat.le_add_right ..
      dsimp only [Option.map_some, Option.getD_some]
      rw [slice_of_le (Nat.zero_le _) inside, lift_ok, Proc.pure_bind, List.drop_zero,
        take_overwrite]
      refine Leads.bind_ok (write_leads fun r k' ram _ => ⟨_, rfl, Leads.pure ⟨rfl, ?_, ram⟩⟩)
      rw [written_append, written_singleton, Syscall.output_stdout, silent]
      rfl

theorem runOnFiles_meant {script : Script} {files : List Bytes}
    (given : ∀ f ∈ files, Passes Libos.maxArgs f ∧ f ≠ []) (dir : Passes Libos.maxEnv cwd) :
    Leads (dispatch sys runner) done k
      (fun d o k' => o = .ok () ∧
        written d = written done ++ files.flatMap (sedFile sys.images script k.ram cwd) ∧
        k'.ram = k.ram)
      (runOnFiles script cwd files) := by
  induction files generalizing k done with
  | nil => exact Leads.pure ⟨rfl, by simp, rfl⟩
  | cons file files ih =>
    obtain ⟨⟨passes, some_⟩, given⟩ := List.forall_mem_cons.mp given
    refine Leads.bind_ok ((runOnFile_meant passes some_ dir).mono ?_)
    rintro d₁ o₁ k₁ ⟨rfl, wrote₁, kept₁⟩
    refine ⟨_, rfl, (ih given).mono ?_⟩
    rintro d o k' ⟨rfl, wrote, kept⟩
    refine ⟨rfl, ?_, kept.trans kept₁⟩
    rw [wrote, wrote₁, kept₁, List.flatMap_cons, List.append_assoc]

/-- One read takes all of the redirected input. -/
theorem runOnStdin_meant {script : Script} {rounds : Nat} {data : Bytes}
    (input : k.io.stdio.stdin = some data) :
    Leads (dispatch sys runner) done k
      (fun d o k' => o = .ok (.ended ()) ∧ written d = written done ++ edit script data ∧
        k'.ram = k.ram)
      (runOnStdin (rounds + 2) script) := by
  have fits := Cat.stdin_fits input
  have most : maxIoStdin = 4096 := rfl
  have size : (List.replicate maxIoBuf (0 : UInt8)).length = 4096 := List.length_replicate
  have never : 4096 < u64Max := by decide
  have all : data.take (List.replicate maxIoBuf (0 : UInt8)).length = data :=
    List.take_of_length_le (by omega)
  rw [runOnStdin, editInput]
  refine Leads.bind_ok (read_leads input fun r k₁ stdio ram _ => ⟨_, rfl, ?_⟩)
  rw [all]
  dsimp only
  rw [if_neg (by omega)]
  have silent (n : Nat) (r : Reply) (d : List (Syscall × Reply)) :
      written (d ++ [(.read 0 (some n), r)]) = written d := by
    rw [written_append, written_singleton]
    exact List.append_nil _
  by_cases ended : data.length = 0
  · obtain rfl := List.length_eq_zero_iff.mp ended
    rw [if_pos List.length_nil, edit_nil, List.append_nil]
    exact Leads.pure ⟨rfl, silent .., ram⟩
  · have inside : data.length ≤ (Libos.overwrite (List.replicate maxIoBuf 0) data).length :=
      (List.length_append ..).symm ▸ Nat.le_add_right ..
    rw [if_neg ended, slice_of_le (Nat.zero_le _) inside, lift_ok, Proc.pure_bind, List.drop_zero,
      take_overwrite]
    refine Leads.bind_ok (write_leads fun r' k₂ ram' stdin => ⟨_, rfl, ?_⟩)
    -- The second read finds nothing left
    have rest : k₂.io.stdio.stdin = some [] := by
      rw [stdin, congrArg Stdio.stdin stdio]
      exact congrArg some (List.drop_of_length_le (by omega))
    rw [editInput]
    refine Leads.bind_ok (read_leads rest fun r'' k₃ _ ram'' _ => ⟨_, rfl, ?_⟩)
    rw [List.take_nil]
    dsimp only
    rw [if_neg (by decide), if_pos (by rfl)]
    refine Leads.pure ⟨rfl, ?_, ram''.trans (ram'.trans ram)⟩
    rw [silent, written_append, written_singleton, Syscall.output_stdout, silent]

section Only

variable {P : Syscall → Prop} (write : ∀ fd buf, P (.write fd buf))
  (file : ∀ path buf, P (.readFile path buf))

include write file

theorem runOnFile_only (script : Script) (file' cwd : Bytes) :
    (runOnFile script file' cwd).Only P := by
  rw [runOnFile]
  refine only_bind (only_lift _) fun resolved => ?_
  cases resolved with
  | none => exact (writeStr_onlyWrites _).only write
  | some path => exact (sed_tail_opensFirst script path).only write file

theorem runOnFiles_only (script : Script) (cwd : Bytes) (files : List Bytes) :
    (runOnFiles script cwd files).Only P := by
  induction files with
  | nil => exact only_pure _
  | cons f later ih => exact only_bind (runOnFile_only write file ..) fun _ => ih

end Only

/-- All of what `sed` does, unless it reads the console. -/
theorem start_does (runner : Runner) {rounds other : Nat} (enough : 2 ≤ rounds) {out : Bytes}
    {ram : RamFiles} (argsPass : Passes Libos.maxArgs args) (envPass : Passes Libos.maxEnv env)
    (meaning : sed sys.images args env k.ram k.io.stdio.stdin = some (out, ram)) :
    Does sys runner k out ram (start rounds other (args ++ [0]) (env ++ [0])) := by
  rw [start, cstrToStr_passes argsPass, cstrToStr_passes envPass]
  rw [sed] at meaning
  split at meaning
  next many =>
    obtain ⟨rfl, rfl⟩ := Prod.mk.inj (Option.some.inj meaning)
    exact message_does (by simp only [run, many])
  next nothing =>
    obtain ⟨rfl, rfl⟩ := Prod.mk.inj (Option.some.inj meaning)
    exact message_does (by simp only [run, nothing])
  next text files given =>
    split at meaning
    next refused =>
      obtain ⟨rfl, rfl⟩ := Prod.mk.inj (Option.some.inj meaning)
      exact message_does (by simp only [run, given, refused])
    next script accepted =>
      split at meaning
      next none_ =>
        obtain ⟨data, input, same⟩ := Option.map_eq_some_iff.mp meaning
        obtain ⟨rfl, rfl⟩ := Prod.mk.inj same
        obtain ⟨more, rfl⟩ := Nat.exists_eq_add_of_le' enough
        have whole : run (more + 2) args (startCwd env) = runOnStdin (more + 2) script := by
          simp only [run, given, accepted, none_, if_true]
        refine does_of_leads (run_isIo ..) (by simp [input]) ?_
        rw [whole]
        refine (runOnStdin_meant input).mono ?_
        rintro d o k' ⟨rfl, wrote, kept⟩
        exact ⟨rfl, wrote, kept⟩
      next some_ =>
        obtain ⟨rfl, rfl⟩ := Prod.mk.inj (Option.some.inj meaning)
        have whole : run rounds args (startCwd env) = (do
            runOnFiles script (startCwd env) files
            return .ended ()) := by
          simp only [run, given, accepted, some_, if_false]
        have each : ∀ f ∈ files, Passes Libos.maxArgs f ∧ f ≠ [] := by
          have all := Shell.collectArgs_eq_some given
          intro f hf
          have word : f ∈ splitWhitespace args := by
            rw [← List.nil_append (splitWhitespace args), ← all]
            exact List.mem_cons_of_mem _ hf
          exact ⟨argsPass.word word, (Shell.solid_of_splitWhitespace word).1⟩
        refine does_of_leads (run_isIo ..) (fun _ => ?_) ?_
        · rw [whole]
          exact only_bind (runOnFiles_only (fun _ _ => rfl) (fun _ _ => rfl) ..) fun _ => only_pure _
        · rw [whole]
          refine Leads.bind_ok ((runOnFiles_meant each envPass.startCwd).mono ?_)
          rintro d o k' ⟨rfl, wrote, kept⟩
          exact ⟨_, rfl, Leads.pure ⟨rfl, wrote, kept⟩⟩

end Sed

/-! ### `ls` -/

theorem appendPathComponent_fits {entryPath prefixStr listed : Bytes} {prefixLen bufLen : Nat}
    (fits : listed.length ≤ bufLen) :
    OkIn (·.length ≤ bufLen) (appendPathComponent entryPath prefixStr prefixLen bufLen listed) := by
  refine okIn_ite (fun _ => okIn_pure fits) fun _ => okIn_bind (okIn_of _ fun rest => ?_)
  refine okIn_ite (fun _ => okIn_pure fits) fun _ => okIn_ite (fun _ => okIn_pure fits) fun _ => ?_
  exact okIn_ite (fun room => okIn_pure (by simpa [Nat.add_assoc] using room)) fun _ => okIn_pure fits

/-- A listing fits the buffer. -/
theorem length_listDir (images : Images) (ram : RamFiles) (path : Bytes) (bufLen : Nat) :
    OkIn (·.length ≤ bufLen) (listDir images ram path bufLen) := by
  rw [listDir]
  exact okIn_bind ((okIn_foldlM (fun _ _ fits => appendPathComponent_fits fits) _
    (Nat.zero_le bufLen)).mono fun listed fits =>
      okIn_foldlM (fun _ _ fits => appendPathComponent_fits fits) _ fits)

namespace Ls

/-- An empty listing has no names. -/
theorem printed_whole (buf listed : Bytes) :
    (if listed.length = 0 ∨ (Libos.overwrite buf listed).length < listed.length then pure ()
      else printNames (names listed.length ((Libos.overwrite buf listed).take listed.length))) =
      printNames (names listed.length listed) := by
  rw [Libos.overwrite, List.take_left]
  cases listed with
  | nil => simp [names, printNames]
  | cons b listed =>
    rw [if_neg]
    simp

/-- The program writes the names, unless its directory has no room for its NUL. -/
theorem run_meant (runner : Runner) {out : Bytes} {ram : RamFiles} (dir : Passes Libos.maxEnv (startCwd env))
    (meaning : ls sys.images env k.ram k.io.stdio.stdin = some (out, ram)) :
    ∃ ran, (run (startCwd env)).run (dispatch sys runner) k = some ran ∧ ran.result = .ok () ∧
      written ran.calls = out ∧ ran.state.ram = ram ∧
      (∀ st ∈ ran.steps, st.call.isExec = false) ∧ ∀ st ∈ ran.steps, st.call.asks = false := by
  have size : (List.replicate 1024 (0 : UInt8)).length = 1024 := List.length_replicate
  rw [ls] at meaning
  split at meaning
  next long =>
    obtain ⟨rfl, rfl⟩ := Prod.mk.inj (Option.some.inj meaning)
    refine ⟨⟨.ok (), [], k⟩, ?_, rfl, rfl, rfl, by simp, by simp⟩
    rw [run, Libos.listDir, if_pos long, Proc.pure_bind]
    dsimp only
    rw [if_pos (.inl rfl)]
    exact run_pure.mpr rfl
  next short =>
    split at meaning
    next listed shown =>
      obtain ⟨rfl, rfl⟩ := Prod.mk.inj (Option.some.inj meaning)
      have passes : Passes 127 (startCwd env) := ⟨dir.text, dir.nulFree, by omega⟩
      have fits : listed.length ≤ 1024 := (length_listDir ..).of_ok shown
      rw [← size] at fits shown
      have read := listDir_run runner passes (by rw [size]; decide) (by rw [size]; decide) fits shown
      have printed := printNames_onlyWrites (names listed.length listed)
      obtain ⟨ran, ended⟩ := exists_run printed.isIo sys runner k
      obtain ⟨ok, wrote⟩ := (printNames_leads (names listed.length listed)).ran ended
      obtain ⟨-, -, kept⟩ := printed.leads.ran ended
      refine ⟨_, run_bind.mpr ⟨_, read, .inr ⟨_, ran, rfl, ?_, rfl⟩⟩, ok, ?_, kept, ?_, ?_⟩
      · dsimp only
        rwa [printed_whole]
      · rw [Program.Ran.calls, Program.callsOf_append, written_append]
        have newline : str "\n" = [10] := by decide +kernel
        rw [newline]
        exact wrote
      · exact List.forall_mem_append.mpr
          ⟨List.forall_mem_singleton.mpr rfl, noExec_of_isIo printed.isIo ended⟩
      · exact List.forall_mem_append.mpr
          ⟨List.forall_mem_singleton.mpr rfl, printed.deaf.steps ended⟩
    · cases meaning

/-- All of what `ls` does. -/
theorem start_does (runner : Runner) {other : Nat} {out : Bytes} {ram : RamFiles}
    (envPass : Passes Libos.maxEnv env)
    (meaning : ls sys.images env k.ram k.io.stdio.stdin = some (out, ram)) (argBuf : Bytes) :
    Does sys runner k out ram (start other argBuf (env ++ [0])) := by
  rw [start, cstrToStr_passes envPass]
  obtain ⟨ran, ended, ok, wrote, kept, noExec, deaf⟩ := run_meant runner envPass.startCwd meaning
  refine ⟨⟨0, ran.steps, ran.state⟩, ?_, rfl, wrote, kept, noExec, fun _ => deaf⟩
  rw [Program.run_bind_eq_some]
  exact ⟨ran, _, ended, Program.run_ret _ _, by simp [ok, plainStatus]⟩

end Ls

/-! ### The boot image -/

/-- The images of the boot image are accepted by the loader, and each has an entry. -/
def AcceptedImages (images : Images) : Prop :=
  ∀ path image slotIdx, readFile images path = some image → slotForPath path = some slotIdx →
    ∃ hdr, validateElfForSlot image (slotForIndex slotIdx) = .ok hdr ∧ hdr.entry ≠ 0

/-- Every program but the shell computes its meaning. -/
theorem bootSystem_computes (images : Images) {limits : Limits} (enough : 17 ≤ limits.rounds)
    (path : Bytes) : Computes (bootSystem images limits) (bootMachine images) path := by
  intro runner args env k out ram argsPass envPass meaning
  simp only [bootMachine] at meaning
  simp only [bootSystem, bootProgram]
  split at meaning
  next same =>
    subst same
    obtain ⟨rfl, rfl⟩ := Prod.mk.inj (Option.some.inj meaning)
    rw [if_neg (by decide), if_pos rfl, Echo.start, cstrToStr_passes argsPass]
    refine does_of_leads (Echo.run_onlyWrites _).isIo (fun _ => (Echo.run_onlyWrites _).deaf)
      ((Echo.run_leads args).mono ?_)
    rintro d o k' ⟨rfl, wrote, kept⟩
    exact ⟨rfl, wrote, kept⟩
  split at meaning
  next same =>
    subst same
    obtain ⟨rfl, rfl⟩ := Prod.mk.inj (Option.some.inj meaning)
    rw [if_neg (by decide), if_neg (by decide), if_pos rfl, EnvApp.start, cstrToStr_passes envPass]
    refine does_of_leads (EnvApp.run_onlyWrites _).isIo (fun _ => (EnvApp.run_onlyWrites _).deaf)
      ((EnvApp.run_leads env).mono ?_)
    rintro d o k' ⟨rfl, wrote, kept⟩
    exact ⟨rfl, wrote, kept⟩
  split at meaning
  next same =>
    subst same
    rw [if_neg (by decide), if_neg (by decide), if_neg (by decide), if_pos rfl]
    exact Ls.start_does runner envPass meaning _
  split at meaning
  next same =>
    subst same
    rw [if_neg (by decide), if_neg (by decide), if_neg (by decide), if_neg (by decide), if_pos rfl]
    exact Cat.start_does runner enough argsPass envPass meaning
  split at meaning
  next same =>
    subst same
    rw [if_neg (by decide), if_neg (by decide), if_neg (by decide), if_neg (by decide),
      if_neg (by decide), if_pos rfl]
    exact Tee.start_does runner enough argsPass meaning _
  split at meaning
  next same =>
    subst same
    rw [if_neg (by decide), if_neg (by decide), if_neg (by decide), if_neg (by decide),
      if_neg (by decide), if_neg (by decide), if_pos rfl]
    exact Sed.start_does runner (Nat.le_trans (by decide) enough) argsPass envPass meaning
  · cases meaning

/-- The built system is one that the machine describes, to the shell as to any other program. -/
theorem bootSystem_holds {images : Images} {limits : Limits} (accepted : AcceptedImages images)
    (enough : 17 ≤ limits.rounds) (own : Nat) :
    Holds (bootSystem images limits) (bootMachine images) own where
  images := rfl
  accepted := fun path image slotIdx file slot _ => accepted path image slotIdx file slot
  computes := fun path _ _ _ => bootSystem_computes images enough path

/-- Any exec of the built system, with any arguments, input and capture: the status, the captured bytes,
the files and the console are those that the meaning of the program says, and the table and the stdio
context are as before. -/
theorem exec_means (images : Images) (limits : Limits) (accepted : AcceptedImages images)
    (enough : 17 ≤ limits.rounds) (own depth : Nat) (k : Kernel) (alone : Alone own k.pm)
    (context : k.io.stdio = ⟨none, none⟩) (path args env : Bytes) (stdin : Option Bytes)
    (cap : Option Nat) (argsPass : Passes Libos.maxArgs args) (envPass : Passes Libos.maxEnv env)
    (short : ∀ data, stdin = some data → data.length ≤ maxIoStdin) (status : Nat) (captured : Bytes)
    (w' : World)
    (launched : (bootMachine images).launch own path args env stdin cap (ofKernel k) =
      some (status, captured, w')) :
    ∃ k', execWithIo (bootSystem images limits) (runImage (bootSystem images limits) (depth + 1)) k
        path args env stdin cap = some (status, captured, k') ∧
      ofKernel k' = w' ∧ k'.io.stdio = ⟨none, none⟩ ∧ Regained k.pm k'.pm := by
  obtain ⟨k', ended, hosts⟩ := Hosts.launch ⟨rfl, context, .rfl alone.bound⟩ alone
    (bootSystem_holds accepted enough own) argsPass envPass short launched depth
  exact ⟨k', ended, hosts.world, hosts.context, hosts.table⟩

theorem acceptedImages_bare : AcceptedImages bareImages :=
  fun _ _ _ file slot => bareImages_accepted file slot

theorem exec_means_sed :
    ∃ k k', execWithIo (bootSystem bareImages ⟨17, 0, 0, 0⟩)
        (runImage (bootSystem bareImages ⟨17, 0, 0, 0⟩) 1) k (str "/bin/sed") (str "s/l/L/g") []
          (some (str "hello")) (some 4096) = some (0, str "heLLo", k') ∧ Regained k.pm k'.pm := by
  obtain ⟨pm, alone⟩ := exists_alone
  have edits : ((bootMachine bareImages).launch 0 (str "/bin/sed") (str "s/l/L/g") []
      (some (str "hello")) (some 4096) (ofKernel typing)).map (fun ended => (ended.1, ended.2.1)) =
        some (0, str "heLLo") := by decide +kernel
  obtain ⟨⟨status, out, w'⟩, launched, same⟩ := Option.map_eq_some_iff.mp edits
  obtain ⟨rfl, rfl⟩ := Prod.mk.inj same
  obtain ⟨k', ended, -, -, table⟩ := exec_means bareImages ⟨17, 0, 0, 0⟩ acceptedImages_bare
    (Nat.le_refl 17) 0 0 { typing with pm } alone rfl (str "/bin/sed")
    (str "s/l/L/g") [] (some (str "hello")) (some 4096)
    ⟨by decide +kernel, by decide, by decide⟩ ⟨valid_nil, by simp, by decide⟩
    (fun data same => Option.some.inj same ▸ by decide) 0 (str "heLLo") w' launched
  exact ⟨_, k', ended, table⟩

end Smultron
