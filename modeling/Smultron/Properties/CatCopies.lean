import Smultron.Properties.ProgramLines
import Smultron.Properties.ProgramStarts
import Smultron.Properties.SedFiles
import Smultron.Properties.WorkingDir

/-!
# Copies made with cat

A file that is named to `cat` is read at once, and a line end is written behind it where it has none.
Redirected input is copied in pieces of 256 bytes, as it is. So the output of both is the file only
where the file ends with a line end, or where the capture has no room for one more byte.
-/

namespace Smultron.Cat

open Checked Checked.Outcome Proc Process Utf8 Vfs

variable {sys : System} {runner : Runner} {k : Kernel} {done : List (Syscall × Reply)}
  {depth rounds other : Nat} {args envStr cwd file path content rest buf out : Bytes}

/-- The line end `cat` writes behind a file that has none. -/
def lineEnd (content : Bytes) : Bytes := if content.getLast? = some 10 then [] else [10]

/-! ### What `cat` writes -/

/-- Redirected input is copied to its end, 256 bytes a round. -/
theorem copyInput_leads (size : buf.length = 256) (input : k.io.stdio.stdin = some rest)
    (enough : rest.length + 256 ≤ 256 * rounds) :
    Leads (dispatch sys runner) done k
      (fun d o _ => o = .ok (.ended ()) ∧ written d = written done ++ rest)
      (copyInput rounds buf) := by
  induction rounds generalizing buf rest done k with
  | zero => omega
  | succ rounds ih =>
    rw [copyInput]
    refine Leads.bind_ok (read_leads input fun r k₁ stdio _ _ => ⟨_, rfl, ?_⟩)
    have most : (rest.take buf.length).length ≤ 256 := by rw [List.length_take]; omega
    have never : (256 : Nat) < u64Max := by decide
    dsimp only
    by_cases ended : (rest.take buf.length).length = 0
    · have empty : rest = [] := by
        rw [List.length_take] at ended
        exact List.length_eq_zero_iff.mp (by omega)
      rw [if_pos (.inl ended)]
      refine Leads.pure ⟨rfl, ?_⟩
      rw [written_append, written_singleton, empty]
      rfl
    · have inside : (rest.take buf.length).length ≤ rest.length := List.length_take_le' ..
      have whole : (Libos.overwrite buf (rest.take buf.length)).length = 256 :=
        (Shell.length_overwrite (by omega)).trans size
      rw [if_neg (by omega), take_overwrite]
      refine Leads.bind_ok (write_leads fun w k₂ _ stdin => ⟨_, rfl, ?_⟩)
      refine (ih whole (stdin.trans (congrArg Stdio.stdin stdio)) ?_).mono ?_
      · rw [List.length_drop]
        omega
      · rintro d o k' ⟨rfl, wrote⟩
        refine ⟨rfl, ?_⟩
        rw [wrote, written_append, written_append, written_singleton, written_singleton,
          Syscall.output_read, Syscall.output_stdout, List.append_nil, List.append_assoc,
          List.take_append_drop]

/-- A file is written with a line end behind it. -/
theorem printFile_leads (passes : Passes 127 path) (nonempty : content ≠ [])
    (stored : readFileBytes sys.images k.ram path 4096 = some content) :
    Leads (dispatch sys runner) done k
      (fun d o _ => o = .ok () ∧ written d = written done ++ content ++ lineEnd content)
      (printFile path) := by
  have size : (List.replicate 4096 (0 : UInt8)).length = 4096 := List.length_replicate
  have few : content.length ≤ 4096 := length_readFileBytes stored
  have some_ := List.length_pos_iff.mpr nonempty
  rw [← size] at stored
  rw [printFile]
  refine Leads.bind_ok (readFile_leads passes (by rw [size]; decide) (by rw [size]; decide) stored
    ⟨_, rfl, ?_⟩)
  dsimp only [Option.map_some, Option.getD_some]
  rw [if_neg (by omega), take_overwrite]
  refine Leads.bind_ok (write_leads fun r k₁ _ _ => ⟨_, rfl, ?_⟩)
  have inside : content.length - 1 < (Libos.overwrite (List.replicate 4096 0) content).length := by
    rw [Libos.overwrite, List.length_append]
    omega
  have last : (Libos.overwrite (List.replicate 4096 0) content)[content.length - 1] =
      content.getLast nonempty := by
    rw [List.getLast_eq_getElem]
    exact List.getElem_append_left (by omega)
  rw [sub_of_le (by omega), lift_ok, Proc.pure_bind, index_of_lt inside, lift_ok, Proc.pure_bind, last]
  have wrote : written (done ++ [(.readFile (some (path ++ [0])) (some (List.replicate 4096 (0 : UInt8)).length),
      fileReply (some content))] ++ [(.write 1 (some content), r)]) = written done ++ content := by
    have copied : (Syscall.write 1 (some content)).output = content := rfl
    rw [written_append, written_append, written_singleton, written_singleton, copied]
    -- To read the file writes nothing
    exact congrArg (· ++ content) (List.append_nil (written done))
  by_cases there : content.getLast nonempty = 10
  · have none_ : lineEnd content = [] := by
      rw [lineEnd, List.getLast?_eq_some_getLast nonempty, there, if_pos rfl]
    rw [if_neg (not_not.mpr there), none_, List.append_nil]
    exact Leads.pure ⟨rfl, wrote⟩
  · have missing : lineEnd content = [10] := by
      rw [lineEnd, List.getLast?_eq_some_getLast nonempty, if_neg (by simpa using there)]
    rw [if_pos there, missing]
    refine Leads.bind_ok (write_leads fun r' k₂ _ _ => ⟨_, rfl, Leads.pure ⟨rfl, ?_⟩⟩)
    rw [written_append, wrote]
    rfl

theorem printFile_isIo (path : Bytes) : (printFile path).Only (·.isIo = true) := by
  obtain ⟨tail, writes, whole⟩ := printFile_opensFirst path
  rw [whole]
  exact only_bind (readFile_isIo ..) fun found => (writes found).isIo

theorem read_isIo (fd : Nat) (buf : Bytes) : (Libos.read fd buf).Only (·.isIo = true) :=
  only_bind (only_request rfl) fun _ => only_pure _

theorem copyInput_isIo (rounds : Nat) (buf : Bytes) : (copyInput rounds buf).Only (·.isIo = true) := by
  induction rounds generalizing buf with
  | zero => exact only_pure _
  | succ rounds ih =>
    rw [copyInput]
    refine only_bind (read_isIo ..) fun found => ?_
    obtain ⟨n, buf⟩ := found
    dsimp only
    split
    · exact only_pure _
    · exact only_bind (write_onlyWrites _ _).isIo fun _ => ih buf

/-- cat starts no program. -/
theorem run_isIo (rounds : Nat) (args cwd : Bytes) : (run rounds args cwd).Only (·.isIo = true) := by
  rw [run]
  split
  · exact copyInput_isIo ..
  · refine only_bind (only_lift _) fun resolved => ?_
    cases resolved with
    | none => exact only_bind (writeStr_onlyWrites _).isIo fun _ => only_pure _
    | some path => exact only_bind (printFile_isIo path) fun _ => only_pure _

/-- The file that `cat` means by its argument. -/
theorem run_file_leads (nonempty : content ≠ []) (named : file ≠ []) (trimmed : trim file = file)
    (dir : cwd.length ≤ Shell.maxVal) (passes : Passes 127 (pathUnder cwd file))
    (stored : readFileBytes sys.images k.ram (pathUnder cwd file) 4096 = some content) :
    Leads (dispatch sys runner) [] k
      (fun d o _ => o = .ok (.ended ()) ∧ written d = content ++ lineEnd content)
      (run rounds file cwd) := by
  have resolved : (resolvePath file cwd : Outcome Empty _) = .ok (some (pathUnder cwd file)) :=
    resolveFrom_passes passes dir
  rw [run, trimmed, if_neg named, resolved, lift_ok, Proc.pure_bind]
  refine Leads.bind_ok ((printFile_leads passes nonempty stored).mono ?_)
  rintro d o k' ⟨rfl, wrote⟩
  exact ⟨(), rfl, Leads.pure ⟨rfl, wrote⟩⟩

/-- All of the redirected input. -/
theorem run_input_leads (input : k.io.stdio.stdin = some content) (enough : content.length + 256 ≤ 256 * rounds) :
    Leads (dispatch sys runner) [] k
      (fun d o _ => o = .ok (.ended ()) ∧ written d = content) (run rounds [] cwd) := by
  have blank : trim [] = [] := by decide +kernel
  rw [run, blank, if_pos rfl]
  exact copyInput_leads List.length_replicate input enough

/-! ### What the shell captures -/

/-- The shell runs the program, captures its output, and finds `out` at the front of the buffer. -/
def Captures (sys : System) (depth : Nat) (k : Kernel) (env : Shell.Env) (cmd args : Bytes)
    (stdin : Option Bytes) (out : Bytes) : Prop :=
  ∀ captureBuf : Bytes, captureBuf.length = Shell.maxIoBuf →
    Proc.Ends (dispatch sys (runImage sys depth)) k
      (fun o _ => ∃ buf, o = .ok (0, out.length, buf) ∧ buf.take out.length = out)
      (Shell.execFromBinIo env cmd args stdin true captureBuf)

theorem Captures.unique {env : Shell.Env} {cmd : Bytes} {stdin : Option Bytes} {out' : Bytes}
    (h : Captures sys depth k env cmd args stdin out) (h' : Captures sys depth k env cmd args stdin out') :
    out = out' := by
  obtain ⟨ran, ended, buf, result, front⟩ := h (List.replicate _ 0) List.length_replicate
  obtain ⟨ran', ended', buf', result', front'⟩ := h' (List.replicate _ 0) List.length_replicate
  obtain rfl := Option.some.inj (ended.symm.trans ended')
  obtain ⟨-, rest⟩ := Prod.mk.inj (Outcome.ok.inj (result.symm.trans result'))
  obtain ⟨size, rfl⟩ := Prod.mk.inj rest
  rw [← front, ← front', size]

section Captured

variable {env : Shell.Env} (h : Shell.Presentable env.slots)
  (installed : Installed sys k (str "/bin/cat") 4 (start rounds other))

theorem catPath : (Shell.resolveBinPath (str "cat") : Outcome Empty _) = .ok (some (str "/bin/cat")) ∧
    Passes Libos.maxPath (str "/bin/cat") :=
  ⟨by decide +kernel, by decide +kernel, by decide, by decide⟩

include h installed

theorem captures_of_leads {stdin : Option Bytes} (ha : Passes Libos.maxArgs args)
    (runs : ∀ k' : Kernel, k'.ram = k.ram →
      k'.io.stdio.stdin = (redirected stdin).map (List.take maxIoStdin) →
      Leads (dispatch sys (runImage sys depth)) [] k'
        (fun d o _ => o = .ok (.ended ()) ∧ written d = content) (run rounds args (startCwd env.text)))
    (front : content.take 4096 = out) :
    Captures sys (depth + 1) k env (str "cat") args stdin out := by
  intro captureBuf size
  obtain ⟨k', ran⟩ := installed.captured ha (Shell.text_passes h) (run_isIo rounds _ _)
    (redirected stdin) runs
  rw [front] at ran
  obtain ⟨resolved, path⟩ := catPath
  refine (Shell.execFromBinIo_captures h resolved path ha size ran).mono ?_
  rintro o k₂ ⟨rfl, -⟩
  exact ⟨_, rfl, take_overwrite captureBuf out⟩

/-- `cat file` -/
theorem file_captured (value : Shell.getEnv env Shell.cwdKey = some cwd) (nonempty : content ≠ [])
    (named : file ≠ []) (trimmed : trim file = file) (isText : Valid file)
    (passes : Passes 127 (pathUnder cwd file))
    (stored : storedFile sys.images k.ram (pathUnder cwd file) = some content)
    (fits : content.length ≤ 4096) :
    Captures sys (depth + 1) k env (str "cat") file none
      ((content ++ lineEnd content).take 4096) := by
  have dir : startCwd env.text = cwd := Option.some.inj ((Shell.startCwd_text h).symm.trans value)
  have inside := suffix_pathUnder cwd file
  have ha : Passes Libos.maxArgs file :=
    ⟨isText, fun nul => passes.nulFree (inside.subset nul),
      inside.length_le.trans (passes.short.trans (by decide))⟩
  refine captures_of_leads h installed ha (fun k' ram _ => ?_) rfl
  rw [dir]
  refine run_file_leads nonempty named trimmed (Shell.getEnv_length value) passes ?_
  rw [readFileBytes_eq, ram, stored, Option.map_some, List.take_of_length_le fits]

/-- `cat < file`, with what the shell has read. -/
theorem input_captured (nonempty : content ≠ []) (fits : content.length ≤ 4096) (enough : 17 ≤ rounds) :
    Captures sys (depth + 1) k env (str "cat") [] (some content) content := by
  have ha : Passes Libos.maxArgs [] := ⟨valid_nil, List.not_mem_nil, Nat.zero_le _⟩
  have size := List.length_pos_iff.mpr nonempty
  refine captures_of_leads h installed ha (fun k' _ stdin => ?_) (List.take_of_length_le fits)
  have input : redirected (some content) = some content := by
    rw [redirected, if_neg (by omega)]
    exact congrArg some (List.take_of_length_le fits)
  rw [input, Option.map_some] at stdin
  refine run_input_leads (stdin.trans (congrArg some (List.take_of_length_le fits))) (by omega)

end Captured

theorem take_lineEnd_iff (fits : content.length ≤ 4096) :
    (content ++ lineEnd content).take 4096 = content ↔
      content.getLast? = some 10 ∨ content.length = 4096 := by
  rw [lineEnd]
  split
  next there => simp [there, List.take_of_length_le fits]
  next missing =>
    constructor
    · intro same
      have size := congrArg List.length same
      rw [List.length_take, List.length_append, List.length_singleton] at size
      exact .inr (by omega)
    · rintro (there | full)
      · exact absurd there missing
      · exact List.take_left' full

/-- The shell captures a file as it is where it redirects it to `cat`, and with a line end behind it
where `cat` opens it. -/
theorem cat_copies (sys : System) (depth rounds other : Nat) (k : Kernel) (lines : List Bytes)
    (env : Shell.Env) (cwd file content : Bytes) (ws : List (Bytes × Bytes))
    (reached : Shell.Reached lines env) (typed : ∀ l ∈ lines, Shell.Typed l)
    (value : Shell.getEnv env Shell.cwdKey = some cwd) (some_ : cwd ≠ [])
    (installed : Installed sys k (str "/bin/cat") 4 (start rounds other)) (enough : 17 ≤ rounds)
    (files : k.ram = (writeFiles RamFiles.empty ws).2) (texts : ∀ w ∈ ws, Passes 127 w.1)
    (named : file ≠ []) (trimmed : trim file = file) (isText : Valid file)
    (stored : storedFile sys.images k.ram (pathUnder cwd file) = some content)
    (nonempty : content ≠ []) (fits : content.length ≤ 4096) :
    Captures sys (depth + 1) k env (str "cat") file none
        ((content ++ lineEnd content).take 4096) ∧
      Proc.Ends (dispatch sys (runImage sys (depth + 1))) k
        (fun o k' => o = .ok (some content) ∧ k' = k) (Shell.openInput env file) ∧
      Captures sys (depth + 1) k env (str "cat") [] (some content) content ∧
      ((content ++ lineEnd content).take 4096 = content ↔
        content.getLast? = some 10 ∨ content.length = 4096) := by
  have h := Shell.presentable_reached reached typed
  have passes : Passes 127 (pathUnder cwd file) := passes_of_stored texts (files ▸ stored)
  have dir : Shell.cwdOf env = cwd :=
    Shell.cwdOf_eq value (Shell.getEnv_oneLine h (by decide) value).text
  refine ⟨file_captured h installed value nonempty named trimmed isText passes stored fits,
    Shell.openInput_ends (dir ▸ some_) (dir ▸ passes) ?_,
    input_captured h installed nonempty fits enough, take_lineEnd_iff fits⟩
  rw [dir, readFileBytes_eq, stored, Option.map_some]
  exact congrArg some (List.take_of_length_le fits)

/-- A system whose every image holds cat. -/
def catSystem : System := ⟨bareImages, fun _ argBuf envBuf => start 17 0 argBuf envBuf⟩

/-- The kernel holds a file of two bytes without a line end. -/
def noteKernel : Kernel := Sed.fileKernel (str "/note") (str "hi")

theorem noteKernel_installed : Installed catSystem noteKernel (str "/bin/cat") 4 (start 17 0) where
  image := fun _ _ => rfl
  mapped := by decide +kernel
  accepted := ⟨bareImage, ⟨1, 64, 56, 0⟩, by decide +kernel, by decide +kernel, by decide⟩
  table := ⟨[], by decide, rfl⟩
  free := by decide

theorem cat_copies_note : ∃ env, Captures catSystem 1 noteKernel env (str "cat") (str "note") none
      (str "hi\n") ∧
    Captures catSystem 1 noteKernel env (str "cat") [] (some (str "hi")) (str "hi") := by
  obtain ⟨env, reached, value⟩ := Shell.root_reached
  have both := cat_copies catSystem 0 17 0 noteKernel [] env (str "/") (str "note") (str "hi")
    [(str "/note", str "hi")] reached nofun value (by decide) noteKernel_installed (Nat.le_refl 17) rfl
    (by rw [List.forall_mem_singleton]; exact ⟨by decide +kernel, by decide, by decide⟩) (by decide)
    (by decide +kernel) (by decide +kernel) (by decide +kernel) (by decide) (by decide)
  have more : (str "hi" ++ lineEnd (str "hi")).take 4096 = str "hi\n" := by decide +kernel
  rw [more] at both
  exact ⟨env, both.1, both.2.2.1⟩

/-- The file has no line end, but what is captured of `cat note` has one. -/
theorem cat_adds_line_end : ∃ env, Shell.Reached [] env ∧
    Shell.getEnv env Shell.cwdKey = some (str "/") ∧
    storedFile catSystem.images noteKernel.ram (str "/note") = some (str "hi") ∧
    Captures catSystem 1 noteKernel env (str "cat") (str "note") none (str "hi\n") ∧
    ¬Captures catSystem 1 noteKernel env (str "cat") (str "note") none (str "hi") := by
  obtain ⟨env, reached, value⟩ := Shell.root_reached
  have stored : storedFile catSystem.images noteKernel.ram (pathUnder (str "/") (str "note")) =
      some (str "hi") := by decide +kernel
  have captured : Captures catSystem (0 + 1) noteKernel env (str "cat") (str "note") none
      ((str "hi" ++ lineEnd (str "hi")).take 4096) :=
    file_captured (Shell.presentable_reached reached nofun) noteKernel_installed value (by decide)
      (by decide) (by decide +kernel) (by decide +kernel)
      ⟨by decide +kernel, by decide, by decide⟩ stored (by decide)
  have more : (str "hi" ++ lineEnd (str "hi")).take 4096 = str "hi\n" := by decide +kernel
  rw [more] at captured
  refine ⟨env, reached, value, stored, captured, fun other => ?_⟩
  exact absurd (captured.unique other) (by decide)

end Smultron.Cat
