import Smultron.Properties.ProgramLines
import Smultron.Properties.ProgramStarts
import Smultron.Properties.SedFiles
import Smultron.Properties.WorkingDir

/-!
# sed with a redirected file

A file can be named to sed or to the shell. sed puts the name behind the directory it finds in its
environment and reads the file itself; the shell puts it behind its own directory, reads the file
and hands the bytes on, and sed gets all of them with one read. Both ways lead to the same file and
the same bytes of it.
-/

namespace Smultron.Sed

open Checked Checked.Outcome ElfLoader Proc Process SlotTable Utf8 Vfs

variable {sys : System} {runner : Runner} {k : Kernel} {depth rounds other : Nat}
  {args envStr text cwd content out : Bytes} {script : Script}

/-! ### The input in one piece -/

/-- Input that fits the buffer is read at once. -/
theorem runOnStdin_leads (input : k.io.stdio.stdin = some content) (some_ : content ≠ [])
    (fits : content.length ≤ maxIoBuf) :
    Leads (dispatch sys runner) [] k
      (fun d o _ => o = .ok (.ended ()) ∧ written d = edit script content)
      (runOnStdin (rounds + 2) script) := by
  have size : (List.replicate maxIoBuf (0 : UInt8)).length = maxIoBuf := List.length_replicate
  have never : maxIoBuf < u64Max := by decide
  have more := List.length_pos_iff.mpr some_
  have all : content.take (List.replicate maxIoBuf (0 : UInt8)).length = content :=
    List.take_of_length_le (fits.trans (Nat.le_of_eq size.symm))
  have whole : (Libos.overwrite (List.replicate maxIoBuf 0) content).length = maxIoBuf :=
    (Shell.length_overwrite (by omega)).trans size
  rw [runOnStdin, editInput]
  refine Leads.bind_ok (read_leads input fun r k₁ stdio _ _ => ⟨_, rfl, ?_⟩)
  rw [all]
  dsimp only
  rw [if_neg (by omega), if_neg (by omega), slice_of_le (Nat.zero_le _) (by omega), lift_ok,
    Proc.pure_bind, List.drop_zero, take_overwrite]
  refine Leads.bind_ok (write_leads fun w k₂ _ stdin => ⟨_, rfl, ?_⟩)
  -- Nothing is left for the second read
  have left : k₂.io.stdio.stdin = some [] := by
    rw [stdin, stdio, size, List.drop_of_length_le fits]
  rw [editInput]
  refine Leads.bind_ok (read_leads left fun r' k₃ _ _ _ => ⟨_, rfl, ?_⟩)
  dsimp only
  rw [List.take_nil, if_neg (by decide), if_pos List.length_nil]
  refine Leads.pure ⟨rfl, ?_⟩
  rw [written_append, written_append, written_singleton, written_singleton]
  exact List.append_nil _

theorem run_input (given : tokens args = some [text]) (accepted : parseScript text = some script)
    (input : k.io.stdio.stdin = some content) (some_ : content ≠ [])
    (fits : content.length ≤ maxIoBuf) :
    ∃ ran, (run (rounds + 2) args cwd).run (dispatch sys runner) k = some ran ∧
      ran.result = .ok (.ended ()) ∧ written ran.calls = edit script content := by
  have whole : run (rounds + 2) args cwd = runOnStdin (rounds + 2) script := by
    simp only [run, given, accepted, if_true]
  obtain ⟨ran, ended⟩ := exists_run (run_isIo (rounds + 2) args cwd) sys runner k
  rw [whole] at ended ⊢
  exact ⟨ran, ended, (runOnStdin_leads input some_ fits).ran ended⟩

/-! ### The program in its slot -/

/-- The boot image holds sed, and the kernel has a slot for it. -/
structure Startable (sys : System) (k : Kernel) (rounds other : Nat) : Prop where
  image : ∀ argBuf envBuf, sys.image (str "/bin/sed") argBuf envBuf = start rounds other argBuf envBuf
  accepted : ∃ hdr, validateElfForSlot sys.images.sed (slotForIndex 6) = .ok hdr ∧ hdr.entry ≠ 0
  table : ∃ calls, ProcessManager.new.spawns calls < u64Max ∧ k.pm = ProcessManager.new.after calls
  free : k.pm.slotsInUse[6]? = some false

theorem Startable.installed (h : Startable sys k rounds other) :
    Installed sys k (str "/bin/sed") 6 (startOf other (run rounds)) where
  image argBuf envBuf := by rw [h.image, start, startOf]
  mapped := by decide +kernel
  accepted :=
    have ⟨hdr, accepted, entry⟩ := h.accepted
    ⟨sys.images.sed, hdr, rfl, accepted, entry⟩
  table := h.table
  free := h.free

/-- An exec of sed does what `run` does, with its strings and its input. -/
theorem execWithIo_sed (h : Startable sys k rounds other) (ha : Passes Libos.maxArgs args)
    (he : Passes Libos.maxEnv envStr) (stdin : Option Bytes)
    (runs : ∀ k' : Kernel, k'.ram = k.ram → k'.io.stdio.stdin = stdin.map (List.take maxIoStdin) →
      ∃ ran, (run rounds args (startCwd envStr)).run (dispatch sys (runImage sys depth)) k' =
        some ran ∧ ran.result = .ok (.ended ()) ∧ written ran.calls = out) :
    ∃ captured k', execWithIo sys (runImage sys (depth + 1)) k (str "/bin/sed") args envStr stdin none =
        some (0, captured, k') ∧ RanOnce (str "/bin/sed") out k k' := by
  obtain ⟨started, ran, ended, child, noExec⟩ :=
    h.installed.childRun_body ha he (run_isIo rounds args (startCwd envStr)) stdin none
  obtain ⟨ran', ended', ok, wrote⟩ := runs (childKernel k stdin none started) rfl
    (congrArg Stdio.stdin (IoState.stdio_setUp ..))
  obtain rfl := Option.some.inj (ended.symm.trans ended')
  rw [ok] at child
  obtain ⟨captured, k', whole, once⟩ := execWithIo_ranOnce child noExec
  exact ⟨captured, k', whole, wrote ▸ once⟩

/-! ### Two lines -/

/-- The line comes to its end, and has run sed once, which wrote `out` to the console. -/
def SedWrites (sys : System) (depth : Nat) (k : Kernel) (env : Shell.Env) (line out : Bytes) : Prop :=
  Proc.Ends (dispatch sys (runImage sys depth)) k
    (fun o k' => o = .ok (true, env) ∧ RanOnce (str "/bin/sed") out k k') (Shell.dispatch env line)

section Lines

open Shell

variable {env : Env} {line file : Bytes} (h : Presentable env.slots) (value : getEnv env cwdKey = some cwd)
  (some_ : cwd ≠ []) (startable : Startable sys k rounds other) (passes : Passes 127 (pathUnder cwd file))
  (stored : storedFile sys.images k.ram (pathUnder cwd file) = some content)
  (accepted : parseScript text = some script)

theorem sedPath : isBuiltin (str "sed") = false ∧
    (resolveBinPath (str "sed") : Outcome Empty _) = .ok (some (str "/bin/sed")) ∧
    Passes Libos.maxPath (str "/bin/sed") :=
  ⟨by decide, by decide +kernel, by decide +kernel, by decide, by decide⟩

include h value startable passes stored accepted

/-- `sed script file` -/
theorem named_writes (solid : Solid text) (isText : Valid text) (arg : PathArg file)
    (means : Means env line ([str "sed", text, file].map fun w => ⟨.word, w⟩))
    (ha : Passes Libos.maxArgs (text ++ 32 :: file)) :
    SedWrites sys (depth + 1) k env line (edit script (content.take maxIoBuf)) := by
  have dir : startCwd env.text = cwd := Option.some.inj ((startCwd_text h).symm.trans value)
  have short : cwd.length ≤ maxVal := getEnv_length value
  have resolved : (resolvePath file cwd : Outcome Empty _) = .ok (some (pathUnder cwd file)) :=
    resolveFrom_passes passes short
  obtain ⟨program, path, fits⟩ := sedPath
  rw [← joined_pair solid.1] at ha
  have given : tokens (joined [text, file]) = some [text, file] := by
    rw [joined_pair solid.1]
    exact sed_tokens isText solid arg
  obtain ⟨captured, k', ran, once⟩ := execWithIo_sed startable ha (text_passes h) none
    fun k' ram _ => run_file rounds given accepted (dir ▸ resolved) passes (by
      rw [readFileBytes_eq, ram, stored, Option.map_some])
  refine (dispatch_words_ends h means program path fits ha ran (by decide)).mono ?_
  rintro o k₂ ⟨rfl, rfl⟩
  exact ⟨rfl, once⟩

include some_ in
/-- `sed script < file` -/
theorem redirected_writes (enough : 2 ≤ rounds) (solid : Solid text) (isText : Valid text)
    (nonempty : content ≠ []) (means : Means env line (inputLexemes (str "sed") [text] file))
    (ha : Passes Libos.maxArgs text) :
    SedWrites sys (depth + 1) k env line (edit script (content.take maxIoBuf)) := by
  have dir : cwdOf env = cwd := cwdOf_eq value (getEnv_oneLine h (by decide) value).text
  obtain ⟨program, path, fits⟩ := sedPath
  have whole : joined [text] = text := (if_pos rfl : putWord [] text = text)
  have given : tokens (joined [text]) = some [text] := by
    have few : [text].length ≤ maxTokens := Nat.le_of_ble_eq_true rfl
    exact (collectArgs_iff few).mpr (splitWhitespace_joined (by simp [isText]) (by simp [solid]))
  have front : content.take maxIoBuf ≠ [] := by
    have most : maxIoBuf ≠ 0 := by decide
    simp [nonempty, most]
  have few : (content.take maxIoBuf).length ≤ maxIoBuf := List.length_take_le ..
  obtain ⟨rounds, rfl⟩ := Nat.exists_eq_add_of_le' enough
  rw [← whole] at ha
  have opened : Proc.Ends (dispatch sys (runImage sys (depth + 1))) k
      (fun o k' => o = .ok (some (content.take maxIoBuf)) ∧ k' = k) (openInput env file) := by
    refine openInput_ends (dir ▸ some_) (dir ▸ passes) ?_
    rw [dir, readFileBytes_eq, stored, Option.map_some]
    rfl
  have input : redirected (some (content.take maxIoBuf)) = some (content.take maxIoBuf) := by
    rw [redirected, if_neg (by simpa using front)]
    exact congrArg some (List.take_of_length_le few)
  obtain ⟨captured, k', ran, once⟩ := execWithIo_sed startable ha (text_passes h)
    (some (content.take maxIoBuf)) fun k' _ stdin =>
      run_input given accepted (stdin.trans (congrArg some (List.take_of_length_le few))) front few
  rw [← input] at ran
  refine (dispatch_input_ends h means (by decide : 1 < 32) program path fits ha opened ran (by decide)).mono ?_
  rintro o k₂ ⟨rfl, rfl⟩
  exact ⟨rfl, once⟩

end Lines

open Shell

/-- From any directory that is not empty, a file named to sed and the same file named to the shell
give the same output. -/
theorem redirected_like_named (sys : System) (depth rounds other : Nat) (k : Kernel)
    (lines : List Bytes) (env : Env) (cwd line line' text file content : Bytes) (script : Script)
    (ws : List (Bytes × Bytes)) (reached : Reached lines env) (typed : ∀ l ∈ line :: lines, Typed l)
    (value : getEnv env cwdKey = some cwd) (some_ : cwd ≠ [])
    (startable : Startable sys k rounds other) (enough : 2 ≤ rounds)
    (files : k.ram = (writeFiles RamFiles.empty ws).2) (texts : ∀ w ∈ ws, Passes 127 w.1)
    (stored : storedFile sys.images k.ram (pathUnder cwd file) = some content)
    (nonempty : content ≠ []) (accepted : parseScript text = some script) (solid : Solid text)
    (solid' : Solid file) (fits : text.length + 1 + file.length ≤ 191)
    (means : Means env line ([str "sed", text, file].map fun w => ⟨.word, w⟩))
    (means' : Means env line' (inputLexemes (str "sed") [text] file)) :
    SedWrites sys (depth + 1) k env line (edit script (content.take 4096)) ∧
      SedWrites sys (depth + 1) k env line' (edit script (content.take 4096)) := by
  rw [List.forall_mem_cons] at typed
  have h := presentable_reached reached typed.2
  have passes : Passes 127 (pathUnder cwd file) := passes_of_stored texts (files ▸ stored)
  -- The words are parts of the line, so they are texts without a NUL
  obtain ⟨cs, whole⟩ := valid_iff.mp (valid_expanded env line)
  have valid := scan_valid keeps_between (whole ▸ means.1)
  have parts := scan_subset means.1
  have isText : Valid text := valid ⟨.word, text⟩ (by simp)
  have isFile : Valid file := valid ⟨.word, file⟩ (by simp)
  have textNul : 0 ∉ text := fun nul =>
    (expanded_clean h typed.1.clean).1 (parts ⟨.word, text⟩ (by simp) nul)
  have inside := suffix_pathUnder cwd file
  have arg : PathArg file :=
    ⟨⟨isFile, fun nul => passes.nulFree (inside.subset nul), inside.length_le.trans passes.short⟩,
      solid'⟩
  have space : Valid [32] := by decide +kernel
  have ha : Passes Libos.maxArgs text := ⟨isText, textNul, (by omega : text.length ≤ 191)⟩
  have ha' : Passes Libos.maxArgs (text ++ 32 :: file) := by
    refine ⟨isText.append (space.append isFile), by simp [textNul, arg.passes.nulFree], ?_⟩
    rw [List.length_append, List.length_cons]
    exact (by omega : text.length + (file.length + 1) ≤ 191)
  exact ⟨named_writes h value startable passes stored accepted solid isText arg means ha',
    redirected_writes h value some_ startable passes stored accepted enough solid isText nonempty
      means' ha⟩

/-- A system whose every image holds sed. -/
def sedSystem : System := ⟨bareImages, fun _ argBuf envBuf => start 2 0 argBuf envBuf⟩

theorem redirected_like_named_note : ∃ env, getEnv env cwdKey = some (str "/") ∧
    SedWrites sedSystem 1 (fileKernel (str "/note") (str "foo")) env (str "sed s/o/0/ note")
      (str "f0o") ∧
    SedWrites sedSystem 1 (fileKernel (str "/note") (str "foo")) env (str "sed s/o/0/ < note")
      (str "f0o") := by
  obtain ⟨env, reached, value⟩ := root_reached
  have named : expanded env (str "sed s/o/0/ note") = str "sed s/o/0/ note" :=
    (expanded_plain (by decide +kernel) (by decide) (by decide)).trans (by decide +kernel)
  have named' : expanded env (str "sed s/o/0/ < note") = str "sed s/o/0/ < note" :=
    (expanded_plain (by decide +kernel) (by decide) (by decide)).trans (by decide +kernel)
  have startable : Startable sedSystem (fileKernel (str "/note") (str "foo")) 2 0 :=
    ⟨fun _ _ => rfl, ⟨⟨1, 64, 56, 0⟩, by decide +kernel, by decide⟩, ⟨[], by decide, rfl⟩, by decide⟩
  have both := redirected_like_named sedSystem 0 2 0 (fileKernel (str "/note") (str "foo")) [] env
    (str "/") (str "sed s/o/0/ note") (str "sed s/o/0/ < note") (str "s/o/0/") (str "note")
    (str "foo") zeroForO [(str "/note", str "foo")] reached
    (by rw [List.forall_mem_singleton, Typed]; decide +kernel) value (by decide) startable
    (Nat.le_refl 2) rfl
    (by rw [List.forall_mem_singleton]; exact ⟨by decide +kernel, by decide, by decide⟩)
    (by decide +kernel) (by decide) (by decide +kernel) (by decide +kernel) (by decide +kernel)
    (by decide) ⟨by rw [named]; decide +kernel, by decide⟩
    ⟨by rw [named']; decide +kernel, by decide⟩
  have written : edit zeroForO ((str "foo").take 4096) = str "f0o" := by decide +kernel
  rw [written] at both
  exact ⟨env, value, both⟩

end Smultron.Sed
