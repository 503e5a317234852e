import Smultron.Properties.SedEdits

/-!
# sed with a file

The file is read into a buffer of 4096 bytes, and the result is written from a buffer of the same
size. So a file that fits can have a result that does not, and then its end is lost.
-/

namespace Smultron.Sed

open Checked Checked.Outcome Proc Replace Vfs

variable {sys : System} {runner : Runner} {k : Kernel} {done : List (Syscall × Reply)}
  {cwd file path content : Bytes} {script : Script}

/-- The file that sed means by an argument is there and fits its buffer. -/
structure Readable (sys : System) (k : Kernel) (cwd file path content : Bytes) : Prop where
  resolved : (resolvePath file cwd : Outcome Empty _) = .ok (some path)
  passes : Passes 127 path
  stored : storedFile sys.images k.ram path = some content
  fits : content.length ≤ maxIoBuf

/-- The messages of sed that say that something went wrong. -/
def errors (path : Bytes) : List Bytes :=
  [str "sed: too many arguments\n",
   str "sed: unsupported script (expected s<delim>old<delim>new<delim>[g])\n",
   str "sed: read error\n",
   str "sed: path too long\n",
   str "sed: cannot read " ++ path ++ str "\n"]

/-- One file whose beginning is `content`. -/
theorem runOnFile_leads (resolved : (resolvePath file cwd : Outcome Empty _) = .ok (some path))
    (passes : Passes 127 path)
    (stored : readFileBytes sys.images k.ram path maxIoBuf = some content) :
    Leads (dispatch sys runner) done k
      (fun d o k' => written d = written done ++ edit script content ∧ o = .ok () ∧
        k'.ram = k.ram) (runOnFile script file cwd) := by
  have size : (List.replicate maxIoBuf (0 : UInt8)).length = maxIoBuf := List.length_replicate
  rw [← size] at stored
  rw [runOnFile, resolved, lift_ok, Proc.pure_bind]
  refine Leads.bind_ok (readFile_leads passes (by rw [size]; decide) (by rw [size]; decide) stored
    ⟨_, rfl, ?_⟩)
  dsimp only [Option.map_some, Option.getD_some]
  have inside : content.length ≤ (Libos.overwrite (List.replicate maxIoBuf 0) content).length :=
    (List.length_append ..).symm ▸ Nat.le_add_right ..
  rw [slice_of_le (Nat.zero_le _) inside, lift_ok, Proc.pure_bind, List.drop_zero, take_overwrite]
  refine Leads.bind_ok (write_leads fun r k' ram _ => ⟨_, rfl, Leads.pure ⟨?_, rfl, ram⟩⟩)
  have wrote : (Syscall.write 1 (some (edit script content))).output = edit script content := rfl
  rw [written_append, written_append, written_singleton, written_singleton, wrote]
  -- To read the file writes nothing
  exact congrArg (· ++ edit script content) (List.append_nil (written done))

theorem runOnFile_isIo (script : Script) (file cwd : Bytes) :
    (runOnFile script file cwd).Only (·.isIo = true) := by
  rw [runOnFile]
  refine only_bind (only_lift _) fun resolved => ?_
  cases resolved with
  | none => exact (writeStr_onlyWrites _).isIo
  | some path =>
    refine only_bind (readFile_isIo ..) fun found => ?_
    obtain ⟨len, buf⟩ := found
    cases len with
    | none =>
      exact only_bind (writeStr_onlyWrites _).isIo fun _ =>
        only_bind (writeStr_onlyWrites _).isIo fun _ => (writeStr_onlyWrites _).isIo
    | some len =>
      exact only_bind (only_lift _) fun _ => only_bind (write_onlyWrites _ _).isIo fun _ => only_pure _

theorem runOnFiles_isIo (script : Script) (cwd : Bytes) (files : List Bytes) :
    (runOnFiles script cwd files).Only (·.isIo = true) := by
  induction files with
  | nil => exact only_pure _
  | cons file later ih => exact only_bind (runOnFile_isIo ..) fun _ => ih

theorem editInput_isIo (script : Script) (rounds : Nat) (inBuf : Bytes) :
    (editInput script rounds inBuf).Only (·.isIo = true) := by
  induction rounds generalizing inBuf with
  | zero => exact only_pure _
  | succ rounds ih =>
    refine only_bind (only_bind (only_request rfl) fun _ => only_pure _) fun found => ?_
    obtain ⟨n, buf⟩ := found
    dsimp only
    split
    · exact only_bind (writeStr_onlyWrites _).isIo fun _ => only_pure _
    split
    · exact only_pure _
    · exact only_bind (only_lift _) fun _ => only_bind (write_onlyWrites _ _).isIo fun _ => ih _

/-- sed starts no program. -/
theorem run_isIo (rounds : Nat) (args cwd : Bytes) : (run rounds args cwd).Only (·.isIo = true) := by
  have message (s : Bytes) : (do Shell.writeStr s; return .ended () : User (Reading Unit)).Only
      (·.isIo = true) := only_bind (writeStr_onlyWrites s).isIo fun _ => only_pure _
  rw [run]
  split
  · exact message _
  · exact message _
  · split
    · exact message _
    · split
      · exact editInput_isIo ..
      · exact only_bind (runOnFiles_isIo ..) fun _ => only_pure _

/-- sed with a script and a file comes to its end, and writes what `substitute` makes of the file. -/
theorem run_file (rounds : Nat) {args text : Bytes} (given : tokens args = some [text, file])
    (accepted : parseScript text = some script)
    (resolved : (resolvePath file cwd : Outcome Empty _) = .ok (some path))
    (passes : Passes 127 path)
    (stored : readFileBytes sys.images k.ram path maxIoBuf = some content) :
    ∃ ran, (run rounds args cwd).run (dispatch sys runner) k = some ran ∧
      ran.result = .ok (.ended ()) ∧ written ran.calls = edit script content := by
  have whole : run rounds args cwd = (do
      runOnFile script file cwd
      return .ended ()) := by
    simp only [run, given, accepted]
    rw [if_neg (List.cons_ne_nil file []), runOnFiles, Proc.bind_assoc]
    rfl
  obtain ⟨ran, ended⟩ := exists_run (run_isIo rounds args cwd) sys runner k
  rw [whole] at ended ⊢
  have leads : Leads (dispatch sys runner) [] k
      (fun d o _ => o = .ok (.ended ()) ∧ written d = edit script content)
      (do runOnFile script file cwd; return .ended () : User (Reading Unit)) := by
    refine Leads.bind_ok ((runOnFile_leads resolved passes stored).mono fun d o k' wrote => ?_)
    obtain ⟨bytes, rfl, -⟩ := wrote
    exact ⟨_, rfl, Leads.pure ⟨rfl, bytes⟩⟩
  exact ⟨ran, ended, leads.ran ended⟩

theorem length_errors (passes : Passes 127 path) : ∀ text ∈ errors path, text.length < maxIoBuf := by
  have short := passes.short
  have most : maxIoBuf = 4096 := rfl
  intro text mem
  simp only [errors, List.mem_cons, List.not_mem_nil, or_false] at mem
  rcases mem with rfl | rfl | rfl | rfl | rfl
  · decide
  · decide
  · decide
  · decide
  · have front : (str "sed: cannot read ").length = 17 := by decide
    have back : (str "\n").length = 1 := by decide
    rw [List.length_append, List.length_append, front, back]
    omega

/-- What sed writes is the whole result, or an error, if and only if the result fits the buffer. -/
theorem complete_output_iff (sys : System) (runner : Runner) (k : Kernel) (rounds : Nat)
    (args cwd text file path content result : Bytes) (script : Script)
    (given : tokens args = some [text, file]) (accepted : parseScript text = some script)
    (readable : Readable sys k cwd file path content)
    (replaced : Replaced script.pattern.val script.replacement.val script.isGlobal content result) :
    ∃ ran, (run rounds args cwd).run (dispatch sys runner) k = some ran ∧
      ran.result = .ok (.ended ()) ∧
      ((written ran.calls = result ∨ written ran.calls ∈ errors path) ↔
        content.length + count script.pattern.val script.isGlobal content *
            script.replacement.val.length ≤
          4096 + count script.pattern.val script.isGlobal content * script.pattern.val.length) := by
  have stored : readFileBytes sys.images k.ram path maxIoBuf = some content := by
    rw [readFileBytes_eq, readable.stored, Option.map_some, List.take_of_length_le readable.fits]
  obtain ⟨ran, ended, ok, wrote⟩ := @run_file sys runner k cwd file path content script rounds args
    text given accepted readable.resolved readable.passes stored
  obtain rfl := replaced_iff.mp replaced
  have size := length_replace script.pattern.val script.replacement.val script.isGlobal content
  have most : maxIoBuf = 4096 := rfl
  refine ⟨ran, ended, ok, ?_⟩
  rw [wrote, edit, substitute_eq]
  constructor
  · rintro (whole | error)
    · have cut := congrArg List.length whole
      rw [List.length_take] at cut
      omega
    · -- A message is shorter than a result that was cut
      have short := length_errors readable.passes _ error
      rw [List.length_take] at short
      omega
  · intro fits
    exact .inl (List.take_of_length_le (by omega))

/-- A kernel with one file, which a program wrote. -/
def fileKernel (path data : Bytes) : Kernel :=
  { Kernel.boot (fun _ => 10) with ram := (writeFile RamFiles.empty path data).2 }

def zeroForO : Script := ⟨⟨str "o", by decide⟩, ⟨str "0", by decide⟩, false⟩

theorem complete_output_iff_note :
    ∃ ran, (run 1 (str "s/o/0/ /note") (str "/")).run (dispatch bareSystem (runImage bareSystem 0))
        (fileKernel (str "/note") (str "foo")) = some ran ∧
      (written ran.calls = str "f0o" ∨ written ran.calls ∈ errors (str "/note")) := by
  have readable : Readable bareSystem (fileKernel (str "/note") (str "foo")) (str "/") (str "/note")
      (str "/note") (str "foo") :=
    ⟨rfl, ⟨by decide +kernel, by decide, by decide⟩, by decide +kernel, by decide⟩
  obtain ⟨ran, ended, -, iff⟩ := complete_output_iff bareSystem (runImage bareSystem 0)
    (fileKernel (str "/note") (str "foo")) 1 (str "s/o/0/ /note") (str "/") (str "s/o/0/")
    (str "/note") (str "/note") (str "foo") (str "f0o") zeroForO (by decide +kernel)
    (by decide +kernel) readable (replaced_iff.mpr (by decide +kernel))
  exact ⟨ran, ended, iff.mpr (by decide +kernel)⟩

def manyForA : Script := ⟨⟨str "a", by decide⟩, ⟨List.replicate 128 98, Nat.le_of_eq List.length_replicate⟩, true⟩

/-- Forty bytes, each replaced by 128 others: the last 1024 bytes of the result are not written. -/
theorem growth_loses_end :
    Replaced manyForA.pattern.val manyForA.replacement.val manyForA.isGlobal
        (List.replicate 40 97) (List.replicate 5120 98) ∧
      ∃ ran, (run 1 (str "s/a/" ++ List.replicate 128 98 ++ str "/g /a") (str "/")).run
          (dispatch bareSystem (runImage bareSystem 0))
          (fileKernel (str "/a") (List.replicate 40 97)) = some ran ∧
        ran.result = .ok (.ended ()) ∧ written ran.calls = List.replicate 4096 98 ∧
        written ran.calls ≠ List.replicate 5120 98 ∧ written ran.calls ∉ errors (str "/a") := by
  have result : List.replicate 5120 98 = replace manyForA.pattern.val manyForA.replacement.val
      manyForA.isGlobal (List.replicate 40 97) := by
    refine Eq.trans ?_ (replace_single 97 (List.replicate 128 98) (List.replicate 40 97)).symm
    rw [List.flatMap_replicate, if_pos rfl, List.flatten_replicate_replicate]
  have passes : Passes 127 (str "/a") := ⟨by decide +kernel, by decide, by decide⟩
  obtain ⟨ran, ended, ok, wrote⟩ := @run_file bareSystem (runImage bareSystem 0)
    (fileKernel (str "/a") (List.replicate 40 97)) (str "/") (str "/a") (str "/a")
    (List.replicate 40 97) manyForA 1 (str "s/a/" ++ List.replicate 128 98 ++ str "/g /a")
    (str "s/a/" ++ List.replicate 128 98 ++ str "/g") (by decide +kernel) (by decide +kernel) rfl
    passes (by decide +kernel)
  rw [edit, substitute_eq, ← result, List.take_replicate] at wrote
  refine ⟨replaced_iff.mpr result, ran, ended, ok, wrote, fun whole => ?_, fun error => ?_⟩
  · have sizes := congrArg List.length whole
    rw [wrote, List.length_replicate, List.length_replicate] at sizes
    exact absurd sizes (by decide)
  · have short := length_errors passes _ error
    rw [wrote, List.length_replicate] at short
    exact absurd short (by decide)

end Smultron.Sed
