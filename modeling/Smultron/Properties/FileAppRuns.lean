import Smultron.Properties.ExecStrings
import Smultron.Properties.Overlay
import Smultron.Properties.QuotedArgs
import Smultron.Properties.ResolvedPaths
import Smultron.Properties.StageRuns

/-!
# Runs of the programs that read and write files

`tee` hands its path to the kernel as it was typed, while `cat`, `sed` and the shell put a relative
path behind the current directory. So what `tee` writes is read back only through absolute paths.
-/

namespace Smultron

open Checked Checked.Outcome Memory Proc Process SlotTable Utf8 Vfs

variable {sys : System} {run : Runner} {k k' : Kernel} {done : List (Syscall × Reply)} {α β : Type}

/-! ### What the calls of a run do to files -/

/-- The file a call reads: the path it names, and the bytes it gets. -/
def Syscall.fileRead : Syscall → Reply → List (Bytes × Bytes)
  | .readFile (some path) _, r => [(path, r.data)]
  | _, _ => []

/-- The path a call has written to. -/
def Syscall.fileWritten : Syscall → Reply → List Bytes
  | .writeFile (some path) _, r => if r.ret = u64Max then [] else [path]
  | _, _ => []

def filesRead (calls : List (Syscall × Reply)) : List (Bytes × Bytes) :=
  calls.flatMap fun cr => cr.1.fileRead cr.2

def filesWritten (calls : List (Syscall × Reply)) : List Bytes :=
  calls.flatMap fun cr => cr.1.fileWritten cr.2

@[simp] theorem filesRead_append (calls calls' : List (Syscall × Reply)) :
    filesRead (calls ++ calls') = filesRead calls ++ filesRead calls' := List.flatMap_append

@[simp] theorem filesWritten_append (calls calls' : List (Syscall × Reply)) :
    filesWritten (calls ++ calls') = filesWritten calls ++ filesWritten calls' :=
  List.flatMap_append

@[simp] theorem filesRead_singleton (cr : Syscall × Reply) : filesRead [cr] = cr.1.fileRead cr.2 := by
  simp [filesRead]

@[simp] theorem filesWritten_singleton (cr : Syscall × Reply) :
    filesWritten [cr] = cr.1.fileWritten cr.2 := by
  simp [filesWritten]

/-- The call is a write to an open descriptor. -/
def Syscall.isWrite : Syscall → Bool
  | .write _ _ => true
  | _ => false

/-- The procedure does nothing but write to descriptors. -/
abbrev OnlyWrites (x : User α) : Prop := x.Only (·.isWrite = true)

theorem write_onlyWrites (fd : Nat) (buf : Bytes) : OnlyWrites (Libos.write fd buf) :=
  only_bind (only_request rfl) fun _ => only_pure _

theorem writeStr_onlyWrites (s : Bytes) : OnlyWrites (Shell.writeStr s) :=
  only_bind (write_onlyWrites 1 s) fun _ => only_pure _

theorem sysWrite_ram (k : Kernel) (fd : Nat) (buf : Option Bytes) :
    (sysWrite k fd buf).2.ram = k.ram := by
  rw [sysWrite_eq]
  split
  · rfl
  · split <;> rfl

theorem sysRead_ram (k : Kernel) (fd : Nat) (buf : Option Nat) :
    (sysRead k fd buf).2.ram = k.ram := by
  simp only [sysRead]
  repeat' split
  all_goals rfl

/-- Calls that write to descriptors leave the files alone. -/
theorem files_of_writes {calls : List (Syscall × Reply)} (h : ∀ cr ∈ calls, cr.1.isWrite = true) :
    filesRead calls = [] ∧ filesWritten calls = [] := by
  have each : ∀ cr ∈ calls, cr.1.fileRead cr.2 = [] ∧ cr.1.fileWritten cr.2 = [] := by
    rintro ⟨c, r⟩ hcr
    have isWrite := h _ hcr
    cases c with
    | write fd buf => exact ⟨rfl, rfl⟩
    | _ => cases isWrite
  exact ⟨List.flatMap_eq_nil_iff.mpr fun cr hcr => (each cr hcr).1,
    List.flatMap_eq_nil_iff.mpr fun cr hcr => (each cr hcr).2⟩

/-- Whatever is written to descriptors, the files read and written are those of before. -/
theorem OnlyWrites.leads {x : User α} (h : OnlyWrites x) :
    Leads (dispatch sys run) done k (fun d _ k' => filesRead d = filesRead done ∧
      filesWritten d = filesWritten done ∧ k'.ram = k.ram) x := by
  intro ran ended
  have steps := h.steps ended
  have writes : ∀ cr ∈ ran.calls, cr.1.isWrite = true := by
    intro cr hcr
    obtain ⟨st, hst, rfl⟩ := List.mem_map.mp hcr
    exact steps st hst
  obtain ⟨read, written⟩ := files_of_writes writes
  refine ⟨by simp [read], by simp [written], ?_⟩
  refine Program.run_keeps (I := fun k' : Kernel => k'.ram = k.ram)
    (P := fun c => c.isWrite = true) ?_ rfl ended steps
  intro c s r s' isWrite answered same
  cases c with
  | write fd buf =>
    obtain rfl : (sysWrite s fd buf).2 = s' := congrArg Prod.snd (Option.some.inj answered)
    rw [sysWrite_ram, same]
  | _ => cases isWrite

/-- A file is stored under a path that a system call can carry. -/
theorem passes_of_stored {images : Images} {ws : List (Bytes × Bytes)}
    {path content : Bytes}
    (texts : ∀ w ∈ ws, Passes 127 w.1)
    (stored : storedFile images (writeFiles RamFiles.empty ws).2 path = some content) :
    Passes 127 path := by
  rw [storedFile] at stored
  cases static : Vfs.readFile images path with
  | some data =>
    obtain ⟨file, found, -⟩ := Option.map_eq_some_iff.mp static
    have named : file.path = path := by simpa using List.find?_some found
    have all : ∀ p ∈ (files images).map FileEntry.path, Valid p ∧ 0 ∉ p ∧ p.length ≤ 127 := by
      have paths : (files images).map FileEntry.path =
          [str "/hello.txt", str "/bin/init", str "/bin/echo", str "/bin/env", str "/bin/ls",
            str "/bin/cat", str "/bin/tee", str "/bin/sed"] := rfl
      rw [paths]
      decide +kernel
    obtain ⟨text, nulFree, short⟩ :=
      all path (named ▸ List.mem_map_of_mem (List.mem_of_find?_eq_some found))
    exact ⟨text, nulFree, short⟩
  | none =>
    rw [static, Option.none_or] at stored
    have kept : path ∈ (writeFiles RamFiles.empty ws).2.paths := by
      by_contra absent
      rw [lookup_eq_none.mpr absent] at stored
      cases stored
    obtain ⟨w, hw, rfl⟩ := mem_paths_writeFiles kept
    exact texts w hw

/-! ### Reading a file -/

/-- The reply to a read of a file that holds these bytes, or that there is not. -/
def fileReply (found : Option Bytes) : Reply :=
  (found.map fun data => ⟨data.length, data, none⟩).getD .failed

theorem dispatch_readFile {path : Bytes} {size : Nat} (passes : Passes 127 path) (room : 0 < size) :
    dispatch sys run (.readFile (some (path ++ [0])) (some size)) k =
      some (fileReply (readFileBytes sys.images k.ram path size), k) := by
  have name : cstr 128 (some (path ++ [0])) = some path := cstr_passes passes
  have given : ¬((some (path ++ [0])).isNone = true ∨ (some size).getD 0 = 0) := by simp; omega
  rw [dispatch, if_neg given]
  simp only [name, Option.getD_some]
  cases readFileBytes sys.images k.ram path size <;> rfl

/-- What `read_file` of the library comes to. -/
theorem readFile_leads {path buf : Bytes} {found : Option Bytes}
    {Q : List (Syscall × Reply) → Outcome Empty (Option Nat × Bytes) → Kernel → Prop}
    (passes : Passes 127 path) (room : 0 < buf.length) (small : buf.length < u64Max)
    (stored : readFileBytes sys.images k.ram path buf.length = found)
    (h : Q (done ++ [(.readFile (some (path ++ [0])) (some buf.length), fileReply found)])
      (.ok (found.map List.length, Libos.overwrite buf (found.getD []))) k) :
    Leads (dispatch sys run) done k Q (Libos.readFile path buf) := by
  have short := passes.short
  rw [Libos.readFile, if_neg (by omega), Shell.cString_ok (by omega), lift_ok, Proc.pure_bind]
  refine Leads.request_bind fun r k' answered => ?_
  rw [dispatch_readFile passes room, stored] at answered
  obtain ⟨rfl, rfl⟩ := Prod.mk.inj (Option.some.inj answered)
  cases found with
  | none =>
    have failed : (fileReply none).ret = u64Max := rfl
    rw [if_pos failed]
    exact Leads.pure h
  | some data =>
    -- The kernel never reports more bytes than the buffer has
    have few := length_readFileBytes stored
    have read : (fileReply (some data)).ret = data.length := rfl
    rw [read, if_neg (by omega), Nat.min_eq_left few]
    exact Leads.pure h

theorem readFile_ends {path buf data : Bytes} (passes : Passes 127 path) (room : 0 < buf.length)
    (small : buf.length < u64Max)
    (stored : readFileBytes sys.images k.ram path buf.length = some data) :
    Ends (dispatch sys run) k
      (fun o k' => o = .ok (some data.length, Libos.overwrite buf data) ∧ k' = k)
      (Libos.readFile path buf) := by
  have short := passes.short
  have few := length_readFileBytes stored
  have answered := @dispatch_readFile sys run k path buf.length passes room
  have ret : (fileReply (some data)).ret = data.length := rfl
  rw [stored] at answered
  rw [Libos.readFile, if_neg (by omega), Shell.cString_ok (by omega), lift_ok, Proc.pure_bind]
  refine Ends.request_bind answered ?_
  rw [ret, if_neg (by omega), Nat.min_eq_left few]
  exact Ends.pure ⟨rfl, rfl⟩

/-- Only the file of this path is opened. -/
theorem readFile_opens {path buf : Bytes} :
    Leads (dispatch sys run) done k
      (fun d _ _ => ∀ file ∈ filesRead d, file ∈ filesRead done ∨ file.1 = path ++ [0])
      (Libos.readFile path buf) := by
  rw [Libos.readFile]
  split
  · exact Leads.pure fun _ => .inl
  next short =>
    rw [Shell.cString_ok (by omega), lift_ok, Proc.pure_bind]
    refine Leads.request_bind fun r k' _ => ?_
    have same : ∀ file ∈ filesRead (done ++ [(.readFile (some (path ++ [0])) (some buf.length), r)]),
        file ∈ filesRead done ∨ file.1 = path ++ [0] := by
      intro file hf
      rw [filesRead_append, List.mem_append, filesRead_singleton] at hf
      exact hf.imp id fun new => congrArg Prod.fst (List.mem_singleton.mp new)
    split
    · exact Leads.pure same
    · exact Leads.pure same

/-- The call reads or writes, to a descriptor or to a file. -/
def Syscall.isIo : Syscall → Bool
  | .read _ _ | .write _ _ | .readFile _ _ | .writeFile _ _ => true
  | _ => false

theorem isIo_answered {c : Syscall} (h : c.isIo = true) (k : Kernel) :
    (dispatch sys run c k).isSome := by
  cases c with
  | read fd buf => rfl
  | write fd buf => rfl
  | readFile path buf =>
    rw [dispatch]
    repeat' split
    all_goals rfl
  | writeFile path data =>
    simp only [dispatch]
    repeat' split
    all_goals rfl
  | _ => cases h

/-- A procedure whose calls only read and write comes to its end. -/
theorem exists_run {x : User α} (h : x.Only (·.isIo = true)) (sys : System) (run : Runner)
    (k : Kernel) : ∃ ran, x.run (dispatch sys run) k = some ran :=
  Option.isSome_iff_exists.mp (h.ends (fun _ s isIo => isIo_answered isIo s) k)

/-- The run opens one file, the one of this path, and gets these bytes of it. -/
def ReadsFile (sys : System) (run : Runner) (k : Kernel) (path data : Bytes) (x : User α) : Prop :=
  ∃ ran, x.run (dispatch sys run) k = some ran ∧ filesRead ran.calls = [(path ++ [0], data)]

/-- The procedure reads the file of this path into a buffer of 4096 bytes, and then only writes. -/
def OpensFirst (path : Bytes) (x : User α) : Prop :=
  ∃ tail : Option Nat × Bytes → User α, (∀ found, OnlyWrites (tail found)) ∧
    x = Libos.readFile path (List.replicate 4096 0) >>= tail

theorem opensFirst_of_tail {path : Bytes} (tail : Option Nat × Bytes → User α)
    (writes : ∀ found, OnlyWrites (tail found)) :
    OpensFirst path (Libos.readFile path (List.replicate 4096 0) >>= tail) := ⟨tail, writes, rfl⟩

theorem OpensFirst.bind {path : Bytes} {x : User α} {f : α → User β} (h : OpensFirst path x)
    (writes : ∀ a, OnlyWrites (f a)) : OpensFirst path (x >>= f) := by
  obtain ⟨tail, first, rfl⟩ := h
  rw [Proc.bind_assoc]
  exact opensFirst_of_tail _ fun found => only_bind (first found) writes

section ReadsFile

variable {path other data : Bytes} {x : User α}

theorem readFile_isIo (path buf : Bytes) : (Libos.readFile path buf).Only (·.isIo = true) := by
  rw [Libos.readFile]
  split
  · exact only_pure _
  · refine only_bind (only_lift _) fun _ => only_bind (only_request rfl) fun r => ?_
    split <;> exact only_pure _

theorem OnlyWrites.isIo {x : User α} (h : OnlyWrites x) : x.Only (·.isIo = true) := by
  refine h.mono fun c isWrite => ?_
  cases c with
  | write fd buf => rfl
  | _ => cases isWrite

theorem reads_file (passes : Passes 127 path)
    (stored : readFileBytes sys.images k.ram path 4096 = some data) (opens : OpensFirst path x) :
    ReadsFile sys run k path data x := by
  obtain ⟨tail, writes, rfl⟩ := opens
  have size : (List.replicate 4096 (0 : UInt8)).length = 4096 := List.length_replicate
  rw [← size] at stored
  have answered : (Libos.readFile path (List.replicate 4096 0) >>= tail).Only (·.isIo = true) :=
    only_bind (readFile_isIo ..) fun found => (writes found).isIo
  obtain ⟨ran, ended⟩ := exists_run answered sys run k
  refine ⟨ran, ended, ?_⟩
  have leads : Leads (dispatch sys run) [] k (fun d _ _ => filesRead d = [(path ++ [0], data)])
      (Libos.readFile path (List.replicate 4096 0) >>= tail) := by
    refine Leads.bind_ok (readFile_leads passes (by rw [size]; decide) (by rw [size]; decide) stored
      ⟨_, rfl, ?_⟩)
    -- What follows only writes
    refine (writes _).leads.mono fun d o k' kept => ?_
    rw [kept.1, List.nil_append, filesRead_singleton]
    rfl
  exact leads.ran ended

/-- A program that opens another file does not read this one. -/
theorem not_readsFile_of_other (apart : other ≠ path) (opens : OpensFirst other x) :
    ¬ReadsFile sys run k path data x := by
  rintro ⟨ran, ended, read⟩
  obtain ⟨tail, writes, rfl⟩ := opens
  have leads : Leads (dispatch sys run) [] k (fun d _ _ => ∀ file ∈ filesRead d, file.1 = other ++ [0])
      (Libos.readFile other (List.replicate 4096 0) >>= tail) := by
    refine Leads.bind (readFile_opens.mono fun d o k' opened => ?_)
    have only : ∀ file ∈ filesRead d, file.1 = other ++ [0] :=
      fun file hf => (opened file hf).resolve_left List.not_mem_nil
    refine ⟨fun _ => only, fun found _ => (writes found).leads.mono fun d' o' k'' kept => ?_⟩
    rw [kept.1]
    exact only
  have named := leads.ran ended _ (read ▸ List.mem_singleton.mpr rfl)
  exact apart (List.append_cancel_right named).symm

theorem not_readsFile_of_writes (writes : OnlyWrites x) :
    ¬ReadsFile sys run k path data x := by
  rintro ⟨ran, ended, read⟩
  have none_ : filesRead ran.calls = [] := (writes.leads.ran ended).1
  rw [none_] at read
  cases read

end ReadsFile

/-! ### The programs that read a path -/

section Readers

variable {env : Shell.Env} {p data : Bytes}

/-- A path that a program can be given and that fits the calls. -/
structure PathArg (p : Bytes) : Prop where
  passes : Passes 127 p
  solid : Shell.Solid p

theorem PathArg.short (h : PathArg p) : p.length ≤ Shell.maxParsedLine := by
  have most : (127 : Nat) ≤ Shell.maxParsedLine := by decide
  exact Nat.le_trans h.passes.short most

theorem trim_solid {w : Bytes} (text : Valid w) (solid : Shell.Solid w) : trim w = w := by
  obtain ⟨cs, rfl⟩ := valid_iff.mp text
  obtain ⟨-, letters⟩ := Shell.solid_encode.mp solid
  have front : cs.dropWhile isWhitespace = cs := by
    cases cs with
    | nil => rfl
    | cons c cs => simp [letters c List.mem_cons_self]
  rw [trim_encode, front]
  congr 1
  refine List.rdropWhile_eq_self_iff.mpr fun some_ => ?_
  simp [letters _ (List.getLast_mem some_)]

/-- A relative path is never the path it stands for. -/
theorem pathUnder_ne {cwd : Bytes} (relative : Shell.isAbsolute p = false) : pathUnder cwd p ≠ p := by
  intro same
  have sizes := congrArg List.length same
  rw [pathUnder, if_neg (by simp [relative])] at sizes
  split at sizes
  next slash =>
    have some_ := List.length_pos_iff.mpr (List.ne_nil_of_mem (List.mem_of_getLast? slash))
    rw [List.length_append] at sizes
    omega
  · rw [List.length_append, List.length_cons] at sizes
    omega

theorem fittingPath_passes {path : Bytes} (passes : Passes 127 path) : fittingPath path = some path := by
  rw [fittingPath, if_pos (Nat.le_succ_of_le passes.short), fromUtf8_of_valid passes.text]

/-- A path that can be handed to the kernel is resolved. -/
theorem resolveFrom_passes {ε : Type} {cwd file : Bytes} (passes : Passes 127 (pathUnder cwd file))
    (dir : cwd.length ≤ Shell.maxVal) :
    (resolveFrom file cwd : Outcome ε _) = .ok (some (pathUnder cwd file)) := by
  have most : 127 ≤ Shell.maxParsedLine := by decide
  rw [resolveFrom_eq ((length_le_pathUnder cwd file).trans (passes.short.trans most)) dir]
  split
  next absolute => rw [pathUnder, if_pos absolute]
  · rw [fittingPath_passes passes]

/-- What a program with a relative path opens is another file, if it opens one. -/
theorem fittingPath_ne {cwd other : Bytes} (relative : Shell.isAbsolute p = false)
    (resolved : fittingPath (pathUnder cwd p) = some other) : other ≠ p := by
  rw [fittingPath] at resolved
  split at resolved
  · rw [fromUtf8_eq_some] at resolved
    rw [resolved.2]
    exact pathUnder_ne relative
  · cases resolved

/-- A program that resolves its path and then opens it, or says why not, reads the file exactly where
the path is absolute. -/
theorem readsFile_iff {cwd : Bytes} {x : User α} {resolved : Option Bytes} (arg : PathArg p)
    (means : resolved = if Shell.isAbsolute p then some p else fittingPath (pathUnder cwd p))
    (refused : resolved = none → OnlyWrites x) (opened : ∀ path, resolved = some path → OpensFirst path x)
    (stored : Shell.isAbsolute p = true → readFileBytes sys.images k.ram p 4096 = some data) :
    ReadsFile sys run k p data x ↔ Shell.isAbsolute p = true := by
  cases absolute : Shell.isAbsolute p with
  | true =>
    rw [absolute, if_pos rfl] at means
    exact iff_of_true (reads_file arg.passes (stored absolute) (opened p means)) rfl
  | false =>
    rw [absolute, if_neg Bool.false_ne_true] at means
    refine iff_of_false ?_ Bool.false_ne_true
    cases found : resolved with
    | none => exact not_readsFile_of_writes (refused found)
    | some path =>
      exact not_readsFile_of_other (fittingPath_ne absolute (means.symm.trans found))
        (opened path found)

theorem printFile_opensFirst (path : Bytes) : OpensFirst path (Cat.printFile path) := by
  refine opensFirst_of_tail _ fun found => ?_
  obtain ⟨len, buf⟩ := found
  cases len with
  | none =>
    exact only_bind (writeStr_onlyWrites _) fun _ => only_bind (writeStr_onlyWrites _) fun _ =>
      writeStr_onlyWrites _
  | some len =>
    dsimp only
    split
    · exact only_pure _
    · refine only_bind (write_onlyWrites _ _) fun _ => only_bind (only_lift _) fun _ =>
        only_bind (only_lift _) fun b => ?_
      split
      · exact only_bind (write_onlyWrites _ _) fun _ => only_pure _
      · exact only_pure _

theorem cat_readsFile_iff (rounds : Nat) (arg : PathArg p)
    (stored : Shell.isAbsolute p = true → readFileBytes sys.images k.ram p 4096 = some data) :
    ReadsFile sys run k p data (Cat.run rounds p (Shell.cwdOf env)) ↔ Shell.isAbsolute p = true := by
  rw [Cat.run, trim_solid arg.passes.text arg.solid, if_neg arg.solid.1, Cat.resolvePath,
    resolveFrom_eq arg.short (Shell.cwdOf_length env), lift_ok, Proc.pure_bind]
  generalize means : (if Shell.isAbsolute p then some p else fittingPath _) = resolved
  refine readsFile_iff arg means.symm ?_ ?_ stored
  · rintro rfl
    exact only_bind (writeStr_onlyWrites _) fun _ => only_pure _
  · rintro path rfl
    exact (printFile_opensFirst path).bind fun _ => only_pure _

theorem sed_tail_opensFirst (script : Sed.Script) (path : Bytes) : OpensFirst path (do
    let (found, inBuf) ← Libos.readFile path (List.replicate Sed.maxIoBuf 0)
    match found with
    | none => do
      Shell.writeStr (str "sed: cannot read ")
      Shell.writeStr path
      Shell.writeStr (str "\n")
    | some n => do
      let input ← lift (slice inBuf 0 n)
      let _ ← Libos.write 1 (Sed.edit script input)
      return ()) := by
  refine opensFirst_of_tail _ fun found => ?_
  obtain ⟨len, buf⟩ := found
  cases len with
  | none =>
    exact only_bind (writeStr_onlyWrites _) fun _ => only_bind (writeStr_onlyWrites _) fun _ =>
      writeStr_onlyWrites _
  | some len =>
    exact only_bind (only_lift _) fun _ => only_bind (write_onlyWrites _ _) fun _ => only_pure _

theorem sed_tokens {script : Bytes} (text : Valid script) (solid : Shell.Solid script)
    (arg : PathArg p) : Sed.tokens (script ++ 32 :: p) = some [script, p] := by
  have split := @Shell.splitWhitespace_joined [script, p] (by simp [text, arg.passes.text])
    (by simp [solid, arg.solid])
  rw [Shell.joined_pair solid.1] at split
  have few : [script, p].length ≤ Sed.maxTokens := Nat.le_of_ble_eq_true rfl
  exact (Shell.collectArgs_iff few).mpr split

theorem sed_readsFile_iff (rounds : Nat) {script : Bytes} {parsed : Sed.Script} (text : Valid script)
    (solid : Shell.Solid script) (accepted : Sed.parseScript script = some parsed) (arg : PathArg p)
    (stored : Shell.isAbsolute p = true → readFileBytes sys.images k.ram p 4096 = some data) :
    ReadsFile sys run k p data (Sed.run rounds (script ++ 32 :: p) (Shell.cwdOf env)) ↔
      Shell.isAbsolute p = true := by
  simp only [Sed.run, sed_tokens text solid arg, accepted]
  rw [if_neg (by simp), Sed.runOnFiles, Sed.runOnFile, Sed.resolvePath,
    resolveFrom_eq arg.short (Shell.cwdOf_length env), lift_ok, Proc.pure_bind]
  generalize means : (if Shell.isAbsolute p then some p else fittingPath _) = resolved
  refine readsFile_iff arg means.symm ?_ ?_ stored
  · rintro rfl
    exact only_bind (only_bind (writeStr_onlyWrites _) fun _ => only_pure _) fun _ => only_pure _
  · rintro path rfl
    exact ((sed_tail_opensFirst parsed path).bind fun _ => only_pure _).bind fun _ => only_pure _

theorem openInput_tail_opensFirst (path : Bytes) : OpensFirst path (do
    let (found, fileBuf) ← Libos.readFile path (List.replicate Shell.maxIoBuf 0)
    match found with
    | some len => do
      let pipe ← lift (Shell.copyPrefix fileBuf len)
      return some pipe
    | none => do
      Shell.redirectionError (str "read") path
      return none) := by
  refine opensFirst_of_tail _ fun found => ?_
  obtain ⟨len, buf⟩ := found
  cases len with
  | none =>
    refine only_bind ?_ fun _ => only_pure _
    exact only_bind (writeStr_onlyWrites _) fun _ => only_bind (writeStr_onlyWrites _) fun _ =>
      writeStr_onlyWrites _
  | some len => exact only_bind (only_lift _) fun _ => only_pure _

theorem openInput_readsFile_iff (arg : PathArg p)
    (stored : Shell.isAbsolute p = true → readFileBytes sys.images k.ram p 4096 = some data) :
    ReadsFile sys run k p data (Shell.openInput env p) ↔ Shell.isAbsolute p = true := by
  rw [Shell.openInput]
  by_cases usable : Shell.cwdOf env = [] → Shell.isAbsolute p = true
  · rw [resolvePath_eq arg.short usable, lift_ok, Proc.pure_bind]
    generalize means : fittingPath _ = resolved
    have same : resolved =
        if Shell.isAbsolute p then some p else fittingPath (pathUnder (Shell.cwdOf env) p) := by
      rw [← means]
      split
      next absolute =>
        -- The shell copies an absolute path, too
        rw [pathUnder, if_pos absolute, fittingPath_passes arg.passes]
      · rfl
    refine readsFile_iff arg same ?_ ?_ stored
    · rintro rfl
      exact only_bind (writeStr_onlyWrites _) fun _ => only_pure _
    · rintro path rfl
      exact openInput_tail_opensFirst path
  · -- The shell panics before it opens anything
    obtain ⟨empty, relative⟩ := Classical.not_imp.mp usable
    rw [resolvePath_panics empty (by simpa using relative)]
    exact iff_of_false (not_readsFile_of_writes (only_lift _)) relative

end Readers

/-! ### `tee` -/

/-- A write leaves the input and the files as they are. -/
theorem write_leads {fd : Nat} {buf : Bytes}
    {Q : List (Syscall × Reply) → Outcome Empty Nat → Kernel → Prop}
    (h : ∀ r k', k'.ram = k.ram → k'.io.stdio.stdin = k.io.stdio.stdin →
      Q (done ++ [(.write fd (some buf), r)]) (.ok r.ret) k') :
    Leads (dispatch sys run) done k Q (Libos.write fd buf) := by
  refine Leads.request_bind fun r k' answered => Leads.pure (h r k' ?_ ?_)
  · rw [← sysWrite_ram k fd (some buf)]
    exact congrArg (fun answer : Reply × Kernel => answer.2.ram) (Option.some.inj answered).symm
  · rw [stdio_dispatch answered rfl]
    exact stdin_idle k.io

/-- A read of redirected input gets the next bytes of it. -/
theorem read_leads {buf rest : Bytes}
    {Q : List (Syscall × Reply) → Outcome Empty (Nat × Bytes) → Kernel → Prop}
    (input : k.io.stdio.stdin = some rest)
    (h : ∀ r k', k'.io.stdio = ⟨some (rest.drop buf.length), k.io.stdio.stdout⟩ → k'.ram = k.ram →
      r.data = rest.take buf.length →
      Q (done ++ [(.read 0 (some buf.length), r)])
        (.ok ((rest.take buf.length).length, Libos.overwrite buf (rest.take buf.length))) k') :
    Leads (dispatch sys run) done k Q (Libos.read 0 buf) := by
  refine Leads.request_bind fun r k' answered => Leads.pure ?_
  obtain ⟨io', whole, data, left⟩ := sysRead_redirected input 0 (some buf.length)
  have ret := sysRead_ret k buf.length
  have ram := sysRead_ram k 0 (some buf.length)
  have answer := Option.some.inj answered
  rw [answer] at whole data left ret ram
  rw [if_pos rfl, Option.getD_some] at data
  obtain rfl : k' = { k with io := io' } := congrArg Prod.snd whole
  have after : io'.stdio = ⟨some (rest.drop buf.length), k.io.stdio.stdout⟩ := by
    rw [left, data, List.length_take, Buffer.drop_min_length]
  rw [ret, data]
  exact h r _ after ram data

/-- The front of a buffer that bytes were read to. -/
theorem take_overwrite (buf data : Bytes) : (Libos.overwrite buf data).take data.length = data :=
  List.take_left

/-- The loop collects the input as far as it fits, writes it on, and leaves the files alone. With
enough rounds it comes to the end of the input. -/
theorem tee_copyInput_leads {rounds : Nat} {chunk stream rest : Bytes} (size : chunk.length = 256)
    (input : k.io.stdio.stdin = some rest) (fits : stream.length + rest.length ≤ Tee.maxStream) :
    Leads (dispatch sys run) done k (fun d o k' => filesWritten d = filesWritten done ∧
        k'.ram = k.ram ∧
        (∀ out, o = .ok (.ended out) → out = stream ++ rest ∧ written d = written done ++ rest) ∧
        (rest.length + 256 ≤ 256 * rounds → ∃ out, o = .ok (.ended out)))
      (Tee.copyInput rounds chunk stream) := by
  induction rounds generalizing chunk stream rest done k with
  | zero => exact Leads.pure ⟨rfl, rfl, by simp, by omega⟩
  | succ rounds ih =>
    rw [Tee.copyInput]
    refine Leads.bind_ok (read_leads input fun r k₁ stdio ram _ => ⟨_, rfl, ?_⟩)
    have most : (rest.take chunk.length).length ≤ 256 := by rw [List.length_take]; omega
    have never : (256 : Nat) < u64Max := by decide
    dsimp only
    rw [if_neg (by omega)]
    by_cases ended : (rest.take chunk.length).length = 0
    · -- Nothing is left, so the stream is whole
      have empty : rest = [] := by
        rw [List.length_take] at ended
        exact List.length_eq_zero_iff.mp (by omega)
      rw [if_pos ended]
      refine Leads.pure ⟨by simp [Syscall.fileWritten], ram, ?_, fun _ => ⟨_, rfl⟩⟩
      rintro _ ⟨⟩
      simp [empty]
    · have inside : (rest.take chunk.length).length ≤ rest.length := List.length_take_le' ..
      have whole : (Libos.overwrite chunk (rest.take chunk.length)).length = 256 :=
        (Shell.length_overwrite (by omega)).trans size
      have room : (rest.take chunk.length).length ≤ Tee.maxStream - stream.length := by omega
      rw [if_neg ended, take_overwrite]
      refine Leads.bind_ok (write_leads fun w k₂ ram' stdin' => ⟨_, rfl, ?_⟩)
      rw [if_pos (by omega), Nat.min_eq_left room, slice_of_le (Nat.zero_le _) (by omega), lift_ok,
        Proc.pure_bind, List.drop_zero, take_overwrite, append_of_le (by omega), lift_ok,
        Proc.pure_bind]
      -- The rest of the input goes behind what was read in this round
      refine (ih whole (stdin'.trans (congrArg Stdio.stdin stdio)) ?_).mono ?_
      · rw [List.length_append, List.length_drop]
        omega
      · rintro d o k' ⟨none_, ram'', out, ends⟩
        refine ⟨?_, ram''.trans (ram'.trans ram), fun s same => ?_, fun enough => ends ?_⟩
        · rw [none_, List.append_assoc, filesWritten_append]
          exact List.append_nil _
        · obtain ⟨collected, wrote⟩ := out s same
          refine ⟨by rw [collected, List.append_assoc, List.take_append_drop], ?_⟩
          rw [wrote, written_append, written_append, written_singleton, written_singleton,
            Syscall.output_read, Syscall.output_stdout, List.append_nil, List.append_assoc,
            List.take_append_drop]
        · rw [List.length_drop]
          omega

/-- A write of a file that is answered with a length has stored the data. -/
theorem writeFile_leads {path data : Bytes} (passes : 0 ∉ path) (text : Valid path)
    (fits : data.length ≤ maxRamFileLen) (none_ : filesWritten done = []) :
    Leads (dispatch sys run) done k (fun d _ k' => filesWritten d ≠ [] →
      Passes 127 path ∧ lookup path k'.ram.slots = some data) (Libos.writeFile path data) := by
  rw [Libos.writeFile]
  split
  · exact Leads.pure fun some_ => absurd none_ some_
  next short =>
    have whole : Passes 127 path := ⟨text, passes, by omega⟩
    have name : cstr 128 (some (path ++ [0])) = some path := cstr_passes whole
    rw [Shell.cString_ok (by omega), lift_ok, Proc.pure_bind]
    refine Leads.request_bind fun r k' answered => ?_
    have stored : r.ret ≠ u64Max → lookup path k'.ram.slots = some data := by
      intro success
      have found := @lookup_write _ _ _ storable k.ram.slots path (data.take maxRamFileLen) path
      rw [← slots_writeFile, ← writeFile_accepted] at found
      simp only [dispatch, name] at answered
      cases outcome : Vfs.writeFile k.ram path data with
      | mk accepted ram =>
        rw [outcome] at answered found
        cases accepted with
        | true =>
          obtain ⟨-, rfl⟩ := Prod.mk.inj (Option.some.inj answered)
          rw [if_pos ⟨rfl, rfl⟩, List.take_of_length_le fits] at found
          exact found
        | false =>
          obtain ⟨rfl, -⟩ := Prod.mk.inj (Option.some.inj answered)
          exact absurd rfl success
    have after : filesWritten (done ++ [(.writeFile (some (path ++ [0])) (some data), r)]) ≠ [] →
        Passes 127 path ∧ lookup path k'.ram.slots = some data := by
      intro some_
      refine ⟨whole, stored fun failed => some_ ?_⟩
      rw [filesWritten_append, none_, filesWritten_singleton]
      exact if_pos failed
    split
    · exact Leads.pure after
    · exact Leads.pure after

/-- When `tee` has written one of its files, the file holds the whole stream. -/
theorem tee_leads {rounds : Nat} {p stream : Bytes} (text : Valid p) (solid : Shell.Solid p)
    (nulFree : 0 ∉ p) (input : k.io.stdio.stdin = some stream)
    (fits : stream.length ≤ Tee.maxStream) :
    Leads (dispatch sys run) [] k (fun d _ k' => filesWritten d ≠ [] →
      Passes 127 p ∧ lookup p k'.ram.slots = some stream) (Tee.run rounds p) := by
  have split := @Shell.splitWhitespace_joined [p] (by simp [text]) (by simp [solid])
  have whole : Shell.joined [p] = p := (if_pos rfl : Shell.putWord [] p = p)
  have few : [p].length ≤ Tee.maxArgs := Nat.le_of_ble_eq_true rfl
  rw [whole] at split
  simp only [Tee.run, Tee.files, (Shell.collectArgs_iff few).mpr split]
  refine Leads.bind ((tee_copyInput_leads List.length_replicate input (by simpa using fits)).mono ?_)
  rintro d o k' ⟨none_, -, out, -⟩
  have none' : filesWritten d = [] := none_
  refine ⟨fun _ some_ => absurd none' some_, fun reading ended => ?_⟩
  cases reading with
  | ended collected =>
    obtain rfl : collected = stream := (out collected ended).1
    dsimp only
    rw [Tee.writeFiles, Proc.bind_assoc]
    refine Leads.bind ((writeFile_leads nulFree text fits none').mono fun d' _ k'' stored => ?_)
    refine ⟨fun _ => stored, fun answer _ => ?_⟩
    -- A message does not change what has been stored
    have kept {x : User (Reading Unit)} (writes : OnlyWrites x) :
        Leads (dispatch sys run) d' k'' (fun d _ k' => filesWritten d ≠ [] →
          Passes 127 p ∧ lookup p k'.ram.slots = some collected) x := by
      refine writes.leads.mono fun e _ k₃ same some_ => ?_
      rw [same.2.1] at some_
      rw [same.2.2]
      exact stored some_
    cases answer with
    | some len => exact kept (only_bind (only_pure _) fun _ => only_pure _)
    | none =>
      refine kept (only_bind ?_ fun _ => only_pure _)
      exact only_bind (writeStr_onlyWrites _) fun _ => only_bind (writeStr_onlyWrites _) fun _ =>
        only_bind (writeStr_onlyWrites _) fun _ => only_pure _
  | failed => exact Leads.pure fun some_ => absurd none' some_
  | unfinished => exact Leads.pure fun some_ => absurd none' some_

/-- What `tee p` has written, `cat p`, `sed` with `p` and the shell's `< p` read back exactly where `p`
is absolute. -/
theorem tee_read_back_iff (sys : System) (run : Runner) (k : Kernel) (env : Shell.Env)
    (rounds : Nat) (p stream : Bytes) (text : Valid p) (solid : Shell.Solid p) (nulFree : 0 ∉ p)
    (overlaid : readFile sys.images (pathUnder (Shell.cwdOf env) p) = none)
    (fits : stream.length ≤ 4096) (input : k.io.stdio.stdin = some stream)
    (ran : Program.Ran Syscall Reply Kernel (Outcome Empty (Reading Unit)))
    (teeRan : (Tee.run rounds p).run (dispatch sys run) k = some ran)
    (wrote : filesWritten ran.calls ≠ []) (k' : Kernel) (kept : k'.ram = ran.state.ram) :
    (∀ rounds', ReadsFile sys run k' p stream (Cat.run rounds' p (Shell.cwdOf env)) ↔
        Shell.isAbsolute p = true) ∧
      (∀ rounds' script parsed, Valid script → Shell.Solid script →
        Sed.parseScript script = some parsed →
        (ReadsFile sys run k' p stream (Sed.run rounds' (script ++ 32 :: p) (Shell.cwdOf env)) ↔
          Shell.isAbsolute p = true)) ∧
      (ReadsFile sys run k' p stream (Shell.openInput env p) ↔ Shell.isAbsolute p = true) := by
  obtain ⟨passes, found⟩ := (tee_leads text solid nulFree input fits).ran teeRan wrote
  have arg : PathArg p := ⟨passes, solid⟩
  have stored (absolute : Shell.isAbsolute p = true) :
      readFileBytes sys.images k'.ram p 4096 = some stream := by
    rw [pathUnder, if_pos absolute] at overlaid
    rw [readFileBytes_overlay _ _ _ _ overlaid, kept, found, Option.map_some,
      List.take_of_length_le fits]
  exact ⟨fun rounds' => cat_readsFile_iff rounds' arg stored,
    fun rounds' script parsed text solid accepted =>
      sed_readsFile_iff rounds' text solid accepted arg stored,
    openInput_readsFile_iff arg stored⟩

/-- A kernel without programs, with input redirected to the program that runs. -/
def pipedKernel (stream : Bytes) : Kernel :=
  { Kernel.boot (fun _ => 10) with io := IoState.new.setUp (some stream) false }

def bareSystem : System := ⟨⟨[], [], [], [], [], [], []⟩, fun _ _ _ => .ret 0⟩

/-- What `tee` with one path does on such a kernel. -/
def teeRun (p stream : Bytes) :=
  (Tee.run 2 p).run (dispatch bareSystem (runImage bareSystem 0)) (pipedKernel stream)

theorem tee_read_back_iff_note : ∃ ran, teeRun (str "/note") (str "hi") = some ran ∧
    (∀ rounds, ReadsFile bareSystem (runImage bareSystem 0) ran.state (str "/note") (str "hi")
      (Cat.run rounds (str "/note") (Shell.cwdOf Shell.Env.empty))) := by
  obtain ⟨ran, hran⟩ := Option.isSome_iff_exists.mp
    (by decide +kernel : (teeRun (str "/note") (str "hi")).isSome = true)
  have wrote : (teeRun (str "/note") (str "hi")).map (fun ran => filesWritten ran.calls) =
      some [str "/note" ++ [0]] := by decide +kernel
  rw [hran, Option.map_some, Option.some.injEq] at wrote
  have both := tee_read_back_iff bareSystem (runImage bareSystem 0) (pipedKernel (str "hi"))
    Shell.Env.empty 2 (str "/note") (str "hi") (by decide +kernel) (by decide +kernel) (by decide)
    (by decide +kernel) (by decide) (by decide +kernel) ran hran (by rw [wrote]; nofun) ran.state rfl
  exact ⟨ran, hran, fun rounds => (both.1 rounds).mpr rfl⟩

/-- What `cat` with one path does in the root directory after that. -/
def catRunAfter (p stream : Bytes) :=
  (teeRun p stream).bind fun ran =>
    (Cat.run 1 p (str "/")).run (dispatch bareSystem (runImage bareSystem 0)) ran.state

/-- In the root directory `cat note` looks for `/note`, but `tee note` has written `note`. -/
theorem tee_writes_elsewhere : Shell.cwdOf Shell.Env.empty = str "/" ∧
    ∃ ran, teeRun (str "note") (str "hi") = some ran ∧ filesWritten ran.calls = [str "note" ++ [0]] ∧
      (catRunAfter (str "note") (str "hi")).map (fun ran => written ran.calls) =
        some (str "cat: cannot read /note\n") ∧
      ¬ReadsFile bareSystem (runImage bareSystem 0) ran.state (str "note") (str "hi")
        (Cat.run 1 (str "note") (str "/")) := by
  obtain ⟨ran, hran⟩ := Option.isSome_iff_exists.mp
    (by decide +kernel : (teeRun (str "note") (str "hi")).isSome = true)
  have wrote : (teeRun (str "note") (str "hi")).map (fun ran => filesWritten ran.calls) =
      some [str "note" ++ [0]] := by decide +kernel
  have opened : (catRunAfter (str "note") (str "hi")).map (fun ran => filesRead ran.calls) =
      some [(str "/note" ++ [0], [])] := by decide +kernel
  rw [hran, Option.map_some, Option.some.injEq] at wrote
  refine ⟨by decide +kernel, ran, hran, wrote, by decide +kernel, ?_⟩
  rintro ⟨catRan, ended, read⟩
  rw [catRunAfter, hran, Option.bind_some, ended, Option.map_some, read] at opened
  revert opened
  decide

end Smultron
