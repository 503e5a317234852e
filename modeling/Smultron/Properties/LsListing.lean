import Smultron.Properties.DirListing
import Smultron.Properties.FileAppRuns

/-!
# What ls prints

`ls` asks for the names in its directory, in a buffer of 1024 bytes, and prints each of them on a
line of its own. The table of files has room for sixteen paths of 127 bytes, which is twice as much
as the buffer; a name that does not fit any more is left out. So the listing is whole exactly where
the distinct names, each with a byte behind it, take no more than 1024 bytes.
-/

namespace Smultron.Ls

open Checked Checked.Outcome Proc Terminated Utf8 Vfs

variable {sys : System} {runner : Runner} {k : Kernel} {done : List (Syscall × Reply)}
  {images : Images} {ram : RamFiles} {cwd name : Bytes} {names : List Bytes}

/-! ### The names in a directory -/

/-- A file or a directory of this name stands directly under the directory. -/
def IsChild (images : Images) (ram : RamFiles) (cwd name : Bytes) : Prop :=
  name ≠ [] ∧ 47 ∉ name ∧ ∃ p ∈ entryPaths images ram,
    p = dirPrefix cwd ++ name ∨ ∃ rest, p = dirPrefix cwd ++ (name ++ 47 :: rest)

/-- The names, each one once. -/
def children (images : Images) (ram : RamFiles) (cwd : Bytes) : List Bytes :=
  (namesUnder images ram (dirPrefix cwd)).eraseDups

/-- The bytes a listing of all names takes. -/
def listingSize (images : Images) (ram : RamFiles) (cwd : Bytes) : Nat :=
  ((children images ram cwd).map fun n => n.length + 1).sum

/-- One name a line. -/
def lines (names : List Bytes) : Bytes := names.flatMap (· ++ [10])

theorem length_lines : (lines names).length = (names.map fun n => n.length + 1).sum := by
  rw [lines, List.length_flatMap]
  simp

/-- The first component of a path: it goes to the first slash, or to the end. -/
theorem takeWhile_slash {rest : Bytes} :
    rest.takeWhile (· != 47) = name ↔
      47 ∉ name ∧ (rest = name ∨ ∃ more, rest = name ++ 47 :: more) := by
  constructor
  · rintro rfl
    have free : 47 ∉ rest.takeWhile (· != 47) := by
      intro slash
      simpa using List.mem_takeWhile_imp slash
    refine ⟨free, ?_⟩
    have whole := List.takeWhile_append_dropWhile (p := (· != 47)) (l := rest)
    cases left : rest.dropWhile (· != 47) with
    | nil =>
      rw [left, List.append_nil] at whole
      exact .inl whole.symm
    | cons b more =>
      have stops : ¬((b != 47) = true) := by
        have := List.head_dropWhile_not (p := (· != 47)) (l := rest) (by simp [left])
        simpa [left] using this
      obtain rfl : b = 47 := by simpa using stops
      rw [left] at whole
      exact .inr ⟨more, whole.symm⟩
  · rintro ⟨free, h⟩
    have all : ∀ b ∈ name, (b != 47) = true := by
      intro b hb
      simpa using ne_of_mem_of_not_mem hb free
    rcases h with rfl | ⟨more, rfl⟩
    · exact List.takeWhile_eq_self_iff.mpr all
    · rw [List.takeWhile_append_of_pos all]
      simp

theorem mem_children : name ∈ children images ram cwd ↔ IsChild images ram cwd name := by
  simp only [children, List.mem_eraseDups, mem_namesUnder, component_eq_some, takeWhile_slash, IsChild]
  constructor
  · rintro ⟨p, stored, rest, rfl, ⟨free, shape⟩, some_⟩
    refine ⟨some_, free, _, stored, ?_⟩
    rcases shape with rfl | ⟨more, rfl⟩
    · exact .inl rfl
    · exact .inr ⟨more, rfl⟩
  · rintro ⟨some_, free, p, stored, rfl | ⟨more, rfl⟩⟩
    · exact ⟨_, stored, _, rfl, ⟨free, .inl rfl⟩, some_⟩
    · exact ⟨_, stored, _, rfl, ⟨free, .inr ⟨more, rfl⟩⟩, some_⟩

/-- The text is a listing of all names in the directory, each one once. -/
def ListsAll (images : Images) (ram : RamFiles) (cwd text : Bytes) : Prop :=
  ∃ names, text = lines names ∧ names.Nodup ∧ ∀ n, n ∈ names ↔ IsChild images ram cwd n

theorem nodup_children : (children images ram cwd).Nodup := by
  rw [children, ← collect_eq (d := 0) (Nat.le_refl _)]
  exact collect_nodup

/-- The names the buffer collects are all names exactly where it has room for them. -/
theorem listsAll_collect_iff {size : Nat} :
    ListsAll images ram cwd (lines (collect 0 size (namesUnder images ram (dirPrefix cwd)))) ↔
      listingSize images ram cwd ≤ size := by
  constructor
  · rintro ⟨names, same, distinct, all⟩
    -- Whatever the lines are cut into, they are no longer than the buffer
    have fits : (layout 0 (collect 0 size (namesUnder images ram (dirPrefix cwd)))).length ≤ size :=
      collect_fits
    have perm : names.Perm (children images ram cwd) :=
      (List.perm_ext_iff_of_nodup distinct nodup_children).mpr
        fun n => (all n).trans mem_children.symm
    rw [length_layout, ← length_lines, same, length_lines, (perm.map _).sum_nat] at fits
    exact fits
  · intro room
    have whole : collect 0 size (namesUnder images ram (dirPrefix cwd)) = children images ram cwd :=
      collect_eq (by rwa [length_layout])
    rw [whole]
    exact ⟨_, rfl, nodup_children, fun n => mem_children⟩

/-- What ls prints of a directory: names in it, each one once, and every name for which `size` bytes
leave room. -/
structure Prints (images : Images) (ram : RamFiles) (cwd : Bytes) (size : Nat) (text : Bytes)
    (names : List Bytes) : Prop where
  printed : text = lines names
  distinct : names.Nodup
  entries : ∀ n ∈ names, IsChild images ram cwd n
  full : ∀ n, IsChild images ram cwd n → n ∉ names → size < text.length + n.length + 1

theorem prints_collect {size : Nat} :
    Prints images ram cwd size (lines (collect 0 size (namesUnder images ram (dirPrefix cwd))))
      (collect 0 size (namesUnder images ram (dirPrefix cwd))) where
  printed := rfl
  distinct := collect_nodup
  entries n hn := mem_children.mp (List.mem_eraseDups.mpr (collect_subset hn))
  full n child out := by
    rw [length_lines, ← length_layout (d := (0 : UInt8))]
    exact collect_full (List.mem_eraseDups.mp (mem_children.mpr child)) out

/-! ### The run -/

theorem printNames_leads (names : List Bytes) :
    Leads (dispatch sys runner) done k
      (fun d o _ => o = .ok () ∧ written d = written done ++ lines names) (printNames names) := by
  induction names generalizing done k with
  | nil => exact Leads.pure ⟨rfl, by simp [lines]⟩
  | cons name names ih =>
    rw [printNames]
    refine Leads.bind_ok (write_leads fun r k₁ _ _ => ⟨_, rfl, ?_⟩)
    refine Leads.bind_ok (write_leads fun r' k₂ _ _ => ⟨_, rfl, ih.mono ?_⟩)
    rintro d o k' ⟨rfl, wrote⟩
    have newline : str "\n" = [10] := by decide +kernel
    refine ⟨rfl, ?_⟩
    rw [wrote, newline, written_append, written_append, written_singleton, written_singleton]
    simp [lines]

theorem printNames_onlyWrites (names : List Bytes) : OnlyWrites (printNames names) := by
  induction names with
  | nil => exact only_pure _
  | cons name names ih =>
    exact only_bind (write_onlyWrites ..) fun _ => only_bind (write_onlyWrites ..) fun _ => ih

/-- The library gets a listing that fits its buffer. -/
theorem listDir_run {buf listed : Bytes} (runner : Runner) (passes : Passes 127 cwd) (room : 0 < buf.length)
    (small : buf.length < u64Max) (fits : listed.length ≤ buf.length)
    (shown : listDir sys.images k.ram cwd buf.length = .ok listed) :
    (Libos.listDir cwd buf).run (dispatch sys runner) k =
      some ⟨.ok (listed.length, Libos.overwrite buf listed),
        [⟨k, .readDir (some (cwd ++ [0])) (some buf.length), ⟨listed.length, listed, none⟩, k⟩],
        k⟩ := by
  have short := passes.short
  have path : cstr 128 (some (cwd ++ [0])) = some cwd := cstr_passes passes
  have answered : dispatch sys runner (.readDir (some (cwd ++ [0])) (some buf.length)) k =
      some (⟨listed.length, listed, none⟩, k) := by
    simp [dispatch, path, shown, room.ne']
  rw [Libos.listDir, if_neg (by omega), Shell.cString_ok (by omega), lift_ok, Proc.pure_bind]
  refine run_bind.mpr ⟨_, run_request.mpr ⟨_, _, answered, rfl⟩, .inr ⟨_, ⟨_, [], k⟩, rfl, ?_, rfl⟩⟩
  dsimp only
  rw [if_neg (by omega), Nat.min_eq_left fits]
  exact run_pure.mpr rfl

/-- An empty listing prints nothing; like every other one, it prints its names. -/
theorem printed_eq {buf : Bytes} (ok : ∀ n ∈ names, n ≠ [] ∧ 0 ∉ n) :
    (if (layout 0 names).length = 0 ∨
        (Libos.overwrite buf (layout 0 names)).length < (layout 0 names).length then pure ()
      else printNames (Ls.names (layout 0 names).length
        ((Libos.overwrite buf (layout 0 names)).take (layout 0 names).length))) =
      printNames names := by
  rw [Libos.overwrite, List.take_left, names_layout ok (Nat.le_refl _)]
  cases names with
  | nil => simp [printNames]
  | cons n names =>
    rw [if_neg]
    simp [layout_cons]

/-- The run of ls comes to its end and has written the names that its buffer has collected. -/
theorem run_writes (runner : Runner) (passes : Passes 126 cwd)
    (texts : ∀ p ∈ entryPaths sys.images k.ram, Valid p ∧ 0 ∉ p) :
    ∃ ran, (run cwd).run (dispatch sys runner) k = some ran ∧ ran.result = .ok () ∧
      written ran.calls =
        lines (collect 0 1024 (namesUnder sys.images k.ram (dirPrefix cwd))) := by
  have wide : Passes 127 cwd := ⟨passes.text, passes.nulFree, passes.short.trans (Nat.le_succ 126)⟩
  have shown := listDir_eq_collect 1024 texts (prefix_of_short passes.short)
    (valid_dirPrefix passes.text)
  generalize found : collect 0 1024 (namesUnder sys.images k.ram (dirPrefix cwd)) = names at shown ⊢
  have ok : ∀ n ∈ names, n ≠ [] ∧ 0 ∉ n := by
    rw [← found]
    exact fun n hn => namesUnder_ok texts n (collect_subset hn)
  have fits : (layout 0 names).length ≤ 1024 := found ▸ collect_fits
  have size : (List.replicate 1024 (0 : UInt8)).length = 1024 := List.length_replicate
  rw [← size] at shown fits
  have listed := listDir_run runner wide (by rw [size]; decide) (by rw [size]; decide) fits shown
  obtain ⟨ran, ended⟩ := exists_run (printNames_onlyWrites names).isIo sys runner k
  obtain ⟨returned, wrote⟩ := (printNames_leads names).ran ended
  refine ⟨_, run_bind.mpr ⟨_, listed, .inr ⟨_, ran, rfl, ?_, rfl⟩⟩, returned, ?_⟩
  · dsimp only
    rwa [printed_eq ok]
  · rw [Program.Ran.calls, Program.callsOf_append, written_append]
    exact wrote

/-- Whatever files were written, ls ends and leaves out no entry for which its buffer has room. It
lists the directory in whole exactly where all of its names fit. -/
theorem ls_lists (sys : System) (runner : Runner) (k : Kernel) (ws : List (Bytes × Bytes))
    (texts : ∀ w ∈ ws, Passes 127 w.1) (stored : k.ram = (writeFiles RamFiles.empty ws).2)
    (cwd : Bytes) (passes : Passes 64 cwd) :
    ∃ ran, (run cwd).run (dispatch sys runner) k = some ran ∧ ran.result = .ok () ∧
      (∃ names, Prints sys.images k.ram cwd 1024 (written ran.calls) names) ∧
      (ListsAll sys.images k.ram cwd (written ran.calls) ↔
        listingSize sys.images k.ram cwd ≤ 1024) := by
  have paths : ∀ p ∈ entryPaths sys.images k.ram, Valid p ∧ 0 ∉ p := by
    rw [stored]
    exact entryPaths_texts sys.images fun w hw => ⟨(texts w hw).text, (texts w hw).nulFree⟩
  have short : cwd.length ≤ 126 := passes.short.trans (by decide)
  obtain ⟨ran, ended, returned, wrote⟩ :=
    run_writes runner ⟨passes.text, passes.nulFree, short⟩ paths
  refine ⟨ran, ended, returned, ?_⟩
  rw [wrote]
  exact ⟨⟨_, prints_collect⟩, listsAll_collect_iff⟩

/-- The kernel after these writes. -/
def afterWrites (ws : List (Bytes × Bytes)) : Kernel :=
  { Kernel.boot (fun _ => 10) with ram := (writeFiles RamFiles.empty ws).2 }

@[simp] theorem afterWrites_ram (ws : List (Bytes × Bytes)) :
    (afterWrites ws).ram = (writeFiles RamFiles.empty ws).2 := rfl

theorem ls_lists_tmp :
    ∃ ran, (run (str "/tmp")).run (dispatch bareSystem (runImage bareSystem 0))
        (afterWrites [(str "/tmp/a", []), (str "/tmp/b/c", [])]) = some ran ∧
      ListsAll bareSystem.images (afterWrites [(str "/tmp/a", []), (str "/tmp/b/c", [])]).ram (str "/tmp")
        (written ran.calls) := by
  obtain ⟨ran, ended, -, -, whole⟩ := ls_lists bareSystem (runImage bareSystem 0)
    (afterWrites [(str "/tmp/a", []), (str "/tmp/b/c", [])]) [(str "/tmp/a", []), (str "/tmp/b/c", [])]
    (by
      simp only [List.forall_mem_cons, List.not_mem_nil, false_implies, implies_true, and_true]
      exact ⟨⟨by decide +kernel, by decide +kernel, by decide +kernel⟩,
        by decide +kernel, by decide +kernel, by decide +kernel⟩) rfl (str "/tmp")
    ⟨by decide +kernel, by decide +kernel, by decide +kernel⟩
  exact ⟨ran, ended, whole.mpr (by decide +kernel)⟩

-- Nine empty files in the root, each with a name of 126 bytes.
def longNames : List (Bytes × Bytes) :=
  (List.range 9).map fun i => (47 :: (48 + UInt8.ofNat i) :: List.replicate 125 97, [])

/-- Nine files are too many where their names are long. -/
theorem ls_leaves_out :
    ∃ ran, (run (str "/")).run (dispatch bareSystem (runImage bareSystem 0)) (afterWrites longNames) =
        some ran ∧
      ran.result = .ok () ∧
      ¬ListsAll bareSystem.images (afterWrites longNames).ram (str "/") (written ran.calls) := by
  have ascii : ∀ w ∈ longNames, (∀ b ∈ w.1, b < 128) ∧ 0 ∉ w.1 := by decide +kernel
  have texts : ∀ w ∈ longNames, Valid w.1 ∧ 0 ∉ w.1 :=
    fun w hw => ⟨valid_ascii (ascii w hw).1, (ascii w hw).2⟩
  have paths := entryPaths_texts bareSystem.images texts
  rw [← afterWrites_ram] at paths
  have passes : Passes 126 (str "/") := ⟨by decide +kernel, by decide +kernel, by decide +kernel⟩
  obtain ⟨ran, ended, returned, wrote⟩ := run_writes (runImage bareSystem 0) passes paths
  refine ⟨ran, ended, returned, ?_⟩
  rw [wrote, listsAll_collect_iff]
  decide +kernel

end Smultron.Ls
