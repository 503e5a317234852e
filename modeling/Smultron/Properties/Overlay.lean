import Smultron.Kernel.Vfs

/-!
# The RAM overlay refines a bounded map

`write_file` scans the sixteen entries twice and edits one in place. Read through
`RamFiles.slots`, a call is one write to a table of slots, so what later reads see is decided by
the last accepted write to each path. Static files shadow the overlay: a write to a static path is
accepted and never read back.
-/

namespace Smultron.Vfs

open SlotTable

-- What a path must satisfy for `write_file` to look at the table at all.
def storable (path _data : Bytes) : Bool := path ≠ [] && path.length ≤ maxRamPathLen

/-! ### One entry -/

@[simp] theorem length_pathBytes (f : RamFile) : f.pathBytes.length = f.pathLen := by
  simp [RamFile.pathBytes, f.path_fits]

@[simp] theorem length_dataBytes (f : RamFile) : f.dataBytes.length = f.dataLen := by
  simp [RamFile.dataBytes, f.data_fits]

theorem holds_iff (path : Bytes) (f : RamFile) :
    f.holds path = true ↔ f.used = true ∧ f.pathBytes = path := by
  have len := length_pathBytes f
  simp only [RamFile.holds, Bool.and_eq_true, beq_iff_eq, and_assoc, RamFile.pathBytes] at len ⊢
  constructor
  · rintro ⟨used, -, same⟩
    exact ⟨used, same⟩
  · -- The comparison of the lengths follows from that of the bytes
    rintro ⟨used, same⟩
    exact ⟨used, by rw [← same, len], same⟩

theorem dataBytes_setData (data : Bytes) (f : RamFile) :
    (f.setData data).dataBytes = data.take maxRamFileLen := by
  have written : (f.setData data).dataBytes = data.take (min data.length maxRamFileLen) :=
    Buffer.front_blit_zero _ _ (by rw [List.length_take]; omega) (by simp [RamFile.setData])
  rw [written, Buffer.take_min_length]

@[simp] theorem pathBytes_setData (data : Bytes) (f : RamFile) :
    (f.setData data).pathBytes = f.pathBytes := rfl

theorem slot_setData (path data : Bytes) (f : RamFile) (h : f.holds path = true) :
    (f.setData data).slot = some (path, data.take maxRamFileLen) := by
  obtain ⟨used, rfl⟩ := (holds_iff path f).mp h
  have used' : (f.setData data).used = true := used
  simp [RamFile.slot, used', dataBytes_setData]

theorem slot_create (path data : Bytes) (fits : path.length ≤ maxRamPathLen) (f : RamFile) :
    (f.create path fits data).slot = some (path, data.take maxRamFileLen) := by
  have used : (f.create path fits data).used = true := rfl
  have name : (f.create path fits data).pathBytes = path :=
    f.path.front_blit_zero path (by simpa using fits) rfl
  have kept : (f.create path fits data).dataBytes = data.take maxRamFileLen := dataBytes_setData ..
  simp [RamFile.slot, used, name, kept]

/-! ### The table -/

/-- The stored paths are those of the entries in use, in table order. -/
theorem paths_eq (ram : RamFiles) :
    ram.paths = (ram.files.filter (·.used)).map RamFile.pathBytes := by
  rw [RamFiles.paths, RamFiles.slots]
  induction ram.files with
  | nil => rfl
  | cons f fs ih =>
    cases used : f.used with
    | false => simpa [RamFile.slot, used] using ih
    | true => simpa [RamFile.slot, used] using ih

theorem slots_updateFirst (ram : RamFiles) (p : RamFile → Bool) (f : RamFile → RamFile) :
    (ram.updateFirst p f).map RamFiles.slots =
      (SlotTable.updateFirst p f ram.files).map (List.map RamFile.slot) := by
  rw [RamFiles.updateFirst]
  split <;> rename_i h <;> simp [h, RamFiles.slots]

theorem length_slots (ram : RamFiles) : ram.slots.length = maxRamFiles := by
  simp [RamFiles.slots, ram.length_eq]

-- The first scan of `write_file` is `overwrite`.
theorem slots_overwrite (ram : RamFiles) (path data : Bytes) :
    (ram.updateFirst (·.holds path) (·.setData data)).map RamFiles.slots =
      overwrite path (data.take maxRamFileLen) ram.slots := by
  rw [slots_updateFirst]
  refine updateFirst_map RamFile.slot ?_ (fun f h => slot_setData path data f h) ram.files
  intro f
  rw [Bool.eq_iff_iff, holds_iff]
  cases used : f.used <;> simp [RamFile.slot, used]

-- The second scan is `fill`.
theorem slots_fill (ram : RamFiles) (path data : Bytes) (fits : path.length ≤ maxRamPathLen) :
    (ram.updateFirst (!·.used) (·.create path fits data)).map RamFiles.slots =
      fill path (data.take maxRamFileLen) ram.slots := by
  rw [slots_updateFirst]
  refine updateFirst_map RamFile.slot ?_ (fun f _ => slot_create path data fits f) ram.files
  intro f
  cases used : f.used <;> simp [RamFile.slot, used]

/-- A `write_file` call is one write to the table of slots. -/
theorem writeFile_refines (ram : RamFiles) (path data : Bytes) :
    ((writeFile ram path data).1, (writeFile ram path data).2.slots) =
      SlotTable.write storable ram.slots path (data.take maxRamFileLen) := by
  unfold writeFile SlotTable.write
  by_cases bad : path = [] ∨ maxRamPathLen < path.length
  · have refused : storable path (data.take maxRamFileLen) = false := by
      rcases bad with rfl | long
      · rfl
      · simp [storable]
        omega
    simp only [dif_pos bad, refused, Bool.false_eq_true, if_false]
  · obtain ⟨nonempty, short⟩ := not_or.mp bad
    have admitted : storable path (data.take maxRamFileLen) = true := by
      simp [storable, nonempty, Nat.le_of_not_lt short]
    simp only [dif_neg bad, admitted, if_true, upsert]
    -- Each scan of the code is the scan of the table with the same outcome.
    rw [← slots_overwrite, ← slots_fill ram path data (Nat.le_of_not_lt short)]
    cases ram.updateFirst (·.holds path) (·.setData data) with
    | some ram' => rfl
    | none =>
      simp only [Option.map_none, Option.none_or]
      cases ram.updateFirst (!·.used) (·.create path _ data) <;> rfl

theorem writeFile_accepted (ram : RamFiles) (path data : Bytes) :
    (writeFile ram path data).1 =
      (SlotTable.write storable ram.slots path (data.take maxRamFileLen)).1 :=
  congrArg Prod.fst (writeFile_refines ram path data)

theorem slots_writeFile (ram : RamFiles) (path data : Bytes) :
    (writeFile ram path data).2.slots =
      (SlotTable.write storable ram.slots path (data.take maxRamFileLen)).2 :=
  congrArg Prod.snd (writeFile_refines ram path data)

theorem lookup_map_slot (path : Bytes) (fs : List RamFile) :
    lookup path (fs.map RamFile.slot) = (fs.find? (·.holds path)).map RamFile.dataBytes := by
  induction fs with
  | nil => rfl
  | cons f fs ih =>
    by_cases h : f.holds path = true
    · obtain ⟨used, rfl⟩ := (holds_iff path f).mp h
      simp [h, RamFile.slot, used, lookup]
    · -- An unused entry, or one of another path, is no slot of this path
      have skip : lookup path (f.slot :: fs.map RamFile.slot) = lookup path (fs.map RamFile.slot) := by
        rw [holds_iff, not_and] at h
        cases used : f.used with
        | false => simp [RamFile.slot, used, lookup]
        | true => simp [RamFile.slot, used, lookup, h used]
      rw [List.map_cons, skip, ih, List.find?_cons_of_neg h]

/-- A read of a path that is not static is a lookup in the table. -/
theorem readFileBytes_overlay (images : Images) (ram : RamFiles) (path : Bytes) (outLen : Nat)
    (overlaid : readFile images path = none) :
    readFileBytes images ram path outLen = (lookup path ram.slots).map (·.take outLen) := by
  simp only [readFileBytes, overlaid, RamFiles.slots, lookup_map_slot, Option.map_map]
  congr 1
  funext f
  simp [RamFile.dataBytes, Buffer.front_front, Nat.min_comm]

theorem readFileBytes_static (images : Images) (ram : RamFiles) (path data : Bytes) (outLen : Nat)
    (static : readFile images path = some data) :
    readFileBytes images ram path outLen = some (data.take outLen) := by
  simp only [readFileBytes, static, Option.some.injEq]
  rw [List.take_eq_take_iff]
  omega

/-- The whole file of a path, of the boot image or else of the table. -/
def storedFile (images : Images) (ram : RamFiles) (path : Bytes) : Option Bytes :=
  (readFile images path).or (lookup path ram.slots)

/-- A read gets the beginning of the file. -/
theorem readFileBytes_eq (images : Images) (ram : RamFiles) (path : Bytes) (outLen : Nat) :
    readFileBytes images ram path outLen =
      (storedFile images ram path).map (·.take outLen) := by
  rw [storedFile]
  cases static : readFile images path with
  | none => rw [readFileBytes_overlay _ _ _ _ static, Option.none_or]
  | some data => rw [readFileBytes_static _ _ _ _ _ static, Option.some_or, Option.map_some]

/-! ### Histories of writes -/

-- What a write leaves in the table: the first `maxRamFileLen` bytes.
private def stored (e : (Bytes × Bytes) × Bool) : (Bytes × Bytes) × Bool :=
  ((e.1.1, e.1.2.take maxRamFileLen), e.2)

theorem writeFiles_refines (ram : RamFiles) (ws : List (Bytes × Bytes)) :
    ((writeFiles ram ws).1.map stored, (writeFiles ram ws).2.slots) =
      writeAll storable ram.slots (ws.map fun w => (w.1, w.2.take maxRamFileLen)) := by
  induction ws generalizing ram with
  | nil => rfl
  | cons w ws ih =>
    obtain ⟨path, data⟩ := w
    have tail := ih (writeFile ram path data).2
    rw [slots_writeFile] at tail
    simp only [writeFiles, List.map_cons, writeAll, ← tail, stored, writeFile_accepted]

/-- Every stored path is one `write_file` accepts, and no path is stored twice. -/
def PathsOk (t : Slots Bytes Bytes) : Prop :=
  (keys t).Nodup ∧ ∀ path ∈ keys t, path ≠ [] ∧ path.length ≤ maxRamPathLen

theorem pathsOk_write {t : Slots Bytes Bytes} (ok : PathsOk t) (path data : Bytes) :
    PathsOk (SlotTable.write storable t path data).2 := by
  refine ⟨nodup_write ok.1, fun q hq => ?_⟩
  rcases mem_keys_write hq with old | ⟨rfl, admitted⟩
  · exact ok.2 q old
  · simpa [storable] using admitted

theorem slots_empty : RamFiles.empty.slots = List.replicate maxRamFiles none := by
  simp [RamFiles.slots, RamFiles.empty, RamFile.slot, RamFile.empty]

theorem keys_empty : RamFiles.empty.paths = [] := by
  simp [RamFiles.paths, slots_empty, keys]

theorem paths_writeFiles (ws : List (Bytes × Bytes)) :
    PathsOk (writeFiles RamFiles.empty ws).2.slots := by
  have start : PathsOk RamFiles.empty.slots := by
    have none := keys_empty
    rw [RamFiles.paths] at none
    simp [PathsOk, none]
  have run := congrArg Prod.snd (writeFiles_refines RamFiles.empty ws)
  simp only at run
  rw [run]
  exact writeAll_invariant (I := PathsOk) (fun t k v ok => pathsOk_write ok k v) _ start

/-- Every stored path has been written. -/
theorem mem_paths_writeFiles {path : Bytes} {ws : List (Bytes × Bytes)}
    (h : path ∈ (writeFiles RamFiles.empty ws).2.paths) : ∃ w ∈ ws, w.1 = path := by
  have run := congrArg Prod.snd (writeFiles_refines RamFiles.empty ws)
  simp only at run
  rw [RamFiles.paths, run] at h
  rcases mem_keys_writeAll _ h with start | ⟨w, hw, rfl⟩
  · rw [← RamFiles.paths, keys_empty] at start
    cases start
  · obtain ⟨w', hw', rfl⟩ := List.mem_map.mp hw
    exact ⟨w', hw', rfl⟩

/-- After a history, the table holds what the last accepted write to a path left. -/
theorem lookup_writeFiles (ws : List (Bytes × Bytes)) (path : Bytes) :
    lookup path (writeFiles RamFiles.empty ws).2.slots =
      (lastAccepted path (writeFiles RamFiles.empty ws).1).map (·.take maxRamFileLen) := by
  have run := writeFiles_refines RamFiles.empty ws
  have log := congrArg Prod.fst run
  have last := congrArg Prod.snd run
  simp only at log last
  have fresh : lookup path RamFiles.empty.slots = none := by
    rw [lookup_eq_none, ← RamFiles.paths, keys_empty]
    exact List.not_mem_nil
  rw [last, lookup_writeAll, ← log, fresh, Option.or_none]
  exact lastAccepted_map (fun data : Bytes => data.take maxRamFileLen) _ path

/-- What it means that the RAM files `ram`, left by the calls in `log`, are a finite map from
paths to byte strings. -/
structure OverlayMap (images : Images) (log : List ((Bytes × Bytes) × Bool)) (ram : RamFiles) :
    Prop where
  distinct : ram.paths.Nodup
  entries : ∀ f ∈ ram.files, f.used = true →
    f.pathBytes ≠ [] ∧ f.pathLen ≤ 128 ∧ f.dataLen ≤ 4096 ∧
      f.pathBytes.length = f.pathLen ∧ f.dataBytes.length = f.dataLen
  stored_iff : ∀ path, path ∈ ram.paths ↔ ∃ e ∈ log, e.2 = true ∧ e.1.1 = path
  reads : ∀ path outLen, readFile images path = none →
    readFileBytes images ram path outLen =
      (lastAccepted path log).map fun data => (data.take 4096).take outLen
  absent : ∀ path outLen, readFile images path = none →
    (readFileBytes images ram path outLen = none ↔ ∀ e ∈ log, ¬(e.2 = true ∧ e.1.1 = path))
  frame : ∀ path data other outLen, other ≠ path →
    readFileBytes images (writeFile ram path data).2 other outLen =
      readFileBytes images ram other outLen
  refused_iff : ∀ path data, (writeFile ram path data).1 = false ↔
    path = [] ∨ 128 < path.length ∨ (path ∉ ram.paths ∧ ram.paths.length = 16)
  refused_keeps : ∀ path data, (writeFile ram path data).1 = false →
    ∀ other outLen, readFileBytes images (writeFile ram path data).2 other outLen =
      readFileBytes images ram other outLen

theorem readFileBytes_frame (images : Images) (ram : RamFiles) (path data other : Bytes)
    (outLen : Nat) (apart : other ≠ path) :
    readFileBytes images (writeFile ram path data).2 other outLen =
      readFileBytes images ram other outLen := by
  cases static : readFile images other with
  | some bytes => rw [readFileBytes_static _ _ _ _ _ static, readFileBytes_static _ _ _ _ _ static]
  | none =>
    rw [readFileBytes_overlay _ _ _ _ static, readFileBytes_overlay _ _ _ _ static,
      slots_writeFile, lookup_write, if_neg fun h => apart h.2]

theorem writeFile_refused_iff (ram : RamFiles) (path data : Bytes) :
    (writeFile ram path data).1 = false ↔
      path = [] ∨ 128 < path.length ∨ (path ∉ ram.paths ∧ ram.paths.length = 16) := by
  rw [← Bool.not_eq_true, writeFile_accepted, write_accepted_iff, length_slots]
  simp only [storable, Bool.and_eq_true, decide_eq_true_eq, ne_eq, maxRamPathLen, maxRamFiles,
    RamFiles.paths]
  by_cases empty : path = []
  · simp [empty]
  · by_cases long : 128 < path.length
    · have : ¬path.length ≤ 128 := by omega
      simp [long, this]
    · have : path.length ≤ 128 := by omega
      simp only [empty, long, this, not_false_eq_true, true_and, false_or]
      tauto

/-- A refused call leaves the table as it was. -/
theorem slots_refused (ram : RamFiles) (path data : Bytes) (h : (writeFile ram path data).1 = false) :
    (writeFile ram path data).2.slots = ram.slots := by
  rw [slots_writeFile]
  rw [writeFile_accepted] at h
  exact write_refused h

/-- After every finite sequence of `write_file` calls from the empty table, the RAM files are a
finite map from paths to byte strings. -/
theorem overlay_refines_map (images : Images) (ws : List (Bytes × Bytes)) :
    OverlayMap images (writeFiles RamFiles.empty ws).1 (writeFiles RamFiles.empty ws).2 := by
  -- All that the history leaves: distinct admissible paths, and the last accepted values.
  have paths := paths_writeFiles ws
  have contents := lookup_writeFiles ws
  generalize (writeFiles RamFiles.empty ws).1 = log at contents ⊢
  generalize (writeFiles RamFiles.empty ws).2 = ram at paths contents ⊢
  have read (path outLen) (static : readFile images path = none) :
      readFileBytes images ram path outLen =
        (lastAccepted path log).map fun data => (data.take 4096).take outLen := by
    rw [readFileBytes_overlay _ _ _ _ static, contents, Option.map_map]
    rfl
  refine ⟨paths.1, ?_, ?_, read, ?_, ?_, writeFile_refused_iff ram, ?_⟩
  · -- The entries in use are the keys of the table
    intro f hf used
    have key : f.pathBytes ∈ ram.paths := by
      refine List.mem_filterMap.mpr ⟨f.slot, List.mem_map_of_mem hf, ?_⟩
      simp [RamFile.slot, used]
    exact ⟨(paths.2 _ key).1, f.path_fits, f.data_fits, length_pathBytes f, length_dataBytes f⟩
  · -- A path is stored exactly when a write to it was accepted
    intro path
    have missing : path ∉ ram.paths ↔ lastAccepted path log = none := by
      rw [RamFiles.paths, ← lookup_eq_none, contents, Option.map_eq_none_iff]
    rw [← not_iff_not, missing, lastAccepted_eq_none]
    simp only [not_exists, not_and]
  · intro path outLen static
    rw [read path outLen static, Option.map_eq_none_iff, lastAccepted_eq_none]
  · exact fun path data other outLen => readFileBytes_frame images ram path data other outLen
  · -- A refused write changes no read
    intro path data refused other outLen
    cases static : readFile images other with
    | some bytes =>
      rw [readFileBytes_static _ _ _ _ _ static, readFileBytes_static _ _ _ _ _ static]
    | none =>
      rw [readFileBytes_overlay _ _ _ _ static, readFileBytes_overlay _ _ _ _ static,
        slots_refused ram path data refused]

/-! ### Reading back what was written -/

/-- A successful write is read back by any buffer large enough unless a static file of that path
says otherwise. -/
theorem read_your_writes_iff (images : Images) (ram : RamFiles) (path data : Bytes) (outLen : Nat)
    (small : data.length ≤ 4096) (room : data.length ≤ outLen)
    (accepted : (writeFile ram path data).1 = true) :
    readFileBytes images (writeFile ram path data).2 path outLen = some data ↔
      ∀ bytes, readFile images path = some bytes → bytes.take outLen = data := by
  cases static : readFile images path with
  | some bytes =>
    -- The static file is read, whatever was written
    rw [readFileBytes_static _ _ _ _ _ static]
    simp
  | none =>
    -- The overlay is read, and it holds what was accepted
    rw [writeFile_accepted] at accepted
    have whole : data.take maxRamFileLen = data := List.take_of_length_le small
    rw [whole] at accepted
    rw [readFileBytes_overlay _ _ _ _ static, slots_writeFile, lookup_write, whole, accepted]
    simp [List.take_of_length_le room]

theorem read_your_writes_iff_note :
    (writeFile RamFiles.empty (str "/note.txt") (str "hi")).1 = true ∧
      readFileBytes ⟨[], [], [], [], [], [], []⟩
          (writeFile RamFiles.empty (str "/note.txt") (str "hi")).2 (str "/note.txt") 64 =
        some (str "hi") := by
  have accepted : (writeFile RamFiles.empty (str "/note.txt") (str "hi")).1 = true := by decide
  have none_ : readFile ⟨[], [], [], [], [], [], []⟩ (str "/note.txt") = none := by decide
  refine ⟨accepted, (read_your_writes_iff _ _ _ _ _ (by decide) (by decide) accepted).mpr ?_⟩
  intro bytes static
  rw [none_] at static
  cases static

/-- A write to a static path is accepted, and reading the path still gives the static bytes. -/
theorem read_your_writes_fails :
    (writeFile RamFiles.empty (str "/hello.txt") (str "hi")).1 = true ∧
      readFileBytes ⟨[], [], [], [], [], [], []⟩
          (writeFile RamFiles.empty (str "/hello.txt") (str "hi")).2 (str "/hello.txt") 64 ≠
        some (str "hi") := by
  decide

end Smultron.Vfs
