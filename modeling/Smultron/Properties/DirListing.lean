import Smultron.Lib.Terminated
import Smultron.Properties.Overlay
import Smultron.Userspace.Apps

/-!
# What a directory listing shows

`list_dir` compares every stored path with a prefix, and looks through the bytes it has written to
see whether a name is there already. Read as a list of names, the buffer collects the distinct
first components behind the prefix, so the names `ls` finds in it are the entries of the directory.
The prefix is built in a fixed array, and a path too long for it is cut.
-/

namespace Smultron.Vfs

open Checked Terminated Utf8

/-- What the path of a file in a directory starts with. -/
def dirPrefix (path : Bytes) : Bytes := if path = str "/" then str "/" else path ++ str "/"

/-- The first component of a path behind a prefix, unless it is empty. -/
def component (dir entryPath : Bytes) : Option Bytes :=
  if dir.isPrefixOf entryPath then
    let name := (entryPath.drop dir.length).takeWhile (· != 47)
    if name = [] then none else some name
  else none

/-- The paths of all files, the static ones first. -/
def entryPaths (images : Images) (ram : RamFiles) : List Bytes :=
  (files images).map FileEntry.path ++ ram.paths

/-- The first components behind a prefix, with repetitions. -/
def namesUnder (images : Images) (ram : RamFiles) (dir : Bytes) : List Bytes :=
  (entryPaths images ram).filterMap (component dir)

theorem component_eq_some {dir entryPath name : Bytes} :
    component dir entryPath = some name ↔
      ∃ rest, entryPath = dir ++ rest ∧ rest.takeWhile (· != 47) = name ∧ name ≠ [] := by
  rw [component]
  constructor
  · intro h
    split at h
    next under =>
      obtain ⟨rest, rfl⟩ := List.isPrefixOf_iff_prefix.mp under
      simp only [List.drop_left, Option.ite_none_left_eq_some, Option.some.injEq] at h
      exact ⟨rest, rfl, h.2, h.2 ▸ h.1⟩
    · cases h
  · rintro ⟨rest, rfl, rfl, nonempty⟩
    rw [if_pos (List.isPrefixOf_iff_prefix.mpr (List.prefix_append ..)), List.drop_left]
    exact if_neg nonempty

theorem component_subset {dir entryPath name : Bytes} (h : component dir entryPath = some name) :
    name ⊆ entryPath := by
  obtain ⟨rest, rfl, rfl, -⟩ := component_eq_some.mp h
  exact List.subset_append_of_subset_right _ (List.takeWhile_subset _)

/-! ### One path -/

/-- The search through the buffer finds the names in it. -/
theorem alreadyAdded_layout {names : List Bytes} {name : Bytes} {left : Nat}
    (free : ∀ n ∈ names, 0 ∉ n) (enough : (layout 0 names).length ≤ left) :
    alreadyAdded name left (layout 0 names) = decide (name ∈ names) := by
  induction names generalizing left with
  | nil => cases left <;> rfl
  | cons n names ih =>
    rw [List.forall_mem_cons] at free
    have length : (layout 0 (n :: names)).length = n.length + 1 + (layout 0 names).length := by
      rw [layout_cons]
      simp
      omega
    cases left with
    | zero => omega
    | succ left =>
      -- A round compares one name and moves behind its NUL
      rw [alreadyAdded, if_neg layout_cons_ne_nil]
      simp only [takeWhile_layout free.1, drop_layout]
      rw [ih free.2 (by omega)]
      by_cases same : n = name
      · simp [same]
      · simp [same, Ne.symm same]

/-- Behind a prefix that ends in `/` a path can be sliced. -/
theorem sliceFrom_append {dir rest : Bytes} (text : Valid (dir ++ rest))
    (ends : ∃ front, dir = front ++ [47]) :
    sliceFrom (dir ++ rest) dir.length = .ok rest := by
  obtain ⟨front, rfl⟩ := ends
  rw [List.append_assoc, List.singleton_append] at text
  have boundary : ((front ++ [47] ++ rest)[(front ++ [47]).length]?.all
      fun b => b &&& 0xC0 != 0x80) = true := by
    rw [List.getElem?_append_right (Nat.le_refl _), Nat.sub_self]
    cases rest with
    | nil => rfl
    | cons b rest => simpa using (text.split _ (by decide)).2.head_ne
  rw [sliceFrom, if_pos ⟨by simp, boundary⟩, List.drop_left]

/-- One path adds its component to the names. -/
theorem appendPathComponent_eq {entryPath dir : Bytes} {names : List Bytes} {bufLen : Nat}
    (text : Valid entryPath) (ends : ∃ front, dir = front ++ [47])
    (free : ∀ n ∈ names, 0 ∉ n) :
    appendPathComponent entryPath dir dir.length bufLen (layout 0 names) =
      .ok (layout 0 ((component dir entryPath).elim names (put 0 bufLen names))) := by
  rw [appendPathComponent, component]
  by_cases under : dir.isPrefixOf entryPath
  · obtain ⟨rest, rfl⟩ := List.isPrefixOf_iff_prefix.mp under
    simp only [under, Bool.not_true, Bool.false_eq_true, if_false, if_true,
      sliceFrom_append text ends, Outcome.ok_bind, List.drop_left]
    generalize rest.takeWhile (· != 47) = name
    by_cases empty : name = []
    · simp [empty]
    · simp only [if_neg empty, Option.elim_some, put, alreadyAdded_layout free (Nat.le_refl _),
        decide_eq_true_eq]
      -- The name is there already, or fits, or is left out
      split_ifs
      · rfl
      · rw [layout_concat]
        rfl
      · rfl
  · simp [under]

/-! ### All paths -/

theorem foldlM_appendPathComponent {paths : List Bytes} {dir : Bytes} {names : List Bytes}
    {bufLen : Nat} (texts : ∀ p ∈ paths, Valid p ∧ 0 ∉ p) (ends : ∃ front, dir = front ++ [47])
    (free : ∀ n ∈ names, 0 ∉ n) :
    paths.foldlM (fun listed p => appendPathComponent p dir dir.length bufLen listed)
        (layout 0 names) =
      .ok (layout 0 ((paths.filterMap (component dir)).foldl (put 0 bufLen) names)) := by
  induction paths generalizing names with
  | nil => rfl
  | cons p paths ih =>
    rw [List.forall_mem_cons] at texts
    rw [List.foldlM_cons, appendPathComponent_eq texts.1.1 ends free, Outcome.ok_bind]
    cases found : component dir p with
    | none =>
      rw [List.filterMap_cons_none found]
      exact ih texts.2 free
    | some name =>
      rw [List.filterMap_cons_some found, List.foldl_cons]
      -- A new name is part of a path, so it has no NUL either
      apply ih texts.2
      intro n hn
      rcases mem_put hn with old | rfl
      · exact free n old
      · exact fun nul => texts.1.2 (component_subset found nul)

theorem files_texts (images : Images) :
    ∀ p ∈ (files images).map FileEntry.path, Valid p ∧ 0 ∉ p := by
  simp only [files, List.map_cons, List.map_nil]
  decide +kernel

/-- All stored paths are texts without a NUL. -/
theorem entryPaths_texts (images : Images) {ws : List (Bytes × Bytes)}
    (texts : ∀ w ∈ ws, Valid w.1 ∧ 0 ∉ w.1) :
    ∀ p ∈ entryPaths images (writeFiles RamFiles.empty ws).2, Valid p ∧ 0 ∉ p := by
  intro p hp
  rcases List.mem_append.mp hp with static | stored
  · exact files_texts images p static
  · obtain ⟨w, hw, rfl⟩ := mem_paths_writeFiles stored
    exact texts w hw

/-- A listing whose prefix is a text collects the names under it. -/
theorem listDir_eq_collect {images : Images} {ram : RamFiles} {path dir : Bytes} (bufLen : Nat)
    (texts : ∀ p ∈ entryPaths images ram, Valid p ∧ 0 ∉ p)
    (built : (if path = str "/" then str "/" else path.take 126 ++ str "/") = dir)
    (valid : Valid dir) :
    listDir images ram path bufLen =
      .ok (layout 0 (collect 0 bufLen (namesUnder images ram dir))) := by
  -- The prefix ends in `/` also where the path was cut
  have ends : ∃ front, dir = front ++ [47] := by
    rw [← built]
    split
    · exact ⟨[], rfl⟩
    · exact ⟨path.take 126, rfl⟩
  -- Stored paths are texts, so the listing goes over them as they are
  have stored : (ram.files.filter (·.used)).map (fun f => fromUtf8OrEmpty f.pathBytes) =
      ram.paths := by
    rw [paths_eq]
    apply List.map_congr_left
    intro f hf
    apply fromUtf8OrEmpty_of_valid
    apply (texts _ (List.mem_append_right _ _)).1
    rw [paths_eq]
    exact List.mem_map_of_mem hf
  rw [listDir, built, fromUtf8_of_valid valid, Option.getD_some, stored, namesUnder, collect,
    ← foldlM_appendPathComponent texts ends (by simp), entryPaths, List.foldlM_append]
  rfl

theorem mem_namesUnder {images : Images} {ram : RamFiles} {dir name : Bytes} :
    name ∈ namesUnder images ram dir ↔
      ∃ p ∈ entryPaths images ram, component dir p = some name :=
  List.mem_filterMap

/-- Names behind a prefix are not empty, and hold no NUL if the paths do not. -/
theorem namesUnder_ok {images : Images} {ram : RamFiles} {dir : Bytes}
    (texts : ∀ p ∈ entryPaths images ram, Valid p ∧ 0 ∉ p) :
    ∀ n ∈ namesUnder images ram dir, n ≠ [] ∧ 0 ∉ n := by
  intro n hn
  obtain ⟨p, hp, found⟩ := mem_namesUnder.mp hn
  obtain ⟨-, -, -, nonempty⟩ := component_eq_some.mp found
  exact ⟨nonempty, fun nul => (texts p hp).2 (component_subset found nul)⟩

/-! ### What `ls` finds in the buffer -/

theorem names_layout {names : List Bytes} {rounds : Nat} (ok : ∀ n ∈ names, n ≠ [] ∧ 0 ∉ n)
    (enough : (layout 0 names).length ≤ rounds) : Ls.names rounds (layout 0 names) = names := by
  induction names generalizing rounds with
  | nil => cases rounds <;> rfl
  | cons n names ih =>
    rw [List.forall_mem_cons] at ok
    have length : (layout 0 (n :: names)).length = n.length + 1 + (layout 0 names).length := by
      rw [layout_cons]
      simp
      omega
    cases rounds with
    | zero => omega
    | succ rounds =>
      rw [Ls.names, if_neg layout_cons_ne_nil]
      simp only [takeWhile_layout ok.1.2, drop_layout]
      rw [ih ok.2 (by omega), if_neg ok.1.1]

/-- What it means that `listed`, written to a buffer of `bufLen` bytes, shows these names of a
directory. -/
structure Lists (images : Images) (ram : RamFiles) (path : Bytes) (bufLen : Nat) (listed : Bytes)
    (names : List Bytes) : Prop where
  fits : listed.length ≤ bufLen
  terminated : listed = layout 0 names
  distinct : names.Nodup
  nonempty : ∀ n ∈ names, n ≠ [] ∧ 0 ∉ n
  under : ∀ n ∈ names, ∃ p ∈ entryPaths images ram, ∃ rest,
    p = dirPrefix path ++ rest ∧ rest.takeWhile (· != 47) = n
  complete : ((namesUnder images ram (dirPrefix path)).eraseDups.map fun n => n.length + 1).sum ≤
    bufLen → names = (namesUnder images ram (dirPrefix path)).eraseDups
  found : Ls.names listed.length listed = names

theorem valid_dirPrefix {path : Bytes} (valid : Valid path) : Valid (dirPrefix path) := by
  rw [dirPrefix]
  split
  · decide +kernel
  · exact valid.append (by decide +kernel)

theorem prefix_of_short {path : Bytes} (short : path.length ≤ 126) :
    (if path = str "/" then str "/" else path.take 126 ++ str "/") = dirPrefix path := by
  rw [List.take_of_length_le short, dirPrefix]

/-- After any writes, a listing of a path that fits shows distinct entries of the directory, and
all of them in order where the buffer has room. -/
theorem listDir_lists (images : Images) (ws : List (Bytes × Bytes))
    (texts : ∀ w ∈ ws, Valid w.1 ∧ 0 ∉ w.1) (path : Bytes) (valid : Valid path)
    (short : path.length ≤ 126) (bufLen : Nat) :
    ∃ listed names, listDir images (writeFiles RamFiles.empty ws).2 path bufLen = .ok listed ∧
      Lists images (writeFiles RamFiles.empty ws).2 path bufLen listed names := by
  have stored := entryPaths_texts images texts
  generalize (writeFiles RamFiles.empty ws).2 = ram at stored ⊢
  have ok : ∀ n ∈ collect 0 bufLen (namesUnder images ram (dirPrefix path)), n ≠ [] ∧ 0 ∉ n :=
    fun n hn => namesUnder_ok stored n (collect_subset hn)
  refine ⟨_, collect 0 bufLen (namesUnder images ram (dirPrefix path)),
    listDir_eq_collect bufLen stored (prefix_of_short short) (valid_dirPrefix valid),
    collect_fits, rfl, collect_nodup, ok, ?_, ?_, names_layout ok (Nat.le_refl _)⟩
  · intro n hn
    obtain ⟨p, hp, found⟩ := mem_namesUnder.mp (collect_subset hn)
    obtain ⟨rest, whole, name, -⟩ := component_eq_some.mp found
    exact ⟨p, hp, rest, whole, name⟩
  · intro room
    -- The names all fit, so none is left out
    rw [← length_layout (d := (0 : UInt8))] at room
    exact collect_eq room

-- A boot image whose programs are empty.
def noImages : Images := ⟨[], [], [], [], [], [], []⟩

theorem listDir_lists_tmp :
    ∃ listed, listDir noImages
        (writeFiles RamFiles.empty [(str "/tmp/a", []), (str "/tmp/b/c", []), (str "/tmp/a/x", [])]).2
        (str "/tmp") 1024 = .ok listed ∧
      Ls.names listed.length listed = [str "a", str "b"] := by
  obtain ⟨listed, names, done, lists⟩ := listDir_lists noImages
    [(str "/tmp/a", []), (str "/tmp/b/c", []), (str "/tmp/a/x", [])] (by decide +kernel) (str "/tmp")
    (by decide +kernel) (by decide) 1024
  refine ⟨listed, done, lists.found.trans ((lists.complete (by decide +kernel)).trans ?_)⟩
  decide +kernel

/-! ### A path too long for the prefix -/

/-- A listing does not panic, and shows only names under the path. -/
def ListsUnder (images : Images) (ram : RamFiles) (path : Bytes) (bufLen : Nat) : Prop :=
  ∃ listed, listDir images ram path bufLen = .ok listed ∧
    ∀ n ∈ Ls.names listed.length listed, ∃ p ∈ entryPaths images ram,
      component (dirPrefix path) p = some n

/-- A path cut inside a character: the static paths start with `/`, and are too short. -/
theorem listDir_panics {images : Images} {ram : RamFiles} {path : Bytes} {bufLen : Nat}
    (long : path.length = 127) (inside : ¬Valid (path.take 126)) :
    listDir images ram path bufLen = .panic := by
  have notRoot : path ≠ str "/" := by
    rintro rfl
    revert long
    decide
  have invalid : fromUtf8 (path.take 126 ++ str "/") = none :=
    if_neg fun valid => inside (Valid.split [] (b := 47) valid (by decide)).1
  have length : (path.take 126 ++ str "/").length = 127 := by
    rw [List.length_append, List.length_take, long]
    rfl
  -- The prefix falls back to `/`, where the first static path is sliced at 127
  rw [listDir, if_neg notRoot, invalid, length, files]
  rfl

theorem files_short (images : Images) :
    ∀ p ∈ (files images).map FileEntry.path, p.length ≤ 10 := by
  simp only [files, List.map_cons, List.map_nil]
  decide +kernel

theorem length_entryPaths (images : Images) (ws : List (Bytes × Bytes)) :
    ∀ p ∈ entryPaths images (writeFiles RamFiles.empty ws).2, p.length ≤ 128 := by
  intro p hp
  rcases List.mem_append.mp hp with static | stored
  · exact Nat.le_trans (files_short images p static) (by decide)
  · exact ((paths_writeFiles ws).2 p stored).2

/-- A stored path has room for one byte behind a prefix of 127 bytes. -/
theorem component_long {dir p name : Bytes} (long : dir.length = 127) (short : p.length ≤ 128) :
    component dir p = some name ↔ ∃ b, b ≠ 47 ∧ name = [b] ∧ p = dir ++ [b] := by
  rw [component_eq_some]
  constructor
  · rintro ⟨rest, rfl, rfl, nonempty⟩
    rw [List.length_append, long] at short
    cases rest with
    | nil => exact absurd rfl nonempty
    | cons b rest =>
      -- A path has 128 bytes at most
      obtain rfl : rest = [] := List.eq_nil_of_length_eq_zero (by simp at short; omega)
      have notSlash : b ≠ 47 := by
        rintro rfl
        exact nonempty rfl
      exact ⟨b, notSlash, by simp [notSlash], rfl⟩
  · rintro ⟨b, notSlash, rfl, rfl⟩
    exact ⟨[b], rfl, by simp [notSlash], by simp⟩

/-- It has no room behind a prefix of 128 bytes. -/
theorem component_longer {dir p : Bytes} (long : dir.length = 128) (short : p.length ≤ 128) :
    component dir p = none := by
  apply Option.eq_none_iff_forall_ne_some.mpr
  intro name found
  obtain ⟨rest, rfl, rfl, nonempty⟩ := component_eq_some.mp found
  rw [List.length_append, long] at short
  obtain rfl : rest = [] := List.eq_nil_of_length_eq_zero (by omega)
  exact nonempty rfl

section Cut

variable {images : Images} {ram : RamFiles} {path : Bytes} {bufLen : Nat}

theorem length_cut (long : path.length = 127) : (path.take 126 ++ str "/").length = 127 := by
  rw [List.length_append, List.length_take, long]
  rfl

theorem ne_root (long : path.length = 127) : path ≠ str "/" := by
  rintro rfl
  revert long
  decide

theorem listsUnder_short (stored : ∀ p ∈ entryPaths images ram, Valid p ∧ 0 ∉ p)
    (valid : Valid path) (fits : path.length ≤ 126) : ListsUnder images ram path bufLen := by
  refine ⟨_, listDir_eq_collect bufLen stored (prefix_of_short fits) (valid_dirPrefix valid), ?_⟩
  rw [names_layout (fun n hn => namesUnder_ok stored n (collect_subset hn)) (Nat.le_refl _)]
  exact fun n hn => mem_namesUnder.mp (collect_subset hn)

/-- No file has a name under a path of 127 bytes, so what is listed for it is wrong. -/
theorem listsUnder_cut (stored : ∀ p ∈ entryPaths images ram, Valid p ∧ 0 ∉ p)
    (short : ∀ p ∈ entryPaths images ram, p.length ≤ 128) (long : path.length = 127)
    (boundary : Valid (path.take 126)) :
    ListsUnder images ram path bufLen ↔
      collect 0 bufLen (namesUnder images ram (path.take 126 ++ str "/")) = [] := by
  have cut := listDir_eq_collect bufLen stored (if_neg (ne_root long))
    (boundary.append (by decide +kernel))
  have longer : (dirPrefix path).length = 128 := by
    rw [dirPrefix, if_neg (ne_root long), List.length_append, long]
    rfl
  constructor
  · rintro ⟨listed, done, only⟩
    rw [cut] at done
    obtain rfl := Outcome.ok.inj done
    rw [names_layout (fun n hn => namesUnder_ok stored n (collect_subset hn))
      (Nat.le_refl _)] at only
    -- A name under the path would stand behind 128 bytes
    apply List.eq_nil_iff_forall_not_mem.mpr
    intro n hn
    obtain ⟨p, hp, found⟩ := only n hn
    rw [component_longer longer (short p hp)] at found
    cases found
  · intro empty
    rw [empty] at cut
    exact ⟨_, cut, by simp [Ls.names]⟩

/-- What is listed under the cut path: the names of one byte. -/
theorem collect_cut (short : ∀ p ∈ entryPaths images ram, p.length ≤ 128)
    (long : path.length = 127) :
    collect 0 bufLen (namesUnder images ram (path.take 126 ++ str "/")) = [] ↔
      bufLen < 2 ∨ ∀ b, b ≠ 47 → path.take 126 ++ [47, b] ∉ ram.paths := by
  have split (b : UInt8) : path.take 126 ++ [47, b] = path.take 126 ++ str "/" ++ [b] := by
    rw [List.append_assoc]
    rfl
  constructor
  · intro empty
    rw [or_iff_not_imp_left, Nat.not_lt]
    intro room b notSlash inPaths
    have under := (component_long (length_cut long)
      (short _ (List.mem_append_right _ inPaths))).mpr ⟨b, notSlash, rfl, split b⟩
    exact collect_ne_nil (mem_namesUnder.mpr ⟨_, List.mem_append_right _ inPaths, under⟩) room empty
  · intro hidden
    apply List.eq_nil_iff_forall_not_mem.mpr
    intro n hn
    obtain ⟨p, hp, found⟩ := mem_namesUnder.mp (collect_subset hn)
    obtain ⟨b, notSlash, rfl, rfl⟩ := (component_long (length_cut long) (short p hp)).mp found
    have room : 2 ≤ bufLen := Nat.le_trans (length_of_mem hn) collect_fits
    rcases List.mem_append.mp hp with static | inPaths
    · -- The static paths are shorter than the prefix
      have tiny := files_short images _ static
      rw [List.length_append, length_cut long] at tiny
      omega
    · rcases hidden with tight | none_
      · omega
      · exact none_ b notSlash (split b ▸ inPaths)

end Cut

/-- A listing keeps to the requested path exactly when the path fits the prefix, or is cut at the
end of a character and the buffer has no room for a file directly under what is left of it. -/
theorem listDir_under_iff (images : Images) (ws : List (Bytes × Bytes))
    (texts : ∀ w ∈ ws, Valid w.1 ∧ 0 ∉ w.1) (path : Bytes) (valid : Valid path)
    (accepted : path.length ≤ 127) (bufLen : Nat) :
    ListsUnder images (writeFiles RamFiles.empty ws).2 path bufLen ↔
      path.length ≤ 126 ∨ (Valid (path.take 126) ∧ (bufLen < 2 ∨
        ∀ b, b ≠ 47 → path.take 126 ++ [47, b] ∉ (writeFiles RamFiles.empty ws).2.paths)) := by
  have stored := entryPaths_texts images texts
  have short := length_entryPaths images ws
  by_cases fits : path.length ≤ 126
  · simp only [fits, true_or, iff_true]
    exact listsUnder_short stored valid fits
  have long : path.length = 127 := by omega
  simp only [fits, false_or]
  by_cases boundary : Valid (path.take 126)
  · rw [listsUnder_cut stored short long boundary, collect_cut short long]
    simp only [boundary, true_and]
  · simp only [boundary, false_and, iff_false]
    rintro ⟨listed, done, -⟩
    rw [listDir_panics long boundary] at done
    cases done

-- 125 letters and a character of two bytes, which the cut takes apart.
def splitPath : Bytes := List.replicate 125 97 ++ [0xC3, 0xA9]

theorem listDir_under_iff_letters :
    ListsUnder noImages (writeFiles RamFiles.empty []).2 (List.replicate 127 97) 1024 := by
  apply (listDir_under_iff noImages [] nofun (List.replicate 127 97) (by decide +kernel)
    (by simp) 1024).mpr
  refine .inr ⟨by decide +kernel, .inr fun b _ stored => ?_⟩
  rw [writeFiles, keys_empty] at stored
  cases stored

theorem listDir_split_panics :
    Valid splitPath ∧ splitPath.length = 127 ∧
      listDir noImages RamFiles.empty splitPath 1024 = .panic ∧
      ¬ListsUnder noImages RamFiles.empty splitPath 1024 := by
  have panics : listDir noImages RamFiles.empty splitPath 1024 = .panic :=
    listDir_panics (by decide +kernel) (by decide +kernel)
  refine ⟨by decide +kernel, by decide +kernel, panics, ?_⟩
  rintro ⟨listed, done, -⟩
  rw [panics] at done
  cases done

end Smultron.Vfs
