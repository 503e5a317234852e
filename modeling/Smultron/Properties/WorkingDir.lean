import Smultron.Properties.DirListing
import Smultron.Properties.EnvTransport
import Smultron.Properties.ResolvedPaths

/-!
# The working directory

`cd` stores a path without the slash at its end. It takes one slash off, so an argument that ends in
two of them leaves a directory that ends in a slash, and `list_dir` puts another one behind it. As
long as no such argument is given, the directory stays canonical and is listed.
-/

namespace Smultron.Shell

open Checked Checked.Outcome Proc SlotTable Utf8

variable {env env' : Env} {cwd args : Bytes} {calls : List (Syscall × Reply)}

/-! ### What `cd` stores -/

/-- The path an argument of `cd` stands for. -/
def cdPath (args : Bytes) : Bytes := if trim args = [] then str "/" else trim args

/-- `if new_cwd_len > 1 && new_cwd[new_cwd_len - 1] == b'/' { new_cwd_len -= 1; }` -/
def stripSlash (buf : Bytes) : Bytes :=
  if 1 < buf.length ∧ buf.getLast? = some 47 then buf.dropLast else buf

/-- The directory after `cd`. -/
def nextCwd (cwd args : Bytes) : Bytes :=
  -- a path that is cut or too long is not stored
  let buf := stripSlash ((pathUnder cwd (cdPath args)).take 127)
  if Valid buf ∧ buf.length ≤ maxVal then buf else cwd

theorem cwdFront_eq (value : getEnv env cwdKey = some cwd) (some_ : cwd ≠ []) :
    cwdFront env = .ok (slashed cwd) := by
  have short : cwd.length ≤ 64 := getEnv_length value
  have size := List.length_pos_iff.mpr some_
  rw [cwdFront, value]
  dsimp only
  rw [List.take_of_length_le (by omega), append_of_le (by simp; omega), ok_bind, List.nil_append,
    if_neg (by omega), sub_of_le size, ok_bind, index_of_lt (by omega), ok_bind,
    ← List.getLast_eq_getElem some_, slashed, List.getLast?_eq_some_getLast some_]
  by_cases slash : cwd.getLast some_ = 47
  · rw [if_pos slash, if_pos (by rw [slash]), pure_eq]
  · rw [if_neg slash, if_neg (by simpa using slash), push_of_lt (by omega)]

theorem newCwd_eq (value : getEnv env cwdKey = some cwd) (some_ : cwd ≠ []) (args : Bytes) :
    newCwd env args = .ok (stripSlash ((pathUnder cwd (cdPath args)).take 127)) := by
  have short : cwd.length ≤ 64 := getEnv_length value
  have slashedFits := length_slashed cwd
  have front : (if isAbsolute (cdPath args) then append 128 [] ((cdPath args).take (128 - 1))
      else relativeCwd env (cdPath args)) = .ok ((pathUnder cwd (cdPath args)).take 127) := by
    cases absolute : isAbsolute (cdPath args) with
    | true =>
      have fits : ([] : Bytes).length + ((cdPath args).take (128 - 1)).length ≤ 128 := by
        rw [List.length_nil, List.length_take]
        omega
      rw [if_pos rfl, append_of_le fits, List.nil_append, pathUnder, if_pos absolute]
    | false =>
      rw [if_neg Bool.false_ne_true, relativeCwd, cwdFront_eq value some_, ok_bind,
        sub_of_le (by omega), ok_bind, sub_of_le (by omega), ok_bind,
        append_of_le (by rw [List.length_take]; omega), pathUnder_relative absolute,
        List.take_append, List.take_of_length_le (Nat.le_trans slashedFits (by omega)),
        Nat.sub_right_comm]
  rw [newCwd, ← cdPath, front, ok_bind, stripSlash]
  generalize (pathUnder cwd (cdPath args)).take 127 = buf
  by_cases one : buf.length ≤ 1
  · rw [if_pos one, if_neg (by omega), pure_eq]
  · have long : buf ≠ [] := by
      rintro rfl
      exact one (Nat.zero_le _)
    rw [if_neg one, sub_of_le (by omega), ok_bind, index_of_lt (by omega), ok_bind,
      ← List.getLast_eq_getElem long, List.getLast?_eq_some_getLast long]
    by_cases slash : buf.getLast long = 47
    · rw [if_pos slash, if_pos ⟨by omega, by rw [slash]⟩, List.dropLast_eq_take, pure_eq]
    · rw [if_neg slash, if_neg (by simpa using fun _ => slash), pure_eq]

/-- A variable that is there keeps its value only where the new one is too long. -/
theorem storeEnv_present {key val old : Bytes} (value : getEnv env key = some old)
    (shortKey : key.length ≤ maxKey) (nonempty : key ≠ []) :
    (∃ env', storeEnv env key val = .ok env' ∧ getEnv env' key = some val ∧ val.length ≤ maxVal) ∨
      (∃ msg, storeEnv env key val = .error msg) ∧ ¬val.length ≤ maxVal := by
  cases stored : storeEnv env key val with
  | ok env' =>
    have found : getEnv env' key = some val := by
      rcases storeEnv_slots stored with ⟨empty, -⟩ | ⟨-, updated⟩
      · exact absurd empty nonempty
      · rw [getEnv_eq_lookup _ nonempty, lookup_upsert updated, if_pos rfl]
    exact .inl ⟨env', rfl, found, getEnv_length found⟩
  | error msg =>
    refine .inr ⟨⟨msg, rfl⟩, fun short => ?_⟩
    rw [storeEnv, dif_neg (by omega)] at stored
    -- The loop finds the variable
    cases updated : env.updateFirst (·.holds key) (·.setVal val short) with
    | some env' =>
      rw [updated] at stored
      cases stored
    | none =>
      have absent := updateFirst_none.mp updated
      obtain ⟨v, found, -⟩ := Option.map_eq_some_iff.mp value
      have held := List.find?_some found
      rw [absent v (List.mem_of_find?_eq_some found)] at held
      cases held

/-- One `cd`. -/
theorem getEnv_cd (value : getEnv env cwdKey = some cwd) (some_ : cwd ≠ [])
    (e : (dispatchSimple env (str "cd") args).Exec Legal calls (.ok (true, env'))) :
    getEnv env' cwdKey = some (nextCwd cwd args) := by
  rw [dispatchSimple_cd, setCwd, newCwd_eq value some_, lift_ok, Proc.pure_bind] at e
  rw [nextCwd]
  generalize stripSlash ((pathUnder cwd (cdPath args)).take 127) = buf at e ⊢
  by_cases text : Valid buf
  · rw [fromUtf8_of_valid text] at e
    dsimp only at e
    rcases storeEnv_present value (by decide) (by decide) with
      ⟨env₁, stored, found, fits⟩ | ⟨⟨msg, refused⟩, long⟩
    · rw [setEnv, stored] at e
      obtain ⟨-, same⟩ := exec_pure.mp e
      obtain rfl : env' = env₁ := congrArg Prod.snd (Outcome.ok.inj same)
      rw [if_pos ⟨text, fits⟩, found]
    · -- A message, and the directory stays
      rw [setEnv, refused] at e
      have kept : (do
          writeStr msg
          pure env : User Env).Yields Legal fun env₁ => env₁ = env :=
        yields_bind (yields_of _ fun _ => yields_pure rfl)
      have same := (yields_bind (kept.mono fun env₁ h =>
        yields_pure (Q := fun r : Bool × Env => r.2 = env) h)).result e
      obtain rfl : env' = env := same
      rw [if_neg fun fits => long fits.2, value]
  · have none_ : fromUtf8 buf = none := if_neg text
    rw [none_] at e
    obtain ⟨-, same⟩ := exec_pure.mp e
    obtain rfl : env' = env := congrArg Prod.snd (Outcome.ok.inj same)
    rw [if_neg fun fits => text fits.1, value]

/-! ### Canonical directories -/

/-- A directory as `cd` should leave it. -/
structure Canonical (cwd : Bytes) : Prop where
  rooted : cwd.head? = some 47
  short : cwd.length ≤ 64
  text : Valid cwd
  closed : cwd.getLast? = some 47 → cwd = str "/"

theorem Canonical.ne_nil (h : Canonical cwd) : cwd ≠ [] := by
  rintro rfl
  cases h.rooted

/-- The argument does not leave a second slash at the end of what is stored. -/
def OneSlash (cwd args : Bytes) : Prop :=
  [47, 47] <:+ trim args → trim args = str "//" ∨ 65 < (pathUnder cwd (trim args)).length

theorem cdPath_facts (text : Valid args) : Valid (cdPath args) ∧ cdPath args ≠ [] := by
  rw [cdPath]
  split
  · exact ⟨by decide +kernel, by decide⟩
  next some_ => exact ⟨valid_trim text, some_⟩

theorem ends_in_slashes {init : Bytes} {b : UInt8} :
    [47, 47] <:+ init ++ [b] ↔ b = 47 ∧ init.getLast? = some 47 := by
  constructor
  · rintro ⟨front, same⟩
    have same' : front ++ [47] ++ [47] = init ++ [b] := by simpa using same
    obtain ⟨rfl, last⟩ := List.append_inj' same' rfl
    exact ⟨(List.cons.inj last).1.symm, by simp⟩
  · rintro ⟨rfl, last⟩
    obtain ⟨front, rfl⟩ := List.getLast?_eq_some_iff.mp last
    exact ⟨front, by simp⟩

theorem isAbsolute_iff {path : Bytes} : isAbsolute path = true ↔ path.head? = some 47 := beq_iff_eq

/-- The condition, seen from the whole path. -/
theorem oneSlash_iff (cwd args : Bytes) : OneSlash cwd args ↔
    ([47, 47] <:+ pathUnder cwd (cdPath args) →
      pathUnder cwd (cdPath args) = str "//" ∨ 65 < (pathUnder cwd (cdPath args)).length) := by
  rw [OneSlash]
  by_cases empty : trim args = []
  · have root : pathUnder cwd (cdPath args) = [47] := by
      rw [cdPath, if_pos empty]
      rfl
    rw [root, empty]
    exact iff_of_true (fun ends => absurd ends (by decide)) fun ends => absurd ends (by decide)
  · have whole : cdPath args = trim args := if_neg empty
    rw [whole]
    cases absolute : isAbsolute (trim args) with
    | true => rw [pathUnder, if_pos absolute]
    | false =>
      obtain ⟨init, b, last⟩ := (List.eq_nil_or_concat' (trim args)).resolve_left empty
      rw [last] at absolute ⊢
      have path : pathUnder cwd (init ++ [b]) = slashed cwd ++ init ++ [b] := by
        rw [pathUnder_relative absolute, List.append_assoc]
      have notRoot : init ++ [b] ≠ str "//" := by
        intro root
        rw [root] at absolute
        cases absolute
      rw [path, ends_in_slashes, ends_in_slashes]
      by_cases single : init = []
      · -- One slash alone is an absolute path
        have other : b ≠ 47 := by
          rintro rfl
          rw [single] at absolute
          cases absolute
        exact iff_of_true (fun ends => absurd ends.1 other) fun ends => absurd ends.1 other
      · have notRoot' : slashed cwd ++ init ++ [b] ≠ str "//" := by
          intro root
          have sizes := congrArg List.length root
          have some_ := List.length_pos_iff.mpr single
          have slash := length_slashed_pos cwd
          have two : (str "//").length = 2 := rfl
          rw [List.length_append, List.length_append, List.length_singleton, two] at sizes
          omega
        rw [List.getLast?_append_of_ne_nil _ single]
        simp only [notRoot, notRoot', false_or]

theorem length_stripSlash (buf : Bytes) : buf.length ≤ (stripSlash buf).length + 1 := by
  rw [stripSlash]
  split
  · rw [List.length_dropLast]
    omega
  · omega

theorem canonical_root : Canonical [47] := ⟨rfl, by decide, by decide +kernel, fun _ => rfl⟩

/-- From a canonical directory `cd` leads to one exactly when its argument has one slash at most at the
end. -/
theorem canonical_next_iff (h : Canonical cwd) (text : Valid args) :
    Canonical (nextCwd cwd args) ↔ OneSlash cwd args := by
  obtain ⟨pathText, pathSome⟩ := cdPath_facts text
  rw [oneSlash_iff, nextCwd]
  have rooted : (pathUnder cwd (cdPath args)).head? = some 47 := by
    rw [pathUnder]
    split
    next absolute => exact isAbsolute_iff.mp absolute
    · split <;> rw [List.head?_append, h.rooted] <;> rfl
  have valid : Valid (pathUnder cwd (cdPath args)) := by
    rw [pathUnder]
    split
    · exact pathText
    · split
      · exact h.text.append pathText
      · have slash : Valid [47] := by decide +kernel
        exact h.text.append (slash.append pathText)
  generalize pathUnder cwd (cdPath args) = target at rooted valid
  obtain ⟨init, b, rfl⟩ := (List.eq_nil_or_concat' target).resolve_left (by rintro rfl; cases rooted)
  by_cases long : 65 < (init ++ [b]).length
  · -- Too long to be stored
    have size := length_stripSlash ((init ++ [b]).take 127)
    rw [List.length_take] at size
    have small : maxVal = 64 := rfl
    rw [if_neg fun fits => by omega]
    exact iff_of_true h fun _ => .inr long
  · rw [List.take_of_length_le (by omega), ends_in_slashes]
    rw [List.length_append, List.length_singleton] at long
    by_cases slash : b = 47
    · subst slash
      by_cases root : init = []
      · subst root
        exact iff_of_true canonical_root fun ends => by cases ends.2
      · have size := List.length_pos_iff.mpr root
        have stripped : stripSlash (init ++ [47]) = init := by
          rw [stripSlash, if_pos ⟨by simp; omega, by simp⟩, List.dropLast_concat]
        have initText : Valid init := (valid.split [] (by decide)).1
        have small : maxVal = 64 := rfl
        rw [stripped, if_pos ⟨initText, by omega⟩]
        have initRooted : init.head? = some 47 := by
          rwa [List.head?_append_of_ne_nil _ root] at rooted
        constructor
        · rintro canonical ⟨-, last⟩
          rw [canonical.closed last]
          exact .inl rfl
        · refine fun ends => ⟨initRooted, by omega, initText, fun last => ?_⟩
          rcases ends ⟨rfl, last⟩ with same | more
          · exact (List.append_inj' same rfl).1
          · rw [List.length_append, List.length_singleton] at more
            omega
    · have kept : stripSlash (init ++ [b]) = init ++ [b] := by
        rw [stripSlash, if_neg (by simp [slash])]
      rw [kept]
      refine iff_of_true ?_ fun ends => absurd ends.1 slash
      split
      next fits => exact ⟨rooted, fits.2, fits.1, fun last => by simp [slash] at last⟩
      · exact h

/-! ### Listing the directory -/

section Listing

open Terminated Vfs

/-- Whatever files there are, a listing of the directory shows the first components of the paths that
start with the directory and one slash, and all of them where the buffer has room. -/
def ListsDirectory (cwd : Bytes) : Prop :=
  ∀ images ws, (∀ w ∈ ws, Valid w.1 ∧ 0 ∉ w.1) → ∀ bufLen, ∃ listed,
    listDir images (writeFiles RamFiles.empty ws).2 cwd bufLen = .ok listed ∧
      (∀ n ∈ Ls.names listed.length listed,
        n ∈ namesUnder images (writeFiles RamFiles.empty ws).2 (slashed cwd)) ∧
      (((namesUnder images (writeFiles RamFiles.empty ws).2 (slashed cwd)).eraseDups.map
          fun n => n.length + 1).sum ≤ bufLen →
        Ls.names listed.length listed =
          (namesUnder images (writeFiles RamFiles.empty ws).2 (slashed cwd)).eraseDups)

theorem dirPrefix_canonical (h : Canonical cwd) : dirPrefix cwd = slashed cwd := by
  rw [dirPrefix]
  split
  next root =>
    rw [root]
    rfl
  next other => rw [slashed, if_neg fun last => other (h.closed last)]; rfl

theorem listsDirectory_of_canonical (h : Canonical cwd) : ListsDirectory cwd := by
  intro images ws texts bufLen
  have stored := entryPaths_texts images texts
  have short : cwd.length ≤ 126 := Nat.le_trans h.short (by decide)
  generalize (writeFiles RamFiles.empty ws).2 = ram at stored ⊢
  rw [← dirPrefix_canonical h]
  have ok : ∀ n ∈ collect 0 bufLen (namesUnder images ram (dirPrefix cwd)), n ≠ [] ∧ 0 ∉ n :=
    fun n hn => namesUnder_ok stored n (collect_subset hn)
  refine ⟨_, listDir_eq_collect bufLen stored (prefix_of_short short) (valid_dirPrefix h.text), ?_⟩
  rw [names_layout ok (Nat.le_refl _)]
  refine ⟨fun n hn => collect_subset hn, fun room => ?_⟩
  rw [← length_layout (d := (0 : UInt8))] at room
  exact collect_eq room

end Listing

/-! ### Histories of `cd` -/

/-- One `cd`, with the environments around it. -/
structure CdStep where
  before : Env
  args : Bytes
  after : Env

/-- These commands, one after the other. -/
inductive CdRun : Env → List CdStep → Prop where
  | none (env : Env) : CdRun env []
  | cd {env env' : Env} {args : Bytes} {calls : List (Syscall × Reply)} {steps : List CdStep}
      (dispatched : (dispatchSimple env (str "cd") args).Exec Legal calls (.ok (true, env')))
      (later : CdRun env' steps) : CdRun env (⟨env, args, env'⟩ :: steps)

/-- The directory is canonical, and it is listed. -/
def CwdOk (env : Env) : Prop :=
  ∃ cwd, getEnv env cwdKey = some cwd ∧ Canonical cwd ∧ ListsDirectory cwd

theorem cwdOk_iff (value : getEnv env cwdKey = some cwd) : CwdOk env ↔ Canonical cwd := by
  constructor
  · rintro ⟨cwd', value', canonical, -⟩
    rwa [← Option.some.inj (value'.symm.trans value)]
  · exact fun canonical => ⟨cwd, value, canonical, listsDirectory_of_canonical canonical⟩

theorem cwdOf_eq (value : getEnv env cwdKey = some cwd) (text : Valid cwd) : cwdOf env = cwd := by
  rw [cwdOf, value]
  dsimp only
  rw [fromUtf8_of_valid text, Option.getD_some]

theorem cdRun_iff {steps : List CdStep} (run : CdRun env steps)
    (value : getEnv env cwdKey = some cwd) (h : Canonical cwd)
    (texts : ∀ st ∈ steps, Valid st.args) :
    (∀ st ∈ steps, CwdOk st.after) ↔ ∀ st ∈ steps, OneSlash (cwdOf st.before) st.args := by
  induction run generalizing cwd with
  | none env => simp
  | cd dispatched later ih =>
    rw [List.forall_mem_cons] at texts
    have value' := getEnv_cd value h.ne_nil dispatched
    have first := (cwdOk_iff value').trans (canonical_next_iff h texts.1)
    rw [List.forall_mem_cons, List.forall_mem_cons, first, cwdOf_eq value h.text]
    -- The later commands start from a canonical directory if this one leads to one
    exact and_congr_right fun one =>
      ih value' ((canonical_next_iff h texts.1).mpr one) texts.2

/-- From the root directory on, the directory is canonical and listed after every `cd` exactly when
none of the arguments leaves a second slash at the end. -/
theorem cwd_canonical_iff (env : Env) (steps : List CdStep)
    (start : getEnv env cwdKey = some (str "/")) (run : CdRun env steps)
    (texts : ∀ st ∈ steps, Valid st.args) :
    (∀ st ∈ steps, CwdOk st.after) ↔ ∀ st ∈ steps, OneSlash (cwdOf st.before) st.args :=
  cdRun_iff run start canonical_root texts

theorem cd_exec {buf : Bytes} (made : newCwd env args = .ok buf) (text : Valid buf)
    (stored : storeEnv env cwdKey buf = .ok env') :
    (dispatchSimple env (str "cd") args).Exec Legal [] (.ok (true, env')) := by
  rw [dispatchSimple_cd, setCwd, made, lift_ok, Proc.pure_bind, fromUtf8_of_valid text]
  dsimp only
  rw [setEnv, stored]
  exact exec_pure.mpr ⟨rfl, rfl⟩

/-- What a `cd` leaves, where the new directory can be stored. -/
theorem cd_leaves (value : getEnv env cwdKey = some cwd) (some_ : cwd ≠ []) {buf : Bytes}
    (made : stripSlash ((pathUnder cwd (cdPath args)).take 127) = buf) (text : Valid buf)
    (short : buf.length ≤ maxVal) :
    ∃ env', (dispatchSimple env (str "cd") args).Exec Legal [] (.ok (true, env')) ∧
      getEnv env' cwdKey = some buf := by
  rcases storeEnv_present value (by decide) (by decide) with ⟨env', stored, found, -⟩ | ⟨-, long⟩
  · have path := newCwd_eq value some_ args
    rw [made] at path
    exact ⟨env', cd_exec path text stored, found⟩
  · exact absurd short long

/-- To `/tmp`, from there to `/tmp/a/b`, and back to the root directory. -/
theorem cwd_canonical_iff_tmp : ∃ env env₁ env₂ env₃, getEnv env cwdKey = some (str "/") ∧
    CdRun env [⟨env, str "tmp/", env₁⟩, ⟨env₁, str "a/b/ ", env₂⟩, ⟨env₂, [], env₃⟩] ∧
      getEnv env₂ cwdKey = some (str "/tmp/a/b") ∧ CwdOk env₁ ∧ CwdOk env₂ ∧ CwdOk env₃ := by
  obtain ⟨env, -, value⟩ := root_reached
  obtain ⟨env₁, first, value₁⟩ := @cd_leaves env (str "/") (str "tmp/") value (by decide) (str "/tmp")
    (by decide +kernel) (by decide +kernel) (by decide)
  obtain ⟨env₂, second, value₂⟩ := @cd_leaves env₁ (str "/tmp") (str "a/b/ ") value₁ (by decide)
    (str "/tmp/a/b") (by decide +kernel) (by decide +kernel) (by decide)
  obtain ⟨env₃, third, -⟩ := @cd_leaves env₂ (str "/tmp/a/b") [] value₂ (by decide) (str "/")
    (by decide +kernel) (by decide +kernel) (by decide)
  have run : CdRun env [⟨env, str "tmp/", env₁⟩, ⟨env₁, str "a/b/ ", env₂⟩, ⟨env₂, [], env₃⟩] :=
    .cd first (.cd second (.cd third (.none env₃)))
  have texts : Valid (str "tmp/") ∧ Valid (str "a/b/ ") ∧ Valid ([] : Bytes) := by decide +kernel
  have single (cwd : Bytes) : OneSlash cwd (str "tmp/") ∧ OneSlash cwd (str "a/b/ ") ∧ OneSlash cwd [] := by
    have ends : ¬[47, 47] <:+ trim (str "tmp/") ∧ ¬[47, 47] <:+ trim (str "a/b/ ") ∧
        ¬[47, 47] <:+ trim [] := by decide +kernel
    exact ⟨fun two => absurd two ends.1, fun two => absurd two ends.2.1, fun two => absurd two ends.2.2⟩
  have all := (cwd_canonical_iff env _ value run (by simpa using texts)).mpr
    (by simpa using ⟨(single _).1, (single _).2.1, (single _).2.2⟩)
  refine ⟨env, env₁, env₂, env₃, value, run, value₂, ?_⟩
  simpa using all

/-- `cd /a//` leaves `/a/`, and a listing of that does not show the file `/a/x`. -/
theorem cd_leaves_slash : ∃ env env', getEnv env cwdKey = some (str "/") ∧
    CdRun env [⟨env, str "/a//", env'⟩] ∧ getEnv env' cwdKey = some (str "/a/") ∧ ¬CwdOk env' ∧
      Vfs.listDir Vfs.noImages (Vfs.writeFiles Vfs.RamFiles.empty [(str "/a/x", [])]).2 (str "/a/") 64 =
        .ok [] := by
  obtain ⟨env, -, value⟩ := root_reached
  obtain ⟨env', left, value'⟩ := @cd_leaves env (str "/") (str "/a//") value (by decide) (str "/a/")
    (by decide +kernel) (by decide +kernel) (by decide)
  refine ⟨env, env', value, .cd left (.none env'), value', fun ok => ?_, by decide +kernel⟩
  have closed := ((cwdOk_iff value').mp ok).closed rfl
  revert closed
  decide

end Smultron.Shell
