import Smultron.Properties.ExecStrings
import Smultron.Properties.WordLines
import Smultron.Userspace.Apps

/-!
# Quoted arguments

The shell takes quotes off, joins the words with spaces, and hands one string to the program; `tee`
and `sed` split that string at white space again. The quotes are gone by then, so exactly the words
without white space in them come back, and no empty word does.
-/

namespace Smultron.Shell

open Checked Checked.Outcome Proc Utf8

/-! ### Splitting what was joined -/

/-- A character of the text is white space. -/
def hasSpace (w : Bytes) : Bool := ((decode w).getD []).any isWhitespace

/-- A word that is still one when the quotes are gone. -/
def Solid (w : Bytes) : Prop := w ≠ [] ∧ hasSpace w = false

instance (w : Bytes) : Decidable (Solid w) := inferInstanceAs (Decidable (_ ∧ _))

theorem solid_encode {cs : List Char} :
    Solid (encode cs) ↔ cs ≠ [] ∧ ∀ c ∈ cs, isWhitespace c = false := by
  rw [Solid, hasSpace, decode_encode, Option.getD_some, List.any_eq_false, Ne, encode_eq_nil]
  simp

theorem solid_of_splitWhitespace {bs w : Bytes} (h : w ∈ splitWhitespace bs) : Solid w := by
  rw [splitWhitespace] at h
  split at h
  next cs _ =>
    obtain ⟨word, hw, rfl⟩ := List.mem_map.mp h
    exact solid_encode.mpr (mem_words hw)
  · cases h

theorem foldl_putWord {out : Bytes} (some_ : out ≠ []) (ws : List Bytes) :
    ws.foldl putWord out = out ++ ws.flatMap (32 :: ·) := by
  induction ws generalizing out with
  | nil => simp
  | cons w ws ih =>
    rw [List.foldl_cons, putWord, if_neg some_, ih (by simp), List.flatMap_cons]
    simp

theorem joined_pair {w : Bytes} (some_ : w ≠ []) (v : Bytes) : joined [w, v] = w ++ 32 :: v := by
  have first : putWord [] w = w := if_pos rfl
  rw [joined, List.foldl_cons, first, foldl_putWord some_]
  simp

/-- Solid words come back. -/
theorem splitWhitespace_joined {ws : List Bytes} (texts : ∀ w ∈ ws, Valid w)
    (solid : ∀ w ∈ ws, Solid w) : splitWhitespace (joined ws) = ws := by
  have behind (w : Bytes) (ws : List Bytes) (texts : ∀ v ∈ w :: ws, Valid v)
      (solid : ∀ v ∈ w :: ws, Solid v) : splitWhitespace (w ++ ws.flatMap (32 :: ·)) = w :: ws := by
    induction ws generalizing w with
    | nil =>
      obtain ⟨cs, rfl⟩ := valid_iff.mp (texts w List.mem_cons_self)
      obtain ⟨some_, letters⟩ := solid_encode.mp (solid _ List.mem_cons_self)
      rw [List.flatMap_nil, List.append_nil, splitWhitespace_encode, words_letters some_ letters]
      rfl
    | cons v ws ih =>
      rw [List.forall_mem_cons] at texts solid
      obtain ⟨cs, rfl⟩ := valid_iff.mp texts.1
      obtain ⟨some_, letters⟩ := solid_encode.mp solid.1
      have later := ih v texts.2 solid.2
      -- The rest is a text of its own behind the space
      have rest : Valid (v ++ ws.flatMap (32 :: ·)) := by
        by_contra invalid
        rw [splitWhitespace, Option.not_isSome_iff_eq_none.mp invalid] at later
        cases later
      obtain ⟨ds, whole⟩ := valid_iff.mp rest
      have space : encode cs ++ 32 :: encode ds = encode (cs ++ ' ' :: ds) := by
        rw [encode_append, encode_cons]
        rfl
      rw [← whole, splitWhitespace_encode] at later
      rw [List.flatMap_cons, List.cons_append, ← whole, space, splitWhitespace_encode,
        words_append some_ letters, List.map_cons, later]
  cases ws with
  | nil =>
    have empty := splitWhitespace_encode []
    exact empty
  | cons w ws =>
    have first : putWord [] w = w := if_pos rfl
    rw [joined, List.foldl_cons, first, foldl_putWord (solid w List.mem_cons_self).1]
    exact behind w ws texts solid

/-- Exactly lists of solid words come back. -/
theorem splitWhitespace_joined_iff {ws : List Bytes} (texts : ∀ w ∈ ws, Valid w) :
    splitWhitespace (joined ws) = ws ↔ ∀ w ∈ ws, Solid w := by
  constructor
  · intro same w hw
    rw [← same] at hw
    exact solid_of_splitWhitespace hw
  · exact splitWhitespace_joined texts

theorem collectArgs_eq {cap : Nat} {toks found : List Bytes} (few : found.length + toks.length ≤ cap) :
    collectArgs cap toks found = some (found ++ toks) := by
  induction toks generalizing found with
  | nil => simp [collectArgs]
  | cons tok toks ih =>
    rw [List.length_cons] at few
    rw [collectArgs, if_neg (by omega), ih (by simp; omega)]
    simp

theorem collectArgs_eq_some {cap : Nat} {toks found args : List Bytes}
    (h : collectArgs cap toks found = some args) : args = found ++ toks := by
  induction toks generalizing found with
  | nil => simpa [collectArgs, eq_comm] using h
  | cons tok toks ih =>
    rw [collectArgs] at h
    split at h
    · cases h
    · simpa using ih h

/-- The words are collected when the string splits into them. -/
theorem collectArgs_iff {cap : Nat} {args : Bytes} {ws : List Bytes} (few : ws.length ≤ cap) :
    collectArgs cap (splitWhitespace args) [] = some ws ↔ splitWhitespace args = ws := by
  constructor
  · intro collected
    exact (collectArgs_eq_some collected).symm
  · rintro rfl
    exact collectArgs_eq (by simpa using few)

/-! ### A line that names such a program -/

/-- How the program of a path takes its arguments apart. -/
def argumentsOf (path args : Bytes) : Option (List Bytes) :=
  if path = str "/bin/tee" then Tee.files args
  else if path = str "/bin/sed" then Sed.tokens args
  else none

/-- The program the line starts finds these arguments. -/
def Finds (env : Env) (line : Bytes) (ws : List Bytes) : Prop :=
  ∃ c path args, (dispatch env line).firstCall = some c ∧ c.strings.map Prod.fst = some path ∧
    c.childArgs = some args ∧ argumentsOf path args = some ws

/-- The command words that name `tee` or `sed`. -/
def splitters : List Bytes := [str "tee", str "/bin/tee", str "sed", str "/bin/sed"]

theorem splitter_program {cmd : Bytes} (named : cmd ∈ splitters) :
    isBuiltin cmd = false ∧ ∃ path, (resolveBinPath cmd : Outcome Empty _) = .ok (some path) ∧
      Passes Libos.maxPath path ∧ (path = str "/bin/tee" ∨ path = str "/bin/sed") := by
  have tee : Passes Libos.maxPath (str "/bin/tee") :=
    ⟨by decide +kernel, by decide, by decide⟩
  have sed : Passes Libos.maxPath (str "/bin/sed") :=
    ⟨by decide +kernel, by decide, by decide⟩
  simp only [splitters, List.mem_cons, List.not_mem_nil, or_false] at named
  rcases named with rfl | rfl | rfl | rfl
  · exact ⟨by decide, _, by decide +kernel, tee, .inl rfl⟩
  · exact ⟨by decide, _, by decide +kernel, tee, .inl rfl⟩
  · exact ⟨by decide, _, by decide +kernel, sed, .inr rfl⟩
  · exact ⟨by decide, _, by decide +kernel, sed, .inr rfl⟩

theorem argumentsOf_iff {path args : Bytes} {ws : List Bytes} (few : ws.length ≤ 16)
    (named : path = str "/bin/tee" ∨ path = str "/bin/sed") :
    argumentsOf path args = some ws ↔ splitWhitespace args = ws := by
  rcases named with rfl | rfl
  · rw [argumentsOf, if_pos rfl, Tee.files]
    exact collectArgs_iff few
  · rw [argumentsOf, if_neg (by decide), if_pos rfl, Sed.tokens]
    exact collectArgs_iff few

theorem finds_iff {env : Env} {line cmd : Bytes} {ws : List Bytes} (named : cmd ∈ splitters)
    (means : Means env line ((cmd :: ws).map fun w => ⟨.word, w⟩)) (texts : ∀ w ∈ ws, Valid w)
    (few : ws.length ≤ 16) (fits : (joined ws).length ≤ 191) (nulFree : 0 ∉ joined ws) :
    Finds env line ws ↔ splitWhitespace (joined ws) = ws := by
  obtain ⟨program, path, resolved, pathOk, either⟩ := splitter_program named
  obtain ⟨envStr, envFits, first⟩ := firstCall_program env (joined ws) program resolved pathOk.short
    fits
  rw [← dispatch_words means fits] at first
  have argsOk : Passes Libos.maxArgs (joined ws) := ⟨valid_joined texts, nulFree, fits⟩
  obtain ⟨found, taken, samePath, sameArgs, -⟩ := execArgs_some pathOk.short argsOk.short envFits
  have strings : Syscall.strings
      (.execve (some (path ++ [0])) (some (joined ws ++ [0])) (some (envStr ++ [0]))) = some found :=
    taken
  rw [← argumentsOf_iff few either]
  constructor
  · rintro ⟨c, path', args, called, hpath, hargs, split⟩
    rw [first] at called
    obtain rfl := Option.some.inj called
    rw [strings, Option.map_some, samePath pathOk] at hpath
    obtain rfl := Option.some.inj hpath
    rw [Syscall.childArgs, strings, Option.map_some, sameArgs argsOk, cstrToStr_passes argsOk]
      at hargs
    obtain rfl := Option.some.inj hargs
    exact split
  · intro split
    refine ⟨_, path, joined ws, first, ?_, ?_, split⟩
    · rw [strings, Option.map_some, samePath pathOk]
    · rw [Syscall.childArgs, strings, Option.map_some, sameArgs argsOk, cstrToStr_passes argsOk]

theorem not_mem_joined {b : UInt8} {ws : List Bytes} (notSpace : b ≠ 32) (h : ∀ w ∈ ws, b ∉ w) :
    b ∉ joined ws := by
  have behind {out : Bytes} (before : b ∉ out) : b ∉ ws.foldl putWord out := by
    induction ws generalizing out with
    | nil => exact before
    | cons w ws ih =>
      rw [List.forall_mem_cons] at h
      apply ih h.2
      rw [putWord]
      split
      · exact h.1
      · simp [before, notSpace, h.1]
  exact behind List.not_mem_nil

/-- The arguments of a line that names `tee` or `sed` come back exactly when none of them is empty
or has white space in it. -/
theorem quoted_arguments_iff (env : Env) (line : Bytes) (text : Valid line) (plain : 36 ∉ line)
    (short : line.length ≤ 256) (cmd : Bytes) (named : cmd ∈ splitters) (ws : List Bytes)
    (words : LineText (trim line) ((cmd :: ws).map fun w => ⟨.word, w⟩)) (few : ws.length ≤ 16)
    (fits : (joined ws).length ≤ 191) (nulFree : ∀ w ∈ ws, 0 ∉ w) :
    Finds env line ws ↔ ∀ w ∈ ws, Solid w := by
  have same : expanded env line = trim line :=
    expanded_plain text plain (Nat.le_trans short (by decide))
  have scanned := scan_iff.mpr words
  have means : Means env line ((cmd :: ws).map fun w => ⟨.word, w⟩) := by
    refine ⟨same ▸ scanned, ?_⟩
    simp
    exact Nat.le_trans (Nat.succ_le_succ few) (by decide)
  obtain ⟨cs, whole⟩ := valid_iff.mp (valid_trim text)
  rw [← whole] at scanned
  have texts : ∀ w ∈ ws, Valid w := fun w hw => scan_valid keeps_between scanned ⟨.word, w⟩
    (List.mem_map_of_mem (List.mem_cons_of_mem _ hw))
  rw [finds_iff named means texts few fits (not_mem_joined (by decide) nulFree),
    splitWhitespace_joined_iff texts]

theorem quoted_arguments_iff_tee : Finds Env.empty (str "tee a 'b'") [str "a", str "b"] :=
  (quoted_arguments_iff Env.empty (str "tee a 'b'") (by decide +kernel) (by decide) (by decide)
    (str "tee") (by decide) [str "a", str "b"] (scan_iff.mp (by decide +kernel)) (by decide)
    (by decide) (by decide)).mpr (by decide +kernel)

/-- `tee 'a b'` writes two files. -/
theorem quoted_argument_split :
    LineText (trim (str "tee 'a b'")) [⟨.word, str "tee"⟩, ⟨.word, str "a b"⟩] ∧
      (joined [str "a b"]).length ≤ 191 ∧ ¬Finds Env.empty (str "tee 'a b'") [str "a b"] := by
  refine ⟨scan_iff.mp (by decide +kernel), by decide, ?_⟩
  have means : Means Env.empty (str "tee 'a b'")
      ([str "tee", str "a b"].map fun w => ⟨.word, w⟩) := ⟨by decide +kernel, by decide⟩
  rw [finds_iff (by decide) means (by decide +kernel) (by decide) (by decide) (by decide)]
  decide +kernel

end Smultron.Shell
