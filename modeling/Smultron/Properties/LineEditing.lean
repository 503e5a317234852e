import Smultron.Properties.FileAppRuns
import Smultron.Properties.ScreenRows
import Smultron.Properties.StageRuns

/-!
# What the screen shows of a line that is typed

The shell keeps the line in a buffer and echoes every key. To erase a character it writes a
backspace, a blank and a backspace, and the screen goes back only inside its bottom row. So the
characters behind the prompt are the line as long as no character is erased while the cursor stands
at the start of a row that the line has wrapped to.
-/

namespace Smultron.LineEditing

open Checked Checked.Outcome Proc Process Vga
open Shell (maxLine writeStr readLine promptLine prompt)

variable {sys : System} {runner : Runner} {k k' k₁ : Kernel} {line out more : Bytes} {m n : Nat}

/-! ### Keys -/

def isErase (key : UInt8) : Bool := key = 8 ∨ key = 127

/-- A printable ASCII character, backspace or DEL. -/
def IsKey (key : UInt8) : Prop := (32 ≤ key ∧ key ≤ 126) ∨ isErase key = true

instance (key : UInt8) : Decidable (IsKey key) := inferInstanceAs (Decidable (_ ∨ _))

/-- What a key does to the line. -/
def press (line : Bytes) (key : UInt8) : Bytes :=
  if isErase key then line.dropLast
  else if line.length < maxLine then line ++ [key]
  else line

/-- The bytes that are written for it. -/
def echo (line : Bytes) (key : UInt8) : Bytes :=
  if isErase key then if line = [] then [] else [8, 32, 8]
  else if line.length < maxLine then [key]
  else []

def echoes : Bytes → Bytes → Bytes
  | _, [] => []
  | line, key :: keys => echo line key ++ echoes (press line key) keys

theorem echoes_concat (line keys : Bytes) (key : UInt8) :
    echoes line (keys ++ [key]) = echoes line keys ++ echo (keys.foldl press line) key := by
  induction keys generalizing line with
  | nil => simp [echoes]
  | cons first keys ih => simp [echoes, ih]

/-- The next keys of the console. -/
def pressed (k : Kernel) (n : Nat) : Bytes :=
  (List.range n).map fun i => k.console.input (k.console.taken + i)

theorem pressed_concat (k : Kernel) (n : Nat) :
    pressed k (n + 1) = pressed k n ++ [k.console.input (k.console.taken + n)] := by
  simp [pressed, List.range_succ]

/-- The kernel has taken so many keys and sent these bytes to the screen. -/
structure Echoed (k k' : Kernel) (taken : Nat) (out : Bytes) : Prop where
  io : k'.io = k.io
  input : k'.console.input = k.console.input
  taken : k'.console.taken = k.console.taken + taken
  vga : k'.console.vga = k.console.vga ++ out

theorem Echoed.rfl : Echoed k k 0 [] := ⟨by simp, by simp, by simp, by simp⟩

theorem Echoed.trans (h : Echoed k k₁ m out) (h' : Echoed k₁ k' n more) :
    Echoed k k' (m + n) (out ++ more) where
  io := h'.io.trans h.io
  input := h'.input.trans h.input
  taken := by rw [h'.taken, h.taken, Nat.add_assoc]
  vga := by rw [h'.vga, h.vga, List.append_assoc]

theorem Echoed.pressed (h : Echoed k k₁ m out) :
    pressed k₁ n = (List.range n).map fun i => k.console.input (k.console.taken + (m + i)) := by
  simp [LineEditing.pressed, h.input, h.taken, Nat.add_assoc]

/-! ### The calls -/

theorem foldl_put_vga (bytes : Bytes) (console : Console) :
    (bytes.foldl .put console).vga = console.vga ++ bytes := by
  induction bytes generalizing console with
  | nil => simp
  | cons b bytes ih => simpa [Console.put] using ih (console.put b)

theorem write_ends (console : k.io.stdio.stdout = none) (buf : Bytes) :
    Ends (dispatch sys runner) k (fun o k' => o = .ok buf.length ∧ Echoed k k' 0 buf)
      (Libos.write 1 buf) := by
  by_cases empty : buf = []
  · subst empty
    exact Ends.request_bind rfl (Ends.pure ⟨rfl, Echoed.rfl⟩)
  · obtain ⟨input, taken⟩ := foldl_put_keys buf k.console
    have answered : dispatch sys runner (.write 1 (some buf)) k =
        some (.value buf.length, { k with console := buf.foldl .put k.console }) := by
      simp [dispatch, sysWrite, IoState.captureStdout_console console, empty]
    exact Ends.request_bind answered
      (Ends.pure ⟨rfl, rfl, input, taken, foldl_put_vga buf k.console⟩)

theorem writeStr_ends (console : k.io.stdio.stdout = none) (s : Bytes) :
    Ends (dispatch sys runner) k (fun o k' => o = .ok () ∧ Echoed k k' 0 s) (writeStr s) := by
  refine Ends.bind ((write_ends console s).mono ?_)
  rintro o k' ⟨rfl, echoed⟩
  exact ⟨_, rfl, Ends.pure ⟨rfl, echoed⟩⟩

theorem read_ends (console : k.io.stdio.stdin = none) :
    Ends (dispatch sys runner) k
      (fun o k' => o = .ok (1, [k.console.input k.console.taken]) ∧ Echoed k k' 1 [])
      (Libos.read 0 [0]) := by
  -- One byte is read, whether it ends the line or not
  have answered : dispatch sys runner (.read 0 (some 1)) k =
      some (⟨1, [k.console.input k.console.taken], none⟩,
        { k with console := { k.console with taken := k.console.taken + 1 } }) := by
    simp only [dispatch, sysRead, readLoop, IoState.takeStdinByte_console console]
    split_ifs <;> simp_all
  exact Ends.request_bind answered (Ends.pure ⟨rfl, rfl, rfl, rfl, (List.append_nil _).symm⟩)

/-- One key: the line is changed and the key is echoed before the next read. -/
theorem readLine_step {key : UInt8} {Q : Outcome Empty Shell.LineRead → Kernel → Prop}
    (stdio : k.io.stdio = ⟨none, none⟩) (typed : k.console.input k.console.taken = key)
    (isKey : IsKey key)
    (later : ∀ k₁, Echoed k k₁ 1 (echo line key) →
      Ends (dispatch sys runner) k₁ Q (readLine n (press line key))) :
    Ends (dispatch sys runner) k Q (readLine (n + 1) line) := by
  rw [readLine]
  refine Ends.bind ((read_ends (congrArg Stdio.stdin stdio)).mono ?_)
  rintro o k₁ ⟨rfl, taken⟩
  have console : k₁.io.stdio.stdout = none := by rw [taken.io, stdio]
  have b : (index [k.console.input k.console.taken] 0 : Outcome Empty UInt8) = .ok key := by
    rw [typed]
    exact index_of_lt Nat.zero_lt_one
  refine ⟨_, rfl, ?_⟩
  simp only [ne_eq, not_true_eq_false, if_false, b, lift_ok, Proc.pure_bind]
  by_cases erase : isErase key = true
  · have isErase : key = 8 ∨ key = 127 := by simpa [isErase] using erase
    rw [if_neg (by rcases isErase with rfl | rfl <;> decide), if_pos isErase]
    by_cases empty : line = []
    · -- There is nothing to erase
      subst empty
      simpa [press, erase] using later k₁ (by simpa [echo, erase] using taken)
    · have some_ : 0 < line.length := List.length_pos_iff.mpr empty
      have left : line.take (line.length - 1) = press line key := by
        rw [press, if_pos erase, List.dropLast_eq_take]
      rw [if_pos some_, sub_of_le some_, lift_ok, Proc.pure_bind, left]
      refine Ends.bind ((writeStr_ends console _).mono ?_)
      rintro o k₂ ⟨rfl, echoed⟩
      have bytes : echo line key = str "\x08 \x08" := by
        rw [echo, if_pos erase, if_neg empty]
        decide +kernel
      exact ⟨_, rfl, later k₂ (by simpa [bytes] using taken.trans echoed)⟩
  · have shown : 32 ≤ key ∧ key ≤ 126 := isKey.resolve_right erase
    have other : ¬(key = 8 ∨ key = 127) := by simpa [isErase] using erase
    rw [if_neg (by rintro (rfl | rfl) <;> exact absurd shown.1 (by decide)), if_neg other]
    by_cases room : line.length < maxLine
    · rw [if_pos room, push_of_lt room, lift_ok, Proc.pure_bind]
      refine Ends.bind ((write_ends console _).mono ?_)
      rintro o k₂ ⟨rfl, echoed⟩
      have bytes : echo line key = [key] := by rw [echo, if_neg erase, if_pos room]
      have longer : press line key = line ++ [key] := by rw [press, if_neg erase, if_pos room]
      rw [← longer]
      exact ⟨_, rfl, later k₂ (by simpa [bytes] using taken.trans echoed)⟩
    · have same : press line key = line := by rw [press, if_neg erase, if_neg room]
      have next := later k₁ (by simpa [echo, erase, room] using taken)
      rwa [if_neg room, ← same]

/-- From any line on, so many reads take so many keys, and echo them. -/
theorem readLine_ends (n : Nat) (line : Bytes) (stdio : k.io.stdio = ⟨none, none⟩)
    (keys : ∀ i < n, IsKey (k.console.input (k.console.taken + i))) :
    Ends (dispatch sys runner) k
      (fun o k' => o = .ok (.editing ((pressed k n).foldl press line)) ∧
        Echoed k k' n (echoes line (pressed k n))) (readLine n line) := by
  induction n generalizing k line with
  | zero => exact Ends.pure ⟨rfl, Echoed.rfl⟩
  | succ n ih =>
    refine readLine_step stdio rfl (keys 0 (Nat.succ_pos n)) fun k₁ echoed => ?_
    have first : pressed k (n + 1) = k.console.input k.console.taken :: pressed k₁ n := by
      rw [echoed.pressed, pressed, List.range_succ_eq_map]
      simp [Function.comp_def, Nat.add_comm]
    refine (ih _ (by rw [echoed.io, stdio]) ?_).mono ?_
    · intro i hi
      rw [echoed.input, echoed.taken, Nat.add_assoc, Nat.add_comm 1 i]
      exact keys (i + 1) (by omega)
    · rintro o k' ⟨rfl, more⟩
      rw [first, List.foldl_cons, echoes, Nat.add_comm n 1]
      exact ⟨rfl, echoed.trans more⟩

/-- The prompt, and so many keys behind it. -/
theorem promptLine_ends (sys : System) (runner : Runner) (n : Nat) (stdio : k.io.stdio = ⟨none, none⟩)
    (keys : ∀ i < n, IsKey (k.console.input (k.console.taken + i))) :
    Ends (dispatch sys runner) k
      (fun o k' => o = .ok (.editing ((pressed k n).foldl press [])) ∧
        k'.console.vga = k.console.vga ++ (prompt ++ echoes [] (pressed k n))) (promptLine n) := by
  refine Ends.bind ((writeStr_ends (congrArg Stdio.stdout stdio) prompt).mono ?_)
  rintro o k₁ ⟨rfl, shown⟩
  have same : pressed k₁ n = pressed k n := by rw [shown.pressed, pressed]; simp
  refine ⟨_, rfl, (readLine_ends n [] (by rw [shown.io, stdio]) ?_).mono ?_⟩
  · rw [shown.input, shown.taken]
    exact keys
  · rintro o k' ⟨rfl, echoed⟩
    rw [same] at echoed ⊢
    exact ⟨rfl, (shown.trans echoed).vga⟩

/-! ### The echo of a key -/

section Echo

variable {w : Writer} {cursor : Nat × Nat}

/-- The echo of a key keeps the screen and the line in step, unless a character is erased at the
start of a row. -/
theorem echo_stands {key : UInt8} (h : Stands w cursor (prompt ++ line)) (isKey : IsKey key)
    (onScreen : cursor.1 + 1 < bufferHeight)
    (inside : isErase key = true → line ≠ [] → cursor.2 ≠ 0) :
    Sound (fun w' => Stands w' ((echo line key).foldl moved cursor)
      (prompt ++ press line key)) (writeBytes w (echo line key) : Outcome Empty _) := by
  rw [echo, press]
  by_cases erase : isErase key = true
  · rw [if_pos erase, if_pos erase]
    by_cases empty : line = []
    · subst empty
      simpa using h.still
    · rw [if_neg empty, moved_erase h.fits, ← List.dropLast_append_of_ne_nil empty]
      refine (h.erase (by omega)).mono fun w' shown => ?_
      rwa [if_neg (inside erase empty)] at shown
  · have shown : 32 ≤ key ∧ key ≤ 126 := isKey.resolve_right erase
    have plain : key ≠ 10 ∧ key ≠ 8 := by
      constructor <;> rintro rfl <;> exact absurd shown.1 (by decide)
    rw [if_neg erase, if_neg erase]
    by_cases room : line.length < maxLine
    · rw [if_pos room, if_pos room, ← List.append_assoc]
      refine sound_bind ((h.put plain ?_).mono fun w' put => sound_pure put)
      rw [moved, if_neg plain.1, if_neg plain.2]
      split
      · exact onScreen
      · exact Nat.lt_of_succ_lt onScreen
    · rw [if_neg room, if_neg room]
      simpa using h.still

/-- One row at most is left for a key. -/
theorem echo_row (fits : cursor.2 ≤ bufferWidth) (line : Bytes) (key : UInt8) :
    ((echo line key).foldl moved cursor).1 ≤ cursor.1 + 1 := by
  rw [echo]
  split_ifs
  · exact Nat.le_succ _
  · rw [moved_erase fits]
    exact Nat.le_succ _
  · rw [List.foldl_cons, List.foldl_nil, moved]
    split_ifs <;> simp
  · exact Nat.le_succ _

end Echo

/-! ### Screen and line -/

/-- After the prompt and so many keys `read_line` holds this line. The screen is what the bytes
written since have made of `w`, and the row of the prompt has moved up so many rows. -/
def Editing (sys : System) (runner : Runner) (k : Kernel) (w : Writer) (n : Nat) (line : Bytes)
    (screen : Writer) (up : Nat) : Prop :=
  ∃ ran out, (promptLine n).run (dispatch sys runner) k = some ran ∧
    ran.result = .ok (.editing line) ∧ ran.state.console.vga = k.console.vga ++ out ∧
    (writeBytes w out : Outcome Empty _) = .ok screen ∧
    up = (out.foldl moved (0, w.columnPosition)).1

section Keys

variable {w screen : Writer} {up : Nat}

/-- The line after so many keys. -/
def lineAfter (k : Kernel) (n : Nat) : Bytes := (pressed k n).foldl press []

/-- What has been written. -/
def writtenAfter (k : Kernel) (n : Nat) : Bytes := prompt ++ echoes [] (pressed k n)

/-- The key that comes behind them. -/
def keyAfter (k : Kernel) (n : Nat) : UInt8 := k.console.input (k.console.taken + n)

theorem lineAfter_succ : lineAfter k (n + 1) = press (lineAfter k n) (keyAfter k n) := by
  rw [lineAfter, pressed_concat, List.foldl_append]
  rfl

theorem writtenAfter_succ :
    writtenAfter k (n + 1) = writtenAfter k n ++ echo (lineAfter k n) (keyAfter k n) := by
  rw [writtenAfter, pressed_concat, echoes_concat, ← List.append_assoc]
  rfl

theorem length_lineAfter : (lineAfter k n).length ≤ maxLine := by
  induction n with
  | zero => simp [lineAfter, pressed]
  | succ n ih =>
    rw [lineAfter_succ, press]
    split
    · rw [List.length_dropLast]
      omega
    split
    next room => simpa using Nat.succ_le_of_lt room
    · exact ih

/-- There is one run, and so one line and one screen. -/
theorem editing_iff (stdio : k.io.stdio = ⟨none, none⟩) (keys : ∀ i < n, IsKey (keyAfter k i)) :
    Editing sys runner k w n line screen up ↔
      line = lineAfter k n ∧ (writeBytes w (writtenAfter k n) : Outcome Empty _) = .ok screen ∧
        up = ((writtenAfter k n).foldl moved (0, w.columnPosition)).1 := by
  obtain ⟨ran, ended, ok, vga⟩ := promptLine_ends sys runner n stdio keys
  constructor
  · rintro ⟨ran', out, ended', ok', vga', screen, rows⟩
    obtain rfl : ran = ran' := Option.some.inj (ended.symm.trans ended')
    obtain rfl : writtenAfter k n = out := List.append_cancel_left (vga.symm.trans vga')
    rw [ok] at ok'
    cases ok'
    exact ⟨rfl, screen, rows⟩
  · rintro ⟨rfl, screen, rows⟩
    exact ⟨ran, _, ended, ok, vga, screen, rows⟩

/-- Line and screen are in step after so many keys. -/
def InStep (k : Kernel) (w : Writer) (n : Nat) : Prop :=
  ∃ screen, (writeBytes w (writtenAfter k n) : Outcome Empty _) = .ok screen ∧
    Stands screen ((writtenAfter k n).foldl moved (0, w.columnPosition)) (prompt ++ lineAfter k n) ∧
    ((writtenAfter k n).foldl moved (0, w.columnPosition)).1 + 1 < bufferHeight

theorem prompt_plain : ∀ b ∈ prompt, b ≠ 10 ∧ b ≠ 8 := by decide +kernel

theorem length_prompt : prompt.length = 10 := by decide +kernel

theorem inStep_zero (start : w.columnPosition = 0) : InStep k w 0 := by
  have empty : Stands w (0, 0) [] := ⟨start, Nat.zero_le _, by simp [textFrom, rowsAbove, start]⟩
  have fits : (0, 0).2 + prompt.length ≤ bufferWidth := by
    rw [length_prompt]
    decide
  obtain ⟨screen, done, shown⟩ := (empty.puts prompt_plain (by decide) fits).value
  have first : writtenAfter k 0 = prompt := by simp [writtenAfter, pressed, echoes]
  have moved : prompt.foldl moved (0, 0) = (0, 10) := by decide +kernel
  refine ⟨screen, ?_, ?_, ?_⟩
  · rwa [first]
  · rw [first, start]
    simpa [lineAfter, pressed] using shown
  · rw [first, start, moved]
    decide

/-- The text takes four rows at most. -/
theorem rows_few {cursor : Nat × Nat} (h : Stands screen cursor (prompt ++ lineAfter k n))
    (onScreen : cursor.1 < bufferHeight) : cursor.1 ≤ 3 := by
  have total := h.length onScreen
  have short := length_lineAfter (k := k) (n := n)
  have width : bufferWidth = 80 := rfl
  have max : maxLine = 256 := rfl
  rw [List.length_append, length_prompt, width] at total
  omega

theorem InStep.next (h : InStep k w n) (isKey : IsKey (keyAfter k n))
    (inside : ∀ screen, (writeBytes w (writtenAfter k n) : Outcome Empty _) = .ok screen →
      isErase (keyAfter k n) = true → lineAfter k n ≠ [] → screen.columnPosition ≠ 0) :
    InStep k w (n + 1) := by
  obtain ⟨screen, done, stands, onScreen⟩ := h
  have few := rows_few stands (by omega)
  have column := inside screen done
  rw [stands.column] at column
  obtain ⟨screen', echoed, stands'⟩ := (echo_stands stands isKey onScreen column).value
  have row := echo_row stands.fits (lineAfter k n) (keyAfter k n)
  have height : bufferHeight = 25 := rfl
  refine ⟨screen', ?_, ?_, ?_⟩
  · rw [writtenAfter_succ, writeBytes_append, done, ok_bind, echoed]
  · rwa [writtenAfter_succ, List.foldl_append, lineAfter_succ]
  · rw [writtenAfter_succ, List.foldl_append]
    omega

/-- A character erased at the start of a row goes from the line, and stays on the screen. -/
theorem InStep.lost (h : InStep k w n) (erase : isErase (keyAfter k n) = true)
    (some_ : lineAfter k n ≠ [])
    (start : ∀ screen, (writeBytes w (writtenAfter k n) : Outcome Empty _) = .ok screen →
      screen.columnPosition = 0) :
    ∃ screen, (writeBytes w (writtenAfter k (n + 1)) : Outcome Empty _) = .ok screen ∧
      ((writtenAfter k (n + 1)).foldl moved (0, w.columnPosition)).1 < bufferHeight ∧
      textFrom screen ((writtenAfter k (n + 1)).foldl moved (0, w.columnPosition)).1 =
        prompt ++ lineAfter k n ∧
      lineAfter k (n + 1) ≠ lineAfter k n := by
  obtain ⟨screen, done, stands, onScreen⟩ := h
  have column := start screen done
  rw [stands.column] at column
  obtain ⟨screen', erased, stands'⟩ := (stands.erase (by omega)).value
  rw [if_pos column] at stands'
  have bytes : echo (lineAfter k n) (keyAfter k n) = [8, 32, 8] := by simp [echo, erase, some_]
  rw [writtenAfter_succ, bytes, writeBytes_append, done, ok_bind, List.foldl_append,
    moved_erase stands.fits]
  refine ⟨screen', erased, by dsimp only; omega, stands'.shown, ?_⟩
  rw [lineAfter_succ, press, if_pos erase]
  intro same
  have shorter := congrArg List.length same
  have length := List.length_pos_iff.mpr some_
  rw [List.length_dropLast] at shorter
  omega

/-- While no character is erased at the start of a row, line and screen are in step. -/
theorem inStep_of_inside (start : w.columnPosition = 0) (keys : ∀ i < n, IsKey (keyAfter k i))
    (inside : ∀ m < n, ∀ screen, (writeBytes w (writtenAfter k m) : Outcome Empty _) = .ok screen →
      isErase (keyAfter k m) = true → lineAfter k m ≠ [] → screen.columnPosition ≠ 0) :
    InStep k w n := by
  induction n with
  | zero => exact inStep_zero start
  | succ n ih =>
    have before := ih (fun i hi => keys i (by omega)) fun m hm => inside m (by omega)
    exact before.next (keys n (Nat.lt_succ_self n)) (inside n (Nat.lt_succ_self n))

/-- Where the cursor stands can be told from what has been written. -/
theorem inside_of_cursor (start : w.columnPosition = 0) (keys : ∀ i < n, IsKey (keyAfter k i))
    (inside : ∀ m < n, isErase (keyAfter k m) = true → lineAfter k m ≠ [] →
      ((writtenAfter k m).foldl moved (0, 0)).2 ≠ 0) :
    ∀ m < n, ∀ screen, (writeBytes w (writtenAfter k m) : Outcome Empty _) = .ok screen →
      isErase (keyAfter k m) = true → lineAfter k m ≠ [] → screen.columnPosition ≠ 0 := by
  intro m
  induction m using Nat.strongRecOn with
  | ind m ih =>
    intro hm screen done erase some_
    have inStep := inStep_of_inside start (fun i hi => keys i (by omega)) fun i hi => ih i hi (by omega)
    obtain ⟨screen', done', stands, -⟩ := inStep
    obtain rfl := ok.inj (done'.symm.trans done)
    rw [stands.column, start]
    exact inside m hm erase some_

end Keys

/-- The characters behind the prompt are the line after every key exactly when no key erases a
character of the line while the cursor stands at the start of a row. -/
theorem screen_in_step_iff (sys : System) (runner : Runner) (k : Kernel) (w : Writer)
    (stdio : k.io.stdio = ⟨none, none⟩) (start : w.columnPosition = 0) (n : Nat)
    (keys : ∀ i < n, IsKey (keyAfter k i)) :
    (∀ m ≤ n, ∃ line screen up, Editing sys runner k w m line screen up ∧
      (up < bufferHeight → (textFrom screen up).drop prompt.length = line)) ↔
    ∀ m < n, ∀ line screen up, Editing sys runner k w m line screen up →
      isErase (keyAfter k m) = true → line ≠ [] → screen.columnPosition ≠ 0 := by
  have typed (m : Nat) (hm : m ≤ n) : ∀ i < m, IsKey (keyAfter k i) :=
    fun i hi => keys i (Nat.lt_of_lt_of_le hi hm)
  constructor
  · intro agree m
    -- The first key that breaks the condition is seen on the screen at once
    induction m using Nat.strongRecOn with
    | ind m ih =>
      rintro hm line screen up editing erase some_ column
      have before : ∀ i < m, ∀ screen,
          (writeBytes w (writtenAfter k i) : Outcome Empty _) = .ok screen →
          isErase (keyAfter k i) = true → lineAfter k i ≠ [] → screen.columnPosition ≠ 0 := by
        intro i hi screen done
        exact ih i hi (by omega) _ screen _
          ((editing_iff stdio (typed i (by omega))).mpr ⟨rfl, done, rfl⟩)
      have inStep := inStep_of_inside start (typed m (by omega)) before
      obtain ⟨rfl, done, -⟩ := (editing_iff stdio (typed m (by omega))).mp editing
      obtain ⟨screen', done', onScreen, text, other⟩ := inStep.lost erase some_ fun screen' done' => by
        rw [done] at done'
        cases done'
        exact column
      obtain ⟨line', screen'', up', editing', shown⟩ := agree (m + 1) hm
      obtain ⟨rfl, done'', rfl⟩ := (editing_iff stdio (typed (m + 1) hm)).mp editing'
      rw [done'] at done''
      cases done''
      apply other
      rw [← shown onScreen, text, List.drop_left]
  · intro inside m hm
    have inStep : InStep k w m := by
      refine inStep_of_inside start (typed m hm) fun i hi screen done => ?_
      exact inside i (by omega) _ screen _
        ((editing_iff stdio (typed i (by omega))).mpr ⟨rfl, done, rfl⟩)
    obtain ⟨screen, done, stands, -⟩ := inStep
    refine ⟨_, screen, _, (editing_iff stdio (typed m hm)).mpr ⟨rfl, done, rfl⟩, fun _ => ?_⟩
    rw [stands.shown, List.drop_left]

-- An empty screen, gray on black.
def emptyScreen : Writer := ⟨0, 7, fun _ _ => ⟨32, 7⟩⟩

-- Three letters and a backspace, again and again, into the second row.
def correctedInput (i : Nat) : UInt8 := if i % 4 = 3 then 8 else 97

theorem correctedInput_keys (n : Nat) : ∀ i < n, IsKey (keyAfter (Kernel.boot correctedInput) i) := by
  intro i _
  have key : keyAfter (Kernel.boot correctedInput) i = correctedInput i := by
    simp [keyAfter, Kernel.boot]
  rw [key, correctedInput]
  split_ifs <;> simp [IsKey, isErase]

theorem screen_in_step_corrected : ∃ line screen up,
    Editing bareSystem (runImage bareSystem 0) (Kernel.boot correctedInput) emptyScreen 160 line screen
      up ∧
      (up < bufferHeight → (textFrom screen up).drop prompt.length = line) := by
  have inside := inside_of_cursor (w := emptyScreen) rfl (correctedInput_keys 160) (by decide +kernel)
  refine (screen_in_step_iff bareSystem (runImage bareSystem 0) (Kernel.boot correctedInput) emptyScreen
    rfl rfl 160 (correctedInput_keys 160)).mpr ?_ 160 (Nat.le_refl 160)
  intro m hm line screen up editing erase some_
  obtain ⟨rfl, done, -⟩ :=
    (editing_iff rfl fun i hi => correctedInput_keys 160 i (by omega)).mp editing
  exact inside m hm screen done erase some_

-- 71 letters and then backspaces.
def wrappedInput (i : Nat) : UInt8 := if i < 71 then 97 else 8

theorem wrappedInput_keys (n : Nat) : ∀ i < n, IsKey (keyAfter (Kernel.boot wrappedInput) i) := by
  intro i _
  have key : keyAfter (Kernel.boot wrappedInput) i = wrappedInput i := by
    simp [keyAfter, Kernel.boot]
  rw [key, wrappedInput]
  split_ifs <;> simp [IsKey, isErase]

/-- The second backspace is lost on the screen. -/
theorem erased_character_stays : ∃ line screen up,
    Editing bareSystem (runImage bareSystem 0) (Kernel.boot wrappedInput) emptyScreen 73 line screen
      up ∧
      up < bufferHeight ∧ (textFrom screen up).drop prompt.length ≠ line := by
  have letters : ∀ m < 71, isErase (keyAfter (Kernel.boot wrappedInput) m) = false := by
    intro m hm
    simp [keyAfter, Kernel.boot, wrappedInput, hm, isErase]
  have typed : InStep (Kernel.boot wrappedInput) emptyScreen 71 :=
    inStep_of_inside rfl (wrappedInput_keys 71) fun m hm screen _ erase => by
      simp [letters m hm] at erase
  -- The first backspace finds the cursor behind the first character of a row
  have wrapped : InStep (Kernel.boot wrappedInput) emptyScreen 72 := by
    refine typed.next (wrappedInput_keys 72 71 (by decide)) fun screen' done' _ _ => ?_
    obtain ⟨screen, done, stands, -⟩ := typed
    rw [done] at done'
    cases done'
    rw [stands.column]
    decide +kernel
  -- The second one finds it at the start of that row
  have column : ∀ screen, (writeBytes emptyScreen (writtenAfter (Kernel.boot wrappedInput) 72) :
      Outcome Empty _) = .ok screen → screen.columnPosition = 0 := by
    obtain ⟨screen, done, stands, -⟩ := wrapped
    intro screen' done'
    rw [done] at done'
    cases done'
    rw [stands.column]
    decide +kernel
  obtain ⟨screen, done, onScreen, text, other⟩ :=
    wrapped.lost (by decide +kernel) (by decide +kernel) column
  refine ⟨_, screen, _, (editing_iff rfl (wrappedInput_keys 73)).mpr ⟨rfl, done, rfl⟩, onScreen, ?_⟩
  rw [text, List.drop_left]
  exact other.symm

end Smultron.LineEditing
