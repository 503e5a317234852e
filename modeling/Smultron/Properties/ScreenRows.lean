import Smultron.Properties.Screen

/-!
# The rows up to the cursor

The characters from the start of a row up to the cursor, read across the rows below it. A character
is put at their end, whether the row has room for it or a new one has to be started, but a backspace
takes the last one away only while it stands in the bottom row.
-/

namespace Smultron.Vga

open Checked Checked.Outcome

variable {w : Writer} {chars : Chars} {cursor : Nat × Nat} {text : Bytes} {b : UInt8} {up : Nat}

/-- The characters of the row that is so far above the bottom one. -/
def rowUp (chars : Chars) (up : Nat) : Bytes :=
  if h : up < bufferHeight then
    (List.finRange bufferWidth).map fun col => (chars (Fin.rev ⟨up, h⟩) col).asciiCharacter
  else []

/-- The rows between this one and the bottom one, from the top down. -/
def rowsAbove (chars : Chars) : Nat → Bytes
  | 0 => []
  | up + 1 => rowUp chars (up + 1) ++ rowsAbove chars up

/-- The characters from the start of that row up to the cursor. -/
def textFrom (w : Writer) (up : Nat) : Bytes :=
  rowsAbove w.buffer up ++ (rowUp w.buffer 0).take w.columnPosition

/-- What a byte does to the cursor: how many times `new_line` has moved the rows up, and the column. -/
def moved (cursor : Nat × Nat) (byte : UInt8) : Nat × Nat :=
  if byte = 10 then (cursor.1 + 1, 0)
  else if byte = 8 then (cursor.1, cursor.2 - 1)
  else if bufferWidth ≤ cursor.2 then (cursor.1 + 1, 1)
  else (cursor.1, cursor.2 + 1)

/-- The screen shows the text, which begins at the start of a row. -/
structure Stands (w : Writer) (cursor : Nat × Nat) (text : Bytes) : Prop where
  column : w.columnPosition = cursor.2
  fits : cursor.2 ≤ bufferWidth
  shown : textFrom w cursor.1 = text

theorem rowUp_eq (h : up < bufferHeight) : rowUp chars up =
    (List.finRange bufferWidth).map fun col => (chars (Fin.rev ⟨up, h⟩) col).asciiCharacter :=
  dif_pos h

theorem length_rowUp (onScreen : up < bufferHeight) : (rowUp chars up).length = bufferWidth := by
  simp [rowUp, onScreen]

theorem length_rowsAbove (onScreen : up < bufferHeight) :
    (rowsAbove chars up).length = bufferWidth * up := by
  induction up with
  | zero => simp [rowsAbove]
  | succ up ih =>
    rw [rowsAbove, List.length_append, length_rowUp onScreen, ih (by omega), Nat.mul_succ,
      Nat.add_comm]

theorem Stands.length (h : Stands w cursor text) (onScreen : cursor.1 < bufferHeight) :
    text.length = bufferWidth * cursor.1 + cursor.2 := by
  have height : 0 < bufferHeight := Nat.zero_lt_of_lt onScreen
  rw [← h.shown, textFrom, List.length_append, length_rowsAbove onScreen, List.length_take,
    length_rowUp height, h.column, Nat.min_eq_left h.fits]

theorem rowsAbove_congr {chars' : Chars} (same : ∀ i, 0 < i → rowUp chars' i = rowUp chars i) :
    rowsAbove chars' up = rowsAbove chars up := by
  induction up with
  | zero => simp [rowsAbove]
  | succ up ih => rw [rowsAbove, rowsAbove, same _ (Nat.succ_pos up), ih]

/-- A character in the bottom row changes no other row. -/
theorem write_rows {col : Nat} {c : ScreenChar} (inside : col < bufferWidth) :
    Sound (fun chars' => rowUp chars' 0 = (rowUp chars 0).set col c.asciiCharacter ∧
      ∀ i, 0 < i → rowUp chars' i = rowUp chars i)
      (chars.write (bufferHeight - 1) col c : Outcome Empty _) := by
  rw [write_ok (by decide) inside]
  refine sound_ok ⟨?_, fun i above => ?_⟩
  · rw [rowUp_eq (by decide), rowUp_eq (by decide)]
    apply List.ext_getElem
    · simp
    · intro j _ _
      by_cases here : j = col
      · simp [here, Fin.val_rev]
      · simp [here, Ne.symm here]
  · by_cases onScreen : i < bufferHeight
    · have other : ¬bufferHeight - (i + 1) = bufferHeight - 1 := by omega
      rw [rowUp_eq onScreen, rowUp_eq onScreen]
      simp [Fin.val_rev, other]
    · simp [rowUp, onScreen]

/-- On a new line every row stands one row higher. -/
theorem newLine_rows : Sound (fun w' => w'.columnPosition = 0 ∧
    ∀ i, i + 1 < bufferHeight → rowUp w'.buffer (i + 1) = rowUp w.buffer i)
      (w.newLine : Outcome Empty _) := by
  refine newLine_sound.mono fun w' moved => ?_
  obtain ⟨column, -, cells⟩ := moved
  refine ⟨column, fun i inside => ?_⟩
  rw [rowUp_eq inside, rowUp_eq (by omega)]
  apply List.map_congr_left
  intro col _
  -- The row one below it
  have lower : bufferHeight - (i + 1 + 1) + 1 < bufferHeight := by omega
  have under : (⟨bufferHeight - (i + 1 + 1) + 1, lower⟩ : Fin bufferHeight) =
      Fin.rev ⟨i, by omega⟩ := by
    apply Fin.ext
    simp only [Fin.val_rev]
    omega
  rw [cells, if_neg (by simp only [Fin.val_rev]; omega), below, dif_pos (by simpa using lower)]
  exact congrArg (fun r => (w.buffer r col).asciiCharacter) under

theorem rowsAbove_newLine {chars' : Chars}
    (rows : ∀ i, i + 1 < bufferHeight → rowUp chars' (i + 1) = rowUp chars i)
    (onScreen : up + 1 < bufferHeight) :
    rowsAbove chars' (up + 1) = rowsAbove chars up ++ rowUp chars 0 := by
  induction up with
  | zero => simp [rowsAbove, rows 0 onScreen]
  | succ up ih =>
    rw [rowsAbove, rows _ onScreen, ih (by omega), ← List.append_assoc]
    rfl

/-- A new line behind a full row. -/
theorem Stands.newLine (h : Stands w cursor text) (full : cursor.2 = bufferWidth)
    (onScreen : cursor.1 + 1 < bufferHeight) :
    Sound (fun w' => Stands w' (cursor.1 + 1, 0) text) (w.newLine : Outcome Empty _) := by
  refine newLine_rows.mono fun w' next => ?_
  obtain ⟨column, rows⟩ := next
  refine ⟨column, Nat.zero_le _, ?_⟩
  have whole : (rowUp w.buffer 0).take w.columnPosition = rowUp w.buffer 0 := by
    apply List.take_of_length_le
    rw [length_rowUp (by omega), h.column, full]
  rw [textFrom, column, List.take_zero, List.append_nil, rowsAbove_newLine rows onScreen,
    ← h.shown, textFrom, whole]

/-- A character at the end of a row that is not full. -/
theorem Stands.append (h : Stands w cursor text) (room : cursor.2 < bufferWidth) (c : UInt8) :
    Sound (fun chars => Stands { w with columnPosition := cursor.2 + 1, buffer := chars }
      (cursor.1, cursor.2 + 1) (text ++ [c]))
      (w.buffer.write (bufferHeight - 1) w.columnPosition ⟨c, w.colorCode⟩ : Outcome Empty _) := by
  have inside : w.columnPosition < bufferWidth := h.column ▸ room
  refine (write_rows inside).mono fun chars written => ?_
  refine ⟨rfl, room, ?_⟩
  have filled : cursor.2 < (rowUp w.buffer 0).length := by rwa [length_rowUp (by decide)]
  rw [textFrom, rowsAbove_congr written.2, written.1, ← h.shown, textFrom, List.append_assoc,
    h.column, List.take_succ_eq_append_getElem (by simpa using filled),
    List.take_set_of_le (Nat.le_refl _)]
  simp

/-- Any character but a line end and a backspace. -/
theorem Stands.put (h : Stands w cursor text) (plain : b ≠ 10 ∧ b ≠ 8)
    (onScreen : (moved cursor b).1 < bufferHeight) :
    Sound (fun w' => Stands w' (moved cursor b) (text ++ [b])) (w.writeByte b : Outcome Empty _) := by
  have word : bufferWidth + 1 < wordBound := by decide
  have fits := h.fits
  rw [Writer.writeByte, if_neg plain.1, if_neg plain.2, h.column]
  rw [moved, if_neg plain.1, if_neg plain.2] at onScreen ⊢
  by_cases full : bufferWidth ≤ cursor.2
  · rw [if_pos full] at onScreen ⊢
    rw [if_pos full]
    refine sound_bind ((h.newLine (by omega) onScreen).mono fun w' next => ?_)
    refine sound_bind ((next.append (Nat.zero_lt_succ 79) b).mono fun chars shown => ?_)
    rw [next.column]
    exact sound_bind (sound_add (by omega) (sound_pure shown))
  · rw [if_neg full] at onScreen ⊢
    rw [if_neg full]
    refine sound_bind (sound_pure (sound_bind ((h.append (by omega) b).mono fun chars shown => ?_)))
    rw [h.column]
    exact sound_bind (sound_add (by omega) (sound_pure shown))

@[simp] theorem moved_back (cursor : Nat × Nat) : moved cursor 8 = (cursor.1, cursor.2 - 1) := by
  simp [moved]

/-- A backspace takes the last character away, unless it would have to leave the row. -/
theorem Stands.back (h : Stands w cursor text) :
    Sound (fun w' => Stands w' (moved cursor 8) (if cursor.2 = 0 then text else text.dropLast))
      (w.writeByte 8 : Outcome Empty _) := by
  have fits := h.fits
  rw [moved_back, Writer.writeByte, if_neg (by decide : ¬(8 : UInt8) = 10), if_pos rfl, h.column]
  by_cases start : cursor.2 = 0
  · have stays : ¬0 < cursor.2 := by omega
    rw [if_neg stays, if_pos start]
    exact sound_pure ⟨by rw [h.column, start], by simp [start], h.shown⟩
  · have some_ : 0 < cursor.2 := Nat.pos_of_ne_zero start
    rw [if_pos some_, if_neg start, sub_of_le some_, ok_bind]
    refine sound_bind ((write_rows (by omega)).mono fun chars written => sound_pure ?_)
    refine ⟨rfl, Nat.le_trans (Nat.sub_le ..) fits, ?_⟩
    have filled : cursor.2 ≤ (rowUp w.buffer 0).length := by rwa [length_rowUp (by decide)]
    -- The character that is blanked stands behind the cursor
    have front : (rowUp w.buffer 0).take (cursor.2 - 1) =
        ((rowUp w.buffer 0).take cursor.2).dropLast := by
      rw [List.dropLast_eq_take, List.take_take, List.length_take]
      congr 1
      omega
    have nonempty : (rowUp w.buffer 0).take cursor.2 ≠ [] := by
      rw [ne_eq, ← List.length_eq_zero_iff, List.length_take]
      omega
    rw [textFrom, rowsAbove_congr written.2, written.1, ← h.shown, textFrom, h.column,
      List.dropLast_append_of_ne_nil nonempty, List.take_set_of_le (Nat.le_refl _), front]

/-- Backspace, blank, backspace: the character in front of the cursor goes, unless the cursor is at
the start of a row. -/
theorem Stands.erase (h : Stands w cursor text) (onScreen : cursor.1 < bufferHeight) :
    Sound (fun w' => Stands w' (cursor.1, cursor.2 - 1)
      (if cursor.2 = 0 then text else text.dropLast)) (writeBytes w [8, 32, 8] : Outcome Empty _) := by
  have fits := h.fits
  have blank : moved (cursor.1, cursor.2 - 1) 32 = (cursor.1, cursor.2 - 1 + 1) := by
    have room : ¬bufferWidth ≤ cursor.2 - 1 := by
      have width : bufferWidth = 80 := rfl
      omega
    simp [moved, room]
  refine sound_bind (h.back.mono fun w₁ first => ?_)
  rw [moved_back] at first
  refine sound_bind ((first.put ⟨by decide, by decide⟩ (by rwa [blank])).mono fun w₂ second => ?_)
  rw [blank] at second
  refine sound_bind (second.back.mono fun w₃ third => sound_pure ?_)
  simpa using third

theorem moved_erase (fits : cursor.2 ≤ bufferWidth) :
    [8, 32, 8].foldl moved cursor = (cursor.1, cursor.2 - 1) := by
  have width : bufferWidth = 80 := rfl
  have room : ¬bufferWidth ≤ cursor.2 - 1 := by omega
  simp [moved, room]

/-- Nothing is written. -/
theorem Stands.still (h : Stands w cursor text) :
    Sound (fun w' => Stands w' cursor text) (writeBytes w [] : Outcome Empty _) := by
  rw [writeBytes, List.foldlM_nil]
  exact sound_pure h

/-- Characters that fit the row. -/
theorem Stands.puts {bytes : Bytes} (h : Stands w cursor text)
    (plain : ∀ b ∈ bytes, b ≠ 10 ∧ b ≠ 8) (onScreen : cursor.1 < bufferHeight)
    (room : cursor.2 + bytes.length ≤ bufferWidth) :
    Sound (fun w' => Stands w' (bytes.foldl moved cursor) (text ++ bytes))
      (writeBytes w bytes : Outcome Empty _) := by
  induction bytes generalizing w cursor text with
  | nil => simpa using h.still
  | cons b bytes ih =>
    rw [List.forall_mem_cons] at plain
    rw [List.length_cons] at room
    have column : ¬bufferWidth ≤ cursor.2 := by omega
    have next : moved cursor b = (cursor.1, cursor.2 + 1) := by
      rw [moved, if_neg plain.1.1, if_neg plain.1.2, if_neg column]
    rw [writeBytes, List.foldlM_cons]
    refine sound_bind ((h.put plain.1 (by rwa [next])).mono fun w' shown => ?_)
    refine (ih shown plain.2 (by rwa [next]) (by simp only [next]; omega)).mono fun w'' last => ?_
    simpa using last

end Smultron.Vga
