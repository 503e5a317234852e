import Smultron.Kernel.VgaBuffer
import Smultron.Lib.ScrollText

/-!
# The screen shows a scrolling text

The writer keeps the bottom row of the screen and copies the rows upwards when it leaves it. Cell by
cell this is what the same bytes do to a text that scrolls: the screen always shows its last rows.
-/

namespace Smultron.Vga

open Checked Checked.Outcome

variable {ε : Type} {w : Writer} {t : ScrollText UInt8}

/-! ### What each operation leaves in the cells -/

theorem read_ok {chars : Chars} {row col : Nat} (hr : row < bufferHeight) (hc : col < bufferWidth) :
    (chars.read row col : Outcome ε _) = .ok (chars ⟨row, hr⟩ ⟨col, hc⟩) := dif_pos ⟨hr, hc⟩

theorem write_ok {chars : Chars} {row col : Nat} {c : ScreenChar} (hr : row < bufferHeight)
    (hc : col < bufferWidth) : (chars.write row col c : Outcome ε _) =
      .ok fun r k => if r.val = row ∧ k.val = col then c else chars r k := if_pos ⟨hr, hc⟩

/-- A blank in the writer's colors. -/
def Writer.blank (w : Writer) : ScreenChar := ⟨32, w.colorCode⟩

theorem clearRow_sound {row : Nat} (hr : row < bufferHeight) :
    Sound (fun w' => w'.columnPosition = w.columnPosition ∧ w'.colorCode = w.colorCode ∧
      ∀ r k, w'.buffer r k = if r.val = row then w.blank else w.buffer r k)
      (w.clearRow row : Outcome ε _) := by
  refine sound_bind ((sound_forRange (I := fun i chars => ∀ r k,
    chars r k = if r.val = row ∧ k.val < i then w.blank else w.buffer r k) (Nat.zero_le _) ?_ ?_).mono
      fun chars done => sound_pure ⟨rfl, rfl, fun r k => ?_⟩)
  · intro r k
    rw [if_neg (by omega)]
  · intro i chars _ hi before
    rw [write_ok hr hi]
    refine sound_ok fun r k => ?_
    by_cases here : r.val = row ∧ k.val = i
    · rw [if_pos here, if_pos (by omega)]
      rfl
    · rw [if_neg here, before]
      exact if_congr (by omega) rfl rfl
  · have inside := k.isLt
    dsimp only
    rw [done]
    simp only [inside, and_true]

/-- The row below, and the last row below itself. -/
def below (chars : Chars) (r : Fin bufferHeight) : Fin bufferWidth → ScreenChar :=
  if h : r.val + 1 < bufferHeight then chars ⟨r.val + 1, h⟩ else chars r

/-- One row is copied to the row above it. -/
theorem copyRow_sound {chars : Chars} {row : Nat} (low : 1 ≤ row) (hr : row < bufferHeight) :
    Sound (fun chars' => ∀ r k, chars' r k = if r.val + 1 = row then below chars r k else chars r k)
      (forRange 0 bufferWidth chars fun chars col => do
        let c ← chars.read row col
        let up ← sub row 1
        chars.write up col c : Outcome ε _) := by
  refine (sound_forRange (I := fun i chars' => ∀ r k,
    chars' r k = if r.val + 1 = row ∧ k.val < i then below chars r k else chars r k)
      (Nat.zero_le _) ?_ ?_).mono fun chars' done r k => ?_
  · intro r k
    rw [if_neg (by omega)]
  · intro i chars' _ hi before
    rw [read_ok hr hi, ok_bind, sub_of_le low, ok_bind, write_ok (by omega) hi]
    refine sound_ok fun r k => ?_
    -- The row that is read is not written to
    have source : chars' ⟨row, hr⟩ ⟨i, hi⟩ = chars ⟨row, hr⟩ ⟨i, hi⟩ := by
      rw [before, if_neg (by simp)]
    rw [source, before]
    by_cases here : r.val = row - 1 ∧ k.val = i
    · have under : r.val + 1 = row := by omega
      have inside : r.val + 1 < bufferHeight := by omega
      obtain rfl : (⟨i, hi⟩ : Fin bufferWidth) = k := Fin.ext here.2.symm
      rw [if_pos here, if_pos ⟨under, by omega⟩, below, dif_pos inside]
      congr 1
      exact Fin.ext under.symm
    · rw [if_neg here]
      exact if_congr (by omega) rfl rfl
  · have inside := k.isLt
    rw [done]
    simp only [inside, and_true]

theorem newLine_sound : Sound (fun w' => w'.columnPosition = 0 ∧ w'.colorCode = w.colorCode ∧
    ∀ r k, w'.buffer r k = if r.val + 1 = bufferHeight then w.blank else below w.buffer r k)
      (w.newLine : Outcome ε _) := by
  refine sound_bind ((sound_forRange (I := fun i chars => ∀ r k,
    chars r k = if r.val + 1 < i then below w.buffer r k else w.buffer r k) (by decide) ?_ ?_).mono
      fun chars done => ?_)
  · intro r k
    rw [if_neg (by omega)]
  · intro row chars low hr before
    refine (copyRow_sound low hr).mono fun chars' copied r k => ?_
    rw [copied]
    by_cases here : r.val + 1 = row
    · -- The row below the one that is written to is still the old one
      have inside : r.val + 1 < bufferHeight := by omega
      rw [if_pos here, if_pos (by omega), below, below, dif_pos inside, dif_pos inside, before,
        if_neg (by simp; omega)]
    · rw [if_neg here, before]
      exact if_congr (by omega) rfl rfl
  · refine sound_bind ((clearRow_sound (by decide)).mono fun w' cleared => sound_pure ?_)
    obtain ⟨-, color, cells⟩ := cleared
    refine ⟨rfl, color, fun r k => ?_⟩
    have inside := r.isLt
    have height : bufferHeight = 25 := rfl
    dsimp only at cells ⊢
    rw [cells, done]
    by_cases last : r.val = bufferHeight - 1
    · rw [if_pos last, if_pos (by omega)]
      rfl
    · rw [if_neg last, if_pos (by omega), if_neg (by omega)]

theorem clearScreen_sound : Sound (fun w' => w'.columnPosition = 0 ∧ w'.colorCode = w.colorCode ∧
    ∀ r k, w'.buffer r k = w.blank) (clearScreen w : Outcome ε _) := by
  refine sound_bind ((sound_forRange (I := fun i (w' : Writer) => w'.colorCode = w.colorCode ∧
    ∀ r k, r.val < i → w'.buffer r k = w.blank) (Nat.zero_le _) ⟨rfl, nofun⟩ ?_).mono
      fun w' done => sound_pure ⟨rfl, done.1, fun r k => done.2 r k r.isLt⟩)
  rintro row w' - hr ⟨color, before⟩
  refine (clearRow_sound hr).mono fun w'' cleared => ⟨cleared.2.1.trans color, fun r k upTo => ?_⟩
  rw [cleared.2.2]
  split
  · rw [Writer.blank, color]
    rfl
  next other => exact before r k (by omega)

/-! ### The text on the screen -/

/-- What a byte does to the text. -/
def typeByte (t : ScrollText UInt8) (byte : UInt8) : ScrollText UInt8 :=
  if byte = 10 then t.newLine
  else if byte = 8 then t.backspace
  else t.put bufferWidth byte

/-- The screen shows the last rows of the text, with blanks where there is no text, and the column
is the end of the last row. -/
structure Shows (w : Writer) (t : ScrollText UInt8) : Prop where
  column : w.columnPosition = t.current.length
  fits : w.columnPosition ≤ 80
  cells : ∀ row col, w.buffer row col = ⟨t.cell 32 (bufferHeight - 1 - row) col, w.colorCode⟩

theorem shows_empty (column : w.columnPosition = 0) (cells : ∀ r k, w.buffer r k = w.blank) :
    Shows w .empty where
  column := column
  fits := by omega
  cells row col := by
    rw [cells, ScrollText.cell_empty]
    rfl

theorem Shows.newLine (h : Shows w t) :
    Sound (fun w' => w'.colorCode = w.colorCode ∧ Shows w' t.newLine) (w.newLine : Outcome ε _) := by
  refine newLine_sound.mono fun w' moved => ?_
  obtain ⟨column, color, cells⟩ := moved
  refine ⟨color, column, by omega, fun row col => ?_⟩
  have inside := row.isLt
  have height : bufferHeight = 25 := rfl
  rw [cells, ScrollText.cell_newLine, color]
  by_cases bottom : row.val + 1 = bufferHeight
  · rw [if_pos bottom, if_pos (by omega)]
    rfl
  · -- What stood one row below
    have under : row.val + 1 < bufferHeight := by omega
    have up : bufferHeight - 1 - (row.val + 1) = bufferHeight - 1 - row.val - 1 := by omega
    rw [if_neg bottom, if_neg (by omega), below, dif_pos under, h.cells, up]

/-- A character put into the bottom row, at its end or over its last one. -/
theorem Shows.write {col : Nat} {b : UInt8} (h : Shows w t) (t' : ScrollText UInt8)
    (inside : col < bufferWidth)
    (cells : ∀ up k, t'.cell 32 up k = if up = 0 ∧ k = col then b else t.cell 32 up k)
    {column : Nat} (length : column = t'.current.length) (fits : column ≤ 80) :
    Sound (fun buffer => Shows { w with columnPosition := column, buffer } t')
      (w.buffer.write (bufferHeight - 1) col ⟨b, w.colorCode⟩ : Outcome ε _) := by
  rw [write_ok (by decide) inside]
  refine sound_ok ⟨length, fits, fun row k => ?_⟩
  have height : bufferHeight = 25 := rfl
  have bottom := row.isLt
  dsimp only
  rw [cells]
  by_cases here : row.val = bufferHeight - 1 ∧ k.val = col
  · rw [if_pos here, if_pos (by omega)]
  · rw [if_neg here, if_neg (by omega), h.cells]

/-- One byte. -/
theorem Shows.writeByte (h : Shows w t) (byte : UInt8) :
    Sound (fun w' => w'.colorCode = w.colorCode ∧ Shows w' (typeByte t byte))
      (w.writeByte byte : Outcome ε _) := by
  have column := h.column
  have fits := h.fits
  have width : bufferWidth = 80 := rfl
  rw [Writer.writeByte, typeByte]
  by_cases line : byte = 10
  · rw [if_pos line, if_pos line]
    exact h.newLine
  rw [if_neg line, if_neg line]
  by_cases back : byte = 8
  · rw [if_pos back, if_pos back]
    split
    next some_ =>
      rw [sub_of_le some_, ok_bind]
      refine sound_bind ((h.write t.backspace (by omega) (fun up k => ?_) ?_
        (by omega)).mono fun buffer shown => sound_pure ⟨rfl, shown⟩)
      · rw [ScrollText.cell_backspace]
        exact if_congr (by omega) rfl rfl
      · rw [ScrollText.backspace, List.length_dropLast, column]
    next none_ =>
      -- The row is empty, and so it stays
      have same : t.backspace = t := by
        have empty : t.current = [] := List.length_eq_zero_iff.mp (by omega)
        rw [ScrollText.backspace, empty, List.dropLast_nil, ← empty]
      rw [same]
      exact sound_pure ⟨rfl, h⟩
  · rw [if_neg back, if_neg back, ScrollText.put]
    -- The row that the byte is written to
    have row : Sound (fun w' => w'.colorCode = w.colorCode ∧ w'.columnPosition < bufferWidth ∧
        Shows w' (if bufferWidth ≤ t.current.length then t.newLine else t))
        (if bufferWidth ≤ w.columnPosition then w.newLine else pure w : Outcome ε _) := by
      rw [column]
      split
      · refine h.newLine.mono fun w' next => ⟨next.1, ?_, next.2⟩
        rw [next.2.column]
        exact (by decide : 0 < bufferWidth)
      next room => exact sound_pure ⟨rfl, by omega, h⟩
    refine sound_bind (row.mono fun w' next => ?_)
    obtain ⟨color, inside, shown⟩ := next
    have target : (if bufferWidth ≤ t.current.length then t.newLine.append byte else t.append byte) =
        (if bufferWidth ≤ t.current.length then t.newLine else t).append byte := by
      split <;> rfl
    rw [target]
    have column' := shown.column
    refine sound_bind ((shown.write _ inside (fun up k => ?_) ?_ (by omega)).mono fun buffer shown' =>
      sound_bind (sound_add ?_ (sound_pure ⟨color, shown'⟩)))
    · rw [ScrollText.cell_append, column']
    · rw [ScrollText.append, List.length_append, List.length_singleton, column']
    · have word : bufferWidth + 1 < wordBound := by decide
      omega

/-- Any bytes. -/
theorem Shows.writeBytes (h : Shows w t) (bytes : Bytes) :
    Sound (fun w' => w'.colorCode = w.colorCode ∧ Shows w' (bytes.foldl typeByte t))
      (writeBytes w bytes : Outcome ε _) := by
  induction bytes generalizing w t with
  | nil => exact sound_pure ⟨rfl, h⟩
  | cons b bytes ih =>
    rw [Vga.writeBytes, List.foldlM_cons, List.foldl_cons]
    refine sound_bind ((h.writeByte b).mono fun w' next => ?_)
    exact (ih next.2).mono fun w'' last => ⟨last.1.trans next.1, last.2⟩

theorem bounded_typeByte (h : t.Bounded 80) (byte : UInt8) : (typeByte t byte).Bounded 80 := by
  rw [typeByte]
  split
  · exact h.newLine
  · split
    · exact h.backspace
    · exact h.put (by decide) byte

theorem bounded_foldl (h : t.Bounded 80) (bytes : Bytes) : (bytes.foldl typeByte t).Bounded 80 := by
  induction bytes generalizing t with
  | nil => exact h
  | cons b bytes ih => exact ih (bounded_typeByte h b)

theorem writeBytes_append (w : Writer) (bytes more : Bytes) :
    (writeBytes w (bytes ++ more) : Outcome ε _) =
      writeBytes w bytes >>= fun w => writeBytes w more := List.foldlM_append

/-- `write_string` writes a byte for each byte of the text. -/
theorem writeString_eq (w : Writer) (s : Bytes) :
    (w.writeString s : Outcome ε _) = writeBytes w (s.map Writer.printable) := List.foldlM_map.symm

/-- After `clear_screen` the screen shows the text of whatever bytes are written to it, and no cell
outside of it is used. -/
theorem screen_shows_text (w : Writer) (bytes : Bytes) :
    ∃ w', (clearScreen w >>= fun w => writeBytes w bytes : Outcome Empty _) = .ok w' ∧
      w'.columnPosition = (bytes.foldl typeByte .empty).current.length ∧
      w'.columnPosition ≤ 80 ∧ (bytes.foldl typeByte .empty).Bounded 80 ∧
      ∀ row col, w'.buffer row col =
        ⟨(bytes.foldl typeByte .empty).cell 32 (bufferHeight - 1 - row) col, w.colorCode⟩ := by
  have whole : Sound (fun w' => w'.colorCode = w.colorCode ∧ Shows w' (bytes.foldl typeByte .empty))
      (clearScreen w >>= fun w => writeBytes w bytes : Outcome Empty _) := by
    refine sound_bind (clearScreen_sound.mono fun w' cleared => ?_)
    obtain ⟨column, color, cells⟩ := cleared
    have blank : w'.blank = w.blank := by rw [Writer.blank, color]; rfl
    refine ((shows_empty column (blank ▸ cells)).writeBytes bytes).mono fun w'' last => ?_
    exact ⟨last.1.trans color, last.2⟩
  obtain ⟨w', ended, color, shown⟩ := whole.value
  exact ⟨w', ended, shown.column, shown.fits, bounded_foldl (ScrollText.bounded_empty 80) bytes,
    fun row col => by rw [shown.cells, color]⟩

end Smultron.Vga
