import Smultron.Properties.EntryPoint

/-!
# What the boot check says about an exec

At boot the kernel probes an image and reports that its load path has completed. The probe is the
validation with which an exec starts. What it accepts is described here by the bytes of the image:
a header, a table inside the file, and loadable rows inside file and slot. Of the checks behind the
validation, one is about the image too: the entry address may be zero, and then only the exec fails.
-/

namespace Smultron.ElfLoader

open Checked Checked.Outcome

theorem readLe_ok_iff {width off v : Nat} {bytes : Bytes} :
    readLe width bytes off = .ok v ↔
      off + width < wordBound ∧ off + width ≤ bytes.length ∧ v = field width bytes off := by
  constructor
  · intro h
    have spelled := readLe_eq_ok h
    simp only [readLe, bind_eq_ok, okOr_eq_ok, checkedAdd_eq_some] at h
    obtain ⟨_, ⟨word, rfl⟩, part, found, -⟩ := h
    rw [get] at found
    split at found
    next inside => exact ⟨word, inside.2, spelled⟩
    next => cases found
  · rintro ⟨word, inside, rfl⟩
    exact readLe_inside inside word

/-! ### The header -/

/-- The fields of the header, as the bytes spell them. -/
def headerOf (bytes : Bytes) : ElfHdr :=
  ⟨field 8 bytes 24, field 8 bytes 32, field 2 bytes 54, field 2 bytes 56⟩

/-- A header of a 64-bit little-endian image with rows of the size the loader knows. -/
structure HeaderOk (bytes : Bytes) : Prop where
  size : elf64EhdrSize ≤ bytes.length
  magic : bytes.take 4 = elfMag
  class64 : bytes[eiClass]? = some elfClass64
  lsb : bytes[eiData]? = some elfData2Lsb
  entsize : field 2 bytes 54 = elf64PhdrSize

theorem parseElfHeader_ok_iff {bytes : Bytes} {hdr : ElfHdr} :
    parseElfHeader bytes = .ok hdr ↔ HeaderOk bytes ∧ hdr = headerOf bytes := by
  have index_ok {i : Nat} {b : UInt8} :
      (index bytes i : Outcome String UInt8) = .ok b ↔ bytes[i]? = some b := by
    rw [index]
    cases bytes[i]? <;> simp
  simp only [parseElfHeader, bind_eq_ok, errIf_eq_ok, not_not, Nat.not_lt, index_ok]
  constructor
  · rintro ⟨_, size, magic, sliced, _, rfl, class_, classRead, _, rfl, data, dataRead, _, rfl, entry,
      entryRead, phoff, phoffRead, phentsize, phentsizeRead, phnum, phnumRead, _, entsize, made⟩
    obtain ⟨-, -, rfl⟩ := readLe_ok_iff.mp entryRead
    obtain ⟨-, -, rfl⟩ := readLe_ok_iff.mp phoffRead
    obtain ⟨-, -, rfl⟩ := readLe_ok_iff.mp phentsizeRead
    obtain ⟨-, -, rfl⟩ := readLe_ok_iff.mp phnumRead
    rw [slice_of_le (by omega) (by simp [elf64EhdrSize] at size; omega)] at sliced
    exact ⟨⟨size, by simpa using sliced, classRead, dataRead, entsize⟩, (ok.inj made).symm⟩
  · rintro ⟨⟨size, magic, class64, lsb, entsize⟩, rfl⟩
    have inside {width off : Nat} (h : off + width ≤ elf64EhdrSize) :
        readLe width bytes off = .ok (field width bytes off) :=
      readLe_inside (h.trans size) (Nat.lt_of_le_of_lt h (by decide))
    refine ⟨(), size, elfMag, ?_, (), rfl, elfClass64, class64, (), rfl, elfData2Lsb, lsb, (), rfl,
      _, inside (by decide), _, inside (by decide), _, inside (by decide), _, inside (by decide),
      (), entsize, rfl⟩
    rw [slice_of_le (by omega) (by simp [elf64EhdrSize] at size; omega)]
    simpa using magic

/-! ### The table and its rows -/

/-- A row the loader accepts: it is not to be loaded, or lies inside the slot and the file. -/
def RowOk (bytes : Bytes) (slot : AppSlot) (ph : ProgramHeader) : Prop :=
  ph.pType = ptLoad → SegmentInside bytes slot ph ∧ ph.pOffset + ph.pFilesz < wordBound

theorem validateSegment_ok_iff {bytes : Bytes} {slot : AppSlot} {ph : ProgramHeader} :
    validateSegment bytes slot ph = .ok () ↔ RowOk bytes slot ph := by
  by_cases load : ph.pType = ptLoad
  · simp only [validateSegment, RowOk, load, ne_eq, not_true_eq_false, if_false, bind_eq_ok,
      okOr_eq_ok, checkedAdd_eq_some, errIf_eq_ok, not_or, Nat.not_lt, forall_const]
    constructor
    · rintro ⟨_, ⟨word, rfl⟩, _, ⟨low, high⟩, _, ⟨fileWord, rfl⟩, _, file, sizes⟩
      exact ⟨⟨word, low, high, file, sizes⟩, fileWord⟩
    · rintro ⟨⟨word, low, high, file, sizes⟩, fileWord⟩
      exact ⟨_, ⟨word, rfl⟩, (), ⟨low, high⟩, _, ⟨fileWord, rfl⟩, (), file, sizes⟩
  · simp [validateSegment, RowOk, load]

/-- An image whose bytes the loader accepts for a slot. -/
structure Loadable (bytes : Bytes) (slot : AppSlot) : Prop where
  header : HeaderOk bytes
  table : field 8 bytes 32 + elf64PhdrSize * field 2 bytes 56 ≤ bytes.length
  word : field 8 bytes 32 + elf64PhdrSize * field 2 bytes 56 < wordBound
  rows : ∀ ph ∈ headerTable bytes (headerOf bytes), RowOk bytes slot ph

theorem validateElfForSlot_ok_iff {bytes : Bytes} {slot : AppSlot} {hdr : ElfHdr} :
    validateElfForSlot bytes slot = .ok hdr ↔ Loadable bytes slot ∧ hdr = headerOf bytes := by
  simp only [validateElfForSlot, bind_eq_ok, parseElfHeader_ok_iff]
  constructor
  · rintro ⟨hdr', ⟨header, rfl⟩, ⟨⟩, bounds, ⟨⟩, walked, made⟩
    have entsize : (headerOf bytes).phentsize = elf64PhdrSize := header.entsize
    obtain ⟨word, -, inside⟩ := programHeaders_ok.mp bounds
    have count : (headerOf bytes).phnum < UInt16.size :=
      (parseElfHeader_ok (parseElfHeader_ok_iff.mpr ⟨header, rfl⟩)).2
    rw [forHeaders_table ⟨entsize, count, inside, word⟩, foldlM_unit_ok] at walked
    rw [entsize] at word inside
    exact ⟨⟨header, inside, word, fun ph hph => validateSegment_ok_iff.mp (walked ph hph)⟩,
      (ok.inj made).symm⟩
  · rintro ⟨⟨header, inside, word, rows⟩, rfl⟩
    have entsize : (headerOf bytes).phentsize = elf64PhdrSize := header.entsize
    have count : (headerOf bytes).phnum < UInt16.size :=
      (parseElfHeader_ok (parseElfHeader_ok_iff.mpr ⟨header, rfl⟩)).2
    have bounds : (headerOf bytes).phoff + (headerOf bytes).phentsize * (headerOf bytes).phnum ≤
        bytes.length := by rwa [entsize]
    have words : (headerOf bytes).phoff + (headerOf bytes).phentsize * (headerOf bytes).phnum <
        wordBound := by rwa [entsize]
    refine ⟨headerOf bytes, ⟨header, rfl⟩, (),
      programHeaders_ok.mpr ⟨words, Nat.lt_of_le_of_lt (Nat.le_add_left ..) words, bounds⟩, (), ?_,
      rfl⟩
    rw [forHeaders_table ⟨entsize, count, bounds, words⟩, foldlM_unit_ok]
    exact fun ph hph => validateSegment_ok_iff.mpr (rows ph hph)

/-! ### The probe and the exec -/

theorem probeElfForSlot_iff {bytes : Bytes} {slot : AppSlot} :
    probeElfForSlot bytes slot = true ↔ Loadable bytes slot := by
  rw [probeElfForSlot]
  cases accepted : validateElfForSlot bytes slot with
  | ok hdr => simpa using (validateElfForSlot_ok_iff.mp accepted).1
  | err msg =>
    refine iff_of_false (by simp) fun loadable => ?_
    rw [validateElfForSlot_ok_iff.mpr ⟨loadable, rfl⟩] at accepted
    cases accepted
  | panic => exact absurd accepted (validateElfForSlot_ne_panic bytes slot)

/-- For strings that fit, an exec reaches its jump when the image is loadable and starts at an
address other than zero. -/
theorem enters_iff {bytes : Bytes} {slot : AppSlot} {args env : Bytes}
    (shortArgs : args.length ≤ maxArgLen) (shortEnv : env.length ≤ maxEnvLen) :
    (∃ entered, (enterSlot bytes slot args env).2 = .ok entered) ↔
      Loadable bytes slot ∧ slot.base ≤ slot.end_ ∧ field 8 bytes 24 ≠ 0 := by
  simp only [enterSlot_eq_ok, validateElfForSlot_ok_iff]
  constructor
  · rintro ⟨_, _, ⟨loadable, rfl⟩, order, entry, -⟩
    exact ⟨loadable, order, entry⟩
  · rintro ⟨loadable, order, entry⟩
    exact ⟨_, _, ⟨loadable, rfl⟩, order, entry, shortArgs, shortEnv, rfl⟩

/-- The probe says what an exec will do exactly where the image is not loadable, or its entry
address is not zero and the slot does not end before it starts. -/
theorem probe_agrees_iff (bytes : Bytes) (slot : AppSlot) (args env : Bytes)
    (shortArgs : args.length ≤ maxArgLen) (shortEnv : env.length ≤ maxEnvLen) :
    (probeElfForSlot bytes slot = true ↔
        ∃ entered, (enterSlot bytes slot args env).2 = .ok entered) ↔
      ¬Loadable bytes slot ∨ (slot.base ≤ slot.end_ ∧ field 8 bytes 24 ≠ 0) := by
  rw [probeElfForSlot_iff, enters_iff shortArgs shortEnv]
  tauto

/-- For the image of one segment, probe and exec agree. -/
theorem probe_agrees_iff_tiny :
    probeElfForSlot tinyImage ⟨0x1000, 0x2000⟩ = true ↔
      ∃ entered, (enterSlot tinyImage ⟨0x1000, 0x2000⟩ (str "a") []).2 = .ok entered :=
  (probe_agrees_iff tinyImage ⟨0x1000, 0x2000⟩ (str "a") [] (by decide) (by decide)).mpr
    (.inr ⟨by decide, by decide +kernel⟩)

/-- A header without rows whose entry address is zero. -/
def entrylessImage : Bytes :=
  elfMag ++ [2, 1] ++ List.replicate 26 0 ++ [64, 0, 0, 0, 0, 0, 0, 0] ++ List.replicate 14 0 ++
    [56, 0] ++ List.replicate 8 0

/-- The probe accepts the image in the slot of the shell, and the exec of it fails. -/
theorem probe_accepts_entryless :
    ¬(probeElfForSlot entrylessImage (Process.slotForIndex 0) = true ↔
        ∃ entered, (enterSlot entrylessImage (Process.slotForIndex 0) [] []).2 = .ok entered) := by
  have accepted : probeElfForSlot entrylessImage (Process.slotForIndex 0) = true := by
    decide +kernel
  have entry : field 8 entrylessImage 24 = 0 := by decide +kernel
  have short : ([] : Bytes).length ≤ maxArgLen := Nat.zero_le _
  have shortEnv : ([] : Bytes).length ≤ maxEnvLen := Nat.zero_le _
  intro agree
  obtain ⟨-, -, nonzero⟩ := (enters_iff short shortEnv).mp (agree.mp accepted)
  exact nonzero entry

end Smultron.ElfLoader
