import Smultron.Kernel.ElfLoader
import Mathlib.Data.List.Induction

/-!
# An accepted image loads to exactly its segments

`validate_elf_for_slot` and `load_segments` walk the same header table with different checks. Once
the table is known to lie inside the file, the iterator yields every header of it; the facts the
first walk checks are the side conditions of the second, so the load neither panics nor leaves the
slot, and its last writes decide every byte.
-/

namespace Smultron.ElfLoader

open Checked Checked.Outcome Memory

/-! ### Reading fields -/

theorem leBytes_lt (bs : Bytes) : leBytes bs < Nat.pow 256 bs.length := by
  induction bs with
  | nil => simp [leBytes]
  | cons b bs ih =>
    have low := b.toNat_lt
    have next : Nat.pow 256 (b :: bs).length = Nat.pow 256 bs.length * 256 := rfl
    simp only [leBytes, List.foldr_cons] at ih ⊢
    rw [next]
    omega

/-- The number that the `width` bytes at `off` spell. -/
def field (width : Nat) (bytes : Bytes) (off : Nat) : Nat :=
  leBytes ((bytes.take (off + width)).drop off)

theorem readLe_inside {width off : Nat} {bytes : Bytes} (inside : off + width ≤ bytes.length)
    (word : off + width < wordBound) : readLe width bytes off = .ok (field width bytes off) := by
  have stop : checkedAdd off width = some (off + width) := checkedAdd_eq_some.mpr ⟨word, rfl⟩
  simp [readLe, stop, get, inside, field]

theorem readLe_bound {width off v : Nat} {bytes : Bytes} (h : readLe width bytes off = .ok v) :
    v < Nat.pow 256 width := by
  simp only [readLe, bind_eq_ok, okOr_eq_ok, checkedAdd_eq_some] at h
  obtain ⟨_, ⟨-, rfl⟩, part, hp, h⟩ := h
  cases h
  -- The slice has as many bytes as are read
  have len : part.length = width := by
    rw [get] at hp
    split at hp
    next inside =>
      cases hp
      simp
      omega
    · simp at hp
  exact len ▸ leBytes_lt part

/-! ### The header table -/

/-- The header at index `i` of the table. -/
def headerAt (bytes : Bytes) (hdr : ElfHdr) (i : Nat) : ProgramHeader :=
  let base := hdr.phoff + i * elf64PhdrSize
  ⟨field 4 bytes base, field 8 bytes (base + 8), field 8 bytes (base + 16),
    field 8 bytes (base + 32), field 8 bytes (base + 40)⟩

/-- The `phnum` headers of the table, in order. -/
def headerTable (bytes : Bytes) (hdr : ElfHdr) : List ProgramHeader :=
  (List.range hdr.phnum).map (headerAt bytes hdr)

/-- The table lies inside the file. -/
structure TableInside (bytes : Bytes) (hdr : ElfHdr) : Prop where
  entsize : hdr.phentsize = elf64PhdrSize
  count : hdr.phnum < UInt16.size
  inside : hdr.phoff + hdr.phentsize * hdr.phnum ≤ bytes.length
  word : hdr.phoff + hdr.phentsize * hdr.phnum < wordBound

theorem parseElfHeader_ok {bytes : Bytes} {hdr : ElfHdr} (h : parseElfHeader bytes = .ok hdr) :
    hdr.phentsize = elf64PhdrSize ∧ hdr.phnum < UInt16.size := by
  simp only [parseElfHeader, bind_eq_ok, errIf_eq_ok] at h
  obtain ⟨_, -, _, -, _, -, _, -, _, -, _, -, _, -, entry, -, phoff, -, phentsize, -, phnum, count,
    _, entsize, h⟩ := h
  cases h
  exact ⟨not_not.mp entsize, readLe_bound count⟩

theorem programHeaders_ok {bytes : Bytes} {hdr : ElfHdr} :
    programHeaders bytes hdr = .ok () ↔
      hdr.phoff + hdr.phentsize * hdr.phnum < wordBound ∧
        hdr.phentsize * hdr.phnum < wordBound ∧
        hdr.phoff + hdr.phentsize * hdr.phnum ≤ bytes.length := by
  simp only [programHeaders, bind_eq_ok, okOr_eq_ok, checkedMul_eq_some, checkedAdd_eq_some,
    errIf_eq_ok, Nat.not_lt]
  constructor
  · rintro ⟨_, ⟨small, rfl⟩, _, ⟨word, rfl⟩, inside⟩
    exact ⟨word, small, inside⟩
  · rintro ⟨word, small, inside⟩
    exact ⟨_, ⟨small, rfl⟩, _, ⟨word, rfl⟩, inside⟩

section Iterator

variable {ε σ : Type} {bytes : Bytes} {hdr : ElfHdr}

theorem next_end {idx : Nat} (h : hdr.phnum ≤ idx) :
    (next bytes hdr idx : Outcome ε _) = .ok none := by
  simp [next, h]

/-- Inside the table the iterator never stops early and no offset overflows. -/
theorem next_inside (table : TableInside bytes hdr) {idx : Nat} (h : idx < hdr.phnum) :
    (next bytes hdr idx : Outcome ε _) = .ok (some (headerAt bytes hdr idx, idx + 1)) := by
  obtain ⟨entsize, count, inside, word⟩ := table
  -- The row of the header ends inside the table, and the table inside the file.
  have row : (idx + 1) * elf64PhdrSize ≤ hdr.phentsize * hdr.phnum := by
    rw [entsize, Nat.mul_comm]
    exact Nat.mul_le_mul_left _ h
  rw [Nat.add_mul] at row
  have size : elf64PhdrSize = 56 := rfl
  -- So neither the offset of the header nor that of a field overflows, and every read succeeds.
  have counted : idx + 1 < UInt16.size := by omega
  have off : (mul idx hdr.phentsize : Outcome ε Nat) = .ok (idx * elf64PhdrSize) := by
    rw [entsize]
    exact mul_of_lt (by omega)
  have base : (add hdr.phoff (idx * elf64PhdrSize) : Outcome ε Nat) =
      .ok (hdr.phoff + idx * elf64PhdrSize) := add_of_lt (by omega)
  have shift (n : Nat) (hn : n ≤ 48) :
      (add (hdr.phoff + idx * elf64PhdrSize) n : Outcome ε Nat) =
        .ok (hdr.phoff + idx * elf64PhdrSize + n) := add_of_lt (by omega)
  have read (width n : Nat) (hn : n + width ≤ 48) :
      readLe width bytes (hdr.phoff + idx * elf64PhdrSize + n) =
        .ok (field width bytes (hdr.phoff + idx * elf64PhdrSize + n)) :=
    readLe_inside (by omega) (by omega)
  have first := read 4 0 (by omega)
  simp only [Nat.add_zero] at first
  simp only [next, Nat.not_le.mpr h, if_false, off, ok_bind, base, counted, if_true, readU32, first,
    okElse, shift 8 (by omega), readU64, read 8 8 (by omega), shift 16 (by omega),
    read 8 16 (by omega), shift 32 (by omega), read 8 32 (by omega), shift 40 (by omega),
    read 8 40 (by omega), pure_eq, headerAt]

/-- The loop over the headers is the loop over the table. -/
theorem forHeaders_eq (table : TableInside bytes hdr)
    (body : σ → ProgramHeader → Outcome ε σ) (left idx : Nat) (hl : idx + left = hdr.phnum) (s : σ) :
    forHeaders bytes hdr body (left + 1) idx s =
      ((List.range' idx left).map (headerAt bytes hdr)).foldlM body s := by
  -- `left` counts the headers from `idx` on; the loop makes one more call, which ends it.
  induction left generalizing idx s with
  | zero =>
    have done : hdr.phnum ≤ idx := by omega
    rw [forHeaders, next_end done]
    rfl
  | succ left ih =>
    rw [forHeaders, next_inside table (by omega), ok_bind, List.range'_succ, List.map_cons,
      List.foldlM_cons]
    have rest : (fun s' => forHeaders bytes hdr body (left + 1) (idx + 1) s') = _ :=
      funext fun s' => ih (idx + 1) (by omega) s'
    exact congrArg (body s (headerAt bytes hdr idx) >>= ·) rest

theorem forHeaders_table (table : TableInside bytes hdr) (body : σ → ProgramHeader → Outcome ε σ)
    (s : σ) :
    forHeaders bytes hdr body (hdr.phnum + 1) 0 s = (headerTable bytes hdr).foldlM body s := by
  rw [forHeaders_eq table body hdr.phnum 0 (Nat.zero_add _), headerTable, List.range_eq_range']

end Iterator

/-! ### What acceptance says about a segment -/

/-- A loadable segment whose memory range lies in the slot and whose file range lies in the file. -/
structure SegmentInside (bytes : Bytes) (slot : AppSlot) (ph : ProgramHeader) : Prop where
  word : ph.pVaddr + ph.pMemsz < wordBound
  low : slot.base ≤ ph.pVaddr
  high : ph.pVaddr + ph.pMemsz ≤ slot.end_
  file : ph.pOffset + ph.pFilesz ≤ bytes.length
  sizes : ph.pFilesz ≤ ph.pMemsz

theorem validateSegment_ok {bytes : Bytes} {slot : AppSlot} {ph : ProgramHeader}
    (h : validateSegment bytes slot ph = .ok ()) (load : ph.pType = ptLoad) :
    SegmentInside bytes slot ph := by
  simp only [validateSegment, load, ne_eq, not_true_eq_false, if_false, bind_eq_ok,
    okOr_eq_ok, checkedAdd_eq_some, errIf_eq_ok, not_or, Nat.not_lt] at h
  obtain ⟨_, ⟨word, rfl⟩, _, ⟨low, high⟩, _, ⟨-, rfl⟩, _, file, sizes⟩ := h
  exact ⟨word, low, high, file, sizes⟩

theorem foldlM_unit_ok {α : Type} {check : α → Outcome String Unit} {xs : List α} :
    xs.foldlM (fun _ x => check x) () = .ok () ↔ ∀ x ∈ xs, check x = .ok () := by
  induction xs with
  | nil => simp
  | cons x xs ih =>
    rw [List.foldlM_cons, bind_eq_ok, List.forall_mem_cons, ← ih]
    constructor
    · rintro ⟨⟨⟩, first, rest⟩
      exact ⟨first, rest⟩
    · exact fun ⟨first, rest⟩ => ⟨(), first, rest⟩

/-- What `validate_elf_for_slot` has checked of an image it accepts. -/
theorem validate_ok {bytes : Bytes} {slot : AppSlot} {hdr : ElfHdr}
    (h : validateElfForSlot bytes slot = .ok hdr) :
    TableInside bytes hdr ∧
      ∀ ph ∈ headerTable bytes hdr, ph.pType = ptLoad → SegmentInside bytes slot ph := by
  simp only [validateElfForSlot, bind_eq_ok] at h
  obtain ⟨hdr', parsed, ⟨⟩, bounds, ⟨⟩, walked, h⟩ := h
  cases h
  obtain ⟨entsize, count⟩ := parseElfHeader_ok parsed
  obtain ⟨word, -, inside⟩ := programHeaders_ok.mp bounds
  have table : TableInside bytes hdr := ⟨entsize, count, inside, word⟩
  -- The walk over the table is a check of each header in it
  rw [forHeaders_table table, foldlM_unit_ok] at walked
  exact ⟨table, fun ph hph load => validateSegment_ok (walked ph hph) load⟩

/-! ### The writes of a load -/

/-- The block operations `load_segments` performs for one header. -/
def segmentOps (ph : ProgramHeader) : List BlockOp :=
  if ph.pType ≠ ptLoad then []
  else if ph.pMemsz ≤ ph.pFilesz then [.copy ph.pOffset ph.pVaddr ph.pFilesz]
  else [.copy ph.pOffset ph.pVaddr ph.pFilesz,
    .fill (ph.pVaddr + ph.pFilesz) 0 (ph.pMemsz - ph.pFilesz)]

theorem loadSegment_eq {ε : Type} {bytes : Bytes} {slot : AppSlot} {ph : ProgramHeader}
    (checked : ph.pType = ptLoad → SegmentInside bytes slot ph) (loaded : Loaded) :
    (loadSegment loaded ph : Outcome ε Loaded) =
      .ok ⟨loaded.headers ++ [ph], loaded.ops ++ segmentOps ph⟩ := by
  by_cases load : ph.pType = ptLoad
  · -- Only here can the sums overflow, and the check of the segment excludes it
    obtain ⟨word, -, -, -, sizes⟩ := checked load
    by_cases full : ph.pMemsz ≤ ph.pFilesz
    · simp [loadSegment, segmentOps, load, full]
    · have tail : (add ph.pVaddr ph.pFilesz : Outcome ε Nat) = .ok (ph.pVaddr + ph.pFilesz) :=
        add_of_lt (by omega)
      have rest : (sub ph.pMemsz ph.pFilesz : Outcome ε Nat) = .ok (ph.pMemsz - ph.pFilesz) :=
        sub_of_le sizes
      simp [loadSegment, segmentOps, load, full, tail, rest]
  · simp [loadSegment, segmentOps, load]

theorem foldlM_loadSegment {ε : Type} {bytes : Bytes} {slot : AppSlot} (phs : List ProgramHeader)
    (checked : ∀ ph ∈ phs, ph.pType = ptLoad → SegmentInside bytes slot ph) (loaded : Loaded) :
    (phs.foldlM loadSegment loaded : Outcome ε Loaded) =
      .ok ⟨loaded.headers ++ phs, loaded.ops ++ phs.flatMap segmentOps⟩ := by
  induction phs generalizing loaded with
  | nil => simp
  | cons ph phs ih =>
    rw [List.foldlM_cons, loadSegment_eq (checked ph List.mem_cons_self), ok_bind,
      ih fun ph' h => checked ph' (List.mem_cons_of_mem _ h)]
    simp

/-! ### The memory after a load -/

/-- `a` lies in the memory range of a loadable segment. -/
def ProgramHeader.covers (ph : ProgramHeader) (a : Nat) : Bool :=
  ph.pType = ptLoad && ph.pVaddr ≤ a && a < ph.pVaddr + ph.pMemsz

/-- The byte a segment gives an address it covers: its file byte, and 0 behind the file bytes. -/
def segmentByte (bytes : Bytes) (ph : ProgramHeader) (a : Nat) : UInt8 :=
  if a - ph.pVaddr < ph.pFilesz then bytes.getD (ph.pOffset + (a - ph.pVaddr)) 0 else 0

/-- The byte that the last segment covering `a` gives it, and 0 where none does. -/
def imageByte (bytes : Bytes) (phs : List ProgramHeader) (a : Nat) : UInt8 :=
  match phs.reverse.find? (·.covers a) with
  | some ph => segmentByte bytes ph a
  | none => 0

theorem imageByte_concat (bytes : Bytes) (phs : List ProgramHeader) (ph : ProgramHeader) (a : Nat) :
    imageByte bytes (phs ++ [ph]) a =
      if ph.covers a = true then segmentByte bytes ph a else imageByte bytes phs a := by
  by_cases h : ph.covers a = true <;> simp [imageByte, h]

theorem applyAll_segmentOps {bytes : Bytes} {slot : AppSlot} {ph : ProgramHeader}
    (checked : ph.pType = ptLoad → SegmentInside bytes slot ph) (m : Mem) (a : Nat) :
    applyAll bytes (segmentOps ph) m a =
      if ph.covers a = true then segmentByte bytes ph a else m a := by
  by_cases load : ph.pType = ptLoad
  · have sizes := (checked load).sizes
    have covers : ph.covers a = true ↔ ph.pVaddr ≤ a ∧ a < ph.pVaddr + ph.pMemsz := by
      simp [ProgramHeader.covers, load]
    have loadable : ¬ph.pType ≠ ptLoad := not_not.mpr load
    rw [segmentOps, if_neg loadable, segmentByte]
    by_cases full : ph.pMemsz ≤ ph.pFilesz
    · -- The file bytes fill the segment, and there is no tail
      have same : ph.pMemsz = ph.pFilesz := Nat.le_antisymm full sizes
      rw [if_pos full, applyAll_cons, applyAll_nil, BlockOp.apply_copy]
      by_cases inside : ph.pVaddr ≤ a ∧ a < ph.pVaddr + ph.pFilesz
      · rw [if_pos inside, if_pos (covers.mpr (by omega)), if_pos (by omega)]
      · have outside : ¬ph.covers a = true := fun h => inside (by rw [covers] at h; omega)
        rw [if_neg inside, if_neg outside]
    · rw [if_neg full, applyAll_cons, applyAll_cons, applyAll_nil, BlockOp.apply_fill,
        BlockOp.apply_copy]
      -- The file bytes, the zeroed tail behind them, and what lies outside the segment
      by_cases inFile : ph.pVaddr ≤ a ∧ a < ph.pVaddr + ph.pFilesz
      · rw [if_neg (by omega), if_pos inFile, if_pos (covers.mpr (by omega)), if_pos (by omega)]
      · rw [if_neg inFile]
        by_cases inTail : ph.pVaddr ≤ a ∧ a < ph.pVaddr + ph.pMemsz
        · rw [if_pos (by omega), if_pos (covers.mpr inTail), if_neg (by omega)]
        · rw [if_neg (by omega), if_neg (fun h => inTail (covers.mp h))]
  · have covers : ph.covers a = false := by simp [ProgramHeader.covers, load]
    simp [segmentOps, load, covers]

/-- Segment by segment, the last one to cover an address wins. -/
theorem applyAll_segments {bytes : Bytes} {slot : AppSlot} (phs : List ProgramHeader)
    (checked : ∀ ph ∈ phs, ph.pType = ptLoad → SegmentInside bytes slot ph) {m : Mem} {a : Nat}
    (zeroed : m a = 0) :
    applyAll bytes (phs.flatMap segmentOps) m a = imageByte bytes phs a := by
  -- From the back: the last segment decides what it covers and leaves the rest to those before it.
  induction phs using List.reverseRecOn with
  | nil => exact zeroed
  | append_singleton phs ph ih =>
    have before : ∀ ph' ∈ phs, ph'.pType = ptLoad → SegmentInside bytes slot ph' :=
      fun ph' h => checked ph' (List.mem_append_left _ h)
    rw [List.flatMap_append, List.flatMap_singleton, applyAll_append,
      applyAll_segmentOps (checked ph (by simp)), ih before, imageByte_concat]

/-- A segment's operations read inside the file and write inside its memory range. -/
theorem segmentOps_inside {bytes : Bytes} {slot : AppSlot} {ph : ProgramHeader}
    (checked : ph.pType = ptLoad → SegmentInside bytes slot ph) :
    ∀ op ∈ segmentOps ph, op.ReadsInside bytes ∧
      ∀ a, op.Writes a → slot.base ≤ a ∧ a < slot.end_ := by
  intro op hop
  rw [segmentOps] at hop
  split at hop
  · simp at hop
  next load =>
    obtain ⟨-, low, high, file, sizes⟩ := checked (not_not.mp load)
    -- The file bytes, at most as many as the bytes in memory
    have copied (a : Nat) (ha : (BlockOp.copy ph.pOffset ph.pVaddr ph.pFilesz).Writes a) :
        slot.base ≤ a ∧ a < slot.end_ := by
      rw [BlockOp.writes_copy] at ha
      omega
    split at hop
    · obtain rfl : op = _ := by simpa using hop
      exact ⟨file, copied⟩
    · simp only [List.mem_cons, List.not_mem_nil, or_false] at hop
      rcases hop with rfl | rfl
      · exact ⟨file, copied⟩
      · -- The zeroed tail, up to the end of the memory range
        refine ⟨trivial, fun a ha => ?_⟩
        rw [BlockOp.writes_fill] at ha
        omega

section Load

variable {bytes : Bytes} {slot : AppSlot} {phs : List ProgramHeader}

/-- The writes of a load: the slot is cleared, then the segments follow in table order. -/
def loadOps (slot : AppSlot) (phs : List ProgramHeader) : List BlockOp :=
  .fill slot.base 0 (slot.end_ - slot.base) :: phs.flatMap segmentOps

theorem loadOps_inside (order : slot.base ≤ slot.end_)
    (checked : ∀ ph ∈ phs, ph.pType = ptLoad → SegmentInside bytes slot ph) :
    ∀ op ∈ loadOps slot phs, op.ReadsInside bytes ∧
      ∀ a, op.Writes a → slot.base ≤ a ∧ a < slot.end_ := by
  intro op hop
  rcases List.mem_cons.mp hop with rfl | hop
  · refine ⟨trivial, fun a ha => ?_⟩
    rw [BlockOp.writes_fill] at ha
    omega
  · obtain ⟨ph, hph, hop⟩ := List.mem_flatMap.mp hop
    exact segmentOps_inside (checked ph hph) op hop

/-- After a load the slot holds the image, and every other address its old byte. -/
theorem applyAll_loadOps (order : slot.base ≤ slot.end_)
    (checked : ∀ ph ∈ phs, ph.pType = ptLoad → SegmentInside bytes slot ph) (m : Mem) (a : Nat) :
    applyAll bytes (loadOps slot phs) m a =
      if slot.base ≤ a ∧ a < slot.end_ then imageByte bytes phs a else m a := by
  by_cases inside : slot.base ≤ a ∧ a < slot.end_
  · rw [if_pos inside, loadOps, applyAll_cons]
    apply applyAll_segments _ checked
    rw [BlockOp.apply_fill]
    exact if_pos (by omega)
  · rw [if_neg inside]
    apply applyAll_frame
    intro op hop ha
    exact inside ((loadOps_inside order checked op hop).2 a ha)

end Load

theorem loadSegments_eq {bytes : Bytes} {slot : AppSlot} {hdr : ElfHdr}
    (order : slot.base ≤ slot.end_) (accepted : validateElfForSlot bytes slot = .ok hdr) :
    loadSegments bytes slot hdr =
      .ok ⟨headerTable bytes hdr, loadOps slot (headerTable bytes hdr)⟩ := by
  obtain ⟨table, checked⟩ := validate_ok accepted
  have bounds : programHeaders bytes hdr = .ok () := by
    have entsize : hdr.phentsize * hdr.phnum < wordBound := by have := table.word; omega
    exact programHeaders_ok.mpr ⟨table.word, entsize, table.inside⟩
  simp only [loadSegments, sub_of_le order, ok_bind, bounds]
  rw [forHeaders_table table, foldlM_loadSegment _ checked]
  simp [loadOps]

/-- An accepted image loads without a panic: every header is visited, file reads stay in the file,
writes stay in the slot, and the slot then holds the image, last segment first. -/
theorem accepted_image_loads (bytes : Bytes) (slot : AppSlot) (hdr : ElfHdr)
    (order : slot.base ≤ slot.end_) (accepted : validateElfForSlot bytes slot = .ok hdr) :
    ∃ loaded, loadSegments bytes slot hdr = .ok loaded ∧
      loaded.headers = headerTable bytes hdr ∧ loaded.headers.length = hdr.phnum ∧
      (∀ op ∈ loaded.ops, op.ReadsInside bytes ∧
        ∀ a, op.Writes a → slot.base ≤ a ∧ a < slot.end_) ∧
      ∀ mem a, applyAll bytes loaded.ops mem a =
        if slot.base ≤ a ∧ a < slot.end_ then imageByte bytes (headerTable bytes hdr) a
        else mem a := by
  have checked := (validate_ok accepted).2
  have count : (headerTable bytes hdr).length = hdr.phnum := by simp [headerTable]
  exact ⟨_, loadSegments_eq order accepted, rfl, count, loadOps_inside order checked,
    applyAll_loadOps order checked⟩

/-- An image of one segment: three file bytes at 0x1000 and two zero bytes behind them. -/
def tinyImage : Bytes :=
  elfMag ++ [2, 1] ++ List.replicate 18 0 ++ [0, 0x10, 0, 0, 0, 0, 0, 0] ++
    [64, 0, 0, 0, 0, 0, 0, 0] ++ List.replicate 14 0 ++ [56, 0, 1, 0] ++ List.replicate 6 0 ++
    [1, 0, 0, 0, 5, 0, 0, 0] ++ [120, 0, 0, 0, 0, 0, 0, 0] ++ [0, 0x10, 0, 0, 0, 0, 0, 0] ++
    List.replicate 8 0 ++ [3, 0, 0, 0, 0, 0, 0, 0] ++ [5, 0, 0, 0, 0, 0, 0, 0] ++
    List.replicate 8 0 ++ [0x61, 0x62, 0x63]

theorem accepted_image_loads_tiny :
    ∃ loaded, loadSegments tinyImage ⟨0x1000, 0x2000⟩ ⟨0x1000, 64, 56, 1⟩ = .ok loaded ∧
      ∀ mem, applyAll tinyImage loaded.ops mem 0x1002 = 0x63 ∧
        applyAll tinyImage loaded.ops mem 0x1003 = 0 ∧
        applyAll tinyImage loaded.ops mem 0x2000 = mem 0x2000 := by
  obtain ⟨loaded, loads, -, -, -, image⟩ :=
    accepted_image_loads tinyImage ⟨0x1000, 0x2000⟩ ⟨0x1000, 64, 56, 1⟩ (by decide)
      (by decide +kernel)
  refine ⟨loaded, loads, fun mem => ?_⟩
  rw [image, image, image, if_pos (by decide), if_pos (by decide), if_neg (by decide)]
  exact ⟨by decide +kernel, by decide +kernel, rfl⟩

/-! ### Entering a slot -/

theorem parseElfHeader_ne_panic (bytes : Bytes) : parseElfHeader bytes ≠ .panic := by
  rw [parseElfHeader]
  by_cases small : bytes.length < elf64EhdrSize
  · simp [errIf, small]
  · -- The magic, the class and the encoding stand in the 64 bytes of the header
    have size : 64 ≤ bytes.length := Nat.not_lt.mp small
    have magic : (slice bytes 0 4 : Outcome String Bytes) = .ok _ :=
      slice_of_le (Nat.zero_le _) (by omega)
    have class_ : (index bytes eiClass : Outcome String UInt8) = .ok _ :=
      index_of_lt (by unfold eiClass; omega)
    have data : (index bytes eiData : Outcome String UInt8) = .ok _ :=
      index_of_lt (by unfold eiData; omega)
    have read (width off : Nat) : readLe width bytes off ≠ .panic :=
      bind_ne_panic (okOr_ne_panic _ _) fun _ _ => bind_ne_panic (okOr_ne_panic _ _) fun _ _ => by simp
    rw [magic, class_, data]
    refine bind_ne_panic (errIf_ne_panic _ _) fun _ _ => bind_ne_panic (by simp) fun _ _ =>
      bind_ne_panic (errIf_ne_panic _ _) fun _ _ => bind_ne_panic (by simp) fun _ _ =>
      bind_ne_panic (errIf_ne_panic _ _) fun _ _ => bind_ne_panic (by simp) fun _ _ =>
      bind_ne_panic (errIf_ne_panic _ _) fun _ _ => ?_
    exact bind_ne_panic (read _ _) fun _ _ => bind_ne_panic (read _ _) fun _ _ =>
      bind_ne_panic (read _ _) fun _ _ => bind_ne_panic (read _ _) fun _ _ =>
      bind_ne_panic (errIf_ne_panic _ _) fun _ _ => by simp

theorem validateSegment_ne_panic (bytes : Bytes) (slot : AppSlot) (ph : ProgramHeader) :
    validateSegment bytes slot ph ≠ .panic := by
  rw [validateSegment]
  split
  · simp
  · exact bind_ne_panic (okOr_ne_panic _ _) fun _ _ => bind_ne_panic (errIf_ne_panic _ _) fun _ _ =>
      bind_ne_panic (okOr_ne_panic _ _) fun _ _ => bind_ne_panic (errIf_ne_panic _ _) fun _ _ =>
      errIf_ne_panic _ _

theorem foldlM_ne_panic {ε α σ : Type} {f : σ → α → Outcome ε σ} (h : ∀ s x, f s x ≠ .panic)
    (xs : List α) (s : σ) : xs.foldlM f s ≠ .panic := by
  induction xs generalizing s with
  | nil => simp
  | cons x xs ih =>
    rw [List.foldlM_cons]
    exact bind_ne_panic (h s x) fun s' _ => ih s'

theorem validateElfForSlot_ne_panic (bytes : Bytes) (slot : AppSlot) :
    validateElfForSlot bytes slot ≠ .panic := by
  apply bind_ne_panic (parseElfHeader_ne_panic bytes)
  intro hdr parsed
  have bounds_ne : programHeaders bytes hdr ≠ .panic :=
    bind_ne_panic (okOr_ne_panic _ _) fun _ _ => bind_ne_panic (okOr_ne_panic _ _) fun _ _ =>
      errIf_ne_panic _ _
  apply bind_ne_panic bounds_ne
  rintro ⟨⟩ bounds
  obtain ⟨entsize, count⟩ := parseElfHeader_ok parsed
  obtain ⟨word, -, inside⟩ := programHeaders_ok.mp bounds
  rw [forHeaders_table ⟨entsize, count, inside, word⟩]
  exact bind_ne_panic (foldlM_ne_panic (fun _ => validateSegment_ne_panic bytes slot) _ _)
    fun _ _ => by simp

/-- Whatever the image, entering a slot does not panic and writes in the slot alone. -/
theorem enterSlot_inside (bytes : Bytes) (slot : AppSlot) (args env : Bytes)
    (order : slot.base ≤ slot.end_) :
    (enterSlot bytes slot args env).2 ≠ .panic ∧
      ∀ op ∈ (enterSlot bytes slot args env).1, ∀ a, op.Writes a → slot.base ≤ a ∧ a < slot.end_ := by
  rw [enterSlot]
  split
  · simp
  next panics => exact absurd panics (validateElfForSlot_ne_panic bytes slot)
  next hdr accepted =>
    rw [loadSegments_eq order accepted]
    refine ⟨?_, fun op hop => (loadOps_inside order (validate_ok accepted).2 op hop).2⟩
    -- The three checks behind the load return an error or go on
    exact bind_ne_panic (errIf_ne_panic _ _) fun _ _ => bind_ne_panic (errIf_ne_panic _ _) fun _ _ =>
      bind_ne_panic (errIf_ne_panic _ _) fun _ _ => by simp

end Smultron.ElfLoader
