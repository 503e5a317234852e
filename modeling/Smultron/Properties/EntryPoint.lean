import Smultron.Properties.SlotSafety

/-!
# Where the loader jumps to

The loader checks every loadable segment against the slot, and of the entry address only that it is
not zero. So the jump goes into a loaded segment exactly when the image itself says so.
-/

namespace Smultron.ElfLoader

open Checked Checked.Outcome Memory Process

theorem readLe_eq_ok {width off v : Nat} {bytes : Bytes} (h : readLe width bytes off = .ok v) :
    v = field width bytes off := by
  simp only [readLe, bind_eq_ok, okOr_eq_ok, checkedAdd_eq_some] at h
  obtain ⟨_, ⟨-, rfl⟩, part, hp, h⟩ := h
  cases h
  rw [get] at hp
  split at hp
  · cases hp
    rfl
  · cases hp

/-- The entry address stands at offset 24. -/
theorem parseElfHeader_entry {bytes : Bytes} {hdr : ElfHdr} (h : parseElfHeader bytes = .ok hdr) :
    hdr.entry = field 8 bytes 24 := by
  simp only [parseElfHeader, bind_eq_ok] at h
  obtain ⟨_, -, _, -, _, -, _, -, _, -, _, -, _, -, entry, found, phoff, -, phentsize, -, phnum, -,
    _, -, h⟩ := h
  cases h
  exact readLe_eq_ok found

theorem validate_parses {bytes : Bytes} {slot : AppSlot} {hdr : ElfHdr}
    (h : validateElfForSlot bytes slot = .ok hdr) : parseElfHeader bytes = .ok hdr := by
  simp only [validateElfForSlot, bind_eq_ok] at h
  obtain ⟨hdr', parsed, _, -, _, -, h⟩ := h
  cases h
  exact parsed

/-- The jump is reached exactly when every check passes; the strings go along unchanged. -/
theorem enterSlot_eq_ok {bytes : Bytes} {slot : AppSlot} {args env : Bytes} {entered : Entry} :
    (enterSlot bytes slot args env).2 = .ok entered ↔
      ∃ hdr, validateElfForSlot bytes slot = .ok hdr ∧ slot.base ≤ slot.end_ ∧ hdr.entry ≠ 0 ∧
        args.length ≤ maxArgLen ∧ env.length ≤ maxEnvLen ∧
        entered = ⟨hdr.entry, args ++ [0], env ++ [0]⟩ := by
  rw [enterSlot]
  cases accepted : validateElfForSlot bytes slot with
  | err msg => simp
  | panic => simp
  | ok hdr =>
    by_cases order : slot.base ≤ slot.end_
    · simp only [loadSegments_eq order accepted, bind_eq_ok, errIf_eq_ok, Nat.not_lt]
      constructor
      · rintro ⟨_, entry, _, short, _, short', same⟩
        exact ⟨hdr, rfl, order, entry, short, short', (ok.inj same).symm⟩
      · rintro ⟨_, ⟨⟩, -, entry, short, short', rfl⟩
        exact ⟨(), entry, (), short, (), short', rfl⟩
    · -- A slot that ends before it starts: the subtraction panics
      have panics : loadSegments bytes slot hdr = .panic := by
        simp [loadSegments, sub, order]
      simp [panics, order]

/-- The loadable segments of an image. -/
def segments (bytes : Bytes) : List ProgramHeader :=
  match parseElfHeader bytes with
  | .ok hdr => (headerTable bytes hdr).filter (·.pType = ptLoad)
  | _ => []

/-- The address lies in a loadable segment of the image, inside the slot. -/
def InLoadedSegment (bytes : Bytes) (slot : AppSlot) (a : Nat) : Prop :=
  (∃ ph ∈ segments bytes, ph.pVaddr ≤ a ∧ a < ph.pVaddr + ph.pMemsz) ∧
    slot.base ≤ a ∧ a < slot.end_

theorem segments_inside {bytes : Bytes} {slot : AppSlot} {hdr : ElfHdr}
    (accepted : validateElfForSlot bytes slot = .ok hdr) {ph : ProgramHeader}
    (hph : ph ∈ segments bytes) : SegmentInside bytes slot ph := by
  rw [segments, validate_parses accepted] at hph
  obtain ⟨row, load⟩ := List.mem_filter.mp hph
  exact (validate_ok accepted).2 ph row (by simpa using load)

/-- The jump goes into a loaded segment exactly when there is no jump, or the entry field of the
image names an address of one of its loadable rows. -/
theorem jump_loaded_iff (bytes : Bytes) (slot : AppSlot) (args env : Bytes) :
    (∀ entered, (enterSlot bytes slot args env).2 = .ok entered →
      InLoadedSegment bytes slot entered.entry) ↔
      probeElfForSlot bytes slot = false ∨ slot.end_ < slot.base ∨ field 8 bytes 24 = 0 ∨
        maxArgLen < args.length ∨ maxEnvLen < env.length ∨
        ∃ ph ∈ segments bytes,
          ph.pVaddr ≤ field 8 bytes 24 ∧ field 8 bytes 24 < ph.pVaddr + ph.pMemsz := by
  cases accepted : validateElfForSlot bytes slot with
  | err msg =>
    apply iff_of_true _ (.inl (by rw [probeElfForSlot, accepted]))
    intro entered jumps
    obtain ⟨hdr, ok, -⟩ := enterSlot_eq_ok.mp jumps
    rw [accepted] at ok
    cases ok
  | panic => exact absurd accepted (validateElfForSlot_ne_panic bytes slot)
  | ok hdr =>
    have probed : probeElfForSlot bytes slot = true := by rw [probeElfForSlot, accepted]
    have entry : hdr.entry = field 8 bytes 24 := parseElfHeader_entry (validate_parses accepted)
    rw [probed, ← entry]
    constructor
    · intro holds
      -- Where none of the checks stops the loader it jumps, so the entry matters.
      by_contra none_
      simp only [not_or, Nat.not_lt] at none_
      obtain ⟨-, order, nonzero, short, short', outside⟩ := none_
      have jumps := enterSlot_eq_ok.mpr ⟨hdr, accepted, order, nonzero, short, short', rfl⟩
      obtain ⟨⟨ph, hph, low, high⟩, -⟩ := holds _ jumps
      exact outside ⟨ph, hph, low, high⟩
    · intro stops entered jumps
      obtain ⟨hdr', ok, order, nonzero, short, short', rfl⟩ := enterSlot_eq_ok.mp jumps
      rw [accepted] at ok
      cases ok
      rcases stops with refused | empty | zero | long | long | ⟨ph, hph, low, high⟩
      · cases refused
      · omega
      · exact absurd zero nonzero
      · omega
      · omega
      · obtain ⟨-, low', high', -, -⟩ := segments_inside accepted hph
        exact ⟨⟨ph, hph, low, high⟩, Nat.le_trans low' low, Nat.lt_of_lt_of_le high high'⟩

/-- An image without a segment is accepted, and the kernel jumps to address 1. -/
theorem bareImage_jumps_outside :
    ∃ entered, (enterSlot bareImage (slotForIndex 4) [] []).2 = .ok entered ∧
      entered.entry = 1 ∧ segments bareImage = [] ∧ ¬(slotForIndex 4).base ≤ entered.entry ∧
      ¬InLoadedSegment bareImage (slotForIndex 4) entered.entry := by
  have jumps : Entry.entry <$> (enterSlot bareImage (slotForIndex 4) [] []).2 = .ok 1 := by
    decide +kernel
  have nothing : segments bareImage = [] := by decide +kernel
  cases outcome : (enterSlot bareImage (slotForIndex 4) [] []).2 with
  | ok entered =>
    rw [outcome] at jumps
    have one : entered.entry = 1 := Outcome.ok.inj jumps
    have outside : ¬(slotForIndex 4).base ≤ entered.entry := by rw [one]; decide
    exact ⟨entered, rfl, one, nothing, outside, fun holds => outside holds.2.1⟩
  | err msg =>
    rw [outcome] at jumps
    cases jumps
  | panic =>
    rw [outcome] at jumps
    cases jumps

end Smultron.ElfLoader
