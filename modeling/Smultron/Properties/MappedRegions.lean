import Smultron.Kernel.Paging
import Smultron.Properties.FrameHandout
import Smultron.Properties.SlotSafety
import Smultron.Properties.ExecStrings

/-!
# The heap and the slots have frames of their own

The loader writes to the addresses of a slot as if they were cells of one flat memory. That they are
is the work of the boot: it maps every page of the heap and of the slots, and no frame twice.

## Main results

- `regions_mapped`: behind the boot the two regions are mapped, and each page that the boot has mapped
  has a usable frame which no other page has and which is never handed out again.
- `loads_isolated`: what the loader writes into one slot is not in the memory of another.
- `regions_fit`: with four frames for each page the boot does not fail.
-/

namespace Smultron.Paging

open Checked Checked.Outcome FrameAllocator FrameAllocator.BootInfoFrameAllocator Process

variable {VirtAddr Page PhysAddr PhysFrame Table : Type} {x86 : X86 PhysAddr PhysFrame}
  {mapper : Mapper VirtAddr Page PhysFrame Table} {m m' m'' : Space Table} {page : Page}
  {pages : List Page}

/-- What the crate's documentation says: addresses below bit 47 are canonical, a page is aligned to its
size, and a range of pages has each page between its ends once. A page that `map_to` maps was not
mapped before and has the frame afterwards; other pages are left alone, and the allocator is only
asked for frames. -/
structure Mapper.Documented (mapper : Mapper VirtAddr Page PhysFrame Table) : Prop where
  canonical : ∀ addr < 2 ^ 47, ∃ v, mapper.newAddr addr = .ok v
  contains : ∀ addr v, mapper.newAddr addr = .ok v →
    mapper.startAddress (mapper.containingAddress v) ≤ addr ∧
      addr < mapper.startAddress (mapper.containingAddress v) + frameSize
  aligned : ∀ page, frameSize ∣ mapper.startAddress page
  startAddress_injective : Function.Injective mapper.startAddress
  range : ∀ first last page, page ∈ mapper.rangeInclusive first last ↔
    mapper.startAddress first ≤ mapper.startAddress page ∧
      mapper.startAddress page ≤ mapper.startAddress last
  range_nodup : ∀ first last, (mapper.rangeInclusive first last).Nodup
  maps : ∀ table page frame flags alloc table' alloc', flags.present = true →
    mapper.mapTo table page frame flags alloc = .ok (table', alloc') →
      mapper.translatePage table page = none ∧ mapper.translatePage table' page = some frame ∧
        (∀ q, q ≠ page → mapper.translatePage table' q = mapper.translatePage table q) ∧
        alloc'.memoryMap = alloc.memoryMap ∧ alloc.next ≤ alloc'.next

/-! ### What mapping leaves -/

/-- Pages have been mapped, to frames that were handed out meanwhile. -/
structure Maps (x86 : X86 PhysAddr PhysFrame) (mapper : Mapper VirtAddr Page PhysFrame Table)
    (pages : List Page) (m m' : Space Table) : Prop where
  frames : m'.alloc.frameAddresses = m.alloc.frameAddresses
  later : m.alloc.next ≤ m'.alloc.next
  kept : ∀ q f, mapper.translatePage m.table q = some f → mapper.translatePage m'.table q = some f
  others : ∀ q, q ∉ pages → mapper.translatePage m'.table q = mapper.translatePage m.table q
  mapped : ∀ q ∈ pages, (mapper.translatePage m'.table q).isSome
  fresh : ∀ q f, mapper.translatePage m.table q = none → mapper.translatePage m'.table q = some f →
    ∃ i, m.alloc.next ≤ i ∧ i < m'.alloc.next ∧
      m.alloc.frameAddresses[i]? = some (x86.startAddress f)
  distinct : ∀ q q' f, mapper.translatePage m.table q = none → mapper.translatePage m.table q' = none →
    mapper.translatePage m'.table q = some f → mapper.translatePage m'.table q' = some f → q = q'

theorem Maps.nil (m : Space Table) : Maps x86 mapper [] m m where
  frames := rfl
  later := Nat.le_refl _
  kept _ _ h := h
  others _ _ := rfl
  mapped := by simp
  fresh q f free mapped := by rw [free] at mapped; cases mapped
  distinct q q' f free _ mapped _ := by rw [free] at mapped; cases mapped

/-- A frame that is handed out early is not handed out late. -/
theorem Maps.apart {pages' : List Page} (nodup : m.alloc.frameAddresses.Nodup)
    (h : Maps x86 mapper pages m m') (h' : Maps x86 mapper pages' m' m'') {q q' : Page} {f : PhysFrame}
    (free : mapper.translatePage m.table q = none) (early : mapper.translatePage m'.table q = some f)
    (between : mapper.translatePage m'.table q' = none) :
    mapper.translatePage m''.table q' ≠ some f := by
  intro late
  obtain ⟨i, -, high, at_⟩ := h.fresh q f free early
  obtain ⟨j, low, -, at'⟩ := h'.fresh q' f between late
  rw [h.frames, ← at_] at at'
  have inside := (List.getElem?_eq_some_iff.mp at_).1
  have same := (List.getElem?_inj inside nodup).mp at'.symm
  omega

theorem Maps.append {pages' : List Page} (nodup : m.alloc.frameAddresses.Nodup)
    (h : Maps x86 mapper pages m m') (h' : Maps x86 mapper pages' m' m'') :
    Maps x86 mapper (pages ++ pages') m m'' where
  frames := h'.frames.trans h.frames
  later := h.later.trans h'.later
  kept q f old := h'.kept q f (h.kept q f old)
  others q out := by
    rw [List.mem_append, not_or] at out
    rw [h'.others q out.2, h.others q out.1]
  mapped q among := by
    rcases List.mem_append.mp among with first | second
    · obtain ⟨f, mapped⟩ := Option.isSome_iff_exists.mp (h.mapped q first)
      rw [h'.kept q f mapped]
      rfl
    · exact h'.mapped q second
  fresh q f free mapped := by
    cases between : mapper.translatePage m'.table q with
    | none =>
      obtain ⟨i, low, high, at_⟩ := h'.fresh q f between mapped
      exact ⟨i, h.later.trans low, high, h.frames ▸ at_⟩
    | some g =>
      obtain rfl : g = f := Option.some.inj ((h'.kept q g between).symm.trans mapped)
      obtain ⟨i, low, high, at_⟩ := h.fresh q g free between
      exact ⟨i, low, Nat.lt_of_lt_of_le high h'.later, at_⟩
  distinct q q' f free free' mapped mapped' := by
    cases between : mapper.translatePage m'.table q with
    | none =>
      cases between' : mapper.translatePage m'.table q' with
      | none => exact h'.distinct q q' f between between' mapped mapped'
      | some g =>
        obtain rfl : g = f := Option.some.inj ((h'.kept q' g between').symm.trans mapped')
        exact absurd mapped (h.apart nodup h' free' between' between)
    | some g =>
      obtain rfl : g = f := Option.some.inj ((h'.kept q g between).symm.trans mapped)
      cases between' : mapper.translatePage m'.table q' with
      | none => exact absurd mapped' (h.apart nodup h' free between between')
      | some g' =>
        obtain rfl : g' = g := Option.some.inj ((h'.kept q' g' between').symm.trans mapped')
        exact h.distinct q q' g' free free' between between'

/-- A page that is mapped already. -/
theorem Maps.skip (m : Space Table) (mapped : (mapper.translatePage m.table page).isSome) :
    Maps x86 mapper [page] m m where
  frames := rfl
  later := Nat.le_refl _
  kept _ _ h := h
  others _ _ := rfl
  mapped := by simpa using mapped
  fresh q f free mapped := by rw [free] at mapped; cases mapped
  distinct q q' f free _ mapped _ := by rw [free] at mapped; cases mapped

/-! ### The loops -/

section Loops

variable (docs : x86.Documented) (crate : mapper.Documented)

theorem returning_eq_ok {ε α : Type} {x : Outcome Empty α} {a : α} :
    (returning x : Outcome ε α) = .ok a ↔ x = .ok a := by
  cases x with
  | ok b => simp [returning]
  | err e => cases e
  | panic => simp [returning]

include docs crate

theorem mapPage_maps (aligned : ∀ addr ∈ m.alloc.frameAddresses, frameSize ∣ addr)
    (h : mapPage x86 mapper m page = .ok m') : Maps x86 mapper [page] m m' := by
  obtain ⟨⟨frame, alloc⟩, allocated, h⟩ := bind_eq_ok.mp h
  obtain ⟨frame, found, h⟩ := bind_eq_ok.mp h
  obtain ⟨⟨table, alloc'⟩, done, h⟩ := bind_eq_ok.mp h
  obtain rfl := Outcome.ok.inj h
  obtain rfl := okOr_eq_ok.mp found
  obtain ⟨address, rfl⟩ := allocateFrame_ok docs aligned (returning_eq_ok.mp allocated)
  obtain ⟨free, mapped, others, map, later⟩ := crate.maps _ _ _ _ _ _ _ rfl done
  have one : ∀ q f, mapper.translatePage m.table q = none → mapper.translatePage table q = some f →
      q = page ∧ f = frame := by
    intro q f free' mapped'
    by_cases same : q = page
    · subst same
      exact ⟨rfl, Option.some.inj (mapped'.symm.trans mapped)⟩
    · rw [others q same, free'] at mapped'
      cases mapped'
  refine ⟨?_, ?_, ?_, ?_, ?_, ?_, ?_⟩
  · rw [frameAddresses, map, frameAddresses]
  · exact Nat.le_of_succ_le later
  · intro q f old
    by_cases same : q = page
    · subst same
      rw [free] at old
      cases old
    · rw [others q same, old]
  · intro q out
    exact others q (by simpa using out)
  · simp [mapped]
  · intro q f free' mapped'
    obtain ⟨-, rfl⟩ := one q f free' mapped'
    exact ⟨m.alloc.next, Nat.le_refl _, later, address.symm⟩
  · intro q q' f free' free'' mapped' mapped''
    exact (one q f free' mapped').1.trans (one q' f free'' mapped'').1.symm

end Loops

/-- A loop whose body maps its page maps them all. -/
theorem foldlM_maps {body : Space Table → Page → Outcome (MapToError PhysFrame) (Space Table)}
    (step : ∀ m page m', (∀ addr ∈ m.alloc.frameAddresses, frameSize ∣ addr) →
      body m page = .ok m' → Maps x86 mapper [page] m m')
    (aligned : ∀ addr ∈ m.alloc.frameAddresses, frameSize ∣ addr)
    (nodup : m.alloc.frameAddresses.Nodup) (h : pages.foldlM body m = .ok m') :
    Maps x86 mapper pages m m' := by
  induction pages generalizing m with
  | nil =>
    obtain rfl := Outcome.ok.inj h
    exact .nil m
  | cons page pages ih =>
    rw [List.foldlM_cons] at h
    obtain ⟨m₁, mapped, h⟩ := bind_eq_ok.mp h
    have first := step m page m₁ aligned mapped
    have later := ih (first.frames ▸ aligned) (first.frames ▸ nodup) h
    simpa using first.append nodup later


/-! ### The regions -/

/-- The page has an address between the two. -/
def Mapper.Meets (mapper : Mapper VirtAddr Page PhysFrame Table) (lo hi : Nat) (page : Page) : Prop :=
  mapper.startAddress page < hi ∧ lo < mapper.startAddress page + frameSize

/-- The page has an address of the heap or of a slot. -/
def Mapper.MeetsRegions (mapper : Mapper VirtAddr Page PhysFrame Table) (page : Page) : Prop :=
  mapper.Meets heapStart (heapStart + heapSize) page ∨
    ∃ slot < maxProcessSlots, mapper.Meets (slotForIndex slot).base (slotForIndex slot).end_ page

theorem range_meets (crate : mapper.Documented) {lo hi : Nat} {first last : VirtAddr}
    (start : mapper.newAddr lo = .ok first) (stop : mapper.newAddr (hi - 1) = .ok last)
    (some_ : 0 < hi) : page ∈ mapper.rangeInclusive (mapper.containingAddress first)
      (mapper.containingAddress last) ↔ mapper.Meets lo hi page := by
  obtain ⟨low, high⟩ := crate.contains lo first start
  obtain ⟨low', high'⟩ := crate.contains (hi - 1) last stop
  obtain ⟨i, hi_⟩ := crate.aligned page
  obtain ⟨j, hj⟩ := crate.aligned (mapper.containingAddress first)
  obtain ⟨l, hl⟩ := crate.aligned (mapper.containingAddress last)
  rw [crate.range, Mapper.Meets]
  rw [frameSize] at *
  omega

section Regions

variable (docs : x86.Documented) (crate : mapper.Documented)
  (aligned : ∀ addr ∈ m.alloc.frameAddresses, frameSize ∣ addr)
  (nodup : m.alloc.frameAddresses.Nodup)

include docs crate aligned nodup

theorem initHeap_maps (h : initHeap x86 mapper m = .ok m') :
    ∃ pages, (∀ page, page ∈ pages ↔ mapper.Meets heapStart (heapStart + heapSize) page) ∧
      Maps x86 mapper pages m m' := by
  obtain ⟨first, start, h⟩ := bind_eq_ok.mp h
  obtain ⟨last, stop, h⟩ := bind_eq_ok.mp h
  refine ⟨_, fun page => range_meets crate (returning_eq_ok.mp start) (returning_eq_ok.mp stop)
    (by decide), foldlM_maps ?_ aligned nodup h⟩
  exact fun m page m' aligned mapped => mapPage_maps docs crate aligned mapped

theorem mapRange_maps {base size : Nat} (some_ : 0 < size)
    (h : mapRange x86 mapper base size m = .ok m') :
    ∃ pages, (∀ page, page ∈ pages ↔ mapper.Meets base (base + size) page) ∧
      Maps x86 mapper pages m m' := by
  obtain ⟨first, start, h⟩ := bind_eq_ok.mp h
  obtain ⟨sum, total, h⟩ := bind_eq_ok.mp h
  obtain ⟨less, minus, h⟩ := bind_eq_ok.mp h
  obtain ⟨last, stop, looped⟩ := bind_eq_ok.mp h
  obtain rfl : base + size = sum := by
    rw [add] at total
    split at total
    · exact Outcome.ok.inj total
    · cases total
  obtain rfl : base + size - 1 = less := by
    rw [sub_of_le (by omega)] at minus
    exact Outcome.ok.inj minus
  refine ⟨_, fun page => range_meets crate (returning_eq_ok.mp start) (returning_eq_ok.mp stop)
    (by omega), foldlM_maps ?_ aligned nodup looped⟩
  intro m page m' aligned mapped
  rw [mapMissing] at mapped
  split at mapped
  next already =>
    obtain rfl := Outcome.ok.inj mapped
    exact .skip m already
  · exact mapPage_maps docs crate aligned mapped

theorem execRegions_maps {slots : List Nat}
    (h : slots.foldlM (fun m slot => mapRange x86 mapper (slotBase slot) processSlotSize m) m =
      .ok m') :
    ∃ pages, (∀ page, page ∈ pages ↔
        ∃ slot ∈ slots, mapper.Meets (slotBase slot) (slotBase slot + processSlotSize) page) ∧
      Maps x86 mapper pages m m' := by
  induction slots generalizing m with
  | nil =>
    obtain rfl := Outcome.ok.inj h
    exact ⟨[], by simp, .nil m⟩
  | cons slot slots ih =>
    rw [List.foldlM_cons] at h
    obtain ⟨m₁, mapped, h⟩ := bind_eq_ok.mp h
    obtain ⟨first, meets, maps⟩ := mapRange_maps docs crate aligned nodup (by decide) mapped
    obtain ⟨later, meets', maps'⟩ := ih (maps.frames ▸ aligned) (maps.frames ▸ nodup) h
    exact ⟨first ++ later, by simp [meets, meets'], maps.append nodup maps'⟩

theorem mapRegions_maps (h : mapRegions x86 mapper m = .ok m') :
    ∃ pages, (∀ page, page ∈ pages ↔ mapper.MeetsRegions page) ∧ Maps x86 mapper pages m m' := by
  obtain ⟨m₁, heap, h⟩ := bind_eq_ok.mp h
  obtain ⟨first, meets, maps⟩ := initHeap_maps docs crate aligned nodup heap
  obtain ⟨later, meets', maps'⟩ :=
    execRegions_maps docs crate (maps.frames ▸ aligned) (maps.frames ▸ nodup) h
  refine ⟨first ++ later, fun page => ?_, maps.append nodup maps'⟩
  rw [List.mem_append, meets, meets']
  simp [Mapper.MeetsRegions, slotForIndex]

end Regions

/-! ### Addresses -/

/-- An address of the heap or of a slot. -/
def InRegions (addr : Nat) : Prop :=
  (heapStart ≤ addr ∧ addr < heapStart + heapSize) ∨
    ∃ slot < maxProcessSlots, (slotForIndex slot).base ≤ addr ∧ addr < (slotForIndex slot).end_

/-- The address lies in the page. -/
def Mapper.Contains (mapper : Mapper VirtAddr Page PhysFrame Table) (page : Page) (addr : Nat) : Prop :=
  mapper.startAddress page ≤ addr ∧ addr < mapper.startAddress page + frameSize

/-- The address stands for the byte `phys` of the physical memory. -/
def Reaches (x86 : X86 PhysAddr PhysFrame) (mapper : Mapper VirtAddr Page PhysFrame Table)
    (table : Table) (addr phys : Nat) : Prop :=
  ∃ page frame, mapper.Contains page addr ∧ mapper.translatePage table page = some frame ∧
    phys = x86.startAddress frame + (addr - mapper.startAddress page)

theorem inRegions_lt {addr : Nat} (h : InRegions addr) : addr < 2 ^ 47 := by
  rcases h with ⟨-, high⟩ | ⟨slot, few, -, high⟩
  · exact Nat.lt_trans high (by decide)
  · simp only [slotForIndex, slotBase, processSlotBase, processSlotSize, maxProcessSlots] at *
    omega

/-- A page meets the regions when it has one of their addresses. -/
theorem meetsRegions_iff (page : Page) :
    mapper.MeetsRegions page ↔ ∃ addr, InRegions addr ∧ mapper.Contains page addr := by
  have between (lo hi : Nat) (some_ : lo < hi) : mapper.Meets lo hi page ↔
      ∃ addr, (lo ≤ addr ∧ addr < hi) ∧ mapper.Contains page addr := by
    simp only [Mapper.Meets, Mapper.Contains, frameSize]
    constructor
    · rintro ⟨low, high⟩
      exact ⟨max lo (mapper.startAddress page), by omega⟩
    · rintro ⟨addr, inside, contains⟩
      omega
  have wide (slot : Nat) : (slotForIndex slot).base < (slotForIndex slot).end_ :=
    Nat.lt_add_of_pos_right (by decide)
  rw [Mapper.MeetsRegions, between _ _ (by decide)]
  simp only [between _ _ (wide _), InRegions]
  constructor
  · rintro (⟨addr, inside, contains⟩ | ⟨slot, few, addr, inside, contains⟩)
    · exact ⟨addr, .inl inside, contains⟩
    · exact ⟨addr, .inr ⟨slot, few, inside⟩, contains⟩
  · rintro ⟨addr, inside | ⟨slot, few, inside⟩, contains⟩
    · exact .inl ⟨addr, inside, contains⟩
    · exact .inr ⟨slot, few, addr, inside, contains⟩

/-- Frames of different pages have different bytes. -/
theorem reaches_injective (docs : x86.Documented) {table : Table}
    (distinct : ∀ q q' f, mapper.translatePage table q = some f →
      mapper.translatePage table q' = some f → (∃ addr, InRegions addr ∧ mapper.Contains q addr) →
      (∃ addr, InRegions addr ∧ mapper.Contains q' addr) → q = q')
    {a b phys : Nat} (ha : InRegions a) (hb : InRegions b) (first : Reaches x86 mapper table a phys)
    (second : Reaches x86 mapper table b phys) : a = b := by
  obtain ⟨page, frame, inside, mapped, rfl⟩ := first
  obtain ⟨page', frame', inside', mapped', same⟩ := second
  obtain rfl : frame = frame' := by
    apply docs.startAddress_injective
    obtain ⟨i, hi⟩ := docs.aligned frame
    obtain ⟨j, hj⟩ := docs.aligned frame'
    simp only [Mapper.Contains, frameSize] at *
    omega
  obtain rfl := distinct page page' frame mapped mapped' ⟨a, ha, inside⟩ ⟨b, hb, inside'⟩
  obtain ⟨low, -⟩ := inside
  obtain ⟨low', -⟩ := inside'
  omega

section Regions

variable {map : List MemoryRegion} {table : Table}
  (maps : Maps x86 mapper pages ⟨table, init map⟩ m)

include maps

theorem Maps.reaches (crate : mapper.Documented)
    (among : ∀ page, page ∈ pages ↔ ∃ addr, InRegions addr ∧ mapper.Contains page addr) {addr : Nat}
    (inside : InRegions addr) : ∃ phys, Reaches x86 mapper m.table addr phys := by
  obtain ⟨v, new⟩ := crate.canonical addr (inRegions_lt inside)
  have contains : mapper.Contains (mapper.containingAddress v) addr := crate.contains addr v new
  obtain ⟨f, mapped⟩ := Option.isSome_iff_exists.mp
    (maps.mapped _ ((among _).mpr ⟨addr, inside, contains⟩))
  exact ⟨_, _, f, contains, mapped, rfl⟩

theorem Maps.flat (docs : x86.Documented)
    (free : ∀ addr, InRegions addr → ∀ phys, ¬Reaches x86 mapper table addr phys) {a b phys : Nat}
    (ha : InRegions a) (hb : InRegions b) (first : Reaches x86 mapper m.table a phys)
    (second : Reaches x86 mapper m.table b phys) : a = b := by
  have new (q : Page) (hq : ∃ addr, InRegions addr ∧ mapper.Contains q addr) :
      mapper.translatePage table q = none := by
    obtain ⟨addr, inside, contains⟩ := hq
    by_contra old
    obtain ⟨g, old⟩ := Option.ne_none_iff_exists'.mp old
    exact free addr inside _ ⟨q, g, contains, old, rfl⟩
  exact reaches_injective docs (fun q q' f mapped mapped' hq hq' =>
    maps.distinct q q' f (new q hq) (new q' hq') mapped mapped') ha hb first second

end Regions

/-! ### Enough frames -/

/-- What the documentation says of success: a page that is not mapped and does not lie in a huge page is
mapped, with three new tables at most, and no huge page is made. -/
def Mapper.Succeeds (mapper : Mapper VirtAddr Page PhysFrame Table) (huge : Table → Page → Prop) : Prop :=
  ∀ table page frame flags alloc, flags.present = true → mapper.translatePage table page = none →
    ¬huge table page → (∀ addr ∈ alloc.frameAddresses, addr < 2 ^ 52) →
    alloc.next + 3 ≤ alloc.frameAddresses.length → alloc.next + 3 < 2 ^ 64 →
      ∃ table' alloc', mapper.mapTo table page frame flags alloc = .ok (table', alloc') ∧
        alloc'.next ≤ alloc.next + 3 ∧ ∀ q, huge table' q → huge table q

variable {huge : Table → Page → Prop} {n : Nat}

/-- Four frames at most have gone for each of `n` pages. -/
structure Uses (huge : Table → Page → Prop) (n : Nat) (m m' : Space Table) : Prop where
  frames : m'.alloc.frameAddresses = m.alloc.frameAddresses
  next : m'.alloc.next ≤ m.alloc.next + 4 * n
  huge : ∀ q, huge m'.table q → huge m.table q

theorem Uses.trans {k : Nat} (h : Uses huge n m m') (h' : Uses huge k m' m'') :
    Uses huge (n + k) m m'' where
  frames := h'.frames.trans h.frames
  next := by
    have := h.next
    have := h'.next
    omega
  huge q large := h.huge q (h'.huge q large)

/-- There are four frames for each of `n` pages. -/
structure Room (n : Nat) (m : Space Table) : Prop where
  physical : ∀ addr ∈ m.alloc.frameAddresses, addr < 2 ^ 52
  frames : m.alloc.next + 4 * n ≤ m.alloc.frameAddresses.length
  counts : m.alloc.next + 4 * n < 2 ^ 64

theorem Room.after {k : Nat} (h : Room (n + k) m) (used : Uses huge n m m') : Room k m' where
  physical := used.frames ▸ h.physical
  frames := by
    have := used.next
    have := h.frames
    rw [used.frames]
    omega
  counts := by
    have := used.next
    have := h.counts
    omega

theorem Room.less {k : Nat} (h : Room n m) (fewer : k ≤ n) : Room k m where
  physical := h.physical
  frames := Nat.le_trans (by omega) h.frames
  counts := Nat.lt_of_le_of_lt (by omega) h.counts

theorem allocateFrame_succeeds (docs : x86.Documented) (room : Room 1 m) :
    ∃ frame, m.alloc.allocateFrame x86 = .ok (some frame, { m.alloc with next := m.alloc.next + 1 }) := by
  obtain ⟨physical, frames, counts⟩ := room
  have items : ∀ item ∈ m.alloc.usableFrames x86, ∃ frame, item = .ok frame := by
    intro item among
    obtain ⟨addr, member, rfl⟩ := List.mem_map.mp among
    obtain ⟨a, new⟩ := docs.physical addr (physical addr member)
    exact ⟨x86.containingAddress a, by rw [new]; rfl⟩
  obtain ⟨frame, taken⟩ := nth_returns items m.alloc.next
  have counted : (add m.alloc.next 1 : Outcome Empty Nat) = .ok (m.alloc.next + 1) :=
    add_of_lt (show m.alloc.next + 1 < 2 ^ 64 by omega)
  cases frame with
  | none =>
    -- The counter is below the number of frames
    have past := List.getElem?_eq_none_iff.mp (nth_eq_ok taken)
    rw [usableFrames, List.length_map] at past
    omega
  | some frame =>
    refine ⟨frame, ?_⟩
    rw [allocateFrame, taken, ok_bind, counted]
    rfl

section Fits

variable (docs : x86.Documented) (crate : mapper.Documented) (succeeds : mapper.Succeeds huge)

include docs crate succeeds

theorem mapPage_fits (free : mapper.translatePage m.table page = none) (small : ¬huge m.table page)
    (room : Room 1 m) : ∃ m', mapPage x86 mapper m page = .ok m' ∧ Uses huge 1 m m' ∧
      ∀ q, q ≠ page → mapper.translatePage m'.table q = mapper.translatePage m.table q := by
  obtain ⟨frame, allocated⟩ := allocateFrame_succeeds docs room
  obtain ⟨physical, frames, counts⟩ := room
  obtain ⟨table, alloc, done, next, same⟩ := succeeds m.table page frame ⟨true, true⟩
    { m.alloc with next := m.alloc.next + 1 } rfl free small physical
    (show m.alloc.next + 1 + 3 ≤ _ by exact frames) (show m.alloc.next + 1 + 3 < _ by exact counts)
  obtain ⟨-, -, others, map, -⟩ := crate.maps _ _ _ _ _ _ _ rfl done
  refine ⟨⟨table, alloc⟩, ?_, ⟨?_, ?_, same⟩, others⟩
  · simp [mapPage, allocated, returning, done]
  · rw [frameAddresses, map, frameAddresses]
  · exact next

theorem mapMissing_fits (small : ¬huge m.table page) (room : Room 1 m) :
    ∃ m', mapMissing x86 mapper m page = .ok m' ∧ Uses huge 1 m m' := by
  rw [mapMissing]
  split
  · exact ⟨m, rfl, rfl, Nat.le_add_right .., fun _ => id⟩
  next unmapped =>
    obtain ⟨m', mapped, used, -⟩ :=
      mapPage_fits docs crate succeeds (by simpa using unmapped) small room
    exact ⟨m', mapped, used⟩

end Fits

/-- A loop whose body does not fail on the pages that are left. -/
theorem foldlM_fits {body : Space Table → Page → Outcome (MapToError PhysFrame) (Space Table)}
    {Q : Space Table → Page → Prop}
    (step : ∀ m page, Q m page → Room 1 m → ∃ m', body m page = .ok m' ∧ Uses huge 1 m m' ∧
      ∀ q, q ≠ page → Q m q → Q m' q)
    (nodup : pages.Nodup) (all : ∀ q ∈ pages, Q m q) (room : Room pages.length m) :
    ∃ m', pages.foldlM body m = .ok m' ∧ Uses huge pages.length m m' := by
  induction pages generalizing m with
  | nil => exact ⟨m, rfl, rfl, Nat.le_add_right .., fun _ => id⟩
  | cons page pages ih =>
    obtain ⟨out, nodup⟩ := List.nodup_cons.mp nodup
    obtain ⟨first, all⟩ := List.forall_mem_cons.mp all
    rw [List.length_cons, Nat.add_comm] at room
    obtain ⟨m₁, mapped, used, kept⟩ := step m page first (room.less (Nat.le_add_right ..))
    obtain ⟨m', ended, used'⟩ := ih nodup
      (fun q among => kept q (fun same => out (same ▸ among)) (all q among)) (room.after used)
    refine ⟨m', by rw [List.foldlM_cons, mapped, ok_bind, ended], ?_⟩
    rw [List.length_cons, Nat.add_comm]
    exact used.trans used'

/-- Pages of a range from border to border, each once. -/
theorem length_range (crate : mapper.Documented) {lo hi : Nat} {first last : VirtAddr}
    (start : mapper.newAddr lo = .ok first) (stop : mapper.newAddr (hi - 1) = .ok last)
    (some_ : 0 < hi) (border : frameSize ∣ lo) :
    (mapper.rangeInclusive (mapper.containingAddress first)
      (mapper.containingAddress last)).length ≤ (hi - lo + (frameSize - 1)) / frameSize := by
  have distinct := (crate.range_nodup (mapper.containingAddress first)
    (mapper.containingAddress last)).map crate.startAddress_injective
  have inside : (mapper.rangeInclusive (mapper.containingAddress first)
      (mapper.containingAddress last)).map mapper.startAddress ⊆ stepBy lo hi frameSize := by
    intro addr among
    obtain ⟨page, member, rfl⟩ := List.mem_map.mp among
    obtain ⟨high, low⟩ := (range_meets crate start stop some_).mp member
    obtain ⟨i, hi_⟩ := crate.aligned page
    obtain ⟨j, hj⟩ := border
    rw [mem_stepBy (by decide)]
    rw [frameSize] at *
    exact ⟨by omega, high, i - j, by omega⟩
  simpa [stepBy] using (distinct.subperm inside).length_le

section Booted

variable (docs : x86.Documented) (crate : mapper.Documented) (succeeds : mapper.Succeeds huge)

include docs crate succeeds

theorem initHeap_fits
    (free : ∀ page, mapper.Meets heapStart (heapStart + heapSize) page →
      mapper.translatePage m.table page = none ∧ ¬huge m.table page)
    (room : Room 25 m) : ∃ m', initHeap x86 mapper m = .ok m' ∧ Uses huge 25 m m' := by
  obtain ⟨first, start⟩ := crate.canonical heapStart (by decide)
  obtain ⟨last, stop⟩ := crate.canonical (heapStart + heapSize - 1) (by decide)
  have few := length_range crate start stop (by decide) (by decide)
  have size : (heapStart + heapSize - heapStart + (frameSize - 1)) / frameSize = 25 := by decide
  rw [size] at few
  obtain ⟨m', ended, used⟩ := foldlM_fits
    (Q := fun m page => mapper.translatePage m.table page = none ∧ ¬huge m.table page)
    (fun m page ok room => by
      obtain ⟨m', mapped, used, others⟩ := mapPage_fits docs crate succeeds ok.1 ok.2 room
      exact ⟨m', mapped, used, fun q other ok => ⟨(others q other).trans ok.1,
        fun large => ok.2 (used.huge q large)⟩⟩)
    (crate.range_nodup _ _)
    (fun page among => free page ((range_meets crate start stop (by decide)).mp among))
    (room.less few)
  refine ⟨m', ?_, used.frames, Nat.le_trans used.next (by omega), used.huge⟩
  exact bind_eq_ok.mpr ⟨first, returning_eq_ok.mpr start,
    bind_eq_ok.mpr ⟨last, returning_eq_ok.mpr stop, ended⟩⟩

theorem mapRange_fits {base : Nat} (low : base + processSlotSize < 2 ^ 47)
    (border : frameSize ∣ base)
    (small : ∀ page, mapper.Meets base (base + processSlotSize) page → ¬huge m.table page)
    (room : Room 256 m) :
    ∃ m', mapRange x86 mapper base processSlotSize m = .ok m' ∧ Uses huge 256 m m' := by
  have size : 0 < processSlotSize := by decide
  obtain ⟨first, start⟩ := crate.canonical base (by omega)
  obtain ⟨last, stop⟩ := crate.canonical (base + processSlotSize - 1) (by omega)
  have few := length_range crate start stop (by omega) border
  have pages : (base + processSlotSize - base + (frameSize - 1)) / frameSize = 256 := by
    rw [Nat.add_sub_cancel_left]
    decide
  rw [pages] at few
  obtain ⟨m', ended, used⟩ := foldlM_fits (Q := fun m page => ¬huge m.table page)
    (fun m page ok room => by
      obtain ⟨m', mapped, used⟩ := mapMissing_fits docs crate succeeds ok room
      exact ⟨m', mapped, used, fun q _ ok large => ok (used.huge q large)⟩)
    (crate.range_nodup _ _)
    (fun page among => small page ((range_meets crate start stop (by omega)).mp among))
    (room.less few)
  refine ⟨m', ?_, used.frames, Nat.le_trans used.next (by omega), used.huge⟩
  have total : (add base processSlotSize : Outcome (MapToError PhysFrame) Nat) =
      .ok (base + processSlotSize) := add_of_lt (Nat.lt_trans low (by decide))
  have less : (sub (base + processSlotSize) 1 : Outcome (MapToError PhysFrame) Nat) =
      .ok (base + processSlotSize - 1) := sub_of_le (by omega)
  exact bind_eq_ok.mpr ⟨first, returning_eq_ok.mpr start, bind_eq_ok.mpr ⟨_, total,
    bind_eq_ok.mpr ⟨_, less, bind_eq_ok.mpr ⟨last, returning_eq_ok.mpr stop, ended⟩⟩⟩⟩

theorem execRegions_fits {slots : List Nat} (few : ∀ slot ∈ slots, slot < maxProcessSlots)
    (small : ∀ slot ∈ slots, ∀ page,
      mapper.Meets (slotBase slot) (slotBase slot + processSlotSize) page → ¬huge m.table page)
    (room : Room (slots.length * 256) m) :
    ∃ m', slots.foldlM (fun m slot => mapRange x86 mapper (slotBase slot) processSlotSize m) m =
        .ok m' ∧ Uses huge (slots.length * 256) m m' := by
  induction slots generalizing m with
  | nil => exact ⟨m, rfl, rfl, Nat.le_add_right .., fun _ => id⟩
  | cons slot slots ih =>
    obtain ⟨low, few⟩ := List.forall_mem_cons.mp few
    obtain ⟨here, small⟩ := List.forall_mem_cons.mp small
    rw [List.length_cons, Nat.succ_mul, Nat.add_comm] at room
    have inside : slotBase slot + processSlotSize < 2 ^ 47 := by
      simp only [slotBase, processSlotBase, processSlotSize, maxProcessSlots] at *
      omega
    have border : frameSize ∣ slotBase slot := by
      rw [slotBase]
      exact Nat.dvd_add (by decide) (Nat.dvd_mul_left_of_dvd (by decide) slot)
    obtain ⟨m₁, mapped, used⟩ := mapRange_fits docs crate succeeds inside border here
      (room.less (Nat.le_add_right ..))
    obtain ⟨m', ended, used'⟩ := ih few
      (fun slot among page meets large => small slot among page meets (used.huge page large))
      (room.after used)
    refine ⟨m', by rw [List.foldlM_cons, mapped, ok_bind, ended], ?_⟩
    rw [List.length_cons, Nat.succ_mul, Nat.add_comm]
    exact used.trans used'

theorem mapRegions_fits
    (free : ∀ page, mapper.Meets heapStart (heapStart + heapSize) page →
      mapper.translatePage m.table page = none)
    (small : ∀ page addr, InRegions addr → mapper.Contains page addr → ¬huge m.table page)
    (room : Room 1817 m) : ∃ m', mapRegions x86 mapper m = .ok m' := by
  have notHuge (page : Page) (meets : mapper.MeetsRegions page) : ¬huge m.table page := by
    obtain ⟨addr, inside, contains⟩ := (meetsRegions_iff page).mp meets
    exact small page addr inside contains
  obtain ⟨m₁, heap, used⟩ := initHeap_fits docs crate succeeds
    (fun page meets => ⟨free page meets, notHuge page (.inl meets)⟩) (room.less (by decide))
  have room' : Room ((List.range maxProcessSlots).length * 256) m₁ := room.after used
  obtain ⟨m', ended, -⟩ := execRegions_fits docs crate succeeds
    (fun slot among => List.mem_range.mp among)
    (fun slot among page meets large =>
      notHuge page (.inr ⟨slot, List.mem_range.mp among, meets⟩) (used.huge page large)) room'
  exact ⟨m', bind_eq_ok.mpr ⟨m₁, heap, ended⟩⟩

end Booted

/-! ### The boot -/

/-- A load writes in its slot. -/
theorem started_inRegions {images : Vfs.Images} {pm : ProcessManager} {path args env : Bytes}
    {started : Started} (begun : startProcess images pm path args env = .ok started) :
    ∀ op ∈ started.ops, ∀ a, op.Writes a → InRegions a ∧
      (slotForIndex started.slotIdx).base ≤ a ∧ a < (slotForIndex started.slotIdx).end_ := by
  obtain ⟨spawned, ops⟩ := startProcess_eq_ok begun
  obtain ⟨-, -, unused, -⟩ := ProcessManager.spawnSlot_eq_some spawned
  have few := (List.getElem?_eq_some_iff.mp unused).1
  rw [pm.slots_length] at few
  intro op hop a writes
  rw [ops] at hop
  have inside := (ElfLoader.enterSlot_inside started.image (slotForIndex started.slotIdx) args env
    (slotForIndex_order _)).2 op hop a writes
  exact ⟨.inr ⟨_, few, inside⟩, inside⟩

/-- Behind the boot every address of the heap and of the slots is mapped. What was mapped before is as
it was, and so is every page outside. Each page that the boot has mapped has a frame of usable memory,
which no other such page has and which is never handed out again. Where the regions were not mapped
before, their addresses are cells of one flat memory. -/
theorem regions_mapped (x86 : X86 PhysAddr PhysFrame) (docs : x86.Documented)
    (mapper : Mapper VirtAddr Page PhysFrame Table) (crate : mapper.Documented)
    (map : List MemoryRegion) (aligned : ∀ r ∈ map, r.Aligned)
    (disjoint : map.Pairwise fun r s => Disjoint r.addresses s.addresses) (table : Table)
    (m : Space Table) (booted : mapRegions x86 mapper ⟨table, init map⟩ = .ok m) :
    (∀ addr, InRegions addr → ∃ phys, Reaches x86 mapper m.table addr phys) ∧
    (∀ q f, mapper.translatePage table q = some f → mapper.translatePage m.table q = some f) ∧
    (∀ q, (∀ addr, InRegions addr → ¬mapper.Contains q addr) →
      mapper.translatePage m.table q = mapper.translatePage table q) ∧
    (∀ q f, mapper.translatePage table q = none → mapper.translatePage m.table q = some f →
      (∃ r ∈ map, r.regionType = .usable ∧ r.Holds x86 f) ∧
      (∀ q', mapper.translatePage table q' = none → mapper.translatePage m.table q' = some f →
        q' = q) ∧
      ∀ n, some f ∉ answers x86 n m.alloc) ∧
    ((∀ addr, InRegions addr → ∀ phys, ¬Reaches x86 mapper table addr phys) →
      ∀ a b phys, InRegions a → InRegions b → Reaches x86 mapper m.table a phys →
        Reaches x86 mapper m.table b phys → a = b) := by
  have borders : ∀ addr ∈ (init map).frameAddresses, frameSize ∣ addr :=
    fun _ => aligned_frameAddresses aligned
  have once := nodup_frameAddresses disjoint
  obtain ⟨pages, meets, maps⟩ := mapRegions_maps (m := ⟨table, init map⟩) docs crate borders once booted
  have among (page : Page) : page ∈ pages ↔ ∃ addr, InRegions addr ∧ mapper.Contains page addr :=
    (meets page).trans (meetsRegions_iff page)
  refine ⟨fun addr inside => maps.reaches crate among inside, maps.kept, ?_, ?_,
    fun free a b phys ha hb => maps.flat docs free ha hb⟩
  · intro q outside
    refine maps.others q fun inside => ?_
    obtain ⟨addr, inside, contains⟩ := (among q).mp inside
    exact outside addr inside contains
  · intro q f free mapped
    obtain ⟨i, -, high, at_⟩ := maps.fresh q f free mapped
    refine ⟨(startAddress_mem_iff docs aligned f).mp (List.mem_of_getElem? at_),
      fun q' free' mapped' => maps.distinct q' q f free' free mapped' mapped, fun n again => ?_⟩
    -- The counter has gone past the frame
    obtain ⟨count, counted⟩ := answers_eq (n := n) docs (maps.frames ▸ borders)
    have later := List.mem_map_of_mem (f := Option.map x86.startAddress) again
    rw [counted, List.mem_map] at later
    obtain ⟨j, low, at'⟩ := later
    rw [maps.frames] at at'
    have inside := (List.getElem?_eq_some_iff.mp at_).1
    have same := (List.getElem?_inj inside once).mp (at_.trans at'.symm)
    obtain ⟨k, -, rfl⟩ := List.mem_range'.mp low
    omega

/-- What a load writes is in memory, and what is loaded into one slot is not in the memory of another:
the bytes that two loads write into different slots are different bytes of the physical memory. -/
theorem loads_isolated (x86 : X86 PhysAddr PhysFrame) (docs : x86.Documented)
    (mapper : Mapper VirtAddr Page PhysFrame Table) (crate : mapper.Documented)
    (map : List MemoryRegion) (aligned : ∀ r ∈ map, r.Aligned)
    (disjoint : map.Pairwise fun r s => Disjoint r.addresses s.addresses) (table : Table)
    (m : Space Table) (booted : mapRegions x86 mapper ⟨table, init map⟩ = .ok m)
    (free : ∀ addr, InRegions addr → ∀ phys, ¬Reaches x86 mapper table addr phys)
    (images : Vfs.Images) (pm pm' : ProcessManager) (path args env path' args' env' : Bytes)
    (started started' : Started) (begun : startProcess images pm path args env = .ok started)
    (begun' : startProcess images pm' path' args' env' = .ok started')
    (apart : started.slotIdx ≠ started'.slotIdx) :
    (∀ op ∈ started.ops, ∀ a, op.Writes a → ∃ phys, Reaches x86 mapper m.table a phys) ∧
      ∀ op ∈ started.ops, ∀ a, op.Writes a → ∀ op' ∈ started'.ops, ∀ a', op'.Writes a' →
        ∀ phys, Reaches x86 mapper m.table a phys → ¬Reaches x86 mapper m.table a' phys := by
  obtain ⟨pages, meets, maps⟩ := mapRegions_maps (m := ⟨table, init map⟩) docs crate
    (fun _ => aligned_frameAddresses aligned) (nodup_frameAddresses disjoint) booted
  have among (page : Page) : page ∈ pages ↔ ∃ addr, InRegions addr ∧ mapper.Contains page addr :=
    (meets page).trans (meetsRegions_iff page)
  refine ⟨fun op hop a writes => maps.reaches crate among (started_inRegions begun op hop a writes).1,
    fun op hop a writes op' hop' a' writes' phys first second => apart ?_⟩
  obtain ⟨inside, here⟩ := started_inRegions begun op hop a writes
  obtain ⟨inside', there⟩ := started_inRegions begun' op' hop' a' writes'
  obtain rfl := maps.flat docs free inside inside' first second
  exact slotForIndex_disjoint here there

/-- The usable memory has four frames for each page of the regions, the heap is not mapped yet, and no
huge page is in the way. -/
structure Ready (mapper : Mapper VirtAddr Page PhysFrame Table) (huge : Table → Page → Prop)
    (map : List MemoryRegion) (table : Table) : Prop where
  free : ∀ page, mapper.Meets heapStart (heapStart + heapSize) page →
    mapper.translatePage table page = none
  small : ∀ page addr, InRegions addr → mapper.Contains page addr → ¬huge table page
  physical : ∀ addr ∈ (init map).frameAddresses, addr < 2 ^ 52
  room : 4 * (25 + 7 * 256) ≤ (init map).frameAddresses.length

theorem Ready.maps {huge : Table → Page → Prop} {map : List MemoryRegion} {table : Table}
    (ready : Ready mapper huge map table) (docs : x86.Documented) (crate : mapper.Documented)
    (succeeds : mapper.Succeeds huge) : ∃ m, mapRegions x86 mapper ⟨table, init map⟩ = .ok m :=
  mapRegions_fits docs crate succeeds ready.free ready.small
    ⟨ready.physical, by simpa [init] using ready.room, by simp [init]⟩

/-- On a machine that is ready the boot does not fail. -/
theorem regions_fit (x86 : X86 PhysAddr PhysFrame) (docs : x86.Documented)
    (mapper : Mapper VirtAddr Page PhysFrame Table) (crate : mapper.Documented)
    (huge : Table → Page → Prop) (succeeds : mapper.Succeeds huge) (map : List MemoryRegion)
    (table : Table) (ready : Ready mapper huge map table) :
    ∃ m, mapRegions x86 mapper ⟨table, init map⟩ = .ok m := ready.maps docs crate succeeds

/-- Pages by their numbers, in a table without levels. -/
def pageNumbers : Mapper Nat Nat Nat (Nat → Option Nat) where
  newAddr addr := if addr < 2 ^ 47 then .ok addr else .panic
  containingAddress addr := addr / frameSize
  rangeInclusive first last := List.range' first (last + 1 - first)
  startAddress page := frameSize * page
  translatePage table page := table page
  mapTo table page frame _ alloc :=
    match table page with
    | some other => .err (.pageAlreadyMapped other)
    | none => .ok (fun q => if q = page then some frame else table q, alloc)

theorem documented_pageNumbers : pageNumbers.Documented where
  canonical addr low := ⟨addr, if_pos low⟩
  contains addr v h := by
    simp only [pageNumbers] at h ⊢
    split at h
    · obtain rfl := Outcome.ok.inj h
      rw [frameSize]
      omega
    · cases h
  aligned page := Nat.dvd_mul_right ..
  startAddress_injective page page' same := Nat.eq_of_mul_eq_mul_left (by decide) same
  range first last page := by
    simp only [pageNumbers, List.mem_range'_1, frameSize]
    omega
  range_nodup first last := List.nodup_range'
  maps table page frame flags alloc table' alloc' _ h := by
    simp only [pageNumbers] at h ⊢
    cases free : table page with
    | some other => simp [free] at h
    | none =>
      obtain ⟨rfl, rfl⟩ := by simpa [free] using h
      exact ⟨rfl, if_pos rfl, fun q other => if_neg other, rfl, Nat.le_refl _⟩

theorem succeeds_pageNumbers : pageNumbers.Succeeds fun _ _ => False := by
  intro table page frame flags alloc _ free _ _ _ _
  refine ⟨fun q => if q = page then some frame else table q, alloc, ?_, Nat.le_add_right ..,
    fun _ => id⟩
  simp only [pageNumbers] at free ⊢
  rw [free]

/-- As many frames as the regions may need. -/
def smallMemory : List MemoryRegion := [⟨0x100000, 0x100000 + 7268 * frameSize, .usable⟩]

theorem frameAddresses_smallMemory :
    (init smallMemory).frameAddresses = stepBy 0x100000 (0x100000 + 7268 * frameSize) frameSize := by
  simp [smallMemory, frameAddresses, init]

theorem room_smallMemory :
    Room 1817 (⟨fun _ => none, init smallMemory⟩ : Space (Nat → Option Nat)) where
  physical addr member := by
    rw [frameAddresses_smallMemory, mem_stepBy (by decide), frameSize] at member
    omega
  frames := by
    rw [frameAddresses_smallMemory, stepBy, List.length_range']
    decide
  counts := by decide

theorem ready_smallMemory : Ready pageNumbers (fun _ _ => False) smallMemory fun _ => none where
  free _ _ := rfl
  small _ _ _ _ := id
  physical := room_smallMemory.physical
  room := room_smallMemory.frames

theorem regions_fit_small :
    ∃ m, mapRegions frameNumbers pageNumbers ⟨fun _ => none, init smallMemory⟩ = .ok m :=
  regions_fit frameNumbers documented_frameNumbers pageNumbers documented_pageNumbers _
    succeeds_pageNumbers smallMemory (fun _ => none) ready_smallMemory

theorem regions_mapped_small :
    ∃ m, mapRegions frameNumbers pageNumbers ⟨fun _ => none, init smallMemory⟩ = .ok m ∧
      ∀ a b phys, InRegions a → InRegions b → Reaches frameNumbers pageNumbers m.table a phys →
        Reaches frameNumbers pageNumbers m.table b phys → a = b := by
  obtain ⟨m, booted⟩ := ready_smallMemory.maps documented_frameNumbers documented_pageNumbers
    succeeds_pageNumbers
  obtain ⟨-, -, -, -, flat⟩ := regions_mapped frameNumbers documented_frameNumbers pageNumbers
    documented_pageNumbers smallMemory (by simp [smallMemory, MemoryRegion.Aligned, frameSize])
    (by simp [smallMemory]) (fun _ => none) m booted
  refine ⟨m, booted, flat fun addr _ phys reached => ?_⟩
  obtain ⟨page, frame, -, mapped, -⟩ := reached
  cases mapped

/-- A load starts by clearing its slot. -/
theorem bareImage_clears : ∀ slot < maxProcessSlots,
    ElfLoader.validateElfForSlot bareImage (slotForIndex slot) = .ok ⟨1, 64, 56, 0⟩ ∧
      .fill (slotForIndex slot).base 0 processSlotSize ∈
        (ElfLoader.enterSlot bareImage (slotForIndex slot) [] []).1 := by
  decide +kernel

theorem bareImage_starts (path : Bytes) (slot : Nat)
    (bare : Vfs.readFile bareImages path = some bareImage) (at_ : slotForPath path = some slot)
    (few : slot < maxProcessSlots) :
    ∃ started, startProcess bareImages ProcessManager.new path [] [] = .ok started ∧
      started.slotIdx = slot ∧ .fill (slotForIndex slot).base 0 processSlotSize ∈ started.ops := by
  obtain ⟨valid, clears⟩ := bareImage_clears slot few
  have none_ : ([] : Bytes).length ≤ ElfLoader.maxArgLen ∧
      ([] : Bytes).length ≤ ElfLoader.maxEnvLen := by decide
  obtain ⟨started, begun, same, image, -⟩ := startProcess_enters tidy_new bare at_
    (by simp [ProcessManager.new, few]) valid (by decide) none_.1 none_.2
  exact ⟨started, begun, same, by rw [(startProcess_eq_ok begun).2, image, same]; exact clears⟩

theorem loads_isolated_cat_sed :
    ∃ m, mapRegions frameNumbers pageNumbers ⟨fun _ => none, init smallMemory⟩ = .ok m ∧
      ∃ phys, Reaches frameNumbers pageNumbers m.table (slotForIndex 4).base phys ∧
        ¬Reaches frameNumbers pageNumbers m.table (slotForIndex 6).base phys := by
  obtain ⟨m, booted⟩ := ready_smallMemory.maps documented_frameNumbers documented_pageNumbers
    succeeds_pageNumbers
  obtain ⟨cat, begun, at4, clears⟩ := bareImage_starts (str "/bin/cat") 4 (by decide +kernel)
    (by decide +kernel) (by decide)
  obtain ⟨sed, begun', at6, clears'⟩ := bareImage_starts (str "/bin/sed") 6 (by decide +kernel)
    (by decide +kernel) (by decide)
  obtain ⟨mapped, apart⟩ := loads_isolated frameNumbers documented_frameNumbers pageNumbers
    documented_pageNumbers smallMemory (by simp [smallMemory, MemoryRegion.Aligned, frameSize])
    (by simp [smallMemory]) (fun _ => none) m booted
    (fun addr _ phys reached => by obtain ⟨page, frame, -, mapped, -⟩ := reached; cases mapped)
    bareImages ProcessManager.new ProcessManager.new (str "/bin/cat") [] [] (str "/bin/sed") [] []
    cat sed begun begun' (by rw [at4, at6]; decide)
  have first (slot : Nat) : (Memory.BlockOp.fill (slotForIndex slot).base 0 processSlotSize).Writes
      (slotForIndex slot).base := by
    rw [Memory.BlockOp.writes_fill]
    exact ⟨Nat.le_refl _, Nat.lt_add_of_pos_right (by decide)⟩
  obtain ⟨phys, reached⟩ := mapped _ clears _ (first 4)
  exact ⟨m, booted, phys, reached, apart _ clears _ (first 4) _ clears' _ (first 6) phys reached⟩

end Smultron.Paging
