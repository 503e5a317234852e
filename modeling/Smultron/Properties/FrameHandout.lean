import Mathlib.Order.Interval.Set.Disjoint
import Smultron.Kernel.FrameAllocator

/-!
# Every frame is handed out once

A frame that is handed out twice would be mapped into the heap and into a program at the same time.
The addresses the allocator counts through are those of all frames of the usable regions, and none
of them comes twice when the regions do not overlap.

## Main result

- `allocator_hands_out_frames`: the answers of any number of calls hand out the frames of the usable
  regions, each once, and no call panics when the regions are physical memory.
-/

namespace Smultron.FrameAllocator

open Checked Checked.Outcome BootInfoFrameAllocator

variable {PhysAddr PhysFrame α : Type} {x86 : X86 PhysAddr PhysFrame} {map : List MemoryRegion}
  {alloc : BootInfoFrameAllocator} {n : Nat}

/-- What the crate's documentation says: an address is physical below bit 52, a frame has the size
of a page and is aligned to it, and two frames are the same when they start at the same address. -/
structure X86.Documented (x86 : X86 PhysAddr PhysFrame) : Prop where
  physical : ∀ addr < 2 ^ 52, ∃ a, x86.newAddr addr = .ok a
  contains : ∀ addr a, x86.newAddr addr = .ok a →
    x86.startAddress (x86.containingAddress a) ≤ addr ∧
      addr < x86.startAddress (x86.containingAddress a) + frameSize
  aligned : ∀ frame, frameSize ∣ x86.startAddress frame
  startAddress_injective : Function.Injective x86.startAddress

/-! ### The map -/

/-- The region starts and ends at the border of a frame. -/
def MemoryRegion.Aligned (r : MemoryRegion) : Prop :=
  frameSize ∣ r.startAddr ∧ frameSize ∣ r.endAddr

/-- The addresses of the region. -/
def MemoryRegion.addresses (r : MemoryRegion) : Set Nat := Set.Ico r.startAddr r.endAddr

/-- The whole frame lies in the region. -/
def MemoryRegion.Holds (x86 : X86 PhysAddr PhysFrame) (r : MemoryRegion) (frame : PhysFrame) : Prop :=
  r.startAddr ≤ x86.startAddress frame ∧ x86.startAddress frame + frameSize ≤ r.endAddr

theorem mem_frameAddresses {addr : Nat} : addr ∈ alloc.frameAddresses ↔
    ∃ r ∈ alloc.memoryMap, r.regionType = .usable ∧
      addr ∈ stepBy r.startAddr r.endAddr frameSize := by
  simp [frameAddresses, and_assoc]

/-- The addresses that are counted through are those of the frames of usable regions. -/
theorem startAddress_mem_iff (docs : x86.Documented) (aligned : ∀ r ∈ map, r.Aligned)
    (frame : PhysFrame) : x86.startAddress frame ∈ (init map).frameAddresses ↔
      ∃ r ∈ map, r.regionType = .usable ∧ r.Holds x86 frame := by
  rw [mem_frameAddresses]
  refine exists_congr fun r => and_congr_right fun member => and_congr_right fun _ => ?_
  obtain ⟨first, last⟩ := aligned r member
  have start := docs.aligned frame
  rw [mem_stepBy (by decide), MemoryRegion.Holds, frameSize] at *
  omega

theorem nodup_frameAddresses
    (disjoint : map.Pairwise fun r s => Disjoint r.addresses s.addresses) :
    (init map).frameAddresses.Nodup :=
  nodup_flatMap_stepBy (by decide) (disjoint.sublist List.filter_sublist)

theorem aligned_frameAddresses (aligned : ∀ r ∈ map, r.Aligned) {addr : Nat}
    (member : addr ∈ (init map).frameAddresses) : frameSize ∣ addr := by
  obtain ⟨r, among, -, stepped⟩ := mem_frameAddresses.mp member
  obtain ⟨first, -⟩ := aligned r among
  rw [mem_stepBy (by decide), frameSize] at *
  omega

/-! ### One call -/

theorem nth_eq_ok : ∀ {items : List (Outcome Empty α)} {n : Nat} {o : Option α},
    nth items n = .ok o → items[n]? = o.map .ok
  | [], n, o, h => by
    obtain rfl := Outcome.ok.inj h
    rfl
  | item :: items, 0, o, h => by
    obtain ⟨a, rfl, h⟩ := bind_eq_ok.mp h
    obtain rfl := Outcome.ok.inj h
    rfl
  | item :: items, n + 1, o, h => by
    obtain ⟨_, -, h⟩ := bind_eq_ok.mp h
    exact List.getElem?_cons_succ.trans (nth_eq_ok h)

theorem nth_returns {items : List (Outcome Empty α)} (all : ∀ item ∈ items, ∃ a, item = .ok a)
    (n : Nat) : ∃ o, nth items n = .ok o := by
  induction items generalizing n with
  | nil => exact ⟨none, rfl⟩
  | cons item items ih =>
    rw [List.forall_mem_cons] at all
    obtain ⟨⟨a, rfl⟩, later⟩ := all
    cases n with
    | zero => exact ⟨some a, rfl⟩
    | succ n => exact ih later n

/-- The frame that is handed out starts at the address the counter says. -/
theorem allocateFrame_ok (docs : x86.Documented)
    (aligned : ∀ addr ∈ alloc.frameAddresses, frameSize ∣ addr) {frame : Option PhysFrame}
    {alloc' : BootInfoFrameAllocator} (h : alloc.allocateFrame x86 = .ok (frame, alloc')) :
    frame.map x86.startAddress = alloc.frameAddresses[alloc.next]? ∧
      alloc' = { alloc with next := alloc.next + 1 } := by
  obtain ⟨o, taken, h⟩ := bind_eq_ok.mp h
  obtain ⟨next, counted, h⟩ := bind_eq_ok.mp h
  obtain ⟨rfl, rfl⟩ := Prod.mk.inj (Outcome.ok.inj h)
  constructor
  · have item := nth_eq_ok taken
    rw [usableFrames, List.getElem?_map] at item
    cases o with
    | none => exact (Option.map_eq_none_iff.mp item).symm
    | some frame =>
      obtain ⟨addr, at_, same⟩ := Option.map_eq_some_iff.mp item
      obtain ⟨a, physical, same⟩ := bind_eq_ok.mp same
      obtain rfl := Outcome.ok.inj same
      -- A frame that contains an aligned address starts there
      have border := aligned addr (List.mem_of_getElem? at_)
      have start := docs.aligned (x86.containingAddress a)
      have inside := docs.contains addr a physical
      rw [at_, Option.map_some]
      congr 1
      rw [frameSize] at *
      omega
  · rw [add] at counted
    split at counted
    · rw [← Outcome.ok.inj counted]
    · cases counted

/-! ### Any number of calls -/

/-- The answers are those of the counter. -/
theorem answers_eq (docs : x86.Documented)
    (aligned : ∀ addr ∈ alloc.frameAddresses, frameSize ∣ addr) : ∃ m,
    (answers x86 n alloc).map (Option.map x86.startAddress) =
      (List.range' alloc.next m).map fun i => alloc.frameAddresses[i]? := by
  induction n generalizing alloc with
  | zero => exact ⟨0, rfl⟩
  | succ n ih =>
    rw [answers]
    split
    next frame alloc' returned =>
      obtain ⟨address, rfl⟩ := allocateFrame_ok docs aligned returned
      obtain ⟨m, later⟩ := @ih { alloc with next := alloc.next + 1 } aligned
      refine ⟨m + 1, ?_⟩
      rw [List.map_cons, later, address, List.range'_succ, List.map_cons]
      rfl
    · exact ⟨0, rfl⟩

/-- No call panics as long as the addresses are physical and the counter stays in its word. -/
theorem length_answers (docs : x86.Documented) (physical : ∀ addr ∈ alloc.frameAddresses, addr < 2 ^ 52)
    (few : alloc.next + n < 2 ^ 64) : (answers x86 n alloc).length = n := by
  induction n generalizing alloc with
  | zero => rfl
  | succ n ih =>
    have items : ∀ item ∈ alloc.usableFrames x86, ∃ frame, item = .ok frame := by
      intro item among
      obtain ⟨addr, member, rfl⟩ := List.mem_map.mp among
      obtain ⟨a, new⟩ := docs.physical addr (physical addr member)
      exact ⟨x86.containingAddress a, by rw [new]; rfl⟩
    obtain ⟨frame, taken⟩ := nth_returns items alloc.next
    have counted : (add alloc.next 1 : Outcome Empty Nat) = .ok (alloc.next + 1) :=
      add_of_lt (show alloc.next + 1 < 2 ^ 64 by omega)
    have returned : alloc.allocateFrame x86 = .ok (frame, { alloc with next := alloc.next + 1 }) := by
      rw [allocateFrame, taken, ok_bind, counted]
      rfl
    rw [answers, returned]
    exact congrArg Nat.succ (@ih { alloc with next := alloc.next + 1 } physical
      (show alloc.next + 1 + n < 2 ^ 64 by omega))

/-- Calls below 2^64 hand out the frames that lie in a usable region, each of them once, all of them
before the first refusal, and refuse from then on. All of the calls return when the usable regions
lie in physical memory; otherwise this is said of the calls before the panic. -/
theorem allocator_hands_out_frames (x86 : X86 PhysAddr PhysFrame) (docs : x86.Documented)
    (map : List MemoryRegion) (aligned : ∀ r ∈ map, r.Aligned)
    (disjoint : map.Pairwise fun r s => Disjoint r.addresses s.addresses) (n : Nat)
    (few : n < 2 ^ 64) :
    HandsOut (fun frame => ∃ r ∈ map, r.regionType = .usable ∧ r.Holds x86 frame)
        (answers x86 n (init map)) ∧
      ((∀ r ∈ map, r.regionType = .usable → r.endAddr ≤ 2 ^ 52) →
        (answers x86 n (init map)).length = n) := by
  constructor
  · obtain ⟨m, counted⟩ := @answers_eq _ _ x86 (init map) n docs fun _ => aligned_frameAddresses aligned
    have handed := handsOut_counter (nodup_frameAddresses disjoint) m
    rw [List.range_eq_range', ← show _ = (List.range' 0 m).map _ from counted] at handed
    simpa only [startAddress_mem_iff docs aligned] using handed.of_map docs.startAddress_injective
  · intro physical
    apply length_answers docs _ (by simpa [init] using few)
    intro addr member
    obtain ⟨r, among, usable, stepped⟩ := mem_frameAddresses.mp member
    have low := ((mem_stepBy (by decide)).mp stepped).2.1
    exact Nat.lt_of_lt_of_le low (physical r among usable)

/-- Frames by their numbers. -/
def frameNumbers : X86 Nat Nat where
  newAddr addr := if addr < 2 ^ 52 then .ok addr else .panic
  containingAddress addr := addr / frameSize
  startAddress frame := frameSize * frame

theorem documented_frameNumbers : frameNumbers.Documented where
  physical addr low := ⟨addr, if_pos low⟩
  contains addr a h := by
    simp only [frameNumbers] at h ⊢
    split at h
    · obtain rfl := Outcome.ok.inj h
      rw [frameSize]
      omega
    · cases h
  aligned frame := Nat.dvd_mul_right frameSize frame
  startAddress_injective frame frame' same := Nat.eq_of_mul_eq_mul_left (by decide) same

/-- Two usable regions around one that is in use, and a usable region without addresses. -/
def smallMap : List MemoryRegion :=
  [⟨4096, 12288, .usable⟩, ⟨12288, 20480, .other⟩, ⟨20480, 20480, .usable⟩, ⟨20480, 24576, .usable⟩]

theorem allocator_hands_out_frames_small :
    HandsOut (fun frame => ∃ r ∈ smallMap, r.regionType = .usable ∧ r.Holds frameNumbers frame)
        (answers frameNumbers 5 (init smallMap)) ∧
      answers frameNumbers 5 (init smallMap) = [some 1, some 2, some 5, none, none] := by
  have handed := allocator_hands_out_frames frameNumbers documented_frameNumbers smallMap
    (by simp only [MemoryRegion.Aligned]; decide)
    (by simp [smallMap, MemoryRegion.addresses, Set.Ico_disjoint_Ico]) 5 (by decide)
  exact ⟨handed.1, by decide +kernel⟩

end Smultron.FrameAllocator
