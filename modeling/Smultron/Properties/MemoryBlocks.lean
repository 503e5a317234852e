import Mathlib.Data.List.Basic
import Smultron.Userspace.MemFns

/-!
# Copying, filling and comparing blocks

`memcpy` goes upwards byte by byte. So it may be used on blocks that overlap when the destination is
below the source; above the source it repeats the bytes between the two pointers.

## Main results

- `memcpy_spec`: what each address holds after a copy, whether or not the blocks overlap.
- `memset_spec`: the same of a fill.
- `memcmp_spec`: the sign of a comparison is the order of the blocks.
-/

namespace Smultron.Libos

open Memory

variable {mem : Mem} {dst src a b i n : Nat}

/-- The bytes of a block. -/
def block (mem : Mem) (p n : Nat) : Bytes := (List.range n).map fun i => mem (p + i)

/-- Where in the source the byte for offset `i` comes from. -/
def origin (dst src i : Nat) : Nat := if src < dst then i % (dst - src) else i

theorem origin_of_le (down : dst ≤ src) : origin dst src i = i := if_neg (Nat.not_lt.mpr down)

theorem origin_of_lt (near : i < dst - src) : origin dst src i = i := by
  rw [origin, Nat.mod_eq_of_lt near, ite_self]

/-- A copy that has got to offset `i`. -/
def copied (mem : Mem) (dst src i : Nat) : Mem :=
  fun a => if dst ≤ a ∧ a < dst + i then mem (src + origin dst src (a - dst)) else mem a

/-- The byte that is read next has not been written, or it repeats one that has. -/
theorem copied_source : copied mem dst src i (src + i) = mem (src + origin dst src i) := by
  rw [copied]
  by_cases down : dst ≤ src
  · rw [if_neg (by omega), origin_of_le down]
  · by_cases near : i < dst - src
    · rw [if_neg (by omega), origin_of_lt near]
    · have back : src + i - dst = i - (dst - src) := by omega
      rw [if_pos (by omega), back, origin, origin, if_pos (by omega), if_pos (by omega),
        ← Nat.mod_eq_sub_mod (by omega)]

theorem copied_succ : writeAt (copied mem dst src i) (dst + i) (copied mem dst src i (src + i)) =
    copied mem dst src (i + 1) := by
  rw [copied_source]
  funext a
  rw [writeAt, copied, copied]
  by_cases here : a = dst + i
  · subst here
    rw [if_pos rfl, if_pos (by omega), Nat.add_sub_cancel_left]
  · rw [if_neg here]
    exact if_congr (by omega) rfl rfl

theorem memcpyLoop_eq (left : Nat) :
    memcpyLoop dst src i left (copied mem dst src i) = copied mem dst src (i + left) := by
  induction left generalizing i with
  | zero => rfl
  | succ left ih =>
    rw [memcpyLoop, copied_succ, ih, Nat.add_right_comm, Nat.add_assoc]

theorem copied_zero : copied mem dst src 0 = mem := by
  funext a
  exact if_neg (by omega)

/-- What each address holds after a copy. Where the destination is not inside the source, it is the
source as it was. -/
theorem memcpy_spec (mem : Mem) (dst src n : Nat) :
    (memcpy mem dst src n).2 = dst ∧
    (∀ a, (memcpy mem dst src n).1 a =
      if dst ≤ a ∧ a < dst + n then mem (src + origin dst src (a - dst)) else mem a) ∧
    (dst ≤ src ∨ src + n ≤ dst →
      (memcpy mem dst src n).1 = (BlockOp.copy 0 dst n).apply (block mem src n) mem) := by
  have whole : (memcpy mem dst src n).1 = copied mem dst src n := by
    have loop : memcpyLoop dst src 0 n (copied mem dst src 0) = copied mem dst src (0 + n) :=
      memcpyLoop_eq n
    rwa [copied_zero, Nat.zero_add] at loop
  refine ⟨rfl, fun a => congrFun whole a, fun apart => ?_⟩
  rw [whole]
  funext a
  rw [BlockOp.apply_copy, copied]
  by_cases inside : dst ≤ a ∧ a < dst + n
  · rw [if_pos inside, if_pos inside]
    have same : origin dst src (a - dst) = a - dst := by
      rcases apart with down | above
      · exact origin_of_le down
      · exact origin_of_lt (by omega)
    have short : a - dst < n := by omega
    simp [same, block, short]
  · rw [if_neg inside, if_neg inside]

/-! ### Filling -/

theorem memsetLoop_eq (byte : UInt8) (left : Nat) :
    memsetLoop dst byte i left mem = (BlockOp.fill (dst + i) byte left).apply [] mem := by
  induction left generalizing i mem with
  | zero =>
    funext a
    rw [memsetLoop, BlockOp.apply_fill, if_neg (by omega)]
  | succ left ih =>
    funext a
    rw [memsetLoop, ih, BlockOp.apply_fill, BlockOp.apply_fill, writeAt]
    by_cases here : a = dst + i
    · rw [if_pos here, if_neg (by omega), if_pos (by omega)]
    · rw [if_neg here]
      exact if_congr (by omega) rfl rfl

/-- Of the value only the lowest byte is used. -/
theorem memset_spec (mem : Mem) (dst : Nat) (val : Int32) (n : Nat) :
    memset mem dst val n = ((BlockOp.fill dst val.toUInt32.toUInt8 n).apply [] mem, dst) := by
  rw [memset, memsetLoop_eq, Nat.add_zero]

/-! ### Comparing -/

theorem block_succ (mem : Mem) (p n : Nat) : block mem p (n + 1) = mem p :: block mem (p + 1) n := by
  simp [block, List.range_succ_eq_map, Nat.add_assoc, Nat.add_comm 1]

/-- The sign of a comparison is the order of what is left of the blocks. -/
theorem memcmpLoop_sign (left : Nat) :
    (memcmpLoop mem a b i left < 0 ↔ block mem (a + i) left < block mem (b + i) left) ∧
    (memcmpLoop mem a b i left = 0 ↔ block mem (a + i) left = block mem (b + i) left) := by
  induction left generalizing i with
  | zero => simp [memcmpLoop, block]
  | succ left ih =>
    rw [block_succ, block_succ, memcmpLoop, List.cons_lt_cons_iff, List.cons.injEq, Nat.add_assoc,
      Nat.add_assoc]
    by_cases same : mem (a + i) = mem (b + i)
    · simp [same, ih]
    · have apart : (mem (a + i)).toNat ≠ (mem (b + i)).toNat := fun h => same (UInt8.toNat_inj.mp h)
      simp only [same, ne_eq, not_false_iff, if_true, false_and, or_false, iff_false, UInt8.lt_iff_toNat_lt]
      omega

theorem memcmpLoop_swap (left : Nat) : memcmpLoop mem b a i left = -memcmpLoop mem a b i left := by
  induction left generalizing i with
  | zero => rfl
  | succ left ih =>
    rw [memcmpLoop, memcmpLoop]
    by_cases same : mem (a + i) = mem (b + i)
    · simp [same, ih]
    · simp only [ne_eq, same, Ne.symm same, not_false_iff, if_true]
      omega

/-- A comparison tells the order of the blocks, the way texts are ordered. -/
theorem memcmp_spec (mem : Mem) (a b n : Nat) :
    (memcmp mem a b n < 0 ↔ block mem a n < block mem b n) ∧
    (memcmp mem a b n = 0 ↔ block mem a n = block mem b n) ∧
    (0 < memcmp mem a b n ↔ block mem b n < block mem a n) := by
  obtain ⟨below, same⟩ := @memcmpLoop_sign mem a b 0 n
  obtain ⟨above, -⟩ := @memcmpLoop_sign mem b a 0 n
  refine ⟨below, same, ?_⟩
  rw [Nat.add_zero, Nat.add_zero] at above
  rw [← above, memcmpLoop_swap, memcmp]
  omega

end Smultron.Libos
