import Mathlib.Data.List.Basic
import Mathlib.Tactic.Common

/-!
# Ranges that stand back to back

Ranges given by their start and their length tile an interval when the first one starts where the
interval does and each one starts where the one before it ends.
-/

/-- The ranges tile the numbers from `lo` to `hi`. -/
def Tiles : (lo : Nat) → List (Nat × Nat) → (hi : Nat) → Prop
  | lo, [], hi => lo = hi
  | lo, r :: rs, hi => r.1 = lo ∧ Tiles (lo + r.2) rs hi

variable {lo hi : Nat} {rs : List (Nat × Nat)}

theorem Tiles.le (h : Tiles lo rs hi) : lo ≤ hi := by
  induction rs generalizing lo with
  | nil => exact Nat.le_of_eq h
  | cons r rs ih => exact Nat.le_trans (Nat.le_add_right _ _) (ih h.2)

/-- One more range at the end. -/
theorem Tiles.concat (h : Tiles lo rs hi) (len : Nat) :
    Tiles lo (rs ++ [(hi, len)]) (hi + len) := by
  induction rs generalizing lo with
  | nil =>
    obtain rfl : lo = hi := h
    exact ⟨rfl, rfl⟩
  | cons r rs ih => exact ⟨h.1, ih h.2⟩

theorem Tiles.inside (h : Tiles lo rs hi) : ∀ r ∈ rs, lo ≤ r.1 ∧ r.1 + r.2 ≤ hi := by
  induction rs generalizing lo with
  | nil => nofun
  | cons r rs ih =>
    obtain ⟨rfl, rest⟩ := h
    refine List.forall_mem_cons.mpr ⟨⟨Nat.le_refl _, rest.le⟩, fun r' later => ?_⟩
    obtain ⟨low, high⟩ := ih rest r' later
    exact ⟨Nat.le_trans (Nat.le_add_right _ _) low, high⟩

/-- The ranges stand in order and do not overlap. -/
theorem Tiles.pairwise (h : Tiles lo rs hi) : rs.Pairwise fun r s => r.1 + r.2 ≤ s.1 := by
  induction rs generalizing lo with
  | nil => exact .nil
  | cons r rs ih =>
    obtain ⟨rfl, rest⟩ := h
    exact List.pairwise_cons.mpr ⟨fun s later => (rest.inside s later).1, ih rest⟩

/-- They leave no gap. -/
theorem Tiles.covers (h : Tiles lo rs hi) (i : Nat) :
    (lo ≤ i ∧ i < hi) ↔ ∃ r ∈ rs, r.1 ≤ i ∧ i < r.1 + r.2 := by
  induction rs generalizing lo with
  | nil =>
    obtain rfl : lo = hi := h
    simp
  | cons r rs ih =>
    obtain ⟨rfl, rest⟩ := h
    have last := rest.le
    rw [List.exists_mem_cons_iff, ← ih rest]
    omega
