import Mathlib.Algebra.Ring.Nat
import Mathlib.Data.List.Induction
import Mathlib.Data.List.Nodup

/-!
# Lists of names in a buffer

Names written one behind the other, each ended by a terminator that no name contains. A buffer of
bounded size collects distinct names: one that is there already, or does not fit, is left out.

## Main results

- `takeWhile_layout`, `drop_layout`: a scan up to the terminator finds the first name.
- `collect_nodup`, `collect_subset`, `collect_fits`: what has been collected at any time.
- `collect_full`: what is left out does not fit.
- `collect_eq`: as long as there is room for all distinct names, they are collected in order.
-/

namespace Terminated

variable {α : Type} [DecidableEq α] {d : α} {cap : Nat} {name : List α} {names xs : List (List α)}

/-- The names one behind the other, each with its terminator. -/
def layout (d : α) (names : List (List α)) : List α := names.flatMap (· ++ [d])

omit [DecidableEq α] in
@[simp] theorem layout_nil : layout d [] = [] := rfl

omit [DecidableEq α] in
theorem layout_cons : layout d (name :: names) = name ++ d :: layout d names := by
  simp [layout]

omit [DecidableEq α] in
theorem layout_append : layout d (names ++ xs) = layout d names ++ layout d xs :=
  List.flatMap_append

omit [DecidableEq α] in
theorem layout_concat : layout d (names ++ [name]) = layout d names ++ name ++ [d] := by
  rw [layout_append, layout_cons, layout_nil, List.append_assoc]

omit [DecidableEq α] in
theorem layout_cons_ne_nil : layout d (name :: names) ≠ [] := by
  rw [layout_cons]
  exact List.append_ne_nil_of_right_ne_nil _ (List.cons_ne_nil _ _)

omit [DecidableEq α] in
theorem length_layout : (layout d names).length = (names.map fun n => n.length + 1).sum := by
  simp [layout]

theorem takeWhile_layout (free : d ∉ name) :
    (layout d (name :: names)).takeWhile (· != d) = name := by
  rw [layout_cons, List.takeWhile_append_of_pos, List.takeWhile_cons_of_neg]
  · exact List.append_nil name
  · simp
  · intro a ha
    exact bne_iff_ne.mpr fun same => free (same ▸ ha)

omit [DecidableEq α] in
theorem drop_layout : (layout d (name :: names)).drop (name.length + 1) = layout d names := by
  rw [layout_cons, ← List.drop_drop, List.drop_left]
  rfl

/-- Splitting at the terminator finds the names, and nothing behind the last one. -/
theorem splitOn_layout (free : ∀ n ∈ names, d ∉ n) : (layout d names).splitOn d = names ++ [[]] := by
  induction names with
  | nil => rfl
  | cons name names ih =>
    rw [List.forall_mem_cons] at free
    rw [layout_cons, List.splitOn_append_cons_self_of_not_mem free.1, ih free.2, List.cons_append]

omit [DecidableEq α] in
theorem length_of_mem (h : name ∈ names) : name.length + 1 ≤ (layout d names).length := by
  obtain ⟨front, back, rfl⟩ := List.append_of_mem h
  rw [layout_append, layout_cons]
  simp
  omega

/-! ### Collecting distinct names -/

/-- Write a name behind those in the buffer, unless it is one of them or there is no room. -/
def put (d : α) (cap : Nat) (names : List (List α)) (name : List α) : List (List α) :=
  if name ∈ names then names
  else if (layout d names).length + name.length + 1 ≤ cap then names ++ [name]
  else names

/-- What the buffer holds after all candidates. -/
def collect (d : α) (cap : Nat) (xs : List (List α)) : List (List α) := xs.foldl (put d cap) []

theorem collect_concat : collect d cap (xs ++ [name]) = put d cap (collect d cap xs) name := by
  rw [collect, List.foldl_append]
  rfl

theorem put_nodup (distinct : names.Nodup) : (put d cap names name).Nodup := by
  rw [put]
  split
  · exact distinct
  next new =>
    split
    · exact List.nodup_append.mpr ⟨distinct, by simp, by
        rintro a old _ last rfl
        exact new (List.mem_singleton.mp last ▸ old)⟩
    · exact distinct

theorem put_fits (fits : (layout d names).length ≤ cap) :
    (layout d (put d cap names name)).length ≤ cap := by
  rw [put]
  split
  · exact fits
  split
  next room =>
    rw [layout_concat]
    simpa [Nat.add_assoc] using room
  · exact fits

theorem mem_put {n : List α} (h : n ∈ put d cap names name) : n ∈ names ∨ n = name := by
  rw [put] at h
  split at h
  · exact Or.inl h
  split at h
  · simpa using h
  · exact Or.inl h

theorem collect_nodup : (collect d cap xs).Nodup := by
  induction xs using List.reverseRecOn with
  | nil => exact List.nodup_nil
  | append_singleton xs name ih =>
    rw [collect_concat]
    exact put_nodup ih

theorem collect_fits : (layout d (collect d cap xs)).length ≤ cap := by
  induction xs using List.reverseRecOn with
  | nil => exact Nat.zero_le cap
  | append_singleton xs name ih =>
    rw [collect_concat]
    exact put_fits ih

theorem collect_subset : collect d cap xs ⊆ xs := by
  induction xs using List.reverseRecOn with
  | nil => exact List.Subset.refl _
  | append_singleton xs name ih =>
    rw [collect_concat]
    intro n hn
    rw [List.mem_append, List.mem_singleton]
    exact (mem_put hn).imp_left (@ih n)

/-- With room for all of them, the distinct candidates are collected in order of their first
occurrence. -/
theorem collect_eq (room : (layout d xs.eraseDups).length ≤ cap) :
    collect d cap xs = xs.eraseDups := by
  induction xs using List.reverseRecOn with
  | nil => rfl
  | append_singleton xs name ih =>
    rw [List.eraseDups_append] at room ⊢
    rw [layout_append, List.length_append] at room
    rw [collect_concat, ih (Nat.le_trans (Nat.le_add_right ..) room), put]
    by_cases old : name ∈ xs
    · -- Already collected
      rw [if_pos (List.mem_eraseDups.mpr old)]
      simp [List.removeAll, old]
    · have last : ([name].removeAll xs).eraseDups = [name] := by
        simp [List.removeAll, old, List.eraseDups_cons]
      rw [last, layout_cons, layout_nil] at room
      rw [last, if_neg (mt List.mem_eraseDups.mp old), if_pos (by simpa [Nat.add_assoc] using room)]

/-- A candidate that is left out would not fit behind the names that are there. -/
theorem collect_full (member : name ∈ xs) (out : name ∉ collect d cap xs) :
    cap < (layout d (collect d cap xs)).length + name.length + 1 := by
  induction xs using List.reverseRecOn with
  | nil => cases member
  | append_singleton xs last ih =>
    rw [collect_concat, put] at out ⊢
    rcases List.mem_append.mp member with old | new
    · -- It was left out before, and names are only added behind
      split_ifs at out ⊢ with there room
      · exact ih old out
      · rw [List.mem_append, not_or] at out
        have full := ih old out.1
        rw [layout_append, List.length_append]
        omega
      · exact ih old out
    · obtain rfl := List.mem_singleton.mp new
      split_ifs at out ⊢ with there room
      · exact absurd there out
      · simp at out
      · omega

/-- A candidate that would fit an empty buffer leaves it not empty. -/
theorem collect_ne_nil (member : name ∈ xs) (fits : name.length + 1 ≤ cap) :
    collect d cap xs ≠ [] := by
  induction xs using List.reverseRecOn with
  | nil => cases member
  | append_singleton xs last ih =>
    rw [collect_concat]
    intro empty
    have before : collect d cap xs = [] := by
      rw [put] at empty
      split_ifs at empty <;> simp_all
    rw [before, put, if_neg List.not_mem_nil] at empty
    rcases List.mem_append.mp member with old | new
    · exact ih old before
    · obtain rfl := List.mem_singleton.mp new
      rw [layout_nil, List.length_nil, Nat.zero_add, if_pos fits] at empty
      cases empty

/-! ### As many as fit -/

section Fitting

variable {β : Type}

/-- The elements up to the first one for which there is no room, with `used` of `cap` taken. -/
def fitting (size : β → Nat) (cap : Nat) : Nat → List β → List β
  | _, [] => []
  | used, y :: ys =>
    if cap < used + size y then [] else y :: fitting size cap (used + size y) ys

variable (size : β → Nat) {used : Nat}

theorem fitting_front (cap used : Nat) (ys : List β) : fitting size cap used ys <+: ys := by
  induction ys generalizing used with
  | nil => exact List.prefix_refl []
  | cons y ys ih =>
    rw [fitting]
    split
    · exact List.nil_prefix
    · exact List.cons_prefix_cons.mpr ⟨rfl, ih _⟩

theorem fitting_fits (ys : List β) (room : used ≤ cap) :
    used + ((fitting size cap used ys).map size).sum ≤ cap := by
  induction ys generalizing used with
  | nil => exact room
  | cons y ys ih =>
    rw [fitting]
    split
    · exact room
    next room' =>
      have later := ih (Nat.not_lt.mp room')
      rw [List.map_cons, List.sum_cons]
      omega

/-- There is no room for the element behind them. -/
theorem fitting_stops {ys : List β} {y : β} {rest : List β}
    (split : ys = fitting size cap used ys ++ y :: rest) :
    cap < used + ((fitting size cap used ys).map size).sum + size y := by
  induction ys generalizing used with
  | nil => simp at split
  | cons y' ys ih =>
    rw [fitting] at split ⊢
    split_ifs at split ⊢ with full
    · obtain ⟨rfl, -⟩ := List.cons.inj split
      simpa using full
    · have later := ih (List.cons.inj split).2
      rw [List.map_cons, List.sum_cons]
      omega

/-- All of them fit, or not all are taken. -/
theorem fitting_eq_iff (ys : List β) (room : used ≤ cap) :
    fitting size cap used ys = ys ↔ used + (ys.map size).sum ≤ cap := by
  constructor
  · intro all
    have fits := fitting_fits size ys room
    rwa [all] at fits
  · intro fits
    obtain ⟨rest, split⟩ := fitting_front size cap used ys
    cases rest with
    | nil => rwa [List.append_nil] at split
    | cons y rest =>
      have stops := fitting_stops size split.symm
      rw [← split, List.map_append, List.sum_append, List.map_cons, List.sum_cons] at fits
      omega

end Fitting

end Terminated
