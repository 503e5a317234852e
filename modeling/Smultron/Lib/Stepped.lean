import Mathlib.Data.List.Nodup
import Mathlib.Data.Set.BooleanAlgebra
import Mathlib.Order.CompletePartialOrder
import Mathlib.Order.Interval.Set.Basic

/-!
# Streams that are handed out by a counter

A range of numbers is taken in steps, the steps of several ranges make one stream, and a counter
hands out the elements of the stream one after the other. Nothing is handed out twice when the
ranges do not overlap, and the first refusal comes when everything has been handed out.
-/

/-! ### Steps through a range -/

/-- The numbers `lo`, `lo + step`, `lo + 2 * step` and so on below `hi`. -/
def stepBy (lo hi step : Nat) : List Nat := List.range' lo ((hi - lo + (step - 1)) / step) step

theorem mem_stepBy {lo hi step a : Nat} (pos : 0 < step) :
    a ∈ stepBy lo hi step ↔ lo ≤ a ∧ a < hi ∧ step ∣ a - lo := by
  have below (i : Nat) : i < (hi - lo + (step - 1)) / step ↔ lo + step * i < hi := by
    rw [← Nat.add_one_le_iff, Nat.le_div_iff_mul_le pos, Nat.add_mul, Nat.one_mul, Nat.mul_comm i]
    omega
  rw [stepBy, List.mem_range']
  constructor
  · rintro ⟨i, few, rfl⟩
    refine ⟨Nat.le_add_right _ _, (below i).mp few, ?_⟩
    rw [Nat.add_sub_cancel_left]
    exact Nat.dvd_mul_right step i
  · rintro ⟨low, high, i, steps⟩
    have whole : a = lo + step * i := by omega
    exact ⟨i, (below i).mpr (whole ▸ high), whole⟩

theorem nodup_stepBy {lo hi step : Nat} (pos : 0 < step) : (stepBy lo hi step).Nodup :=
  List.nodup_range' step pos

variable {α β ι : Type}

/-- Steps through ranges that do not overlap do not meet. -/
theorem nodup_flatMap_stepBy {rs : List ι} {lo hi : ι → Nat} {step : Nat} (pos : 0 < step)
    (disjoint : rs.Pairwise fun r s => Disjoint (Set.Ico (lo r) (hi r)) (Set.Ico (lo s) (hi s))) :
    (rs.flatMap fun r => stepBy (lo r) (hi r) step).Nodup := by
  refine List.nodup_flatMap.mpr ⟨fun r _ => nodup_stepBy pos, disjoint.imp fun apart a inr ins => ?_⟩
  obtain ⟨low, high, -⟩ := (mem_stepBy pos).mp inr
  obtain ⟨low', high', -⟩ := (mem_stepBy pos).mp ins
  exact Set.disjoint_left.mp apart ⟨low, high⟩ ⟨low', high'⟩

/-! ### Answers of an allocator -/

/-- The answers hand out what satisfies `P`, each of it once, and refuse when nothing is left. -/
structure HandsOut (P : α → Prop) (answers : List (Option α)) : Prop where
  once : ∀ (i j : Nat) (a : α), answers[i]? = some (some a) → answers[j]? = some (some a) → i = j
  sound : ∀ a, some a ∈ answers → P a
  all : ∀ i : Nat, answers[i]? = some none → ∀ a, P a → ∃ j < i, answers[j]? = some (some a)
  spent : ∀ (i j : Nat) (answer : Option α), answers[i]? = some none → i ≤ j →
    answers[j]? = some answer → answer = none

/-- A counter hands out the elements of a list without repetitions. -/
theorem handsOut_counter {xs : List α} (distinct : xs.Nodup) (n : Nat) :
    HandsOut (· ∈ xs) ((List.range n).map fun i => xs[i]?) := by
  have answer {i : Nat} {o : Option α} (h : ((List.range n).map fun i => xs[i]?)[i]? = some o) :
      i < n ∧ xs[i]? = o := by
    simpa [List.getElem?_eq_some_iff] using h
  refine ⟨?_, ?_, ?_, ?_⟩
  · intro i j a first second
    have at_ := (answer first).2
    have low := (List.getElem?_eq_some_iff.mp at_).1
    exact (List.getElem?_inj low distinct).mp (at_.trans (answer second).2.symm)
  · intro a handed
    obtain ⟨i, -, at_⟩ := List.mem_map.mp handed
    exact List.mem_of_getElem? at_
  · intro i refused a member
    -- The counter has gone through the whole list
    obtain ⟨few, past⟩ := answer refused
    obtain ⟨j, low, at_⟩ := List.getElem_of_mem member
    have below := List.getElem?_eq_none_iff.mp past
    exact ⟨j, by omega, by simp [low, at_, show j < n by omega]⟩
  · intro i j o refused later answered
    have past := List.getElem?_eq_none_iff.mp (answer refused).2
    rw [← (answer answered).2, List.getElem?_eq_none_iff]
    omega

/-- Answers that are known by a name that tells everything apart. -/
theorem HandsOut.of_map {P : β → Prop} {answers : List (Option α)} {name : α → β}
    (injective : Function.Injective name) (h : HandsOut P (answers.map (Option.map name))) :
    HandsOut (fun a => P (name a)) answers := by
  have named {i : Nat} {o : Option α} (at_ : answers[i]? = some o) :
      (answers.map (Option.map name))[i]? = some (o.map name) := by
    rw [List.getElem?_map, at_, Option.map_some]
  refine ⟨?_, ?_, ?_, ?_⟩
  · intro i j a first second
    exact h.once i j (name a) (named first) (named second)
  · intro a handed
    exact h.sound (name a) (List.mem_map_of_mem handed)
  · intro i refused a holds
    obtain ⟨j, before, at_⟩ := h.all i (named refused) (name a) holds
    rw [List.getElem?_map] at at_
    obtain ⟨o, answered, same⟩ := Option.map_eq_some_iff.mp at_
    obtain ⟨a', rfl, name_eq⟩ := Option.map_eq_some_iff.mp same
    obtain rfl := injective name_eq
    exact ⟨j, before, answered⟩
  · intro i j o refused later answered
    exact Option.map_eq_none_iff.mp (h.spent i j _ (named refused) later (named answered))
