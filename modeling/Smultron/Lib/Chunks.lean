import Mathlib.Algebra.Ring.Nat
import Mathlib.Tactic.Common

/-!
# Reading a sequence in chunks

What a sequence of reads of given sizes takes from some data: each read takes what is left, up to
its size.
-/

namespace Chunks

variable {α : Type}

/-- The parts that reads of these sizes take, in order. -/
def chunks : List Nat → List α → List (List α)
  | [], _ => []
  | n :: ns, data => data.take n :: chunks ns (data.drop n)

theorem chunks_append (ns ms : List Nat) (data : List α) :
    chunks (ns ++ ms) data = chunks ns data ++ chunks ms (data.drop ns.sum) := by
  induction ns generalizing data with
  | nil => rfl
  | cons n ns ih => simp [chunks, ih, List.drop_drop]

theorem flatten_chunks (ns : List Nat) (data : List α) :
    (chunks ns data).flatten = data.take ns.sum := by
  induction ns generalizing data with
  | nil => rfl
  | cons n ns ih => rw [chunks, List.flatten_cons, ih, List.sum_cons, List.take_add]

@[simp] theorem length_chunks (ns : List Nat) (data : List α) :
    (chunks ns data).length = ns.length := by
  induction ns generalizing data with
  | nil => rfl
  | cons n ns ih => simp [chunks, ih]

/-- How far the reads have come. -/
theorem drop_length_flatten (ns : List Nat) (data : List α) :
    data.drop (chunks ns data).flatten.length = data.drop ns.sum := by
  rw [flatten_chunks, List.length_take]
  rcases Nat.le_total ns.sum data.length with inside | beyond
  · rw [Nat.min_eq_left inside]
  · rw [Nat.min_eq_right beyond, List.drop_length, List.drop_of_length_le beyond]

/-- One more read takes the beginning of what is left. -/
theorem chunks_concat (ns : List Nat) (n : Nat) (data : List α) :
    chunks (ns ++ [n]) data =
      chunks ns data ++ [(data.drop (chunks ns data).flatten.length).take n] := by
  rw [chunks_append, drop_length_flatten]
  rfl

/-- The reads in the middle of a sequence go on where those before them stopped. -/
theorem chunks_middle {ns ms : List Nat} {n : Nat} {data part : List α} {front back : List (List α)}
    (whole : front ++ part :: back = chunks (ns ++ n :: ms) data) (same : front.length = ns.length) :
    front = chunks ns data ∧ part = (data.drop front.flatten.length).take n ∧
      back = chunks ms (data.drop (front.flatten.length + n)) := by
  rw [chunks_append, chunks] at whole
  obtain ⟨rfl, tail⟩ := List.append_inj whole (by simpa using same)
  obtain ⟨rfl, rfl⟩ := List.cons.inj tail
  refine ⟨rfl, by rw [drop_length_flatten], ?_⟩
  rw [← List.drop_drop, drop_length_flatten]

/-- A read that takes nothing although it asks for something has found the end. -/
theorem flatten_of_empty {ns : List Nat} {n : Nat} {data : List α} (asks : 0 < n)
    (nothing : (data.drop (chunks ns data).flatten.length).take n = []) :
    (chunks ns data).flatten = data := by
  rw [drop_length_flatten] at nothing
  rw [flatten_chunks]
  rcases List.take_eq_nil_iff.mp nothing with zero | ended
  · exact absurd zero (Nat.ne_of_gt asks)
  · exact List.take_of_length_le (List.drop_eq_nil_iff.mp ended)

/-- Behind the end every read takes nothing. -/
theorem chunks_nil (ns : List Nat) : ∀ part ∈ chunks ns ([] : List α), part = [] := by
  induction ns with
  | nil => nofun
  | cons n ns ih =>
    rw [chunks, List.take_nil, List.drop_nil]
    exact List.forall_mem_cons.mpr ⟨rfl, ih⟩

end Chunks
