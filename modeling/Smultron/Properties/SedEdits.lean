import Smultron.Lib.Replace
import Smultron.Properties.FileAppRuns
import Smultron.Properties.ShellBounds
import Smultron.Userspace.Sed

/-!
# What sed writes

The loop of `substitute` replaces what the script says, as far as its buffer goes.
-/

namespace Smultron.Sed

open Checked Checked.Outcome Replace Proc

/-- The loop, from any place of the input on. -/
theorem substituteFrom_eq {pattern : Bytes} (replacement : Bytes) (isGlobal : Bool) (cap rounds : Nat)
    (input out : Bytes) (some_ : pattern ≠ []) (enough : input.length ≤ rounds) :
    substituteFrom pattern replacement isGlobal cap rounds input out =
      out ++ (replace pattern replacement isGlobal input).take (cap - out.length) := by
  induction rounds generalizing input out with
  | zero =>
    obtain rfl := List.length_eq_zero_iff.mp (Nat.le_zero.mp enough)
    simp [substituteFrom]
  | succ rounds ih =>
    cases input with
    | nil => simp [substituteFrom]
    | cons b input =>
      rw [substituteFrom]
      split
      next full => rw [Nat.sub_eq_zero_of_le full, List.take_zero, List.append_nil]
      next room =>
        by_cases here : pattern <+: b :: input
        · rw [if_pos (List.isPrefixOf_iff_prefix.mpr here)]
          obtain ⟨after, same⟩ := here
          rw [← same, List.drop_left]
          dsimp only
          cases isGlobal with
          | true =>
            have shorter : after.length ≤ rounds := by
              have := List.length_pos_iff.mpr some_
              have := congrArg List.length same
              simp only [List.length_append, List.length_cons] at this enough
              omega
            rw [if_pos rfl, ih _ _ shorter, Shell.copyWhileRoom_append, replace_next some_]
          | false =>
            rw [if_neg Bool.false_ne_true, replace_first some_, ← Shell.copyWhileRoom_append]
            rfl
        · rw [if_neg (mt List.isPrefixOf_iff_prefix.mp here), replace_cons here,
            ih _ _ (Nat.le_of_succ_le_succ enough), List.append_assoc, List.length_append]
          -- One place of the room is taken
          obtain ⟨left, room⟩ : ∃ left, cap - out.length = left + 1 :=
            ⟨cap - out.length - 1, by omega⟩
          have later : cap - (out.length + [b].length) = left := by
            rw [List.length_singleton]
            omega
          rw [room, later, List.take_succ_cons, List.singleton_append]

theorem substitute_eq (input : Bytes) (cap : Nat) (pattern replacement : Bytes) (isGlobal : Bool) :
    substitute input cap pattern replacement isGlobal =
      (replace pattern replacement isGlobal input).take cap := by
  rw [substitute]
  split
  next none =>
    rw [none, replace_empty, Nat.min_comm, ← List.take_take, List.take_length]
  next some_ =>
    rw [substituteFrom_eq replacement isGlobal cap _ input [] some_ (Nat.le_refl _)]
    rfl

/-- The result is determined, and what the output buffer has room for of it is written to it. -/
theorem substitute_replaces (input : Bytes) (cap : Nat) (pattern replacement : Bytes)
    (isGlobal : Bool) :
    (∃! result, Replaced pattern replacement isGlobal input result) ∧
      ∀ result, Replaced pattern replacement isGlobal input result →
        substitute input cap pattern replacement isGlobal = result.take (min cap result.length) ∧
          (substitute input cap pattern replacement isGlobal).length ≤ cap := by
  refine ⟨⟨_, replaced_replace .., fun _ => replaced_iff.mp⟩, fun result replaced => ?_⟩
  obtain rfl := replaced_iff.mp replaced
  rw [substitute_eq, ← List.take_take, List.take_length, List.length_take]
  exact ⟨rfl, Nat.min_le_left ..⟩

end Smultron.Sed
