import Smultron.Lib.Simulation

/-!
# Procedures as functions on a state

Against a handler, a procedure is a function of the handler's state: it comes to a value and a state,
or to nothing where it panics or where a call is not answered. `eval` is that function. Sequences
become sequences of functions, so what a long procedure does can be computed part by part.

## Main results

- `eval_bind`: the function of a sequence is made of those of its parts.
- `simulates_eval`: what a procedure evaluates to, it comes to against a handler that simulates.
-/

namespace Proc

open Checked Program

variable {C R S T α β : Type} {handle : C → S → Option (R × S)} {s s' : S}

def eval (handle : C → S → Option (R × S)) (x : Proc C R α) (s : S) : Option (α × S) :=
  (x.run handle s).bind fun ran =>
    match ran.result with
    | .ok a => some (a, ran.state)
    | .panic => none

theorem eval_eq_some {x : Proc C R α} {a : α} :
    x.eval handle s = some (a, s') ↔
      ∃ ran, x.run handle s = some ran ∧ ran.result = .ok a ∧ ran.state = s' := by
  rw [eval, Option.bind_eq_some_iff]
  refine exists_congr fun ran => and_congr_right fun _ => ?_
  cases ran.result with
  | ok a' => simp
  | err e => cases e
  | panic => simp

@[simp] theorem eval_pure (a : α) : (pure a : Proc C R α).eval handle s = some (a, s) := rfl

@[simp] theorem eval_lift_panic : (lift .panic : Proc C R α).eval handle s = none := rfl

@[simp] theorem eval_request (c : C) : (request c : Proc C R R).eval handle s = handle c s := by
  ext ⟨r, s'⟩
  simp [eval_eq_some, run_request]

theorem eval_bind (x : Proc C R α) (f : α → Proc C R β) :
    (x >>= f).eval handle s = (x.eval handle s).bind fun (a, s') => (f a).eval handle s' := by
  ext ⟨b, last⟩
  simp only [Option.bind_eq_some_iff, Prod.exists, eval_eq_some, run_bind]
  constructor
  · rintro ⟨_, ⟨first, begun, ⟨-, rfl⟩ | ⟨a, rest, outcome, later, rfl⟩⟩, result, rfl⟩
    · cases result
    · exact ⟨a, first.state, ⟨first, begun, outcome, rfl⟩, rest, later, result, rfl⟩
  · rintro ⟨a, _, ⟨first, begun, outcome, rfl⟩, rest, later, result, rfl⟩
    exact ⟨_, ⟨first, begun, .inr ⟨a, rest, outcome, later, rfl⟩⟩, result, rfl⟩

/-- A pure step without a panic costs nothing. -/
theorem eval_lift_bind {x : Outcome Empty α} {a : α} (h : x = .ok a) (f : α → Proc C R β) :
    (lift x >>= f).eval handle s = (f a).eval handle s := by
  rw [h, lift_ok, pure_bind]

/-- A first part of which it is known what it comes to. -/
theorem eval_bind_of {x : Proc C R α} {a : α} (h : x.eval handle s = some (a, s'))
    (f : α → Proc C R β) : (x >>= f).eval handle s = (f a).eval handle s' := by
  rw [eval_bind, h, Option.bind_some]

theorem eval_request_bind {c : C} {r : R} (answered : handle c s = some (r, s')) (f : R → Proc C R α) :
    (request c >>= f).eval handle s = (f r).eval handle s' :=
  eval_bind_of ((eval_request c).trans answered) f

/-- What a procedure evaluates to with an abstract handler, it comes to with a concrete one. -/
theorem simulates_eval {handle' : C → T → Option (R × T)} {Rel : S → T → Prop}
    (sim : Simulates handle handle' Rel) {x : Proc C R α} {a : α} {t t' : T} (start : Rel s t)
    (evaluated : x.eval handle' t = some (a, t')) :
    ∃ s', x.eval handle s = some (a, s') ∧ Rel s' t' := by
  obtain ⟨ran, ended, result, rfl⟩ := eval_eq_some.mp evaluated
  obtain ⟨ran', ended', same, -, related⟩ := sim.run start ended
  exact ⟨ran'.state, eval_eq_some.mpr ⟨ran', ended', same.trans result, rfl⟩, related⟩

end Proc
