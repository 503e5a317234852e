import Smultron.Lib.Proc

/-!
# Handlers that simulate others

A program knows its handler only by the replies. So when each call that an abstract handler answers
gets the same reply from a concrete one, whole runs agree: in the result and in all calls.

## Main results

- `Simulates.run`: a run of the abstract handler is one of the concrete handler.
- `run_congr`: handlers that agree wherever a run can come to have the same runs.
- `Only.ends_within`: where every call is answered and the answer keeps an invariant, a run ends.
-/

namespace Program

variable {C R S T α : Type}

/-- Whatever `handle'` answers, `handle` answers alike, and the states stay related. -/
def Simulates (handle : C → S → Option (R × S)) (handle' : C → T → Option (R × T))
    (Rel : S → T → Prop) : Prop :=
  ∀ s t c r t', Rel s t → handle' c t = some (r, t') → ∃ s', handle c s = some (r, s') ∧ Rel s' t'

variable {handle : C → S → Option (R × S)} {handle' : C → T → Option (R × T)} {Rel : S → T → Prop}
  {s : S} {t : T}

/-- A run is the same against both handlers. -/
theorem Simulates.run (sim : Simulates handle handle' Rel) {p : Program C R α} {ran : Ran C R T α}
    (start : Rel s t) (ended : p.run handle' t = some ran) :
    ∃ ran', p.run handle s = some ran' ∧ ran'.result = ran.result ∧ ran'.calls = ran.calls ∧
      Rel ran'.state ran.state := by
  induction p generalizing s t ran with
  | ret a =>
    cases ended
    exact ⟨⟨a, [], s⟩, by simp, by simp, by simp [Ran.calls], start⟩
  | call c next ih =>
    obtain ⟨r, t', rest, answered, tailEnded, rfl⟩ := run_call_eq_some.mp ended
    obtain ⟨s', answered', related⟩ := sim s t c r t' start answered
    obtain ⟨rest', tailEnded', result, calls, last⟩ := ih r related tailEnded
    refine ⟨_, run_call_eq_some.mpr ⟨r, s', rest', answered', tailEnded', rfl⟩, result, ?_, last⟩
    simp only [Ran.calls, callsOf_cons] at calls ⊢
    rw [calls]

/-- The states that a run can come to satisfy an invariant. Only there the handlers have to agree. -/
theorem run_congr {handle' : C → S → Option (R × S)} {I : S → Prop}
    (agree : ∀ c s, I s → handle c s = handle' c s)
    (keeps : ∀ c s r s', I s → handle c s = some (r, s') → I s') (start : I s)
    (p : Program C R α) : p.run handle s = p.run handle' s := by
  induction p generalizing s with
  | ret a => rfl
  | call c next ih =>
    simp only [run, ← agree c s start]
    cases answered : handle c s with
    | none => rfl
    | some answer =>
      obtain ⟨r, s'⟩ := answer
      simp only [ih r (keeps c s r s' start answered)]

theorem Only.ends_within {I : S → Prop} {P : C → Prop}
    (answers : ∀ c s, P c → I s → ∃ r s', handle c s = some (r, s') ∧ I s') {p : Program C R α}
    (calls : p.Only P) (start : I s) : ∃ ran, p.run handle s = some ran ∧ I ran.state := by
  induction p generalizing s with
  | ret a => exact ⟨_, run_ret a s, start⟩
  | call c next ih =>
    obtain ⟨r, s', answered, held⟩ := answers c s calls.1 start
    obtain ⟨rest, ended, last⟩ := ih r (calls.2 r) held
    exact ⟨_, run_call_eq_some.mpr ⟨r, s', rest, answered, ended, rfl⟩, last⟩

end Program
