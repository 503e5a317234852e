import Mathlib.Tactic.Common

/-!
# Programs over calls

A program as the tree of the calls it can issue: each call is answered by a reply, and what the
program does next depends on the reply. A handler with a state of its own answers the calls of a
run; `Exec` instead allows every reply a predicate admits.

## Main results

- `run_invariant`: a relation between the calls made so far and the handler's state that each
  call preserves holds at the end of a run.
- `wp_iff_exec`: the weakest precondition of a program is what holds of every execution.
- `exec_bind`: the executions of a sequence are those of its parts, one after the other.
-/

/-- A program that returns an `α`, issues calls `C` and receives replies `R`. -/
inductive Program (C R α : Type) where
  | ret (value : α)
  | call (c : C) (next : R → Program C R α)

namespace Program

variable {C R S α β γ : Type}

def bind (p : Program C R α) (f : α → Program C R β) : Program C R β :=
  match p with
  | .ret a => f a
  | .call c next => .call c fun r => (next r).bind f

instance : Monad (Program C R) where
  pure := .ret
  bind := bind

/-- Issue one call and return its reply. -/
def request (c : C) : Program C R R := .call c .ret

@[simp] theorem ret_bind (a : α) (f : α → Program C R β) : (ret a).bind f = f a := rfl

@[simp] theorem call_bind (c : C) (next : R → Program C R α) (f : α → Program C R β) :
    (call c next).bind f = .call c fun r => (next r).bind f := rfl

theorem bind_assoc (p : Program C R α) (f : α → Program C R β) (g : β → Program C R γ) :
    (p.bind f).bind g = p.bind fun a => (f a).bind g := by
  induction p with
  | ret a => rfl
  | call c next ih => simp only [call_bind, ih]

/-! ### Runs against a handler -/

/-- A call of a run, with the handler's states around it. -/
structure Step (C R S : Type) where
  before : S
  call : C
  reply : R
  after : S

/-- What a run leaves: the result, its steps in order, and the handler's state. -/
structure Ran (C R S α : Type) where
  result : α
  steps : List (Step C R S)
  state : S

/-- The calls of some steps, with their replies. -/
def callsOf (steps : List (Step C R S)) : List (C × R) := steps.map fun st => (st.call, st.reply)

def Ran.calls (ran : Ran C R S α) : List (C × R) := callsOf ran.steps

@[simp] theorem callsOf_nil : callsOf ([] : List (Step C R S)) = [] := rfl

@[simp] theorem callsOf_cons (st : Step C R S) (steps : List (Step C R S)) :
    callsOf (st :: steps) = (st.call, st.reply) :: callsOf steps := rfl

@[simp] theorem callsOf_append (steps steps' : List (Step C R S)) :
    callsOf (steps ++ steps') = callsOf steps ++ callsOf steps' := List.map_append

/-- A run against a handler. A call the handler does not answer ends it without a result. -/
def run (handle : C → S → Option (R × S)) : Program C R α → S → Option (Ran C R S α)
  | .ret a, s => some ⟨a, [], s⟩
  | .call c next, s =>
    match handle c s with
    | none => none
    | some (r, s') =>
      match (next r).run handle s' with
      | none => none
      | some rest => some ⟨rest.result, ⟨s, c, r, s'⟩ :: rest.steps, rest.state⟩

variable {handle : C → S → Option (R × S)}

@[simp] theorem run_ret (a : α) (s : S) :
    (ret a : Program C R α).run handle s = some ⟨a, [], s⟩ := rfl

theorem run_call_eq_some {c : C} {next : R → Program C R α} {s : S} {ran : Ran C R S α} :
    (call c next).run handle s = some ran ↔
      ∃ r s' rest, handle c s = some (r, s') ∧ (next r).run handle s' = some rest ∧
        ran = ⟨rest.result, ⟨s, c, r, s'⟩ :: rest.steps, rest.state⟩ := by
  simp only [run]
  constructor
  · intro h
    split at h
    · -- The call is not answered
      cases h
    next r s' answered =>
      split at h
      · -- The rest of the run is not answered
        cases h
      next rest ended => exact ⟨r, s', rest, answered, ended, (Option.some.inj h).symm⟩
  · rintro ⟨r, s', rest, answered, ended, rfl⟩
    simp only [answered, ended]

theorem run_bind_eq_some {p : Program C R α} {f : α → Program C R β} {s : S}
    {ran : Ran C R S β} :
    (p.bind f).run handle s = some ran ↔
      ∃ first rest, p.run handle s = some first ∧
        (f first.result).run handle first.state = some rest ∧
        ran = ⟨rest.result, first.steps ++ rest.steps, rest.state⟩ := by
  induction p generalizing s ran with
  | ret a => simp
  | call c next ih =>
    rw [call_bind, run_call_eq_some]
    constructor
    · -- Both parts run: the first call belongs to the first of them
      rintro ⟨r, s', whole, answered, ended, rfl⟩
      obtain ⟨first, rest, begun, tailEnded, rfl⟩ := (ih r).mp ended
      exact ⟨_, rest, run_call_eq_some.mpr ⟨r, s', first, answered, begun, rfl⟩, tailEnded, rfl⟩
    · rintro ⟨first, rest, begun, ended, rfl⟩
      obtain ⟨r, s', tail, answered, tailBegun, rfl⟩ := run_call_eq_some.mp begun
      exact ⟨r, s', _, answered, (ih r).mpr ⟨tail, rest, tailBegun, ended, rfl⟩, rfl⟩

/-- The invariant rule. `I done s` relates the calls made so far to the handler's state; only the
calls the run really makes have to preserve it. -/
theorem run_invariant {I : List (C × R) → S → Prop} {P : C → Prop}
    (step : ∀ done c s r s', P c → handle c s = some (r, s') → I done s → I (done ++ [(c, r)]) s')
    {p : Program C R α} {done : List (C × R)} {s : S} {ran : Ran C R S α} (start : I done s)
    (ended : p.run handle s = some ran) (made : ∀ st ∈ ran.steps, P st.call) :
    I (done ++ ran.calls) ran.state := by
  induction p generalizing done s ran with
  | ret a =>
    cases ended
    simpa [Ran.calls] using start
  | call c next ih =>
    obtain ⟨r, s', rest, answered, tailEnded, rfl⟩ := run_call_eq_some.mp ended
    -- The invariant moves over the first call, so the rest starts from `done ++ [(c, r)]`.
    have first : P c := made _ List.mem_cons_self
    have moved := ih r (step done c s r s' first answered start) tailEnded
      fun st hst => made st (List.mem_cons_of_mem _ hst)
    simpa [Ran.calls] using moved

/-- An invariant of the handler's state alone. -/
theorem run_keeps {I : S → Prop} {P : C → Prop}
    (step : ∀ c s r s', P c → handle c s = some (r, s') → I s → I s') {p : Program C R α} {s : S}
    {ran : Ran C R S α} (start : I s) (ended : p.run handle s = some ran)
    (made : ∀ st ∈ ran.steps, P st.call) : I ran.state :=
  @run_invariant _ _ _ _ _ (fun _ => I) P (fun _ => step) p [] s ran start ended made

/-- The invariant before a step, when the calls up to that step preserve it. -/
theorem run_invariant_before {I : List (C × R) → S → Prop} {P : C → Prop}
    (step : ∀ done c s r s', P c → handle c s = some (r, s') → I done s → I (done ++ [(c, r)]) s')
    {p : Program C R α} {done : List (C × R)} {s : S} {ran : Ran C R S α} (start : I done s)
    (ended : p.run handle s = some ran) {pre post : List (Step C R S)} {st : Step C R S}
    (split : ran.steps = pre ++ st :: post) (made : ∀ st' ∈ pre, P st'.call) :
    I (done ++ callsOf pre) st.before ∧ handle st.call st.before = some (st.reply, st.after) := by
  induction p generalizing done s ran pre with
  | ret a =>
    cases ended
    simp at split
  | call c next ih =>
    obtain ⟨r, s', rest, answered, tailEnded, rfl⟩ := run_call_eq_some.mp ended
    cases pre with
    | nil =>
      -- The step is the first of the run
      obtain ⟨rfl, -⟩ := List.cons.inj split
      exact ⟨by simpa using start, answered⟩
    | cons st' pre =>
      -- The step comes later: the invariant moves over the first call
      obtain ⟨rfl, tail⟩ := List.cons.inj split
      have first : P c := made _ List.mem_cons_self
      have moved := ih r (step done c s r s' first answered start) tailEnded tail
        fun st hst => made st (List.mem_cons_of_mem _ hst)
      simpa using moved

/-- The handler gave every answer of a run, in the state before the call. -/
theorem run_answered {p : Program C R α} {s : S} {ran : Ran C R S α}
    (ended : p.run handle s = some ran) {pre post : List (Step C R S)} {st : Step C R S}
    (split : ran.steps = pre ++ st :: post) :
    handle st.call st.before = some (st.reply, st.after) :=
  (@run_invariant_before _ _ _ _ handle (fun _ _ => True) (fun _ => True)
    (fun _ _ _ _ _ _ _ _ => trivial) p [] s ran trivial ended pre post st split
    fun _ _ => trivial).2

/-- The call a program starts with. -/
def firstCall : Program C R α → Option C
  | .ret _ => none
  | .call c _ => some c

theorem firstCall_bind {p : Program C R α} {c : C} (h : p.firstCall = some c)
    (f : α → Program C R β) : (p.bind f).firstCall = some c := by
  cases p with
  | ret a => cases h
  | call c' next => exact h

/-- Every call the program can issue satisfies `P`. -/
def Only (P : C → Prop) : Program C R α → Prop
  | .ret _ => True
  | .call c next => P c ∧ ∀ r, (next r).Only P

theorem Only.steps {P : C → Prop} {p : Program C R α} (h : p.Only P) {s : S} {ran : Ran C R S α}
    (ended : p.run handle s = some ran) : ∀ st ∈ ran.steps, P st.call := by
  induction p generalizing s ran with
  | ret a =>
    cases ended
    simp
  | call c next ih =>
    obtain ⟨r, s', rest, -, tailEnded, rfl⟩ := run_call_eq_some.mp ended
    exact List.forall_mem_cons.mpr ⟨h.1, ih r (h.2 r) tailEnded⟩

theorem Only.mono {P P' : C → Prop} {p : Program C R α} (h : p.Only P) (weaker : ∀ c, P c → P' c) :
    p.Only P' := by
  induction p with
  | ret a => exact trivial
  | call c next ih => exact ⟨weaker c h.1, fun r => ih r (h.2 r)⟩

theorem only_bind {P : C → Prop} {p : Program C R α} {f : α → Program C R β} (hp : p.Only P)
    (hf : ∀ a, (f a).Only P) : (p.bind f).Only P := by
  induction p with
  | ret a => exact hf a
  | call c next ih => exact ⟨hp.1, fun r => ih r (hp.2 r)⟩

/-- A program whose calls are all answered ends. -/
theorem Only.ends {P : C → Prop} {p : Program C R α} (h : p.Only P)
    (answers : ∀ c s, P c → (handle c s).isSome) (s : S) : (p.run handle s).isSome := by
  induction p generalizing s with
  | ret a => rfl
  | call c next ih =>
    obtain ⟨⟨r, s'⟩, answered⟩ := Option.isSome_iff_exists.mp (answers c s h.1)
    obtain ⟨rest, ended⟩ := Option.isSome_iff_exists.mp (ih r (h.2 r) s')
    exact Option.isSome_iff_exists.mpr
      ⟨_, run_call_eq_some.mpr ⟨r, s', rest, answered, ended, rfl⟩⟩

/-! ### Executions under every admissible reply -/

/-- `p.Exec legal calls a`: with replies that `legal` admits, `p` can make exactly `calls` and
return `a`. -/
inductive Exec (legal : C → R → Prop) : Program C R α → List (C × R) → α → Prop where
  | ret (a : α) : Exec legal (.ret a) [] a
  | call {c : C} {next : R → Program C R α} {r : R} {calls : List (C × R)} {a : α}
      (admitted : legal c r) (rest : Exec legal (next r) calls a) :
      Exec legal (.call c next) ((c, r) :: calls) a

/-- Where every call has an admissible reply, a program has an execution, and it starts with its
first call. -/
theorem exists_exec {legal : C → R → Prop} (answers : ∀ c, ∃ r, legal c r) (p : Program C R α) :
    ∃ calls a, p.Exec legal calls a ∧ (calls.head?.map Prod.fst) = p.firstCall := by
  induction p with
  | ret a => exact ⟨[], a, .ret a, rfl⟩
  | call c next ih =>
    obtain ⟨r, admitted⟩ := answers c
    obtain ⟨calls, a, rest, -⟩ := ih r
    exact ⟨(c, r) :: calls, a, .call admitted rest, rfl⟩

/-- Every execution starts with the first call. -/
theorem Exec.head {legal : C → R → Prop} {p : Program C R α} {calls : List (C × R)} {a : α}
    (e : p.Exec legal calls a) : calls.head?.map Prod.fst = p.firstCall := by
  cases e with
  | ret a => rfl
  | call admitted rest => rfl

theorem Only.calls {P : C → Prop} {p : Program C R α} (h : p.Only P) {calls : List (C × R)} {a : α}
    {legal : C → R → Prop} (e : p.Exec legal calls a) : ∀ cr ∈ calls, P cr.1 := by
  induction e with
  | ret a => nofun
  | call admitted rest ih => exact List.forall_mem_cons.mpr ⟨h.1, ih (h.2 _)⟩

/-- The weakest precondition: under every admissible reply the result satisfies `Q`. -/
def wp (legal : C → R → Prop) (Q : α → Prop) : Program C R α → Prop
  | .ret a => Q a
  | .call c next => ∀ r, legal c r → (next r).wp legal Q

variable {legal : C → R → Prop}

theorem wp_bind (p : Program C R α) (f : α → Program C R β) (Q : β → Prop) :
    (p.bind f).wp legal Q ↔ p.wp legal fun a => (f a).wp legal Q := by
  induction p with
  | ret a => rfl
  | call c next ih => simp only [call_bind, wp, ih]

theorem wp_mono {p : Program C R α} {P Q : α → Prop} (h : ∀ a, P a → Q a) (hp : p.wp legal P) :
    p.wp legal Q := by
  induction p with
  | ret a => exact h a hp
  | call c next ih => exact fun r hr => ih r (hp r hr)

theorem wp_iff_exec (p : Program C R α) (Q : α → Prop) :
    p.wp legal Q ↔ ∀ calls a, p.Exec legal calls a → Q a := by
  induction p with
  | ret a =>
    constructor
    · rintro h _ _ ⟨⟩
      exact h
    · exact fun h => h [] a (.ret a)
  | call c next ih =>
    constructor
    · rintro h _ _ (_ | ⟨admitted, rest⟩)
      exact (ih _).mp (h _ admitted) _ _ rest
    · exact fun h r admitted => (ih r).mpr fun calls a rest => h _ a (.call admitted rest)

theorem exec_ret {a b : α} {calls : List (C × R)} :
    (ret a : Program C R α).Exec legal calls b ↔ calls = [] ∧ b = a := by
  constructor
  · rintro ⟨⟩
    exact ⟨rfl, rfl⟩
  · rintro ⟨rfl, rfl⟩
    exact .ret b

theorem exec_call {c : C} {next : R → Program C R α} {calls : List (C × R)} {a : α} :
    (call c next).Exec legal calls a ↔
      ∃ r rest, calls = (c, r) :: rest ∧ legal c r ∧ (next r).Exec legal rest a := by
  constructor
  · rintro (_ | ⟨admitted, rest⟩)
    exact ⟨_, _, rfl, admitted, rest⟩
  · rintro ⟨r, rest, rfl, admitted, run⟩
    exact .call admitted run

theorem exec_bind {p : Program C R α} {f : α → Program C R β} {calls : List (C × R)} {b : β} :
    (p.bind f).Exec legal calls b ↔
      ∃ first rest a, calls = first ++ rest ∧ p.Exec legal first a ∧ (f a).Exec legal rest b := by
  induction p generalizing calls with
  | ret a =>
    constructor
    · intro h
      exact ⟨[], calls, a, rfl, .ret a, h⟩
    · rintro ⟨first, rest, a', rfl, hp, hf⟩
      obtain ⟨rfl, rfl⟩ := exec_ret.mp hp
      exact hf
  | call c next ih =>
    rw [call_bind, exec_call]
    constructor
    · -- The first call belongs to the first part
      rintro ⟨r, tail, rfl, admitted, h⟩
      obtain ⟨first, rest, a, rfl, hp, hf⟩ := (ih r).mp h
      exact ⟨(c, r) :: first, rest, a, rfl, .call admitted hp, hf⟩
    · rintro ⟨first, rest, a, rfl, hp, hf⟩
      obtain ⟨r, tail, rfl, admitted, hp⟩ := exec_call.mp hp
      exact ⟨r, tail ++ rest, rfl, admitted, (ih r).mpr ⟨tail, rest, a, rfl, hp, hf⟩⟩

/-- A run is an execution under replies of which its own ones are. -/
theorem exec_of_calls {p : Program C R α} {s : S} {ran : Ran C R S α}
    (ended : p.run handle s = some ran) (admitted : ∀ cr ∈ ran.calls, legal cr.1 cr.2) :
    p.Exec legal ran.calls ran.result := by
  induction p generalizing s ran with
  | ret a =>
    cases ended
    exact .ret a
  | call c next ih =>
    obtain ⟨r, s', rest, answered, tailEnded, rfl⟩ := run_call_eq_some.mp ended
    obtain ⟨first, later⟩ := List.forall_mem_cons.mp admitted
    exact .call first (ih r tailEnded later)

/-- A run whose handler keeps an invariant and replies admissibly is an execution. -/
theorem exec_of_run {I : S → Prop}
    (answer : ∀ c s r s', handle c s = some (r, s') → I s → legal c r ∧ I s')
    {p : Program C R α} {s : S} {ran : Ran C R S α} (start : I s)
    (ended : p.run handle s = some ran) :
    p.Exec legal ran.calls ran.result ∧ I ran.state := by
  induction p generalizing s ran with
  | ret a =>
    cases ended
    exact ⟨.ret a, start⟩
  | call c next ih =>
    obtain ⟨r, s', rest, answered, tailEnded, rfl⟩ := run_call_eq_some.mp ended
    obtain ⟨admitted, kept⟩ := answer c s r s' answered start
    obtain ⟨tail, last⟩ := ih r kept tailEnded
    exact ⟨.call admitted tail, last⟩

end Program
