import Smultron.Lib.Checked
import Smultron.Lib.Program

/-!
# Procedures that issue calls and can panic

A procedure of a checked language that talks to an environment: a program over calls whose result
is an outcome without errors. Its parts are calls and pure steps; a panic ends it. Three views of a
procedure follow the same sequencing rule: its runs against a handler (`run_bind`), its executions
under admissible replies (`exec_bind`), and what holds of every execution (`safe_bind`).
-/

open Checked

/-- A procedure that returns an `α` unless it panics. -/
structure Proc (C R α : Type) where
  program : Program C R (Outcome Empty α)

namespace Proc

variable {C R S α β γ : Type}

/-- What follows a first part: the second one, unless the first panicked. -/
def andThen (f : α → Proc C R β) : Outcome Empty α → Program C R (Outcome Empty β)
  | .ok a => (f a).program
  -- nothing runs behind a panic, so the second part issues no call
  | .panic => .ret .panic

instance : Monad (Proc C R) where
  pure a := ⟨.ret (.ok a)⟩
  bind x f := ⟨x.program.bind (andThen f)⟩

/-- A pure step. -/
def lift (x : Outcome Empty α) : Proc C R α := ⟨.ret x⟩

/-- One call, with its reply as the value. -/
def request (c : C) : Proc C R R := ⟨.call c fun r => .ret (.ok r)⟩

theorem program_bind (x : Proc C R α) (f : α → Proc C R β) :
    (x >>= f).program = x.program.bind (andThen f) := rfl

@[simp] theorem pure_bind (a : α) (f : α → Proc C R β) : (pure a >>= f) = f a := rfl

@[simp] theorem lift_ok (a : α) : (lift (.ok a) : Proc C R α) = pure a := rfl

@[simp] theorem lift_panic_bind (f : α → Proc C R β) : (lift .panic >>= f) = lift .panic := rfl

@[simp] theorem andThen_ok (f : α → Proc C R β) (a : α) : andThen f (.ok a) = (f a).program := rfl

@[simp] theorem andThen_panic (f : α → Proc C R β) : andThen f .panic = .ret .panic := rfl

theorem bind_assoc (x : Proc C R α) (f : α → Proc C R β) (g : β → Proc C R γ) :
    (x >>= f >>= g) = (x >>= fun a => f a >>= g) := by
  have step (o : Outcome Empty α) :
      (andThen f o).bind (andThen g) = andThen (fun a => f a >>= g) o := by
    cases o with
    | ok a => rfl
    | err e => cases e
    | panic => rfl
  have whole : (x.program.bind (andThen f)).bind (andThen g) =
      x.program.bind (andThen fun a => f a >>= g) := by
    rw [Program.bind_assoc]
    exact congrArg _ (funext step)
  exact congrArg Proc.mk whole

/-! ### Runs -/

variable {handle : C → S → Option (R × S)}

def run (handle : C → S → Option (R × S)) (x : Proc C R α) (s : S) :
    Option (Program.Ran C R S (Outcome Empty α)) := x.program.run handle s

theorem run_pure {a : α} {s : S} {ran : Program.Ran C R S (Outcome Empty α)} :
    (pure a : Proc C R α).run handle s = some ran ↔ ran = ⟨.ok a, [], s⟩ :=
  Option.some_inj.trans eq_comm

theorem run_lift {x : Outcome Empty α} {s : S} {ran : Program.Ran C R S (Outcome Empty α)} :
    (lift x : Proc C R α).run handle s = some ran ↔ ran = ⟨x, [], s⟩ :=
  Option.some_inj.trans eq_comm

theorem run_request {c : C} {s : S} {ran : Program.Ran C R S (Outcome Empty R)} :
    (request c : Proc C R R).run handle s = some ran ↔
      ∃ r s', handle c s = some (r, s') ∧ ran = ⟨.ok r, [⟨s, c, r, s'⟩], s'⟩ := by
  rw [run, request, Program.run_call_eq_some]
  constructor
  · rintro ⟨r, s', rest, answered, ended, rfl⟩
    cases ended
    exact ⟨r, s', answered, rfl⟩
  · rintro ⟨r, s', answered, rfl⟩
    exact ⟨r, s', _, answered, rfl, rfl⟩

/-- A procedure that makes one call and goes on without another. -/
theorem run_request_pure {c : C} {g : R → α} {s : S} :
    (request c >>= fun r => (pure (g r) : Proc C R α)).run handle s =
      (handle c s).map fun answer => ⟨.ok (g answer.1), [⟨s, c, answer.1, answer.2⟩], answer.2⟩ := by
  change (Program.call c fun r => Program.ret (Outcome.ok (g r) : Outcome Empty α)).run handle s = _
  cases answered : handle c s with
  | none => simp only [Program.run, answered, Option.map_none]
  | some answer => simp only [Program.run, answered, Option.map_some]

/-- A run of a sequence ends in the first part or goes on with the second. -/
theorem run_bind {x : Proc C R α} {f : α → Proc C R β} {s : S}
    {ran : Program.Ran C R S (Outcome Empty β)} :
    (x >>= f).run handle s = some ran ↔
      ∃ first, x.run handle s = some first ∧
        ((first.result = .panic ∧ ran = ⟨.panic, first.steps, first.state⟩) ∨
          ∃ a rest, first.result = .ok a ∧ (f a).run handle first.state = some rest ∧
            ran = ⟨rest.result, first.steps ++ rest.steps, rest.state⟩) := by
  simp only [run]
  rw [program_bind, Program.run_bind_eq_some]
  constructor
  · rintro ⟨first, rest, begun, ended, rfl⟩
    refine ⟨first, begun, ?_⟩
    -- What the first part came to decides whether the second one ran.
    cases outcome : first.result with
    | ok a =>
      rw [outcome] at ended
      exact .inr ⟨a, rest, rfl, ended, rfl⟩
    | err e => cases e
    | panic =>
      rw [outcome] at ended
      cases ended
      exact .inl ⟨rfl, by simp⟩
  · rintro ⟨first, begun, ⟨outcome, rfl⟩ | ⟨a, rest, outcome, ended, rfl⟩⟩
    · exact ⟨first, ⟨.panic, [], first.state⟩, begun, by rw [outcome]; rfl, by simp⟩
    · exact ⟨first, rest, begun, by rw [outcome]; exact ended, rfl⟩

/-! ### Executions -/

variable {legal : C → R → Prop}

/-- With admissible replies the procedure can make exactly `calls` and come to `o`. -/
def Exec (legal : C → R → Prop) (x : Proc C R α) (calls : List (C × R)) (o : Outcome Empty α) :
    Prop := x.program.Exec legal calls o

theorem exec_pure {a : α} {o : Outcome Empty α} {calls : List (C × R)} :
    (pure a : Proc C R α).Exec legal calls o ↔ calls = [] ∧ o = .ok a := Program.exec_ret

theorem exec_lift {x o : Outcome Empty α} {calls : List (C × R)} :
    (lift x : Proc C R α).Exec legal calls o ↔ calls = [] ∧ o = x := Program.exec_ret

theorem exec_request {c : C} {o : Outcome Empty R} {calls : List (C × R)} :
    (request c : Proc C R R).Exec legal calls o ↔
      ∃ r, calls = [(c, r)] ∧ legal c r ∧ o = .ok r := by
  rw [Exec, request, Program.exec_call]
  constructor
  · rintro ⟨r, rest, rfl, admitted, ended⟩
    obtain ⟨rfl, rfl⟩ := Program.exec_ret.mp ended
    exact ⟨r, rfl, admitted, rfl⟩
  · rintro ⟨r, rfl, admitted, rfl⟩
    exact ⟨r, [], rfl, admitted, .ret _⟩

theorem exec_bind {x : Proc C R α} {f : α → Proc C R β} {calls : List (C × R)}
    {o : Outcome Empty β} :
    (x >>= f).Exec legal calls o ↔
      (x.Exec legal calls .panic ∧ o = .panic) ∨
        ∃ first rest a, calls = first ++ rest ∧ x.Exec legal first (.ok a) ∧
          (f a).Exec legal rest o := by
  simp only [Exec]
  rw [program_bind, Program.exec_bind]
  constructor
  · -- A panic of the first part is the outcome of the whole
    rintro ⟨first, rest, outcome, rfl, begun, ended⟩
    cases outcome with
    | ok a => exact .inr ⟨first, rest, a, rfl, begun, ended⟩
    | err e => cases e
    | panic =>
      obtain ⟨rfl, rfl⟩ := Program.exec_ret.mp ended
      exact .inl ⟨by rwa [List.append_nil], rfl⟩
  · rintro (⟨begun, rfl⟩ | ⟨first, rest, a, rfl, begun, ended⟩)
    · exact ⟨calls, [], .panic, by simp, begun, .ret _⟩
    · exact ⟨first, rest, .ok a, rfl, begun, ended⟩

/-- What is put behind a procedure without a call does not show in the calls. -/
theorem exec_of_bind_pure {x : Proc C R α} {f : α → β} {calls : List (C × R)} {o : Outcome Empty β}
    (e : (x >>= fun a => pure (f a)).Exec legal calls o) : ∃ o', x.Exec legal calls o' := by
  rcases exec_bind.mp e with ⟨begun, -⟩ | ⟨first, rest, a, rfl, begun, ended⟩
  · exact ⟨.panic, begun⟩
  · obtain ⟨rfl, -⟩ := exec_pure.mp ended
    exact ⟨.ok a, by rwa [List.append_nil]⟩

/-- Whatever value the procedure returns satisfies `Q`. -/
def Yields (legal : C → R → Prop) (Q : α → Prop) (x : Proc C R α) : Prop :=
  ∀ calls a, x.Exec legal calls (.ok a) → Q a

theorem yields_pure {Q : α → Prop} {a : α} (h : Q a) : (pure a : Proc C R α).Yields legal Q := by
  intro calls a' e
  obtain ⟨-, same⟩ := exec_pure.mp e
  exact Outcome.ok.inj same ▸ h

theorem yields_lift {Q : α → Prop} {x : Outcome Empty α} (h : x.OkIn Q) :
    (lift x : Proc C R α).Yields legal Q := by
  intro calls a e
  obtain ⟨-, same⟩ := exec_lift.mp e
  exact h.of_ok same.symm

theorem yields_of {Q : α → Prop} (x : Proc C R α) (h : ∀ a, Q a) : x.Yields legal Q :=
  fun _ a _ => h a

theorem yields_bind {Q : β → Prop} {x : Proc C R α} {f : α → Proc C R β}
    (h : x.Yields legal fun a => (f a).Yields legal Q) : (x >>= f).Yields legal Q := by
  intro calls b e
  rcases exec_bind.mp e with ⟨-, impossible⟩ | ⟨first, rest, a, rfl, begun, ended⟩
  · cases impossible
  · exact h first a begun rest b ended

theorem Yields.mono {P Q : α → Prop} {x : Proc C R α} (hx : x.Yields legal P)
    (h : ∀ a, P a → Q a) : x.Yields legal Q := fun calls a e => h a (hx calls a e)

theorem Yields.result {Q : α → Prop} {x : Proc C R α} (h : x.Yields legal Q)
    {calls : List (C × R)} {a : α} (e : x.Exec legal calls (.ok a)) : Q a := h calls a e

attribute [irreducible] Yields

/-! ### Safety -/

/-- Under every admissible reply the procedure does not panic and its result satisfies `Q`. -/
def Safe (legal : C → R → Prop) (Q : α → Prop) (x : Proc C R α) : Prop :=
  x.program.wp legal fun o => ∃ a, o = .ok a ∧ Q a

theorem safe_pure {Q : α → Prop} {a : α} : (pure a : Proc C R α).Safe legal Q ↔ Q a := by
  simp [Safe, pure, Program.wp]

theorem safe_lift {Q : α → Prop} {x : Outcome Empty α} :
    (lift x : Proc C R α).Safe legal Q ↔ ∃ a, x = .ok a ∧ Q a := Iff.rfl

theorem safe_request {Q : R → Prop} {c : C} :
    (request c : Proc C R R).Safe legal Q ↔ ∀ r, legal c r → Q r := by
  simp [Safe, request, Program.wp]

theorem Safe.mono {P Q : α → Prop} {x : Proc C R α} (hx : x.Safe legal P) (h : ∀ a, P a → Q a) :
    x.Safe legal Q :=
  Program.wp_mono (fun _ ⟨a, ok, ha⟩ => ⟨a, ok, h a ha⟩) hx

/-- A sequence is safe when its second part is safe after every result of the first. -/
theorem safe_bind {Q : β → Prop} {x : Proc C R α} {f : α → Proc C R β} :
    (x >>= f).Safe legal Q ↔ x.Safe legal fun a => (f a).Safe legal Q := by
  rw [Safe, program_bind, Program.wp_bind]
  constructor
  · refine Program.wp_mono fun o h => ?_
    cases o with
    | ok a => exact ⟨a, rfl, h⟩
    | err e => cases e
    | panic =>
      -- A panic has no result, so it does not satisfy the precondition
      obtain ⟨_, impossible, -⟩ := h
      cases impossible
  · refine Program.wp_mono ?_
    rintro _ ⟨a, rfl, ha⟩
    exact ha

theorem safe_lift_of_sound {Q : α → Prop} {x : Outcome Empty α} (h : x.Sound Q) :
    (lift x : Proc C R α).Safe legal Q := safe_lift.mpr h.value

theorem safe_lift_bind {Q : β → Prop} {x : Outcome Empty α} {f : α → Proc C R β}
    (h : x.Sound fun a => (f a).Safe legal Q) : (lift x >>= f).Safe legal Q :=
  safe_bind.mpr (safe_lift_of_sound h)

theorem safe_request_bind {Q : β → Prop} {c : C} {f : R → Proc C R β}
    (h : ∀ r, legal c r → (f r).Safe legal Q) : (request c >>= f).Safe legal Q :=
  safe_bind.mpr (safe_request.mpr h)

theorem safe_bind_lift {Q : β → Prop} {x : Outcome Empty α} {f : α → Proc C R β}
    (h : (lift x >>= f).Safe legal Q) : ∃ a, x = .ok a ∧ (f a).Safe legal Q :=
  safe_lift.mp (safe_bind.mp h)

theorem safe_bind_request {Q : β → Prop} {c : C} {f : R → Proc C R β}
    (h : (request c >>= f).Safe legal Q) {r : R} (admitted : legal c r) : (f r).Safe legal Q :=
  safe_request.mp (safe_bind.mp h) r admitted

/-- A safe procedure has no execution that panics. -/
theorem safe_iff_exec {Q : α → Prop} {x : Proc C R α} :
    x.Safe legal Q ↔ ∀ calls o, x.Exec legal calls o → ∃ a, o = .ok a ∧ Q a :=
  Program.wp_iff_exec x.program _

theorem safe_iff_no_panic {x : Proc C R α} :
    x.Safe legal (fun _ => True) ↔ ∀ calls, ¬x.Exec legal calls .panic := by
  rw [safe_iff_exec]
  constructor
  · intro safe calls panics
    obtain ⟨_, impossible, -⟩ := safe calls .panic panics
    cases impossible
  · intro none calls o e
    cases o with
    | ok a => exact ⟨a, rfl, trivial⟩
    | err impossible => cases impossible
    | panic => exact absurd e (none calls)

/-- What a safe procedure can return satisfies its postcondition. -/
theorem Safe.result {Q : α → Prop} {x : Proc C R α} (h : x.Safe legal Q) {calls : List (C × R)}
    {a : α} (e : x.Exec legal calls (.ok a)) : Q a := by
  obtain ⟨a', same, q⟩ := safe_iff_exec.mp h calls _ e
  rwa [Outcome.ok.inj same]

-- the rules above are the interface: unfolding would run the procedure
attribute [irreducible] Safe

/-! ### What the calls of an execution are -/

/-- After the calls `done`, every execution ends with calls and an outcome that satisfy `Q`. -/
def Traces (legal : C → R → Prop) (done : List (C × R))
    (Q : List (C × R) → Outcome Empty α → Prop) (x : Proc C R α) : Prop :=
  ∀ calls o, x.Exec legal calls o → Q (done ++ calls) o

variable {done : List (C × R)} {Q : List (C × R) → Outcome Empty α → Prop}

theorem Traces.pure {a : α} (h : Q done (.ok a)) :
    Traces legal done Q (Pure.pure a : Proc C R α) := by
  intro calls o e
  obtain ⟨rfl, rfl⟩ := exec_pure.mp e
  simpa using h

theorem Traces.lift {x : Outcome Empty α} (h : Q done x) :
    Traces legal done Q (Proc.lift x : Proc C R α) := by
  intro calls o e
  obtain ⟨rfl, rfl⟩ := exec_lift.mp e
  simpa using h

theorem Traces.request {c : C} {Q : List (C × R) → Outcome Empty R → Prop}
    (h : ∀ r, legal c r → Q (done ++ [(c, r)]) (.ok r)) :
    Traces legal done Q (Proc.request c : Proc C R R) := by
  intro calls o e
  obtain ⟨r, rfl, admitted, rfl⟩ := exec_request.mp e
  exact h r admitted

theorem Traces.bind {Q : List (C × R) → Outcome Empty β → Prop} {x : Proc C R α}
    {f : α → Proc C R β}
    (h : Traces legal done (fun d o => (o = .panic → Q d .panic) ∧
      ∀ a, o = .ok a → Traces legal d Q (f a)) x) :
    Traces legal done Q (x >>= f) := by
  intro calls o e
  rcases exec_bind.mp e with ⟨begun, rfl⟩ | ⟨first, rest, a, rfl, begun, ended⟩
  · exact (h calls .panic begun).1 rfl
  · -- The calls of the first part join those done before
    rw [← List.append_assoc]
    exact (h first (.ok a) begun).2 a rfl rest o ended

theorem Traces.request_bind {c : C} {f : R → Proc C R α}
    (h : ∀ r, legal c r → Traces legal (done ++ [(c, r)]) Q (f r)) :
    Traces legal done Q (Proc.request c >>= f) :=
  Traces.bind (Traces.request fun r admitted => ⟨nofun, fun _ same => by cases same; exact h r admitted⟩)

theorem Traces.mono {P : List (C × R) → Outcome Empty α → Prop} {x : Proc C R α}
    (hx : Traces legal done P x) (h : ∀ d o, done <+: d → P d o → Q d o) :
    Traces legal done Q x :=
  fun calls o e => h _ o ⟨calls, rfl⟩ (hx calls o e)

/-! ### What a run against a handler comes to -/

variable {s : S}

/-- Every run from `s` comes to an outcome and a state that satisfy `Q`. -/
def After (handle : C → S → Option (R × S)) (s : S) (Q : Outcome Empty α → S → Prop)
    (x : Proc C R α) : Prop :=
  ∀ ran, x.run handle s = some ran → Q ran.result ran.state

section After

variable {Q : Outcome Empty α → S → Prop}

theorem After.pure {a : α} (h : Q (.ok a) s) : After handle s Q (Pure.pure a : Proc C R α) := by
  intro ran ended
  rw [run_pure.mp ended]
  exact h

theorem After.lift {x : Outcome Empty α} (h : Q x s) :
    After handle s Q (Proc.lift x : Proc C R α) := by
  intro ran ended
  rw [run_lift.mp ended]
  exact h

theorem After.request {c : C} {Q : Outcome Empty R → S → Prop}
    (h : ∀ r s', handle c s = some (r, s') → Q (.ok r) s') :
    After handle s Q (Proc.request c : Proc C R R) := by
  intro ran ended
  obtain ⟨r, s', answered, rfl⟩ := run_request.mp ended
  exact h r s' answered

theorem After.bind {Q : Outcome Empty β → S → Prop} {x : Proc C R α} {f : α → Proc C R β}
    (h : After handle s (fun o s' => (o = .panic → Q .panic s') ∧
      ∀ a, o = .ok a → After handle s' Q (f a)) x) :
    After handle s Q (x >>= f) := by
  intro ran ended
  obtain ⟨first, begun, ⟨outcome, rfl⟩ | ⟨a, rest, outcome, later, rfl⟩⟩ := run_bind.mp ended
  · exact (h first begun).1 outcome
  · exact (h first begun).2 a outcome rest later

theorem After.request_bind {Q : Outcome Empty β → S → Prop} {c : C} {f : R → Proc C R β}
    (h : ∀ r s', handle c s = some (r, s') → After handle s' Q (f r)) :
    After handle s Q (Proc.request c >>= f) :=
  After.bind (After.request fun r s' answered =>
    ⟨nofun, fun _ same => by cases same; exact h r s' answered⟩)

theorem After.lift_bind {Q : Outcome Empty β → S → Prop} {x : Outcome Empty α}
    {f : α → Proc C R β} (panics : Q .panic s) (h : ∀ a, x = .ok a → After handle s Q (f a)) :
    After handle s Q (Proc.lift x >>= f) :=
  After.bind (After.lift ⟨fun _ => panics, h⟩)

theorem After.mono {P : Outcome Empty α → S → Prop} {x : Proc C R α} (hx : After handle s P x)
    (h : ∀ o s', P o s' → Q o s') : After handle s Q x :=
  fun ran ended => h _ _ (hx ran ended)

end After

/-! ### The calls a run makes on its way -/

/-- After the calls `done`, every run from `s` ends with calls, an outcome and a state that satisfy
`Q`. -/
def Leads (handle : C → S → Option (R × S)) (done : List (C × R)) (s : S)
    (Q : List (C × R) → Outcome Empty α → S → Prop) (x : Proc C R α) : Prop :=
  ∀ ran, x.run handle s = some ran → Q (done ++ ran.calls) ran.result ran.state

section Leads

variable {Q : List (C × R) → Outcome Empty α → S → Prop}

theorem Leads.pure {a : α} (h : Q done (.ok a) s) :
    Leads handle done s Q (Pure.pure a : Proc C R α) := by
  intro ran ended
  rw [run_pure.mp ended]
  simpa [Program.Ran.calls] using h

theorem Leads.lift {x : Outcome Empty α} (h : Q done x s) :
    Leads handle done s Q (Proc.lift x : Proc C R α) := by
  intro ran ended
  rw [run_lift.mp ended]
  simpa [Program.Ran.calls] using h

theorem Leads.request {c : C} {Q : List (C × R) → Outcome Empty R → S → Prop}
    (h : ∀ r s', handle c s = some (r, s') → Q (done ++ [(c, r)]) (.ok r) s') :
    Leads handle done s Q (Proc.request c : Proc C R R) := by
  intro ran ended
  obtain ⟨r, s', answered, rfl⟩ := run_request.mp ended
  exact h r s' answered

theorem Leads.bind {Q : List (C × R) → Outcome Empty β → S → Prop} {x : Proc C R α}
    {f : α → Proc C R β}
    (h : Leads handle done s (fun d o s' => (o = .panic → Q d .panic s') ∧
      ∀ a, o = .ok a → Leads handle d s' Q (f a)) x) :
    Leads handle done s Q (x >>= f) := by
  intro ran ended
  obtain ⟨first, begun, ⟨outcome, rfl⟩ | ⟨a, rest, outcome, later, rfl⟩⟩ := run_bind.mp ended
  · exact (h first begun).1 outcome
  · -- The calls of the first part join those done before
    have whole := (h first begun).2 a outcome rest later
    simpa [Program.Ran.calls] using whole

/-- A sequence whose first part does not panic. -/
theorem Leads.bind_ok {Q : List (C × R) → Outcome Empty β → S → Prop} {x : Proc C R α}
    {f : α → Proc C R β}
    (h : Leads handle done s (fun d o s' => ∃ a, o = .ok a ∧ Leads handle d s' Q (f a)) x) :
    Leads handle done s Q (x >>= f) := by
  refine Leads.bind fun ran ended => ?_
  obtain ⟨a, outcome, later⟩ := h ran ended
  rw [outcome]
  refine ⟨fun panics => ?_, fun a' same => ?_⟩
  · cases panics
  · exact Outcome.ok.inj same ▸ later

theorem Leads.request_bind {Q : List (C × R) → Outcome Empty β → S → Prop} {c : C}
    {f : R → Proc C R β}
    (h : ∀ r s', handle c s = some (r, s') → Leads handle (done ++ [(c, r)]) s' Q (f r)) :
    Leads handle done s Q (Proc.request c >>= f) :=
  Leads.bind (Leads.request fun r s' answered =>
    ⟨nofun, fun _ same => by cases same; exact h r s' answered⟩)

theorem Leads.lift_bind {Q : List (C × R) → Outcome Empty β → S → Prop} {x : Outcome Empty α}
    {f : α → Proc C R β} (panics : x = .panic → Q done .panic s)
    (h : ∀ a, x = .ok a → Leads handle done s Q (f a)) :
    Leads handle done s Q (Proc.lift x >>= f) :=
  Leads.bind (Leads.lift ⟨panics, h⟩)

theorem Leads.mono {P : List (C × R) → Outcome Empty α → S → Prop} {x : Proc C R α}
    (hx : Leads handle done s P x) (h : ∀ d o s', P d o s' → Q d o s') :
    Leads handle done s Q x :=
  fun ran ended => h _ _ _ (hx ran ended)

/-- What holds after a run from its first call on. -/
theorem Leads.ran {x : Proc C R α} (hx : Leads handle [] s Q x)
    {ran : Program.Ran C R S (Outcome Empty α)} (ended : x.run handle s = some ran) :
    Q ran.calls ran.result ran.state := hx ran ended

end Leads

/-! ### Runs that come to an end -/

/-- The run from `s` comes to an end, with an outcome and a state that satisfy `Q`. -/
def Ends (handle : C → S → Option (R × S)) (s : S) (Q : Outcome Empty α → S → Prop)
    (x : Proc C R α) : Prop :=
  ∃ ran, x.run handle s = some ran ∧ Q ran.result ran.state

section Ends

variable {Q : Outcome Empty α → S → Prop}

theorem Ends.pure {a : α} (h : Q (.ok a) s) : Ends handle s Q (Pure.pure a : Proc C R α) :=
  ⟨_, run_pure.mpr rfl, h⟩

/-- The second part starts where the first one has ended. -/
theorem Ends.bind {Q : Outcome Empty β → S → Prop} {x : Proc C R α} {f : α → Proc C R β}
    (h : Ends handle s (fun o s' => ∃ a, o = .ok a ∧ Ends handle s' Q (f a)) x) :
    Ends handle s Q (x >>= f) := by
  obtain ⟨first, begun, a, outcome, rest, later, post⟩ := h
  exact ⟨_, run_bind.mpr ⟨first, begun, .inr ⟨a, rest, outcome, later, rfl⟩⟩, post⟩

theorem Ends.request_bind {c : C} {f : R → Proc C R α} {r : R} {s' : S}
    (answered : handle c s = some (r, s')) (h : Ends handle s' Q (f r)) :
    Ends handle s Q (Proc.request c >>= f) :=
  Ends.bind ⟨_, run_request.mpr ⟨r, s', answered, rfl⟩, r, rfl, h⟩

theorem Ends.mono {P : Outcome Empty α → S → Prop} {x : Proc C R α} (hx : Ends handle s P x)
    (h : ∀ o s', P o s' → Q o s') : Ends handle s Q x := by
  obtain ⟨ran, ended, post⟩ := hx
  exact ⟨ran, ended, h _ _ post⟩

end Ends

/-- The call the procedure starts with. -/
def firstCall (x : Proc C R α) : Option C := x.program.firstCall

theorem firstCall_request (c : C) : (request c : Proc C R R).firstCall = some c := rfl

theorem firstCall_bind {x : Proc C R α} {c : C} (h : x.firstCall = some c) (f : α → Proc C R β) :
    (x >>= f).firstCall = some c := Program.firstCall_bind h _

theorem exists_exec_firstCall (answers : ∀ c, ∃ r, legal c r) {x : Proc C R α} {c : C}
    (h : x.firstCall = some c) : ∃ calls o r, x.Exec legal calls o ∧ (c, r) ∈ calls := by
  obtain ⟨calls, o, e, first⟩ := Program.exists_exec answers x.program
  obtain ⟨⟨c', r⟩, head, same⟩ := Option.map_eq_some_iff.mp (first.trans h)
  obtain rfl : c' = c := same
  exact ⟨calls, o, r, e, List.mem_of_head? head⟩

/-- Some execution makes a call that satisfies `P`. -/
def CanCall (legal : C → R → Prop) (P : C → Prop) (x : Proc C R α) : Prop :=
  ∃ calls o, x.Exec legal calls o ∧ ∃ cr ∈ calls, P cr.1

section CanCall

variable {P : C → Prop}

theorem canCall_firstCall (answers : ∀ c, ∃ r, legal c r) {x : Proc C R α} {c : C}
    (first : x.firstCall = some c) (h : P c) : CanCall legal P x := by
  obtain ⟨calls, o, r, e, called⟩ := exists_exec_firstCall answers first
  exact ⟨calls, o, e, (c, r), called, h⟩

/-- A call of the first part is one of the whole. -/
theorem CanCall.bind (answers : ∀ c, ∃ r, legal c r) {x : Proc C R α} (h : CanCall legal P x)
    (f : α → Proc C R β) : CanCall legal P (x >>= f) := by
  obtain ⟨calls, o, e, cr, called, satisfies⟩ := h
  cases o with
  | ok a =>
    obtain ⟨rest, o', later, -⟩ := Program.exists_exec answers (f a).program
    exact ⟨calls ++ rest, o', exec_bind.mpr (.inr ⟨calls, rest, a, rfl, e, later⟩), cr,
      List.mem_append_left _ called, satisfies⟩
  | err impossible => cases impossible
  | panic => exact ⟨calls, .panic, exec_bind.mpr (.inl ⟨e, rfl⟩), cr, called, satisfies⟩

/-- So is one of the second part, behind an execution of the first. -/
theorem canCall_bind {x : Proc C R α} {f : α → Proc C R β} {calls : List (C × R)} {a : α}
    (e : x.Exec legal calls (.ok a)) (h : CanCall legal P (f a)) : CanCall legal P (x >>= f) := by
  obtain ⟨rest, o, later, cr, called, satisfies⟩ := h
  exact ⟨calls ++ rest, o, exec_bind.mpr (.inr ⟨calls, rest, a, rfl, e, later⟩), cr,
    List.mem_append_right _ called, satisfies⟩

end CanCall

/-- Every call the procedure can issue satisfies `P`. -/
def Only (P : C → Prop) (x : Proc C R α) : Prop := x.program.Only P

section Only

variable {P : C → Prop}

theorem only_pure (a : α) : (pure a : Proc C R α).Only P := trivial

theorem only_lift (x : Outcome Empty α) : (lift x : Proc C R α).Only P := trivial

theorem only_request {c : C} (h : P c) : (request c : Proc C R R).Only P := ⟨h, fun _ => trivial⟩

theorem only_bind {x : Proc C R α} {f : α → Proc C R β} (hx : x.Only P)
    (hf : ∀ a, (f a).Only P) : (x >>= f).Only P := by
  refine Program.only_bind hx fun o => ?_
  cases o with
  | ok a => exact hf a
  | err e => cases e
  | panic => exact trivial

theorem Only.calls {x : Proc C R α} (h : x.Only P) {calls : List (C × R)} {o : Outcome Empty α}
    (e : x.Exec legal calls o) : ∀ cr ∈ calls, P cr.1 := Program.Only.calls h e

theorem Only.steps {x : Proc C R α} (h : x.Only P) {ran : Program.Ran C R S (Outcome Empty α)}
    (ended : x.run handle s = some ran) : ∀ st ∈ ran.steps, P st.call := Program.Only.steps h ended

/-- A procedure whose calls are all answered ends. -/
theorem Only.ends {x : Proc C R α} (h : x.Only P)
    (answers : ∀ c s, P c → (handle c s).isSome) (s : S) : (x.run handle s).isSome :=
  Program.Only.ends h answers s

theorem Only.mono {P' : C → Prop} {x : Proc C R α} (h : x.Only P) (weaker : ∀ c, P c → P' c) :
    x.Only P' := Program.Only.mono h weaker

/-- What the calls of a procedure preserve holds after it. -/
theorem Only.after {I : S → Prop} {x : Proc C R α} (h : x.Only P)
    (step : ∀ c s r s', P c → handle c s = some (r, s') → I s → I s') (start : I s) :
    After handle s (fun _ s' => I s') x :=
  fun _ ended => Program.run_keeps step start ended (Program.Only.steps h ended)

end Only

-- as for `Safe`
attribute [irreducible] Only

end Proc
