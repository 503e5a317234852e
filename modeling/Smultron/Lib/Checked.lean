import Mathlib.Tactic.Common

/-!
# Outcomes of code that can fail or panic

A result of code compiled with checked indexing and checked arithmetic: it returns a value, it
returns an error, or it panics. The operations below are the partial ones such code is built
from; each names the condition under which it does not panic.
-/

namespace Checked

/-- What a call comes to: a value, an error value, or a panic. -/
inductive Outcome (ε α : Type) where
  | ok (value : α)
  | err (error : ε)
  | panic
  deriving DecidableEq, Repr

namespace Outcome

variable {ε α β : Type}

def bind (x : Outcome ε α) (f : α → Outcome ε β) : Outcome ε β :=
  match x with
  | .ok a => f a
  | .err e => .err e
  | .panic => .panic

instance : Monad (Outcome ε) where
  pure := .ok
  bind := bind

@[simp] theorem pure_eq (a : α) : (pure a : Outcome ε α) = .ok a := rfl
@[simp] theorem ok_bind (a : α) (f : α → Outcome ε β) : (Outcome.ok a >>= f) = f a := rfl
@[simp] theorem err_bind (e : ε) (f : α → Outcome ε β) : (Outcome.err e >>= f) = .err e := rfl
@[simp] theorem panic_bind (f : α → Outcome ε β) : (Outcome.panic >>= f) = .panic := rfl

instance : LawfulMonad (Outcome ε) := LawfulMonad.mk' (Outcome ε)
  (by rintro _ (a | e | _) <;> rfl) (fun _ _ => rfl) (by rintro _ _ _ (a | e | _) _ _ <;> rfl)

theorem bind_eq_ok {x : Outcome ε α} {f : α → Outcome ε β} {b : β} :
    (x >>= f) = .ok b ↔ ∃ a, x = .ok a ∧ f a = .ok b := by
  cases x <;> simp

theorem bind_ne_panic {x : Outcome ε α} {f : α → Outcome ε β}
    (hx : x ≠ .panic) (hf : ∀ a, x = .ok a → f a ≠ .panic) : (x >>= f) ≠ .panic := by
  cases x with
  | ok a => exact hf a rfl
  | err e => simp
  | panic => exact absurd rfl hx

/-- `opt.ok_or(e)?` -/
def okOr (e : ε) : Option α → Outcome ε α
  | some a => .ok a
  | none => .err e

@[simp] theorem okOr_some (e : ε) (a : α) : okOr e (some a) = .ok a := rfl
@[simp] theorem okOr_none (e : ε) : (okOr e (none : Option α)) = .err e := rfl

theorem okOr_eq_ok {e : ε} {x : Option α} {a : α} : okOr e x = .ok a ↔ x = some a := by
  cases x <;> simp

theorem okOr_ne_panic (e : ε) (x : Option α) : okOr e x ≠ .panic := by
  cases x <;> simp

/-- `if c { return Err(e) }` -/
def errIf (c : Prop) [Decidable c] (e : ε) : Outcome ε Unit := if c then .err e else .ok ()

@[simp] theorem errIf_eq_ok {c : Prop} [Decidable c] {e : ε} {u : Unit} :
    errIf c e = .ok u ↔ ¬c := by
  rw [errIf]
  split <;> simp_all

theorem errIf_ne_panic (c : Prop) [Decidable c] (e : ε) : errIf c e ≠ .panic := by
  rw [errIf]
  split <;> simp

/-- The error of `x`, if it is one, satisfies `P`. -/
def ErrIn (P : ε → Prop) (x : Outcome ε α) : Prop := ∀ e, x = .err e → P e

variable {P : ε → Prop}

theorem errIn_ok (a : α) : ErrIn P (.ok a) := nofun

theorem errIn_panic : ErrIn P (.panic : Outcome ε α) := nofun

theorem errIn_err {e : ε} (h : P e) : ErrIn P (.err e : Outcome ε α) := by
  rintro _ ⟨⟩
  exact h

theorem errIn_bind {x : Outcome ε α} {f : α → Outcome ε β} (hx : ErrIn P x)
    (hf : ∀ a, ErrIn P (f a)) : ErrIn P (x >>= f) := by
  cases x with
  | ok a => exact hf a
  | err e => exact fun e' same => hx e' (by simpa using same)
  | panic => exact errIn_panic

theorem errIn_errIf {c : Prop} [Decidable c] {e : ε} (h : P e) : ErrIn P (errIf c e) := by
  rw [errIf]
  split
  · exact errIn_err h
  · exact errIn_ok ()

/-- The call does not panic, and what it returns satisfies `Q`. -/
def Sound (Q : α → Prop) : Outcome ε α → Prop
  | .ok a => Q a
  | .err _ => True
  | .panic => False

variable {Q : α → Prop}

theorem sound_ok {a : α} (h : Q a) : Sound Q (.ok a : Outcome ε α) := h

theorem sound_pure {a : α} (h : Q a) : Sound Q (pure a : Outcome ε α) := h

theorem sound_err (e : ε) : Sound Q (.err e : Outcome ε α) := trivial

theorem not_sound_panic : ¬Sound Q (.panic : Outcome ε α) := id

theorem sound_bind {Q : β → Prop} {x : Outcome ε α} {f : α → Outcome ε β}
    (h : Sound (fun a => Sound Q (f a)) x) : Sound Q (x >>= f) := by
  cases x with
  | ok a => exact h
  | err e => trivial
  | panic => exact h

theorem Sound.mono {P : α → Prop} {x : Outcome ε α} (hx : Sound P x) (h : ∀ a, P a → Q a) :
    Sound Q x := by
  cases x with
  | ok a => exact h a hx
  | err e => trivial
  | panic => exact hx

theorem Sound.of_ok {x : Outcome ε α} {a : α} (hx : Sound Q x) (h : x = .ok a) : Q a := by
  subst h
  exact hx

theorem sound_errIf {c : Prop} [Decidable c] {e : ε} {Q : Unit → Prop} (h : ¬c → Q ()) :
    Sound Q (errIf c e) := by
  rw [errIf]
  split
  · trivial
  next holds => exact h holds

/-- Where there is no error either, there is a value. -/
theorem Sound.value {x : Outcome Empty α} (h : Sound Q x) : ∃ a, x = .ok a ∧ Q a := by
  cases x with
  | ok a => exact ⟨a, rfl, h⟩
  | err e => cases e
  | panic => cases h

-- the rules above are the interface: unfolding would run the call
attribute [irreducible] Sound

/-- The value of `x`, if it is one, satisfies `Q`. -/
def OkIn (Q : α → Prop) (x : Outcome ε α) : Prop := ∀ a, x = .ok a → Q a

theorem okIn_ok {a : α} (h : Q a) : OkIn Q (.ok a : Outcome ε α) := by
  rintro _ ⟨⟩
  exact h

theorem okIn_pure {a : α} (h : Q a) : OkIn Q (pure a : Outcome ε α) := okIn_ok h

theorem okIn_of (x : Outcome ε α) (h : ∀ a, Q a) : OkIn Q x := fun a _ => h a

theorem okIn_bind {Q : β → Prop} {x : Outcome ε α} {f : α → Outcome ε β}
    (h : OkIn (fun a => OkIn Q (f a)) x) : OkIn Q (x >>= f) := by
  intro b ended
  obtain ⟨a, first, later⟩ := bind_eq_ok.mp ended
  exact h a first b later

theorem okIn_ite {c : Prop} [Decidable c] {x y : Outcome ε α} (hx : c → OkIn Q x)
    (hy : ¬c → OkIn Q y) : OkIn Q (if c then x else y) := by
  split
  next holds => exact hx holds
  next fails => exact hy fails

theorem OkIn.mono {P : α → Prop} {x : Outcome ε α} (hx : OkIn P x) (h : ∀ a, P a → Q a) :
    OkIn Q x := fun a same => h a (hx a same)

theorem OkIn.intro {x : Outcome ε α} (h : ∀ a, x = .ok a → Q a) : OkIn Q x := h

theorem OkIn.of_ok {x : Outcome ε α} {a : α} (hx : OkIn Q x) (h : x = .ok a) : Q a := hx a h

theorem okIn_panic : OkIn Q (.panic : Outcome ε α) := nofun

attribute [irreducible] OkIn

section Loops

-- A step that keeps an invariant keeps it through a loop over a list.
variable {σ : Type} {I : σ → Prop} {f : σ → α → Outcome ε σ}

theorem sound_foldlM (step : ∀ s x, I s → Sound I (f s x)) (xs : List α) {s : σ} (start : I s) :
    Sound I (xs.foldlM f s) := by
  induction xs generalizing s with
  | nil => exact sound_pure start
  | cons x xs ih =>
    rw [List.foldlM_cons]
    exact sound_bind ((step s x start).mono fun s' next => ih next)

theorem okIn_foldlM (step : ∀ s x, I s → OkIn I (f s x)) (xs : List α) {s : σ} (start : I s) :
    OkIn I (xs.foldlM f s) := by
  induction xs generalizing s with
  | nil => exact okIn_pure start
  | cons x xs ih =>
    rw [List.foldlM_cons]
    exact okIn_bind ((step s x start).mono fun s' next => ih next)

theorem errIn_foldlM (step : ∀ s x, ErrIn P (f s x)) (xs : List α) (s : σ) :
    ErrIn P (xs.foldlM f s) := by
  induction xs generalizing s with
  | nil => exact errIn_ok s
  | cons x xs ih =>
    rw [List.foldlM_cons]
    exact errIn_bind (step s x) ih

end Loops

end Outcome

open Outcome

variable {ε α : Type}

/-- The range of a 64-bit word. -/
def wordBound : Nat := UInt64.size

/-- Unsigned subtraction, a panic below zero. -/
def sub (a b : Nat) : Outcome ε Nat := if b ≤ a then .ok (a - b) else .panic

/-- 64-bit addition, a panic on overflow. -/
def add (a b : Nat) : Outcome ε Nat := if a + b < wordBound then .ok (a + b) else .panic

/-- 64-bit multiplication, a panic on overflow. -/
def mul (a b : Nat) : Outcome ε Nat := if a * b < wordBound then .ok (a * b) else .panic

/-- 64-bit addition, no value on overflow. -/
def checkedAdd (a b : Nat) : Option Nat := if a + b < wordBound then some (a + b) else none

/-- 64-bit multiplication, no value on overflow. -/
def checkedMul (a b : Nat) : Option Nat := if a * b < wordBound then some (a * b) else none

/-- `xs[i]` -/
def index (xs : List α) (i : Nat) : Outcome ε α :=
  match xs[i]? with
  | some a => .ok a
  | none => .panic

/-- `&xs[start..stop]` -/
def slice (xs : List α) (start stop : Nat) : Outcome ε (List α) :=
  if start ≤ stop ∧ stop ≤ xs.length then .ok ((xs.take stop).drop start) else .panic

/-- `buf[len] = x; len += 1` on an array of `cap` elements whose first `len` are `xs`. -/
def push (cap : Nat) (xs : List α) (x : α) : Outcome ε (List α) :=
  if xs.length < cap then .ok (xs ++ [x]) else .panic

/-- `buf[len..len + ys.len()].copy_from_slice(ys); len += ys.len()` on an array of `cap`
elements whose first `len` are `xs`. -/
def append (cap : Nat) (xs ys : List α) : Outcome ε (List α) :=
  if xs.length + ys.length ≤ cap then .ok (xs ++ ys) else .panic

theorem sub_of_le {a b : Nat} (h : b ≤ a) : (sub a b : Outcome ε Nat) = .ok (a - b) := if_pos h

theorem add_of_lt {a b : Nat} (h : a + b < wordBound) : (add a b : Outcome ε Nat) = .ok (a + b) :=
  if_pos h

theorem mul_of_lt {a b : Nat} (h : a * b < wordBound) : (mul a b : Outcome ε Nat) = .ok (a * b) :=
  if_pos h

theorem checkedAdd_eq_some {a b c : Nat} :
    checkedAdd a b = some c ↔ a + b < wordBound ∧ a + b = c := by
  rw [checkedAdd]
  split
  next h => simp [h]
  next h => simp [h]

theorem checkedMul_eq_some {a b c : Nat} :
    checkedMul a b = some c ↔ a * b < wordBound ∧ a * b = c := by
  rw [checkedMul]
  split
  next h => simp [h]
  next h => simp [h]

theorem index_of_lt {xs : List α} {i : Nat} (h : i < xs.length) :
    (index xs i : Outcome ε α) = .ok xs[i] := by
  simp [index, h]

theorem slice_of_le {xs : List α} {start stop : Nat} (h : start ≤ stop) (h' : stop ≤ xs.length) :
    (slice xs start stop : Outcome ε (List α)) = .ok ((xs.take stop).drop start) := if_pos ⟨h, h'⟩

theorem push_of_lt {cap : Nat} {xs : List α} {x : α} (h : xs.length < cap) :
    (push cap xs x : Outcome ε (List α)) = .ok (xs ++ [x]) := if_pos h

theorem append_of_le {cap : Nat} {xs ys : List α} (h : xs.length + ys.length ≤ cap) :
    (append cap xs ys : Outcome ε (List α)) = .ok (xs ++ ys) := if_pos h

/-- `for i in start..stop { .. }` on the variable the body changes. -/
def forRange (start stop : Nat) (a : α) (body : α → Nat → Outcome ε α) : Outcome ε α :=
  (List.range' start (stop - start)).foldlM body a

section Sound

/-- The loop rule: `I i` holds before the round of `i`. -/
theorem sound_forRange {I : Nat → α → Prop} {start stop : Nat} {a : α}
    {body : α → Nat → Outcome ε α} (ordered : start ≤ stop) (init : I start a)
    (round : ∀ i a, start ≤ i → i < stop → I i a → Sound (I (i + 1)) (body a i)) :
    Sound (I stop) (forRange start stop a body) := by
  rw [forRange]
  generalize rounds : stop - start = n
  induction n generalizing start a with
  | zero =>
    obtain rfl : start = stop := by omega
    exact sound_pure init
  | succ n ih =>
    rw [List.range'_succ, List.foldlM_cons]
    refine sound_bind ((round start a (Nat.le_refl _) (by omega) init).mono fun a' next => ?_)
    exact ih (by omega) next (fun i b low => round i b (by omega)) (by omega)

theorem sound_sub {Q : Nat → Prop} {a b : Nat} (h : b ≤ a) (q : Q (a - b)) :
    Sound Q (sub a b : Outcome ε Nat) := by
  rw [sub_of_le h]
  exact sound_ok q

theorem sound_add {Q : Nat → Prop} {a b : Nat} (h : a + b < wordBound) (q : Q (a + b)) :
    Sound Q (add a b : Outcome ε Nat) := by
  rw [add_of_lt h]
  exact sound_ok q

theorem sound_index {Q : α → Prop} {xs : List α} {i : Nat} (h : i < xs.length) (q : ∀ a, Q a) :
    Sound Q (index xs i : Outcome ε α) := by
  rw [index_of_lt h]
  exact sound_ok (q _)

variable {Q : List α → Prop} {xs ys : List α}

theorem sound_slice {start stop : Nat} (h : start ≤ stop) (h' : stop ≤ xs.length)
    (q : Q ((xs.take stop).drop start)) : Sound Q (slice xs start stop : Outcome ε (List α)) := by
  rw [slice_of_le h h']
  exact sound_ok q

theorem sound_push {cap : Nat} {x : α} (h : xs.length < cap) (q : Q (xs ++ [x])) :
    Sound Q (push cap xs x : Outcome ε (List α)) := by
  rw [push_of_lt h]
  exact sound_ok q

theorem sound_append {cap : Nat} (h : xs.length + ys.length ≤ cap) (q : Q (xs ++ ys)) :
    Sound Q (append cap xs ys : Outcome ε (List α)) := by
  rw [append_of_le h]
  exact sound_ok q

end Sound

section OkIn

variable {Q : List α → Prop} {xs ys : List α}

theorem okIn_push {cap : Nat} {x : α} (q : Q (xs ++ [x])) :
    OkIn Q (push cap xs x : Outcome ε (List α)) :=
  okIn_ite (fun _ => okIn_ok q) fun _ => okIn_panic

theorem okIn_append {cap : Nat} (q : Q (xs ++ ys)) :
    OkIn Q (append cap xs ys : Outcome ε (List α)) :=
  okIn_ite (fun _ => okIn_ok q) fun _ => okIn_panic

end OkIn

section ErrIn

-- The partial operations panic; none of them returns an error of its own.
variable {P : ε → Prop}

theorem errIn_add (a b : Nat) : ErrIn P (add a b) := by
  rw [add]
  split <;> nofun

theorem errIn_slice (xs : List α) (start stop : Nat) : ErrIn P (slice xs start stop) := by
  rw [slice]
  split <;> nofun

theorem errIn_push (cap : Nat) (xs : List α) (x : α) : ErrIn P (push cap xs x) := by
  rw [push]
  split <;> nofun

theorem errIn_append (cap : Nat) (xs ys : List α) : ErrIn P (append cap xs ys) := by
  rw [append]
  split <;> nofun

end ErrIn

end Checked
