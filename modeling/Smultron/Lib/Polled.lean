import Mathlib.Data.List.Basic

/-!
# Polled sources

A source that is asked again and again and has something to give only now and then. What it gives in
the end does not depend on when it is asked to wait.

## Main results

- `Feeds.idle`, `Feeds.gives`: one poll of a source that gives the elements of a stream.
- `yields_add`: polls one after the other.
-/

namespace Polled

variable {S A : Type} (poll : S → Option A × S)

/-- The source behind `n` polls. -/
def after : Nat → S → S
  | 0, s => s
  | n + 1, s => after n (poll s).2

/-- What `n` polls give. -/
def yields : Nat → S → List A
  | 0, _ => []
  | n + 1, s => (poll s).1.toList ++ yields n (poll s).2

/-- Whenever the source gives something, it gives the next element of the stream. -/
def Feeds (s : S) (stream : Nat → A) : Prop :=
  ∀ n i a, (yields poll n s)[i]? = some a → stream i = a

variable {poll} {s s' : S} {stream : Nat → A} {a : A} {n : Nat}

theorem after_add (m n : Nat) (s : S) : after poll (m + n) s = after poll n (after poll m s) := by
  induction m generalizing s with
  | zero => rw [Nat.zero_add, after]
  | succ m ih => rw [Nat.succ_add, after, ih, after]

theorem yields_add (m n : Nat) (s : S) :
    yields poll (m + n) s = yields poll m s ++ yields poll n (after poll m s) := by
  induction m generalizing s with
  | zero => rw [Nat.zero_add, yields, after, List.nil_append]
  | succ m ih => rw [Nat.succ_add, yields, ih, yields, after, List.append_assoc]

theorem after_succ (n : Nat) (s : S) : after poll (n + 1) s = (poll (after poll n s)).2 :=
  after_add n 1 s

theorem yields_succ (n : Nat) (s : S) :
    yields poll (n + 1) s = yields poll n s ++ (poll (after poll n s)).1.toList := by
  rw [yields_add]
  simp [yields]

theorem yields_idle (asked : poll s = (none, s')) : yields poll (n + 1) s = yields poll n s' := by
  simp [yields, asked]

theorem yields_gives (asked : poll s = (some a, s')) :
    yields poll (n + 1) s = a :: yields poll n s' := by
  simp [yields, asked]

/-- A poll in vain. -/
theorem Feeds.idle (h : Feeds poll s stream) (asked : poll s = (none, s')) : Feeds poll s' stream :=
  fun n i a given => h (n + 1) i a (by rwa [yields_idle asked])

/-- A poll that gives an element. -/
theorem Feeds.gives (h : Feeds poll s stream) (asked : poll s = (some a, s')) :
    stream 0 = a ∧ Feeds poll s' fun i => stream (i + 1) :=
  ⟨h 1 0 a (by simp [yields, asked]),
    fun n i b given => h (n + 1) (i + 1) b (by rwa [yields_gives asked, List.getElem?_cons_succ])⟩

end Polled
