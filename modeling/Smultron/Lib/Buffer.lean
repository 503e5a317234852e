import Mathlib.Tactic.Common

/-!
# Fixed-size byte buffers

A byte array of a size known in advance. Only a run of bytes that lies inside the buffer can be
written to it, so a buffer never changes size and no write is out of range.
-/

/-- A byte array of `n` bytes. -/
structure Buffer (n : Nat) where
  bytes : List UInt8
  length_eq : bytes.length = n
  deriving DecidableEq

namespace Buffer

variable {n : Nat}

@[simp] theorem length_bytes (b : Buffer n) : b.bytes.length = n := b.length_eq

def zero (n : Nat) : Buffer n := ⟨List.replicate n 0, List.length_replicate⟩

/-- The first `len` bytes. -/
def front (b : Buffer n) (len : Nat) : List UInt8 := b.bytes.take len

@[simp] theorem length_front (b : Buffer n) (len : Nat) : (b.front len).length = min len n := by
  simp [front]

/-- Overwrites the bytes from `start` on with `src`; the others stay as they are. -/
def blit (b : Buffer n) (start : Nat) (src : List UInt8) (fits : start + src.length ≤ n) :
    Buffer n where
  bytes := b.bytes.take start ++ src ++ b.bytes.drop (start + src.length)
  length_eq := by simp; omega

/-- The byte at an index inside the buffer. -/
def get (b : Buffer n) (i : Nat) (h : i < n) : UInt8 := b.bytes.get ⟨i, by simpa using h⟩

/-- The bytes between two marks are the byte at the first one and the bytes behind it. -/
theorem drop_front (b : Buffer n) {i len : Nat} (h : i < len) (fits : len ≤ n) :
    (b.front len).drop i = b.get i (by omega) :: (b.front len).drop (i + 1) := by
  have inside : i < (b.front len).length := by simp; omega
  rw [List.drop_eq_getElem_cons inside]
  simp [get, front]

/-- A copy of at most `m` bytes is the first `m` bytes. -/
theorem take_min_length (src : List UInt8) (m : Nat) : src.take (min src.length m) = src.take m := by
  rw [Nat.min_comm, ← List.take_take, List.take_length]

theorem drop_min_length (src : List UInt8) (m : Nat) : src.drop (min m src.length) = src.drop m := by
  rcases Nat.le_total m src.length with h | h
  · rw [Nat.min_eq_left h]
  · rw [Nat.min_eq_right h, List.drop_length, List.drop_of_length_le h]

@[simp] theorem front_zero (b : Buffer n) : b.front 0 = [] := rfl

theorem front_front (b : Buffer n) (i j : Nat) : (b.front j).take i = b.front (min i j) := by
  simp [front, List.take_take]

/-- Appending at a fill mark extends what is in front of the mark. -/
theorem front_blit (b : Buffer n) (start : Nat) (src : List UInt8)
    (fits : start + src.length ≤ n) {stop : Nat} (mark : start + src.length = stop) :
    (b.blit start src fits).front stop = b.front start ++ src := by
  -- The mark is the end of the first two of the three parts.
  have len : (b.bytes.take start ++ src).length = stop := by simp; omega
  exact List.take_left' len

theorem front_blit_zero (b : Buffer n) (src : List UInt8) (fits : 0 + src.length ≤ n) {len : Nat}
    (mark : src.length = len) : (b.blit 0 src fits).front len = src := by
  simpa using b.front_blit 0 src fits (by omega)

end Buffer
