import Mathlib.Tactic.Common

/-!
# Block writes to a byte memory

A loader's view of memory: blocks are filled with one byte or copied from a read-only image. A
block operation changes its own range and nothing else, so a sequence of them leaves every address
that none of them writes as it was.
-/

namespace Memory

abbrev Mem := Nat → UInt8

/-- A write of a block: `fill dst value n`, or `copy src dst n` from offset `src` of the image. -/
inductive BlockOp where
  | fill (dst : Nat) (value : UInt8) (n : Nat)
  | copy (src dst n : Nat)
  deriving DecidableEq, Repr

namespace BlockOp

def start : BlockOp → Nat
  | .fill dst _ _ => dst
  | .copy _ dst _ => dst

def size : BlockOp → Nat
  | .fill _ _ n => n
  | .copy _ _ n => n

/-- The addresses an operation writes. -/
def Writes (op : BlockOp) (a : Nat) : Prop := op.start ≤ a ∧ a < op.start + op.size

instance (op : BlockOp) (a : Nat) : Decidable (op.Writes a) := inferInstanceAs (Decidable (_ ∧ _))

theorem writes_fill {dst n a : Nat} {value : UInt8} :
    (fill dst value n).Writes a ↔ dst ≤ a ∧ a < dst + n := Iff.rfl

theorem writes_copy {src dst n a : Nat} : (copy src dst n).Writes a ↔ dst ≤ a ∧ a < dst + n :=
  Iff.rfl

/-- Every byte an operation reads is a byte of the image. -/
def ReadsInside (image : List UInt8) : BlockOp → Prop
  | .fill .. => True
  | .copy src _ n => src + n ≤ image.length

/-- The byte an operation puts at an address it writes. -/
def byteAt (image : List UInt8) (a : Nat) : BlockOp → UInt8
  | .fill _ value _ => value
  | .copy src dst _ => image.getD (src + (a - dst)) 0

def apply (image : List UInt8) (m : Mem) (op : BlockOp) : Mem :=
  fun a => if op.Writes a then op.byteAt image a else m a

theorem apply_fill (image : List UInt8) (m : Mem) (dst : Nat) (value : UInt8) (n a : Nat) :
    (fill dst value n).apply image m a = if dst ≤ a ∧ a < dst + n then value else m a := rfl

theorem apply_copy (image : List UInt8) (m : Mem) (src dst n a : Nat) :
    (copy src dst n).apply image m a =
      if dst ≤ a ∧ a < dst + n then image.getD (src + (a - dst)) 0 else m a := rfl

end BlockOp

def applyAll (image : List UInt8) (ops : List BlockOp) (m : Mem) : Mem :=
  ops.foldl (BlockOp.apply image) m

variable {image : List UInt8}

@[simp] theorem applyAll_nil (m : Mem) : applyAll image [] m = m := rfl

@[simp] theorem applyAll_cons (op : BlockOp) (ops : List BlockOp) (m : Mem) :
    applyAll image (op :: ops) m = applyAll image ops (op.apply image m) := rfl

theorem applyAll_append (ops ops' : List BlockOp) (m : Mem) :
    applyAll image (ops ++ ops') m = applyAll image ops' (applyAll image ops m) :=
  List.foldl_append

/-- An address that no operation writes keeps its byte. -/
theorem applyAll_frame {ops : List BlockOp} {a : Nat} (h : ∀ op ∈ ops, ¬op.Writes a) (m : Mem) :
    applyAll image ops m a = m a := by
  induction ops generalizing m with
  | nil => rfl
  | cons op ops ih =>
    -- The later operations keep what the first one leaves, and that one does not write here.
    rw [applyAll_cons, ih fun op' hop => h op' (List.mem_cons_of_mem _ hop)]
    exact if_neg (h op List.mem_cons_self)

end Memory
