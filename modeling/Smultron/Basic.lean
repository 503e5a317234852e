import Mathlib.Algebra.Ring.Nat
import Mathlib.Tactic.Common

/-!
# Bytes and words

Texts and buffers are byte lists; a `&str` of the source is such a list. Words of the 64-bit
machine are natural numbers, with `u64Max` as the value system calls use for failure.
-/

namespace Smultron

abbrev Bytes := List UInt8

/-- The bytes of a string literal. -/
def str (s : String) : Bytes := s.toUTF8.data.toList

/-- `u64::MAX` -/
def u64Max : Nat := UInt64.size - 1

end Smultron
