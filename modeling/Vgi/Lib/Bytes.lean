import Mathlib

/-!
# Byte strings

The strings of the program are sequences of bytes: `Bytes`. Its string
literals are ASCII (`ascii`).
-/

namespace Vgi

/-- A byte string. -/
abbrev Bytes := List UInt8

/-- The bytes of an ASCII literal. -/
def ascii (s : String) : Bytes := s.toList.map fun c => c.toNat.toUInt8

end Vgi
