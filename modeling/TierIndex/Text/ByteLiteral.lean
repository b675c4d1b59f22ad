import TierIndex.Key

set_option autoImplicit false

/-! # Byte string literals

A key is shown as a byte string literal, `b"…"`. Printable ASCII stands for itself, except
that a quote and a backslash are escaped; a few control bytes have an escape of one letter;
every other byte is `\x` with two hexadecimal digits.
-/

namespace TierIndex

namespace ByteLiteral

/-- A hexadecimal digit, in lower case. -/
def hexDigit (n : Nat) : Char := Nat.digitChar n

/-- The characters for one byte. -/
def escape (b : UInt8) : List Char :=
  if b = 10 then ['\\', 'n']
  else if b = 13 then ['\\', 'r']
  else if b = 9 then ['\\', 't']
  else if b = 92 then ['\\', '\\']
  else if b = 34 then ['\\', '"']
  else if b = 0 then ['\\', '0']
  else if 32 ≤ b ∧ b < 127 then [Char.ofNat b.toNat]
  else ['\\', 'x', hexDigit (b.toNat / 16), hexDigit (b.toNat % 16)]

/-- The literal of a key. -/
def ofKey (k : Key) : String := String.ofList (['b', '"'] ++ k.flatMap escape ++ ['"'])

end ByteLiteral

end TierIndex
