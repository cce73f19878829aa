import CopyOnBind.Text.Printable
/-!
# Quoted texts

Strings are written between `"` and characters between `'`. Inside, the
quote, the backslash and four controls have an escape of their own, and every
other character that is not printable is written by its code point, in
hexadecimal.
-/

namespace CopyOnBind.Text

/-- The hexadecimal digits of `n`, without leading zeros. -/
def hex (n : Nat) : List Char := Nat.toDigits 16 n

/-- The written form of a character between quotes `quote`, when the characters in `shown`
are written as they are. -/
def escapeWith (shown : Char → Bool) (quote c : Char) : List Char :=
  if c = quote ∨ c = '\\' then ['\\', c]
  else if c = '\n' then ['\\', 'n']
  else if c = '\r' then ['\\', 'r']
  else if c = '\t' then ['\\', 't']
  else if c.toNat = 0 then ['\\', '0']
  else if shown c then [c]
  else '\\' :: 'u' :: '\x7b' :: (hex c.toNat ++ ['\x7d'])

/-- A string between quotes, when the characters in `shown` are written as they are. -/
def quotedWith (shown : Char → Bool) (s : String) : String :=
  String.ofList ('"' :: (s.toList.flatMap (escapeWith shown '"') ++ ['"']))

/-- A string between quotes. -/
def quoted (s : String) : String := quotedWith isPrintable s

/-- A character between quotes. -/
def quotedChar (c : Char) : String :=
  String.ofList ('\'' :: (escapeWith isPrintable '\'' c ++ ['\'']))

end CopyOnBind.Text
