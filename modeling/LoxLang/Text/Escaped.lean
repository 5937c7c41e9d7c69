import LoxLang.Text.Visible

/-!
# Escaped text

A text in a message is put between double quotes in such a way that it can be told exactly:
quotes, backslashes and line ends by a backslash and a sign, and every other character that is
not visible by its number.
-/

namespace LoxLang.Escaped

/-- A character by its hexadecimal number. -/
def byNumber (c : Char) : List Char :=
  ['\\', 'u', '\x7b'] ++ Nat.toDigits 16 c.toNat ++ ['\x7d']

/-- How one character is written. -/
def encodeChar (c : Char) : List Char :=
  if c = '"' then ['\\', '"']
  else if c = '\\' then ['\\', '\\']
  else if c = '\n' then ['\\', 'n']
  else if c = '\r' then ['\\', 'r']
  else if c = '\t' then ['\\', 't']
  else if c = '\x00' then ['\\', '0']
  else if Visible.isVisible c then [c]
  else byNumber c

/-- The written form of a text. -/
def encode (text : String) : String :=
  String.ofList ('"' :: (text.toList.flatMap encodeChar ++ ['"']))

end LoxLang.Escaped
