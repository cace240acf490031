import HotReload.Text.Printable

/-!
Quoted text: the characters between two double quotes. Quotes, backslashes and whatever does not
show as itself are written as escapes, so quoted text stands on one line and shows its content.
-/

namespace HotReload.Text

/-- The escape of a code point by its number: lower-case hexadecimal digits in braces. -/
def codeEscape (c : Char) : List Char :=
  '\\' :: 'u' :: '\x7b' :: Nat.toDigits 16 c.toNat ++ ['\x7d']

/-- One character of quoted text. -/
def encodeChar (c : Char) : List Char :=
  if c = '"' then ['\\', '"']
  else if c = '\\' then ['\\', '\\']
  else if c = '\t' then ['\\', 't']
  else if c = '\n' then ['\\', 'n']
  else if c = '\r' then ['\\', 'r']
  else if c = '\x00' then ['\\', '0']
  else if isPrintable c then [c]
  else codeEscape c

/-- The characters in quoted form, without the quotes around them. -/
def encode (cs : List Char) : List Char := cs.flatMap encodeChar

/-- The text in quoted form. -/
def quoted (s : String) : String := String.ofList ('"' :: encode s.toList ++ ['"'])

end HotReload.Text
