/-
**Quoted texts.**

A text is quoted so that it can be read in a message whatever it holds: quotes, backslashes and the
usual control characters are written with a backslash, and every other character that would not
show, or would attach itself to the character before it, by the hexadecimal digits of its code
point in braces.

Main definitions:

* `Text.escape` — one character as it is written between quotes;
* `Text.quote` — a text in quotes.
-/

import Vantage.Text.Extending
import Vantage.Text.Ignorable
import Vantage.Text.Unprintable

set_option relaxedAutoImplicit false
set_option autoImplicit false

namespace Vantage.Text

/-- A character by the hexadecimal digits of its code point. -/
def codePoint (c : Char) : List Char :=
  ['\\', 'u', '\x7b'] ++ Nat.toDigits 16 c.toNat ++ ['\x7d']

/-- A character as it is written between quotes. -/
def escape (c : Char) : List Char :=
  if c = '"' then ['\\', '"']
  else if c = '\\' then ['\\', '\\']
  else if c = '\n' then ['\\', 'n']
  else if c = '\r' then ['\\', 'r']
  else if c = '\t' then ['\\', 't']
  else if c.toNat = 0 then ['\\', '0']
  else if isAttached c || isIgnorable c || isUnprintable c then codePoint c
  else [c]

/-- A text in quotes. -/
def quote (s : String) : String := String.ofList ('"' :: s.toList.flatMap escape ++ ['"'])

end Vantage.Text
