import HttpReplay.Text.Hidden
import HttpReplay.Text.Numeral

/-!
# Texts quoted in messages

A message that speaks of a text shows it in double quotes, with escapes for the quote, the
backslash and everything that does not show.
-/

namespace HttpReplay.Text

/-- One character of a quoted text. -/
def quotedChar (c : Char) : List Char :=
  if c = '\x00' then ['\\', '0']
  else if c = '\t' then ['\\', 't']
  else if c = '\r' then ['\\', 'r']
  else if c = '\n' then ['\\', 'n']
  else if c = '\\' ∨ c = '\x22' then ['\\', c]
  else if isHidden c then '\\' :: 'u' :: '{' :: Numeral.hex c.toNat ++ ['}']
  else [c]

/-- **A text in double quotes**, with every character showing. -/
def quoted (value : String) : String :=
  String.ofList ('\x22' :: value.toList.flatMap quotedChar ++ ['\x22'])

end HttpReplay.Text
