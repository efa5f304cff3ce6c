import Dissolve.Text.Visible

/-!
# Text.Quoted — string literals in listings

A string is shown between double quotes. The quote and the backslash are escaped with a backslash,
four control characters have short names, and every other character without a visible shape is
written by its code point.
-/

namespace Dissolve.Text

def hexDigits (n : Nat) : String :=
  String.ofList (Nat.toDigits 16 n)

def escapeChar (c : Char) : String :=
  if c = '"' then "\\\""
  else if c = '\\' then "\\\\"
  else if c = '\n' then "\\n"
  else if c = '\t' then "\\t"
  else if c = '\r' then "\\r"
  else if c = Char.ofNat 0 then "\\0"
  else if isVisible c then c.toString
  else "\\u\x7b" ++ hexDigits c.toNat ++ "\x7d"

def quoted (s : String) : String :=
  "\"" ++ String.join (s.toList.map escapeChar) ++ "\""

end Dissolve.Text
