import AffineIR.Text.Hidden

/-
  Quoted text: characters that cannot stand for themselves
  between double quotes are written with a backslash.

  Key definitions include:
    * `Quoted.text`
-/

namespace AffineIR

namespace Quoted

/- A code point in hexadecimal digits between braces. -/
def codePoint (c : Char) : List Char :=
  ['\\', 'u', '\x7b'] ++ Nat.toDigits 16 c.toNat ++ ['\x7d']

def escape (c : Char) : List Char :=
  if c == '"' then ['\\', '"']
  else if c == '\\' then ['\\', '\\']
  else if c == '\n' then ['\\', 'n']
  else if c == '\r' then ['\\', 'r']
  else if c == '\t' then ['\\', 't']
  else if c.toNat == 0 then ['\\', '0']
  else if Hidden.contains c then codePoint c
  else [c]

/- Text between double quotes. -/
def text (s : String) : String :=
  String.ofList ('"' :: s.toList.flatMap escape ++ ['"'])

end Quoted

end AffineIR
