import EffectFibers.Text.Visible

/-!
# Shown texts

`quoted s` shows a text between quotes so that every character of it can be seen: quotes,
backslashes and four controls have short names, and every other hidden character is written by
its number in hexadecimal.

## Main statements

* `showChar_of_plain`: a visible character other than a quote or a backslash stands for itself.
-/

namespace EffectFibers.Text

/-- Hexadecimal digits of a number, without leading zeros. -/
def hexDigits (n : Nat) : List Char := Nat.toDigits 16 n

def showChar (c : Char) : List Char :=
  if c = '"' then ['\\', '"']
  else if c = '\\' then ['\\', '\\']
  else if c = '\n' then ['\\', 'n']
  else if c = '\r' then ['\\', 'r']
  else if c = '\t' then ['\\', 't']
  else if c.toNat = 0 then ['\\', '0']
  else if isVisible c then [c]
  else ['\\', 'u', '\x7b'] ++ hexDigits c.toNat ++ ['\x7d']

def quoted (s : String) : String :=
  "\"" ++ String.ofList (s.toList.flatMap showChar) ++ "\""

/-! ## Lemmas -/

theorem showChar_of_plain {c : Char} (visible : isVisible c = true) (quote : c ≠ '"')
    (backslash : c ≠ '\\') (low : 32 ≤ c.toNat) : showChar c = [c] := by
  have ne (d : Char) (h : d.toNat < 32) : c ≠ d := fun e => by subst e; omega
  simp [showChar, visible, quote, backslash, ne '\n' (by decide), ne '\r' (by decide),
    ne '\t' (by decide), show c.toNat ≠ 0 by omega]

end EffectFibers.Text
