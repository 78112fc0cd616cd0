import EffectFibers.Text.Digits

/-!
# Escaped texts

`quote s` writes a text between quotes, on one line: quotes, backslashes and control characters
are escaped, every other character stands for itself.

## Main statements

* `escapeChar_of_plain`: what is no quote, backslash or control character is left alone.
-/

namespace EffectFibers

/-- One character of a quoted text: five control characters have short names, the others below
a blank are written with four hexadecimal digits. -/
def escapeChar (c : Char) : List Char :=
  if c = '"' then ['\\', '"']
  else if c = '\\' then ['\\', '\\']
  else if c = '\n' then ['\\', 'n']
  else if c = '\r' then ['\\', 'r']
  else if c = '\t' then ['\\', 't']
  else if c.toNat = 8 then ['\\', 'b']
  else if c.toNat = 12 then ['\\', 'f']
  else if c.toNat < 32 then
    ['\\', 'u'] ++ Text.fixedDigits 16 4 c.toNat
  else [c]

/-- A text between quotes. -/
def quote (s : String) : String :=
  "\"" ++ String.ofList (s.toList.flatMap escapeChar) ++ "\""

/-! ## Lemmas -/

theorem escapeChar_of_plain {c : Char} (quote : c ≠ '"') (backslash : c ≠ '\\')
    (low : 32 ≤ c.toNat) : escapeChar c = [c] := by
  have ne (d : Char) (h : d.toNat < 32) : c ≠ d := fun e => by subst e; omega
  simp [escapeChar, quote, backslash, ne '\n' (by decide), ne '\r' (by decide),
    ne '\t' (by decide), show c.toNat ≠ 8 by omega, show c.toNat ≠ 12 by omega,
    show ¬ c.toNat < 32 by omega]

end EffectFibers
