import EffectFibers.Text.Escaped
import EffectFibers.Value

/-!
# The text of a value

`compact v` writes a value on one line without spaces: lists in brackets, a tagged value as an
object with one key, texts quoted.  `display v` is the same except that a text stands for itself.
-/

namespace EffectFibers

namespace Value

mutual

def compact : Value → String
  | .null => "null"
  | .bool true => "true"
  | .bool false => "false"
  | .int n => toString n.toInt
  | .text s => quote s
  | .list [] => "[]"
  | .list (x :: xs) => "[" ++ compact x ++ compactTail xs ++ "]"
  | .tagged name v => "\x7b" ++ quote name ++ ":" ++ compact v ++ "\x7d"
termination_by structural v => v

/-- The items after the first, each behind a comma. -/
def compactTail : List Value → String
  | [] => ""
  | x :: xs => "," ++ compact x ++ compactTail xs
termination_by structural xs => xs

end

/-- A text as it is, any other value in its compact form. -/
def display : Value → String
  | .text s => s
  | v => compact v

end Value

end EffectFibers
