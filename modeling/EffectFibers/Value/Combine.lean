import EffectFibers.Fault
import EffectFibers.Value

/-!
# Combining values

`Value.combine` joins two values of one kind: texts and lists are put one behind the other,
integers are added, and `null` is neutral.

## Main statements

* `Value.null_combine`, `Value.combine_null`: `null` is an identity on both sides.
-/

namespace EffectFibers.Value

/-- Addition that does not wrap. -/
def checkedAdd (a b : Int64) : Except Fault Value :=
  let sum := a.toInt + b.toInt
  if sum = (Int64.ofInt sum).toInt then .ok (.int (Int64.ofInt sum)) else .error .addOverflow

def combine : Value → Value → Except Fault Value
  | .null, v => .ok v
  | v, .null => .ok v
  | .text a, .text b => .ok (.text (a ++ b))
  | .list a, .list b => .ok (.list (a ++ b))
  | .int a, .int b => checkedAdd a b
  | _, _ => .error (.malformed .notCombinable)

@[simp] theorem null_combine (v : Value) : combine .null v = .ok v := by
  simp [combine]

@[simp] theorem combine_null (v : Value) : combine v .null = .ok v := by
  cases v <;> rfl

end EffectFibers.Value
