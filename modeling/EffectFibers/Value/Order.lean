import EffectFibers.Value

/-!
# The order of values

Values of different kinds come in the order in which `Value` lists the kinds.  Within a kind
integers go by size, texts by their characters, lists and tagged values from the front.
-/

namespace EffectFibers.Value

/-- The place of a value's kind among the kinds. -/
def rank : Value → Nat
  | .null => 0
  | .bool _ => 1
  | .int _ => 2
  | .text _ => 3
  | .list _ => 4
  | .tagged .. => 5

mutual

def compare (a b : Value) : Ordering :=
  match a, b with
  | .bool a, .bool b => Ord.compare a b
  | .int a, .int b => Ord.compare a.toInt b.toInt
  | .text a, .text b => Ord.compare a b
  | .list a, .list b => compareList a b
  | .tagged m a, .tagged n b => (Ord.compare m n).then (compare a b)
  | a, b => Ord.compare a.rank b.rank

def compareList (as bs : List Value) : Ordering :=
  match as, bs with
  | [], [] => .eq
  | [], _ :: _ => .lt
  | _ :: _, [] => .gt
  | a :: as, b :: bs => (compare a b).then (compareList as bs)

end

instance : Ord Value := ⟨compare⟩

end EffectFibers.Value
