import EffectFibers.Algebra.Numeral

/-!
# Ordered data

The types whose values can be compared, and their order: lists and pairs from the front, an
absent value before any present one, and a keyed label by its key alone.

## Main statements

* `Ordered.compare_keyed`: labels do not count.
-/

namespace EffectFibers.Algebra

/-- A label with a number to sort it by. -/
structure Keyed where
  key : Int64
  label : String
deriving DecidableEq

inductive Ordered where
  | integer (t : IntegerType)
  | text
  | list (item : Ordered)
  | option (item : Ordered)
  | pair (a b : Ordered)
  | keyed

namespace Ordered

def Carrier : Ordered → Type
  | .integer t => t.Number
  | .text => String
  | .list o => List o.Carrier
  | .option o => Option o.Carrier
  | .pair a b => a.Carrier × b.Carrier
  | .keyed => Keyed

/-- The order of lists, from the order of their items. -/
def compareList {α : Type} (item : α → α → Ordering) : List α → List α → Ordering
  | [], [] => .eq
  | [], _ :: _ => .lt
  | _ :: _, [] => .gt
  | a :: as, b :: bs => (item a b).then (compareList item as bs)

/-- The order of optional values, from the order of the present ones. -/
def compareOption {α : Type} (item : α → α → Ordering) : Option α → Option α → Ordering
  | none, none => .eq
  | none, some _ => .lt
  | some _, none => .gt
  | some a, some b => item a b

def compare : (o : Ordered) → o.Carrier → o.Carrier → Ordering
  | .integer _, a, b => Ord.compare a.val b.val
  | .text, (a : String), (b : String) => Ord.compare a b
  | .list o, a, b => compareList o.compare a b
  | .option o, a, b => compareOption o.compare a b
  | .pair o p, a, b => (o.compare a.1 b.1).then (p.compare a.2 b.2)
  | .keyed, (a : Keyed), (b : Keyed) => Ord.compare a.key.toInt b.key.toInt

/-- The larger of two, of equal ones the second. -/
def larger (o : Ordered) (a b : o.Carrier) : o.Carrier :=
  if o.compare a b = .gt then a else b

/-- The smaller of two, of equal ones the first. -/
def smaller (o : Ordered) (a b : o.Carrier) : o.Carrier :=
  if o.compare a b = .gt then b else a

theorem compare_keyed (k : Int64) (l m : String) :
    keyed.compare (Keyed.mk k l) (Keyed.mk k m) = .eq := by
  simp [compare]

end Ordered

end EffectFibers.Algebra
