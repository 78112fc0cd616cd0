import EffectFibers.Algebra.Ordered

/-!
# Data that combine

A `Shape` is a type of data with an operation that joins two of them: texts and lists are put
one behind the other, an absent value gives way to a present one, pairs join part by part, and
numbers and ordered data join as the shape says.  Most shapes have a neutral datum.

## Main statements

* `Shape.combine_option_none`: an absent value is neutral on both sides.
* `Shape.isSome_neutral?`: extremes are the only shapes that have no neutral datum of their own.
-/

namespace EffectFibers.Algebra

inductive Shape where
  | text
  | unit
  | list (item : Ordered)
  | option (item : Shape)
  | pair (a b : Shape)
  | sum (n : Numeral)
  | product (n : Numeral)
  | largest (o : Ordered)
  | smallest (o : Ordered)

namespace Shape

def Carrier : Shape → Type
  | .text => String
  | .unit => Unit
  | .list o => List o.Carrier
  | .option s => Option s.Carrier
  | .pair a b => a.Carrier × b.Carrier
  | .sum n | .product n => n.Carrier
  | .largest o | .smallest o => o.Carrier

/-- Joins optional data: what is absent gives way. -/
def combineOption {α : Type} (item : α → α → Except Fault α) :
    Option α → Option α → Except Fault (Option α)
  | some a, some b => (item a b).map some
  | some a, none => .ok (some a)
  | none, b => .ok b

def combine : (s : Shape) → s.Carrier → s.Carrier → Except Fault s.Carrier
  | .text, (a : String), (b : String) => .ok (a ++ b)
  | .unit, _, _ => .ok ()
  | .list _, a, b => .ok (List.append a b)
  | .option s, a, b => combineOption s.combine a b
  | .pair s t, a, b => do
    let first ← s.combine a.1 b.1
    let second ← t.combine a.2 b.2
    return (first, second)
  | .sum n, a, b => n.add a b
  | .product n, a, b => n.mul a b
  | .largest o, a, b => .ok (o.larger a b)
  | .smallest o, a, b => .ok (o.smaller a b)

/-- The datum that changes nothing, if the shape has one. -/
def neutral? : (s : Shape) → Option s.Carrier
  | .text => some ""
  | .unit => some ()
  | .list o => some ([] : List o.Carrier)
  | .option s => some (none : Option s.Carrier)
  | .pair s t => do
    let first ← s.neutral?
    let second ← t.neutral?
    return (first, second)
  | .sum n => some n.zero
  | .product n => some n.one
  | .largest _ | .smallest _ => none

/-- Whether no part of the shape is a bare extreme. -/
def hasNeutral : Shape → Bool
  | .pair s t => s.hasNeutral && t.hasNeutral
  | .largest _ | .smallest _ => false
  | .text | .unit | .list _ | .option _ | .sum _ | .product _ => true

theorem isSome_neutral? (s : Shape) : s.neutral?.isSome = s.hasNeutral := by
  induction s with
  | pair s t hs ht =>
    simp only [neutral?, hasNeutral, ← hs, ← ht]
    cases s.neutral? <;> cases t.neutral? <;> rfl
  | _ => rfl

theorem combine_option_none (s : Shape) (a : Option s.Carrier) :
    (option s).combine none a = .ok a ∧ (option s).combine a none = .ok a := by
  cases a <;> exact ⟨rfl, rfl⟩

end Shape

end EffectFibers.Algebra
