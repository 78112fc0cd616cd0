import EffectFibers.Algebra.Shape

/-!
# Folding data together

`combineAll?` joins a list of data from the neutral one on; `reduceAll` joins them from the first
one on, and gives nothing for the empty list.  The data may have to be read first: each is read
when its turn comes, so a fault of joining comes before a fault of reading what follows.

## Main statements

* `reduceAll_eq_none_iff`: only the empty list reduces to nothing.
* `combineFrom_append`: a fold over two lists is a fold over the second from the first's result.
-/

namespace EffectFibers.Algebra.Shape

variable {α : Type}

/-- Joins a list to a datum from the left. -/
def combineFrom (s : Shape) (read : α → Except Fault s.Carrier) (a : s.Carrier) :
    List α → Except Fault s.Carrier
  | [] => .ok a
  | x :: rest => do
    let b ← read x
    let c ← s.combine a b
    s.combineFrom read c rest

/-- Joins a list; nothing if the shape has no neutral datum. -/
def combineAll? (s : Shape) (read : α → Except Fault s.Carrier) (items : List α) :
    Option (Except Fault s.Carrier) :=
  s.neutral?.map fun e => s.combineFrom read e items

def reduceAll (s : Shape) (read : α → Except Fault s.Carrier) :
    List α → Except Fault (Option s.Carrier)
  | [] => .ok none
  | x :: rest => do
    let a ← read x
    return some (← s.combineFrom read a rest)

/-! ## Lemmas -/

theorem combineFrom_append (s : Shape) (read : α → Except Fault s.Carrier) (a : s.Carrier)
    (xs ys : List α) :
    s.combineFrom read a (xs ++ ys)
      = s.combineFrom read a xs >>= fun b => s.combineFrom read b ys := by
  induction xs generalizing a with
  | nil => rfl
  | cons x xs ih =>
    simp only [List.cons_append, combineFrom]
    cases read x with
    | error f => rfl
    | ok b =>
      simp only [bind, Except.bind]
      cases s.combine a b with
      | error f => rfl
      | ok c => exact ih c

theorem reduceAll_eq_none_iff (s : Shape) (read : α → Except Fault s.Carrier) (items : List α) :
    s.reduceAll read items = .ok none ↔ items = [] := by
  cases items with
  | nil => simp [reduceAll]
  | cons x rest =>
    simp only [reduceAll, reduceCtorEq, iff_false, bind, Except.bind, pure, Except.pure]
    cases read x with
    | error f => simp
    | ok a =>
      simp only
      cases s.combineFrom read a rest <;> simp

end EffectFibers.Algebra.Shape
