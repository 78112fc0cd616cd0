import EffectFibers.Outcome.Text

/-!
# One of two

`Either α β` holds a value of one of two types, such as the result of the faster of two
computations.  Every left value comes before every right one.

## Main statements

* `Either.fold_eq`: a fold is what the two projections give.
* `Either.compare_left_right`: the order of the sides.
-/

namespace EffectFibers

inductive Either (α β : Type) where
  | left (value : α)
  | right (value : β)
deriving DecidableEq

namespace Either

variable {α β γ : Type}

def isLeft : Either α β → Bool
  | .left _ => true
  | .right _ => false

def isRight : Either α β → Bool
  | .left _ => false
  | .right _ => true

def left? : Either α β → Option α
  | .left a => some a
  | .right _ => none

def right? : Either α β → Option β
  | .left _ => none
  | .right b => some b

def mapLeft (f : α → γ) : Either α β → Either γ β
  | .left a => .left (f a)
  | .right b => .right b

def mapRight (f : β → γ) : Either α β → Either α γ
  | .left a => .left a
  | .right b => .right (f b)

def fold (f : α → γ) (g : β → γ) : Either α β → γ
  | .left a => f a
  | .right b => g b

/-- The value, whichever side it is on. -/
def merge : Either α α → α := fold id id

/-- A success is on the right, an error on the left. -/
def ofExcept : Except α β → Either α β
  | .ok b => .right b
  | .error a => .left a

/-- The order in which left comes before right. -/
def compare (left : α → α → Ordering) (right : β → β → Ordering) :
    Either α β → Either α β → Ordering
  | .left a, .left b => left a b
  | .left _, .right _ => .lt
  | .right _, .left _ => .gt
  | .right a, .right b => right a b

def describe (left : α → String) (right : β → String) : Either α β → String :=
  fold (fun a => caseText "Left" (left a)) (fun b => caseText "Right" (right b))

/-! ## Lemmas -/

theorem fold_eq (f : α → γ) (g : β → γ) (e : Either α β) :
    some (e.fold f g) = (e.left?.map f).or (e.right?.map g) := by
  cases e <;> rfl

theorem compare_left_right (l : α → α → Ordering) (r : β → β → Ordering) (a : α) (b : β) :
    compare l r (.left a) (.right b) = .lt := rfl

theorem isRight_eq_not_isLeft (e : Either α β) : e.isRight = !e.isLeft := by
  cases e <;> rfl

end Either

end EffectFibers
