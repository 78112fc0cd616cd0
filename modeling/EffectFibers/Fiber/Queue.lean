import EffectFibers.Fiber.Segment

/-!
# The run queue

Tasks that can go on wait in a queue, first in first out, each at most once.

## Main statements

* `Queue.toList_push`, `Queue.pop?_toList`: the queue read as a list.
-/

namespace EffectFibers

/-- A queue: the front in order, the back in reverse. -/
structure Queue where
  front : List TaskId := []
  back : List TaskId := []
deriving Inhabited

namespace Queue

def toList (q : Queue) : List TaskId := q.front ++ q.back.reverse

def contains (q : Queue) (t : TaskId) : Bool := q.front.contains t || q.back.contains t

/-- Appends a task that is not waiting yet. -/
def push (q : Queue) (t : TaskId) : Queue :=
  if q.contains t then q else { q with back := t :: q.back }

def pop? (q : Queue) : Option (TaskId × Queue) :=
  match q.front with
  | t :: front => some (t, { q with front })
  | [] =>
    match q.back.reverse with
    | t :: front => some (t, ⟨front, []⟩)
    | [] => none

def isEmpty (q : Queue) : Bool := q.front.isEmpty && q.back.isEmpty

/-! ## Lemmas -/

theorem contains_iff (q : Queue) (t : TaskId) : q.contains t = true ↔ t ∈ q.toList := by
  simp [contains, toList]

theorem toList_push (q : Queue) (t : TaskId) :
    (q.push t).toList = if t ∈ q.toList then q.toList else q.toList ++ [t] := by
  unfold push
  by_cases h : t ∈ q.toList
  · simp [(contains_iff q t).mpr h, h]
  · have hc : q.contains t = false := by
      cases hq : q.contains t with
      | false => rfl
      | true => exact absurd ((contains_iff q t).mp hq) h
    rw [if_neg h]
    simp [hc, toList]

theorem pop?_toList {q r : Queue} {t : TaskId} (h : q.pop? = some (t, r)) :
    q.toList = t :: r.toList := by
  obtain ⟨front, back⟩ := q
  cases front with
  | cons a as => simp [pop?] at h; obtain ⟨rfl, rfl⟩ := h; simp [toList]
  | nil =>
    simp only [pop?] at h
    cases hb : back.reverse with
    | nil => simp [hb] at h
    | cons a as => simp [hb] at h; obtain ⟨rfl, rfl⟩ := h; simp [toList, hb]

end Queue

end EffectFibers
