import EffectFibers.Cell

/-!
# Single-use setters

A `Setter` is handed out together with the value it belongs to.  The first use, through the
setter or any clone of it, writes if nothing was written since the value was read; every later
use does nothing.

## Main statements

* `Setter.set_used`: a spent setter changes nothing.
* `Setter.set_fresh`: the first use writes exactly if the snapshot is still current.
-/

namespace EffectFibers

variable {α : Type}

structure Setter (α : Type) where
  snapshot : Snapshot α
  used : Bool := false
deriving Inhabited

namespace Setter

/-- A use of the setter: whether it wrote, the spent setter and the cell. -/
def set (s : Setter α) (c : Cell α) (value : α) : Bool × Setter α × Cell α :=
  if s.used then (false, s, c)
  else
    match c.compareAndSwap s.snapshot value with
    | (.ok _, c) => (true, { s with used := true }, c)
    | (.error _, c) => (false, { s with used := true }, c)

/-- The text that shows the setter. -/
def describe (s : Setter α) : String :=
  "Setter \x7b generation: " ++ toString s.snapshot.generation ++ ", used: " ++ toString s.used
    ++ " \x7d"

/-! ## Lemmas -/

theorem set_used {s : Setter α} (h : s.used = true) (c : Cell α) (v : α) :
    s.set c v = (false, s, c) := by simp [set, h]

theorem set_fresh {s : Setter α} (h : s.used = false) (c : Cell α) (v : α) :
    s.set c v
      = if c.current = s.snapshot.generation then (true, { s with used := true }, c.store v)
        else (false, { s with used := true }, c.discard v) := by
  simp only [set, h, Cell.compareAndSwap]
  by_cases hg : c.current = s.snapshot.generation <;> simp [hg]

end Setter

end EffectFibers
