import EffectFibers.Cell.Setter
import EffectFibers.Cell.Update
import EffectFibers.Trace

/-!
# What closures can touch

A `Memory` holds what the closures of a program read and write: the cells, the setters handed
out for them, and the journal.  The journal and the reports are kept newest first.

Each journal entry stands in a lane, a name that follows the program text; `Memory.lanes` gives
the entries lane by lane in the order of the names, within a lane in the order of writing.
-/

namespace EffectFibers

abbrev CellId := Nat
abbrev SetterId := Nat
abbrev Lane := String

structure Entry where
  lane : Lane
  time : Nat
  text : String
deriving DecidableEq, Inhabited

/-- Where and when a closure runs. -/
structure Site where
  thread : String
  time : Nat
deriving Inhabited

structure Memory where
  cells : Array (Cell Value) := #[]
  setters : Array (CellId × Setter Value) := #[]
  journal : List Entry := []
  reports : List Event := []
deriving Inhabited

namespace Memory

def write (m : Memory) (entry : Entry) : Memory := { m with journal := entry :: m.journal }

def report (m : Memory) (event : Event) : Memory := { m with reports := event :: m.reports }

/-! ## Cells -/

def cell (m : Memory) (c : CellId) : Cell Value := (m.cells[c]?).getD default

def setCell (m : Memory) (c : CellId) (cell : Cell Value) : Memory :=
  { m with cells := m.cells.setIfInBounds c cell }

/-- The place of one cell. -/
def place (c : CellId) : Place Memory Value := ⟨fun m => m.cell c, fun cell m => m.setCell c cell⟩

def newCell (m : Memory) (value : Value) (policy : ContentionPolicy) : CellId × Memory :=
  (m.cells.size, { m with cells := m.cells.push (.new value policy) })

/-- The text that shows a cell. -/
def describeCell (m : Memory) (text : Value → String) (c : CellId) : String :=
  "Ref(" ++ text (m.cell c).value ++ ")"

/-! ## Setters -/

def setter (m : Memory) (s : SetterId) : CellId × Setter Value := (m.setters[s]?).getD default

/-- The value of a cell and a setter that belongs to it. -/
def access (m : Memory) (c : CellId) : Value × SetterId × Memory :=
  let snapshot := (m.cell c).load
  (snapshot.value, m.setters.size, { m with setters := m.setters.push (c, { snapshot }) })

/-- A use of a setter: whether it wrote. -/
def useSetter (m : Memory) (s : SetterId) (value : Value) : Bool × Memory :=
  let (c, setter) := m.setter s
  let (wrote, setter, cell) := setter.set (m.cell c) value
  (wrote, { m.setCell c cell with setters := m.setters.setIfInBounds s (c, setter) })

/-! ## The journal lane by lane -/

/-- The order of lanes: by the bytes of their names. -/
def laneLe (a b : Entry) : Bool := a.lane.toUTF8.toList ≤ b.lane.toUTF8.toList

def lanes (m : Memory) : List Entry := m.journal.reverse.mergeSort laneLe

end Memory

end EffectFibers
