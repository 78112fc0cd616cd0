import EffectFibers.Cell.Update
import EffectFibers.Text.Quoted

/-!
# Trials of a cell

A trial carries out operations on one cell and keeps the snapshots that it names.  Values are
given outright or as a change of a value at hand; a `Content` says what a change does and how a
value is shown.  During an update another writer may store values of its own, one per call of the
update function, so that the attempt fails.

## Main statements

* `Trial.perform_debug`, `Trial.perform_load`: looking at the cell leaves it as it is.
-/

namespace EffectFibers

variable {α : Type}

/-- The kind of values in a cell. -/
structure Content (α : Type) where
  initial : α
  change : α → α → α
  describe : α → String

namespace Content

/-- Integers, changed by adding. -/
def integers : Content Int64 := ⟨0, (· + ·), fun n => toString n.toInt⟩

/-- Texts, changed by appending. -/
def texts : Content String := ⟨"", (· ++ ·), Text.quoted⟩

end Content

/-- A new value: given outright, or by a change of a value at hand. -/
inductive Draft (α : Type) where
  | value (v : α)
  | change (d : α)
deriving Inhabited

def Draft.resolve (kind : Content α) (base : α) : Draft α → α
  | .value v => v
  | .change d => kind.change base d

namespace Cell

/-- The text that shows a cell. -/
def describe (kind : Content α) (c : Cell α) : String :=
  "AtomicCell \x7b value: " ++ kind.describe c.value ++ ", policy: " ++ c.policy.describe
    ++ " \x7d"

end Cell

/-- The text that shows a snapshot. -/
def Snapshot.describe (kind : Content α) (s : Snapshot α) : String :=
  "Snapshot \x7b generation: " ++ toString s.generation ++ ", value: " ++ kind.describe s.value
    ++ " \x7d"

namespace Trial

inductive Attempts where
  /-- As many as it takes. -/
  | unbounded
  | atMost (n : Nat)
deriving Inhabited

inductive Operation (α : Type) where
  | load (as : Option String)
  | compareAndSwap (expected : String) (value : Draft α) (as : Option String)
  | swap (value : Draft α)
  | store (value : Draft α)
  /-- An update by a function, disturbed by `interfere`. -/
  | modify (attempts : Attempts) (value : Draft α) (interfere : List (Draft α))
  | inspect (of : String)
  | debug
  | malformed (cause : Malformed)
deriving Inhabited

inductive Reading (α : Type) where
  | snapshot (s : Snapshot α)
  /-- A swap that succeeded, or the snapshot that it failed on. -/
  | swapped (result : Except (Snapshot α) (Snapshot α))
  | value (v : α)
  | nothing
  /-- A snapshot, its text, and the text of its value. -/
  | inspected (s : Snapshot α) (text valueText : String)
  | text (s : String)

/-- What one operation gave, the values its function was called with, and what a reader sees
afterwards. -/
structure Record (α : Type) where
  reading : Reading α
  calls : List α
  after : Snapshot α

structure State (α : Type) where
  cell : Cell α
  snapshots : List (String × Snapshot α) := []

namespace State

def keep (t : State α) (name : Option String) (s : Snapshot α) : State α :=
  match name with
  | some name => { t with snapshots := (name, s) :: t.snapshots }
  | none => t

def find (t : State α) (name : String) : Except Fault (Snapshot α) :=
  match t.snapshots.lookup name with
  | some s => .ok s
  | none => .error (.malformed .noSnapshot)

end State

/-- A cell and the values that a function was called with, latest first. -/
structure Tally (α : Type) where
  cell : Cell α
  calls : List α := []

def Tally.place : Place (Tally α) α := ⟨(·.cell), fun cell t => { t with cell }⟩

/-- Call `k` of the update function: it is counted, the other writer has its turn, and the new
value and the old one are given. -/
def call (kind : Content α) (value : Draft α) (interfere : List (Draft α)) (k : Nat) (old : α)
    (t : Tally α) : Except Fault (α × α) × Tally α :=
  let cell := match interfere[k]? with
    | some d => t.cell.store (d.resolve kind old)
    | none => t.cell
  (.ok (value.resolve kind old, old), { cell, calls := old :: t.calls })

/-- An unbounded update is undisturbed after as many attempts as there are disturbances. -/
def Attempts.bound (interfere : List (Draft α)) : Attempts → Nat
  | .unbounded => interfere.length + 1
  | .atMost n => n

/-- What an operation gives, the calls of its function, and the state it leaves. -/
def perform (kind : Content α) (t : State α) :
    Operation α → Except Fault (Reading α × List α × State α)
  | .load as => .ok (.snapshot t.cell.load, [], t.keep as t.cell.load)
  | .compareAndSwap expected value as => do
    let s ← t.find expected
    let (result, cell) := t.cell.compareAndSwap s (value.resolve kind s.value)
    let seen := match result with
      | .ok s | .error s => s
    return (.swapped result, [], { t with cell }.keep as seen)
  | .swap value =>
    let (old, cell) := t.cell.swap (value.resolve kind kind.initial)
    .ok (.value old, [], { t with cell })
  | .store value =>
    .ok (.nothing, [], { t with cell := t.cell.store (value.resolve kind kind.initial) })
  | .modify attempts value interfere => do
    let (result, tally) := Cell.retry Tally.place (call kind value interfere) (fun _ t => t)
      (attempts.bound interfere) 0 { cell := t.cell }
    let reading := match ← result with
      | some old => .value old
      | none => .nothing
    return (reading, tally.calls.reverse, { t with cell := tally.cell })
  | .inspect of => do
    let s ← t.find of
    return (.inspected s (s.describe kind) (kind.describe s.value), [], t)
  | .debug => .ok (.text (t.cell.describe kind), [], t)
  | .malformed cause => .error (.malformed cause)

/-- Carries operations out one after the other. -/
def records (kind : Content α) (t : State α) :
    List (Operation α) → Except Fault (List (Record α))
  | [] => .ok []
  | op :: rest => do
    let (reading, calls, t) ← perform kind t op
    return ⟨reading, calls, t.cell.load⟩ :: (← records kind t rest)

/-- The cell that a trial begins with.  Without an initial value it is the default one, which
holds the kind's own value and spins, whatever policy is asked for. -/
def subject (kind : Content α) (initial : Option (Draft α)) (policy : ContentionPolicy) :
    Cell α :=
  match initial with
  | some d => .new (d.resolve kind kind.initial) policy
  | none => .new kind.initial .spin

/-- A trial from the beginning. -/
def run (kind : Content α) (cell : Cell α) (ops : List (Operation α)) :
    Except Fault (List (Record α)) :=
  records kind { cell } ops

/-! ## Lemmas -/

theorem perform_debug (kind : Content α) (t : State α) :
    perform kind t .debug = .ok (.text (t.cell.describe kind), [], t) := rfl

theorem perform_load (kind : Content α) (t : State α) (name : Option String) :
    perform kind t (.load name) = .ok (.snapshot t.cell.load, [], t.keep name t.cell.load) := rfl

end Trial

end EffectFibers
