import EffectFibers.Script.Term

/-!
# Actions on cells

The effects that read and write a cell.  An update may be disturbed: during its calls another
writer stores values of its own, one per call, so that the attempt fails and is made again.
-/

namespace EffectFibers.Script

/-- One call of an update function: the old value, the new one, and the output. -/
structure Call where
  old : Value
  new : Value
  output : Value

namespace CellFunction

/-- What the function gives for a value of the cell. -/
def apply (f : CellFunction) (scope : Scope) (old : Value) : Except Fault (Value × Call) := do
  let scope := scope.bindValue f.bind old
  let output ← match f.output with
    | some e => e.eval scope
    | none => .ok .null
  let new ← f.value.eval scope
  return (new, ⟨old, new, output⟩)

/-- Another writer stores a value, in a run of its own. -/
def disturb (scope : Scope) (c : CellId) (e : Expr) (m : Memory) : Except Fault Memory := do
  let v ← e.eval scope
  let m := m.setCell c ((m.cell c).store v)
  return (m.report (.fiberStarted none)).report (.fiberFinished (.succeeded .null))

/-- The call of attempt `k`. -/
def call (f : CellFunction) (scope : Scope) (lane : Lane) (site : Site) (c : CellId)
    (k : Nat) (old : Value) (m : Memory) : Except Fault (Value × Call) × Memory :=
  let m := if f.traced then m.write ⟨lane, site.time, "call " ++ old.compact⟩ else m
  match f.interfere[k]? with
  | none => (f.apply scope old, m)
  | some e =>
    match disturb scope c e m with
    | .ok m => (f.apply scope old, m)
    | .error fault => (.error fault, m)

end CellFunction

namespace UpdateStyle

/-- The bound on the attempts.  An update that is repeated until it succeeds is undisturbed after
as many attempts as there are disturbances. -/
def attempts (f : CellFunction) : UpdateStyle → Nat
  | .update | .getAndUpdate | .updateAndGet | .modify => f.interfere.length + 1
  | .tryUpdate | .tryModify => 1
  | .updateBounded max => max

/-- What is reported of an attempt that failed. -/
def lost (style : UpdateStyle) (attempt : Nat) (m : Memory) : Memory :=
  match style with
  | .update | .getAndUpdate | .updateAndGet | .modify => m.report (.swapRetried attempt)
  | .tryUpdate | .tryModify => m
  | .updateBounded max => m.report (.swapLost attempt max)

/-- The value of the effect, from the call that succeeded. -/
def result : UpdateStyle → Option Call → Value
  | .update, _ => .null
  | .getAndUpdate, call => (call.map (·.old)).getD .null
  | .updateAndGet, call => (call.map (·.new)).getD .null
  | .modify, call => (call.map (·.output)).getD .null
  | .tryModify, call => .ofOption (call.map (·.output))
  | .tryUpdate, call | .updateBounded _, call => .bool call.isSome

end UpdateStyle

namespace CellAction

/-- Stores a value and goes on with a value computed from the one it replaced. -/
def storing (c : CellId) (v : Value) (result : Value → Value) : Effect :=
  .delay fun _ m =>
    let (old, cell) := (m.cell c).swap v
    (.ok (result old), m.setCell c cell)

def build (scope : Scope) (lane : Lane) (c : CellId) : CellAction → Except Fault Effect
  | .get => .ok (.delay fun _ m => (.ok (m.cell c).value, m))
  | .set e => do
    let v ← e.eval scope
    return storing c v fun _ => .null
  | .getAndSet e => do
    let v ← e.eval scope
    return storing c v id
  | .setAndGet e => do
    let v ← e.eval scope
    return storing c v fun _ => v
  | .update style f => .ok <| .delay fun site m =>
    match Cell.retry (Memory.place c) (f.call scope lane site c) style.lost
        (style.attempts f) 0 m with
    | (.ok call, m) => (.ok (style.result call), m)
    | (.error fault, m) => (.error fault, m)

end CellAction

end EffectFibers.Script
