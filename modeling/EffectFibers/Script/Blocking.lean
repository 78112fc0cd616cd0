import EffectFibers.Script.Session

/-!
# Blocking runs

A blocking run carries an effect out on the calling thread.  Outside every context, and inside
one with several threads, the caller can wait; in a context with a single thread it is refused,
and the effect is not even begun.  A blocking run has no clock: every entry of its journal is at
time zero.

## Main statements

* `Surroundings.accept_eq_error_iff`: only a single-threaded context refuses.
-/

namespace EffectFibers.Script

/-- Where the caller of a blocking run is. -/
inductive Surroundings where
  | outside
  | inside (flavor : Flavor)
deriving DecidableEq, Inhabited

/-- The context that the run begins in, unless it is refused. -/
def Surroundings.accept : Surroundings → Except BlockingError Context
  | .outside | .inside .multiThread => .ok .shared
  | .inside .currentThread => .error .currentThreadRuntime

theorem Surroundings.accept_eq_error_iff (s : Surroundings) (e : BlockingError) :
    s.accept = .error e ↔ s = .inside .currentThread ∧ e = .currentThreadRuntime := by
  cases s with
  | outside => simp [accept]
  | inside f => cases f <;> simp [accept, eq_comm]

structure BlockingRun where
  cells : List CellDecl := []
  effect : Term
  surroundings : Surroundings := .outside
  /-- Whether a refusal is part of the report; otherwise it is a fault. -/
  reportsRefusal : Bool := false

inductive BlockingAnswer where
  | answer (answer : Answer)
  | refused (error : BlockingError)

structure BlockingReport where
  answer : BlockingAnswer
  journal : List Entry
  cells : List (String × Value)

namespace BlockingRun

/-- The answer and the session that the run leaves. -/
def perform (b : BlockingRun) (x : Session) : Except Fault (BlockingAnswer × Session) := do
  let p ← x.program mainLane b.effect
  match b.surroundings.accept with
  | .ok context =>
    let (run, x) := x.newRun p none context
    match x.answer (.run run) with
    | (.fault f, _) => throw f
    | (a, x) => return (.answer a, x)
  | .error e => if b.reportsRefusal then return (.refused e, x) else throw (.blocking e)

def run (b : BlockingRun) : Except Fault BlockingReport := do
  let (answer, x) ← b.perform (Session.ofScript { cells := b.cells })
  return {
    answer
    journal := x.store.memory.lanes.map fun e => { e with time := 0 }
    cells := x.cells }

end BlockingRun

end EffectFibers.Script
