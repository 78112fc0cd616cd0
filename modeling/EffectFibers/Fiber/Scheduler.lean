import EffectFibers.Fiber.World

/-!
# The scheduler

One thread carries out the main program and the tasks, one at a time, each until it can only
wait.  Tasks wait their turn in the run queue.  The main program has its turn when it was woken,
before any task and again after a number of tasks.  When nobody can go on, the clock jumps to
the earliest alarm; if there is none within the horizon, the main program waits for ever.

`Await` is what one step of the main program waits for, `Settled` what it receives.
-/

namespace EffectFibers

inductive Await where
  | run (run : Run)
  /-- A run that is given up at a time. -/
  | runUntil (run : Run) (deadline : Nat)
  | task (task : TaskId)
  | time (deadline : Nat)
  | token (token : TokenId)
deriving Inhabited

inductive Settled where
  | exit (exit : Exit)
  | fault (fault : Fault)
  | expired
  | done
deriving Inhabited

namespace Await

/-- The run that is waited for. -/
def run? : Await → Option Run
  | .run r | .runUntil r _ => some r
  | .task _ | .time _ | .token _ => none

inductive Polled where
  | settled (result : Settled)
  | waiting (await : Await)
  | unfinished

def mainWorker : Worker := ⟨mainTask, Context.home.thread⟩

/-- Polls a run of the main program.  A run that met a fault is dropped. -/
def pollRun (bound : Nat) (r : Run) (w : World) : Run.Polled × Run × World :=
  match r.poll mainWorker bound w.store with
  | (.faulted f, r, s) => (.faulted f, r, (w.withStore s).dropFaulted (some r))
  | (polled, r, s) => (polled, r, w.withStore s)

def poll (bound : Nat) (a : Await) (w : World) : Polled × World :=
  match a with
  | .run r =>
    match pollRun bound r w with
    | (.ready exit, _, w) => (.settled (.exit exit), w)
    | (.notReady, r, w) => (.waiting (.run r), w)
    | (.faulted f, _, w) => (.settled (.fault f), w)
    | (.unfinished, _, w) => (.unfinished, w)
  | .runUntil r deadline =>
    match pollRun bound r w with
    | (.ready exit, _, w) => (.settled (.exit exit), w)
    | (.notReady, r, w) =>
      if deadline ≤ w.store.now then (.settled .expired, w.withStore (r.giveUp w.store))
      else (.waiting (.runUntil r deadline), w.withStore (w.store.watchTime deadline mainTask))
    | (.faulted f, _, w) => (.settled (.fault f), w)
    | (.unfinished, _, w) => (.unfinished, w)
  | .task t =>
    match w.store.joined? t with
    | some joined =>
      match joined.exit with
      | .ok exit => (.settled (.exit exit), w)
      | .error f => (.settled (.fault f), w)
    | none => (.waiting a, w.withStore (w.store.watchTask t mainTask))
  | .time deadline =>
    if deadline ≤ w.store.now then (.settled .done, w)
    else (.waiting a, w.withStore (w.store.watchTime deadline mainTask))
  | .token t =>
    if w.store.isCancelled t then (.settled .done, w)
    else (.waiting a, w.withStore (w.store.watchToken t mainTask))

end Await

namespace Scheduler

/-- How many tasks have their turn before the main program is looked at again. -/
def turns : Nat := 61

/-- How far the clock may run while one step of the main program waits. -/
def horizon : Nat := 1000000000

structure Limits where
  /-- Bound on the steps of one poll. -/
  steps : Nat := 1000000000000
  /-- Bound on the polls of one step of the main program. -/
  polls : Nat := 1000000000000

inductive Verdict where
  | settled (result : Settled)
  | pending

/-- Carries tasks out until what the main program waits for has settled.  `turn` counts the
tasks that may still go on before the main program has its turn. -/
def drive (steps latest : Nat) (polls turn : Nat) (a : Await) (w : World) : Verdict × World :=
  match polls with
  | 0 => (.pending, w)
  | polls + 1 =>
    match turn with
    | 0 =>
      if w.store.mainWoken then
        let w := { w with store := { w.store with mainWoken := false } }
        match a.poll steps w with
        | (.settled result, w) => (.settled result, w)
        | (.waiting a, w) => drive steps latest polls turns a w
        | (.unfinished, w) => (.pending, w)
      else drive steps latest polls turns a w
    | turn + 1 =>
      match w.store.ready.pop? with
      | some (t, ready) =>
        let w := { w with store := { w.store with ready }, awaited := a.run? }
        match w.pollTask steps t with
        | some w => drive steps latest polls turn a { w with awaited := none }
        | none => (.pending, w)
      | none =>
        if w.store.mainWoken then drive steps latest polls 0 a w
        else
          match w.store.alarms with
          | [] => (.pending, w)
          | alarm :: _ =>
            if alarm.time ≤ latest then
              drive steps latest polls 0 a (w.withStore (w.store.advanceTo alarm.time))
            else (.pending, w)

/-- Waits, beginning with the main program's own turn. -/
def wait (limits : Limits) (a : Await) (w : World) : Verdict × World :=
  match a.poll limits.steps w with
  | (.settled result, w) => (.settled result, w)
  | (.waiting a, w) => drive limits.steps (w.store.now + horizon) limits.polls turns a w
  | (.unfinished, w) => (.pending, w)

end Scheduler

end EffectFibers
