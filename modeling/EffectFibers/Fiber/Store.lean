import EffectFibers.Fiber.Queue
import EffectFibers.Fiber.Run

/-!
# The store

A `Store` is what the run loops share: the memory, the tokens, the callbacks, the results of
ended tasks, the clock, and who is to be woken when something changes.  Tasks that a poll starts
are collected in `spawned`, newest first; they are carried out later.

Whoever comes to wait for a token, a callback, a task or a time is entered as its watcher.  A
change wakes the watchers: each is put into the run queue, or marked if it is the main program.
-/

namespace EffectFibers

/-- The main program; it is not in the run queue. -/
def mainTask : TaskId := 0

/-- Who polls: a task and the thread it runs on. -/
structure Worker where
  task : TaskId
  thread : String
deriving Inhabited

structure Slot where
  callback : Callback := {}
  watchers : List TaskId := []
deriving Inhabited

structure Join where
  result : Option Joined := none
  /-- How many tasks had ended before. -/
  order : Nat := 0
  watchers : List TaskId := []
deriving Inhabited

structure Alarm where
  time : Nat
  task : TaskId
deriving DecidableEq, Inhabited

structure Spawn where
  task : TaskId
  context : Context
  job : Job
deriving Inhabited

structure Store where
  memory : Memory := {}
  tokens : Forest := {}
  slots : Array Slot := #[]
  /-- By task; the first place belongs to the main program. -/
  joins : Array Join := #[{}]
  ended : Nat := 0
  spawned : List Spawn := []
  watchers : List (TokenId × TaskId) := []
  alarms : List Alarm := []
  ready : Queue := {}
  mainWoken : Bool := false
  trace : List Event := []
  brackets : Nat := 0
  now : Nat := 0
  /-- Whether the home context has timers; without them time is not told. -/
  timed : Bool := true
deriving Inhabited

namespace Store

def emit (s : Store) (event : Event) : Store := { s with trace := event :: s.trace }

/-- The time that is told to the program. -/
def time (s : Store) : Nat := if s.timed then s.now else 0

/-! ## Waking -/

def wake (s : Store) (t : TaskId) : Store :=
  if t = mainTask then { s with mainWoken := true } else { s with ready := s.ready.push t }

def wakeAll (s : Store) (ts : List TaskId) : Store := ts.foldl wake s

/-- Enters a watcher once. -/
def enter (watchers : List TaskId) (t : TaskId) : List TaskId :=
  if watchers.contains t then watchers else watchers ++ [t]

/-! ## Tokens -/

def isCancelled (s : Store) (t : TokenId) : Bool := s.tokens.isCancelled t

def freshToken (s : Store) : TokenId × Store :=
  let (t, tokens) := s.tokens.fresh
  (t, { s with tokens })

def childToken (s : Store) (parent : TokenId) : TokenId × Store :=
  let (t, tokens) := s.tokens.child parent
  (t, { s with tokens }.emit (.derived parent t))

/-- Cancels a token and what hangs below it, and wakes who watches any of them. -/
def cancel (s : Store) (t : TokenId) : Store :=
  let tokens := s.tokens.cancel t
  let (woken, watchers) := s.watchers.partition fun w => tokens.isCancelled w.1
  wakeAll { s with tokens, watchers } (woken.map Prod.snd)

def watchToken (s : Store) (t : TokenId) (task : TaskId) : Store :=
  if s.watchers.contains (t, task) then s else { s with watchers := s.watchers ++ [(t, task)] }

/-! ## Time -/

/-- Inserts an alarm behind the earlier ones and those of the same time. -/
def insertAlarm (a : Alarm) : List Alarm → List Alarm
  | [] => [a]
  | b :: rest =>
    if a = b then b :: rest
    else if a.time < b.time then a :: b :: rest
    else b :: insertAlarm a rest

def watchTime (s : Store) (time : Nat) (task : TaskId) : Store :=
  { s with alarms := insertAlarm ⟨time, task⟩ s.alarms }

/-- The clock jumps to a time and wakes whoever is due. -/
def advanceTo (s : Store) (time : Nat) : Store :=
  let (due, alarms) := s.alarms.span (·.time ≤ time)
  wakeAll { s with now := time, alarms } (due.map Alarm.task)

/-! ## Callbacks -/

def slot (s : Store) (i : Nat) : Slot := (s.slots[i]?).getD default

def setSlot (s : Store) (i : Nat) (slot : Slot) : Store :=
  { s with slots := s.slots.setIfInBounds i slot }

def openCallback (s : Store) : Nat × Store := (s.slots.size, { s with slots := s.slots.push {} })

/-- Changes a callback and wakes who waits for it. -/
def updateCallback (s : Store) (i : Nat) (callback : Callback) : Store :=
  (s.setSlot i { callback }).wakeAll (s.slot i).watchers

def completeCallback (s : Store) (i : Nat) (result : Result) : Except Fault Store :=
  match (s.slot i).callback.complete result with
  | .ok callback => .ok (s.updateCallback i callback)
  | .error f => .error f

/-- A clone is dropped; only the loss of the last one wakes anybody. -/
def dropCallback (s : Store) (i : Nat) : Store :=
  let slot := s.slot i
  let callback := slot.callback.drop
  if callback.handles = 0 then s.updateCallback i callback
  else s.setSlot i { slot with callback }

def holdCallback (s : Store) (i : Nat) : Store :=
  let slot := s.slot i
  s.setSlot i { slot with callback := slot.callback.clone }

def watchCallback (s : Store) (i : Nat) (task : TaskId) : Store :=
  let slot := s.slot i
  s.setSlot i { slot with watchers := enter slot.watchers task }

/-! ## Tasks -/

def join (s : Store) (t : TaskId) : Join := (s.joins[t]?).getD default

def joined? (s : Store) (t : TaskId) : Option Joined := (s.join t).result

/-- Starts a task.  A closed context drops it at once. -/
def spawn (s : Store) (context : Context) (job : Job) : TaskId × Store :=
  let t := s.joins.size
  if context.isOpen then
    (t, { s with
      joins := s.joins.push {}
      spawned := ⟨t, context, job⟩ :: s.spawned
      ready := s.ready.push t })
  else (t, { s with
    joins := s.joins.push { result := some .aborted, order := s.ended }
    ended := s.ended + 1 })

def watchTask (s : Store) (t : TaskId) (task : TaskId) : Store :=
  let join := s.join t
  { s with joins := s.joins.setIfInBounds t { join with watchers := enter join.watchers task } }

/-- Records the end of a task and wakes who waits for it. -/
def finish (s : Store) (t : TaskId) (result : Joined) : Store :=
  wakeAll { s with
    joins := s.joins.setIfInBounds t { result := some result, order := s.ended }
    ended := s.ended + 1 } (s.join t).watchers

/-! ## Journal -/

def write (s : Store) (lane : Lane) (text : String) : Store :=
  { s with memory := s.memory.write ⟨lane, s.time, text⟩ }

end Store

end EffectFibers
