import EffectFibers.Fiber.Store

/-!
# The machine

A poll lets the run loops of one task go on until the task has ended or can only wait.  The
machine works in single steps on a configuration: a focus, which is the run loop in control and
what it is about to do, and the callers, which are the run loops waiting for it, innermost
first.

* `eval` goes down into an effect, leaving frames behind;
* `unwind` carries an exit back up through the frames;
* `leave` hands the exit of a run loop that has ended to the one that waits for it;
* `resume` takes up a segment where it was left;
* `park` carries a segment that can only wait back up through the callers.

An operand of a race that parks lets the other operand have its turn; any other caller is parked
around the parked segment.

## Main definitions

* `Config.step`: one step of a poll.
* `Config.run`: the poll, within a bound on the number of steps.

## Main statements

* `Config.run_of_le`: a larger bound changes nothing about a poll that came to something.
-/

namespace EffectFibers

inductive Focus where
  | eval (loop : Loop) (effect : Effect)
  | unwind (loop : Loop) (exit : Exit)
  | leave (exit : Exit)
  | resume (segment : Segment)
  | park (segment : Segment)
deriving Inhabited

structure Config where
  focus : Focus
  callers : List Caller := []
deriving Inhabited

/-- What a poll has come to. -/
inductive Progress where
  | next (config : Config)
  | ended (exit : Exit)
  | parked (segment : Segment)
  | faulted (fault : Fault)
deriving Inhabited

namespace Machine

/-! ## Leaving a focus -/

def unwind (loop : Loop) (exit : Exit) (callers : List Caller) : Progress :=
  .next ⟨.unwind loop exit, callers⟩

def leave (exit : Exit) (callers : List Caller) : Progress := .next ⟨.leave exit, callers⟩

def eval (loop : Loop) (effect : Effect) (callers : List Caller) : Progress :=
  .next ⟨.eval loop effect, callers⟩

def resume (segment : Segment) (callers : List Caller) : Progress :=
  .next ⟨.resume segment, callers⟩

def park (segment : Segment) (callers : List Caller) : Progress :=
  .next ⟨.park segment, callers⟩

/-! ## Suspension points -/

/-- A suspension point is passed only by a loop that is not cancelled. -/
def atPoint (s : Store) (loop : Loop) (callers : List Caller) (point : Point)
    (go : Store → Progress × Store) : Progress × Store :=
  if s.isCancelled loop.env.token then (unwind loop .canceled callers, s)
  else go (s.emit (.entered loop.env.token point))

/-- The completions that a registration makes itself, up to the first fault. -/
def completeAll (slot : Nat) : List Completion → Store → Option Fault × Store
  | [], s => (none, s)
  | .error f :: _, s => (some f, s)
  | .ok result :: rest, s =>
    match s.completeCallback slot result with
    | .ok s => completeAll slot rest s
    | .error f => (some f, s)

def showCallback (shown : Option Lane) (slot : Nat) (s : Store) : Store :=
  match shown with
  | some lane => s.write lane (s.slot slot).callback.describe
  | none => s

/-- Hands a new callback to a registration. -/
def register (worker : Worker) (r : Registration) (s : Store) : Except Fault Nat × Store :=
  let (slot, s) := s.openCallback
  let s := showCallback r.shown slot s
  match completeAll slot r.immediate s with
  | (some f, s) => (.error f, s)
  | (none, s) =>
    let s := showCallback r.shown slot s
    let s := if r.held then s.holdCallback slot else s
    match r.later with
    | [] => (.ok slot, s.dropCallback slot)
    | later => (.ok slot, (s.spawn { thread := worker.thread } (.completer slot none later)).2)

/-- Starts a future. -/
def start (worker : Worker) (s : Store) : Future → Except Fault Wait
  | .never => .ok .never
  | .cancellation t => .ok (.cancellation t)
  | .timer delay result =>
    if s.timed || worker.thread != Context.home.thread then .ok (.deadline (s.now + delay) result)
    else .error .timersDisabled

/-- What a started future gives now. -/
def Wait.result? (s : Store) : Wait → Option Result
  | .never => none
  | .deadline time result => if time ≤ s.now then some result else none
  | .cancellation t => if s.isCancelled t then some (.ok .null) else none

def watch (worker : Worker) (s : Store) : Wait → Store
  | .never => s
  | .deadline time _ => s.watchTime time worker.task
  | .cancellation t => s.watchToken t worker.task

/-- Starts the operands of a group as tasks, in order. -/
def spawnOperands (env : Env) (group : TokenId) (operands : Nat → Effect) :
    (indices : List Nat) → Store → List (Nat × TaskId) × Store
  | [], s => ([], s)
  | i :: rest, s =>
    let (token, s) := s.childToken group
    let (task, s) := s.spawn env.context (.segment (.start ⟨env.withToken token, []⟩ (operands i)))
    let (tasks, s) := spawnOperands env group operands rest s
    ((i, task) :: tasks, s)

/-! ## Evaluation -/

/-- The operand at an index, for the indices that have one. -/
def operandAt {n : Nat} (operands : Fin n → Effect) (i : Nat) : Effect :=
  if h : i < n then operands ⟨i, h⟩ else Effect.unit

def evalStep (worker : Worker) (loop : Loop) (callers : List Caller) (s : Store) :
    Effect → Progress × Store
  | .pure v => (unwind loop (.succeeded v) callers, s)
  | .fail e => (unwind loop (.errored e) callers, s)
  | .fault f => (.faulted f, s)
  | .perform act next =>
    match act ⟨worker.thread, s.time⟩ s.memory with
    | (.ok reply, memory) => (eval loop (next reply) callers, { s with memory })
    | (.error f, memory) => (.faulted f, { s with memory })
  | .cancel t => (unwind loop (.succeeded .null) callers, s.cancel t)
  | .isCancelled t => (unwind loop (.succeeded (.bool (s.isCancelled t))) callers, s)
  | .map source f => (eval (loop.push (.map f)) source callers, s)
  | .flatMap source f => (eval (loop.push (.bind f)) source callers, s)
  | .handleErrorWith source handler => (eval (loop.push (.handle handler)) source callers, s)
  | .loop again body v =>
    match again v with
    | .ok true => (eval (loop.push (.again again body)) (body v) callers, s)
    | .ok false => (unwind loop (.succeeded v) callers, s)
    | .error f => (.faulted f, s)
  | .async registration =>
    atPoint s loop callers .registration fun s =>
      match register worker registration s with
      | (.ok slot, s) => (resume (.callback loop slot) callers, s)
      | (.error f, s) => (.faulted f, s)
  | .await future =>
    atPoint s loop callers .future fun s =>
      match start worker s future with
      | .ok wait => (resume (.future loop wait) callers, s)
      | .error f => (.faulted f, s)
  | .shift context =>
    atPoint s loop callers .shift fun s =>
      let remainder := { loop with env := loop.env.withContext context }
      let (task, s) := (s.emit (.shifting context.name)).spawn context
        (.segment (.start remainder Effect.unit))
      (resume (.shifted loop.env task) callers, s)
  | .bracket acquire use release =>
    atPoint s loop callers .acquisition fun s =>
      let (token, s) := s.freshToken
      (eval ⟨loop.env.withToken token, []⟩ acquire (.acquiring loop use release :: callers), s)
  | .race left right =>
    let (l, s) := s.childToken loop.env.token
    let (r, s) := s.childToken loop.env.token
    (eval ⟨loop.env.withToken l, []⟩ left
      (.racingLeft loop ⟨l, r⟩ (.start ⟨loop.env.withToken r, []⟩ right) :: callers), s)
  | .parallel n operands =>
    let (token, s) := s.childToken loop.env.token
    let (pending, s) := spawnOperands loop.env token (operandAt operands) (List.range n) s
    (resume (.gathering loop { token, pending }) callers, s)

/-! ## Unwinding -/

/-- One operand of a race has ended.  If it was cancelled by itself, the race is left to the
other; otherwise the race is decided, and the other operand is cancelled and unwound. -/
def settle (loop : Loop) (tokens : RaceTokens) (side : Side) (exit : Exit) (other : Segment)
    (callers : List Caller) (s : Store) : Progress × Store :=
  if exit.isCanceled && !s.isCancelled loop.env.token then
    (resume other (.remaining loop side.other :: callers), s)
  else
    (resume other (.settling loop side exit :: callers), s.cancel (tokens.of side.other))

/-- A nested run loop has ended and its caller goes on. -/
def returnStep (exit : Exit) (callers : List Caller) (s : Store) : Caller → Progress × Store
  | .acquiring loop use release =>
    match exit with
    | .succeeded v =>
      let bracket := s.brackets
      let s := { s with brackets := bracket + 1 }.emit (.acquired loop.env.token bracket v)
      let loop := loop.push (.release bracket (release v))
      if s.isCancelled loop.env.token then (unwind loop .canceled callers, s)
      else (eval loop (use v) callers, s.emit (.useStarted loop.env.token bracket))
    | failed => (unwind loop failed callers, s.emit (.notAcquired loop.env.token failed))
  | .releasing loop bracket outcome =>
    let s := s.emit (.releaseFinished loop.env.token bracket exit)
    match exit, outcome with
    | .errored e, .succeeded _ => (unwind loop (.errored e) callers, s)
    | .errored _, outcome => (unwind loop outcome callers, s.emit (.releaseFailed bracket outcome))
    | _, outcome => (unwind loop outcome callers, s)
  | .racingLeft loop tokens right => settle loop tokens .left exit right callers s
  | .racingRight loop tokens left => settle loop tokens .right exit left callers s
  | .settling loop winner winnerExit =>
    (unwind loop (winner.tag winnerExit) callers, s.emit (.raceSettled winner winnerExit))
  | .remaining loop side => (unwind loop (side.tag exit) callers, s)

/-- An exit meets the innermost frame of its loop. -/
def frameStep (loop : Loop) (callers : List Caller) (s : Store) : Frame → Exit → Progress × Store
  | .map f, .succeeded v =>
    match f v with
    | .ok v => (unwind loop (.succeeded v) callers, s)
    | .error x => (.faulted x, s)
  | .bind f, .succeeded v => (eval loop (f v) callers, s)
  | .again again body, .succeeded v => (eval loop (.loop again body v) callers, s)
  | .handle handler, .errored e => (eval loop (handler e) callers, s)
  | .release bracket finalizer, exit =>
    let outcome := if s.isCancelled loop.env.token then .canceled else exit
    let effect := finalizer outcome.exitCase
    match effect.fault? with
    | some f => (.faulted f, s)
    | none =>
      let (token, s) := (s.emit (.releaseStarted loop.env.token bracket outcome)).freshToken
      (eval ⟨loop.env.withToken token, []⟩ effect (.releasing loop bracket outcome :: callers), s)
  | _, exit => (unwind loop exit callers, s)

def unwindStep (loop : Loop) (exit : Exit) (callers : List Caller) (s : Store) :
    Progress × Store :=
  match loop.frames with
  | frame :: frames => frameStep { loop with frames } callers s frame exit
  | [] => (leave exit callers, s.emit (.left loop.env.token exit))

def leaveStep (exit : Exit) (callers : List Caller) (s : Store) : Progress × Store :=
  match callers with
  | [] => (.ended exit, s)
  | caller :: callers => returnStep exit callers s caller

/-! ## Resuming -/

/-- Takes the ended operands of a group into account, in the order in which they ended. -/
def gather (group : Group) : List (Nat × Joined) → Store → Except Fault Group × Store
  | [], s => (.ok group, s)
  | (i, joined) :: rest, s =>
    match joined.exit with
    | .error f => (.error f, s.cancel group.token)
    | .ok exit =>
      let first := match exit with
        | .errored _ => group.failure.isNone
        | _ => false
      let s := if first then (s.emit (.operandFailed i)).cancel group.token else s
      gather ((group.drop i).absorb i exit) rest s

/-- The pending operands that have ended, in the order in which they did. -/
def endedOperands (group : Group) (s : Store) : List (Nat × Joined) :=
  let ended := group.pending.filterMap fun (i, task) =>
    (s.joined? task).map fun joined => ((s.join task).order, i, joined)
  (ended.mergeSort fun a b => a.1 ≤ b.1).map (·.2)

def resumeStep (worker : Worker) (callers : List Caller) (s : Store) :
    Segment → Progress × Store
  | .start loop effect => (eval loop effect callers, s)
  | .callback loop slot =>
    match (s.slot slot).callback.poll with
    | .delivered result => (unwind loop (.ofExcept result) callers, s)
    | .dropped => (.faulted .callbackDropped, s)
    | .waiting =>
      if s.isCancelled loop.env.token then
        (unwind loop .canceled callers, s.emit .callbackAbandoned)
      else
        (park (.callback loop slot) callers,
          (s.watchCallback slot worker.task).watchToken loop.env.token worker.task)
  | .future loop wait =>
    match Wait.result? s wait with
    | some result => (unwind loop (.ofExcept result) callers, s)
    | none =>
      if s.isCancelled loop.env.token then
        (unwind loop .canceled callers, s.emit .futureAbandoned)
      else
        (park (.future loop wait) callers,
          (watch worker s wait).watchToken loop.env.token worker.task)
  | .shifted env task =>
    match s.joined? task with
    | some joined =>
      match joined.exit with
      | .ok exit => (leave exit callers, s)
      | .error f => (.faulted f, s)
    | none => (park (.shifted env task) callers, s.watchTask task worker.task)
  | .acquiring loop use release inner => (resume inner (.acquiring loop use release :: callers), s)
  | .releasing loop bracket outcome inner =>
    (resume inner (.releasing loop bracket outcome :: callers), s)
  | .racing loop tokens left right => (resume left (.racingLeft loop tokens right :: callers), s)
  | .settling loop winner exit loser => (resume loser (.settling loop winner exit :: callers), s)
  | .remaining loop side operand => (resume operand (.remaining loop side :: callers), s)
  | .gathering loop group =>
    match gather group (endedOperands group s) s with
    | (.error f, s) => (.faulted f, s)
    | (.ok group, s) =>
      if group.pending.isEmpty then (unwind loop group.exit callers, s)
      else
        (park (.gathering loop group) callers,
          group.pending.foldl (fun s (_, task) => s.watchTask task worker.task) s)

/-! ## Parking -/

def parkStep (segment : Segment) (callers : List Caller) : Progress :=
  match callers with
  | [] => .parked segment
  | .acquiring loop use release :: callers =>
    park (.acquiring loop use release segment) callers
  | .releasing loop bracket outcome :: callers =>
    park (.releasing loop bracket outcome segment) callers
  | .racingLeft loop tokens right :: callers =>
    resume right (.racingRight loop tokens segment :: callers)
  | .racingRight loop tokens left :: callers =>
    park (.racing loop tokens left segment) callers
  | .settling loop winner exit :: callers => park (.settling loop winner exit segment) callers
  | .remaining loop side :: callers => park (.remaining loop side segment) callers

end Machine

namespace Config

/-- One step of a poll. -/
def step (worker : Worker) (c : Config) (s : Store) : Progress × Store :=
  match c.focus with
  | .eval loop effect => Machine.evalStep worker loop c.callers s effect
  | .unwind loop exit => Machine.unwindStep loop exit c.callers s
  | .leave exit => Machine.leaveStep exit c.callers s
  | .resume segment => Machine.resumeStep worker c.callers s segment
  | .park segment => (Machine.parkStep segment c.callers, s)

/-- What a whole poll comes to. -/
inductive Result where
  | ended (exit : Exit)
  | parked (segment : Segment)
  | faulted (fault : Fault)
  /-- The bound on the number of steps was met. -/
  | unfinished
deriving Inhabited

/-- The poll, within a bound on the number of steps. -/
def run (worker : Worker) (bound : Nat) (c : Config) (s : Store) : Result × Store :=
  match bound with
  | 0 => (.unfinished, s)
  | bound + 1 =>
    match c.step worker s with
    | (.next c, s) => run worker bound c s
    | (.ended exit, s) => (.ended exit, s)
    | (.parked segment, s) => (.parked segment, s)
    | (.faulted f, s) => (.faulted f, s)

/-- A poll that came to something within a bound comes to the same within any larger one. -/
theorem run_of_le (worker : Worker) {bound bound' : Nat} (le : bound ≤ bound') {c : Config}
    {s : Store} {result : Result × Store} (run_eq : run worker bound c s = result)
    (finished : result.1 ≠ .unfinished) : run worker bound' c s = result := by
  induction bound generalizing bound' c s with
  | zero =>
    subst run_eq
    exact absurd rfl finished
  | succ bound ih =>
    obtain ⟨bound', rfl⟩ : ∃ k, bound' = k + 1 := ⟨bound' - 1, by omega⟩
    rw [run] at run_eq ⊢
    split at run_eq
    · next c s h => exact ih (Nat.le_of_succ_le_succ le) run_eq
    all_goals exact run_eq

end Config

/-- Polls a segment. -/
def Segment.poll (worker : Worker) (bound : Nat) (segment : Segment) (s : Store) :
    Config.Result × Store :=
  Config.run worker bound ⟨.resume segment, []⟩ s

end EffectFibers
