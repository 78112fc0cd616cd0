import EffectFibers.Fiber.Machine

/-!
# The direct reading of an effect

`Effect.evaluate` reads an effect by recursion on the effect: it evaluates the source first and
then looks at the exit, and there are no frames and no callers.  What a loop waits for is told to
it by its surroundings: a `Poll` is a further poll, before which anything may have happened to the
store.  Only loops need a bound, on the number of their rounds.

The direct reading is that of sequential effects (`Effect.Sequential`): they do not start tasks of
a run, and do not race.

## Main definitions

* `Direct`: what is read in a `Scene` comes to a value, or stops.
* `Direct.wait`: asks again at every poll until there is an answer.
* `Effect.evaluate`: the direct reading.
-/

namespace EffectFibers

/-! ## Scenes -/

/-- A further poll: what happens before it, and who polls. -/
structure Poll where
  worker : Worker
  meanwhile : Store → Store

/-- Who polls, the polls that are to come, and the store. -/
structure Scene where
  worker : Worker
  polls : List Poll
  store : Store

/-- Why there is no exit. -/
inductive Stop where
  | faulted (fault : Fault)
  /-- There is no further poll. -/
  | waiting
  /-- The bound on the rounds of a loop was met. -/
  | unfinished
  /-- The effect is not sequential. -/
  | outside
deriving DecidableEq

abbrev Direct := ExceptT Stop (StateM Scene)

namespace Direct

variable {α β : Type}

theorem bind_apply (x : Direct α) (f : α → Direct β) (sc : Scene) :
    (x >>= f) sc = match x sc with
      | (.ok a, sc') => f a sc'
      | (.error e, sc') => (.error e, sc') := by
  show (match x sc with | (a, s) => ExceptT.bindCont f a s) = _
  obtain ⟨_ | _, _⟩ := x sc <;> rfl

def store : Direct Store := fun sc => (.ok sc.store, sc)

/-- A change of the store that gives something back. -/
def draw (f : Store → α × Store) : Direct α :=
  fun sc => (.ok (f sc.store).1, { sc with store := (f sc.store).2 })

def update (f : Store → Store) : Direct Unit := draw fun s => ((), f s)

def emit (event : Event) : Direct Unit := update fun s => s.emit event

/-- A change of the store that may end in a fault. -/
def tryDraw (f : Worker → Store → Except Fault α × Store) : Direct α :=
  fun sc => ((f sc.worker sc.store).1.mapError .faulted,
    { sc with store := (f sc.worker sc.store).2 })

def cancelled (env : Env) : Direct Bool := return (← store).isCancelled env.token

/-! ## Waiting -/

/-- What a loop that waits is told at a poll. -/
inductive Answer where
  | exit (x : Exit)
  | fault (f : Fault)
  | later

/-- What is waited for is there, or the token is cancelled, or there is more waiting. -/
def askCallback (token : TokenId) (slot : Nat) (worker : Worker) (s : Store) : Answer × Store :=
  match (s.slot slot).callback.poll with
  | .delivered result => (.exit (.ofExcept result), s)
  | .dropped => (.fault .callbackDropped, s)
  | .waiting =>
    if s.isCancelled token then (.exit .canceled, s.emit .callbackAbandoned)
    else (.later, (s.watchCallback slot worker.task).watchToken token worker.task)

@[inherit_doc askCallback]
def askFuture (token : TokenId) (wait : Wait) (worker : Worker) (s : Store) : Answer × Store :=
  match Machine.Wait.result? s wait with
  | some result => (.exit (.ofExcept result), s)
  | none =>
    if s.isCancelled token then (.exit .canceled, s.emit .futureAbandoned)
    else (.later, (Machine.watch worker s wait).watchToken token worker.task)

def waitOn (ask : Worker → Store → Answer × Store) :
    List Poll → Worker → Store → Except Stop Exit × Scene
  | polls, worker, s =>
    match ask worker s with
    | (.exit x, s) => (.ok x, ⟨worker, polls, s⟩)
    | (.fault f, s) => (.error (.faulted f), ⟨worker, polls, s⟩)
    | (.later, s) =>
      match polls with
      | [] => (.error .waiting, ⟨worker, [], s⟩)
      | poll :: polls => waitOn ask polls poll.worker (poll.meanwhile s)

/-- Asks at every poll until there is an answer. -/
def wait (ask : Worker → Store → Answer × Store) : Direct Exit :=
  fun sc => waitOn ask sc.polls sc.worker sc.store

/-! ## Constructs -/

/-- Goes on, with a mark, only under a token that is not cancelled. -/
def guarded (env : Env) (mark : Event) (go : Direct Exit) : Direct Exit := do
  if ← cancelled env then return .canceled
  else
    emit mark
    go

theorem guarded_apply (env : Env) (mark : Event) (go : Direct Exit) (sc : Scene) :
    guarded env mark go sc = if sc.store.isCancelled env.token then (.ok .canceled, sc)
      else go { sc with store := sc.store.emit mark } := by
  rw [guarded, bind_apply]
  show (if sc.store.isCancelled env.token then pure .canceled
    else (do emit mark; go) : Direct Exit) sc = _
  split <;> rfl

/-- Evaluates in a loop of its own, which leaves a mark when it ends. -/
def toEnd (env : Env) (body : Env → Direct Exit) : Direct Exit := do
  let x ← body env
  emit (.left env.token x)
  return x

/-- Evaluates in a loop of its own, under a token of its own. -/
def masked (env : Env) (body : Env → Direct Exit) : Direct Exit := do
  toEnd (env.withToken (← draw Store.freshToken)) body

/-- The exit that counts: the token has the last word. -/
def observe (env : Env) (x : Exit) : Direct Exit := do
  if ← cancelled env then return .canceled else return x

def onMemory (act : Site → Memory → Except Fault Reply × Memory) : Direct Reply :=
  tryDraw fun worker s =>
    let (reply, memory) := act ⟨worker.thread, s.time⟩ s.memory
    (reply, { s with memory })

/-- The bracket of an acquired value gets a number. -/
def acquired (env : Env) (v : Value) : Direct BracketId :=
  draw fun s => (s.brackets,
    { s with brackets := s.brackets + 1 }.emit (.acquired env.token s.brackets v))

/-- A failed release replaces a success, and is left out otherwise. -/
def released (env : Env) (bracket : BracketId) (outcome exit : Exit) : Direct Exit := do
  emit (.releaseFinished env.token bracket exit)
  match exit, outcome with
  | .errored e, .succeeded _ => return .errored e
  | .errored _, outcome =>
    emit (.releaseFailed bracket outcome)
    return outcome
  | _, outcome => return outcome

/-- Releases what was acquired, with what the use has come to.  A panic of the closure that gives
the release comes before everything else. -/
def finalize (env : Env) (bracket : BracketId) (fault? : ExitCase Value → Option Fault)
    (release : ExitCase Value → Env → Direct Exit) (x : Exit) : Direct Exit := do
  let outcome ← observe env x
  match fault? outcome.exitCase with
  | some f => throw (.faulted f)
  | none =>
    emit (.releaseStarted env.token bracket outcome)
    released env bracket outcome (← masked env (release outcome.exitCase))

/-- Runs a body on the current value for as long as it is asked for, within a bound. -/
def iterate (again : Value → Except Fault Bool) (body : Value → Direct Exit) :
    Nat → Value → Direct Exit
  | 0, _ => throw .unfinished
  | rounds + 1, v => do
    match again v with
    | .error f => throw (.faulted f)
    | .ok false => return .succeeded v
    | .ok true =>
      match ← body v with
      | .succeeded v => iterate again body rounds v
      | x => return x

end Direct

namespace Effect

open Direct in
/-- The direct reading of a sequential effect, with a bound on the rounds of each loop. -/
def evaluate (rounds : Nat) : Effect → Env → Direct Exit
  | .pure v, _ => return .succeeded v
  | .fail e, _ => return .errored e
  | .fault f, _ => throw (.faulted f)
  | .perform act next, env => do evaluate rounds (next (← onMemory act)) env
  | .cancel t, _ => do
    update fun s => s.cancel t
    return .succeeded .null
  | .isCancelled t, _ => return .succeeded (.bool ((← store).isCancelled t))
  | .map source f, env => do
    match ← evaluate rounds source env with
    | .succeeded v => return .succeeded (← tryDraw fun _ s => (f v, s))
    | x => return x
  | .flatMap source f, env => do
    match ← evaluate rounds source env with
    | .succeeded v => evaluate rounds (f v) env
    | x => return x
  | .handleErrorWith source handler, env => do
    match ← evaluate rounds source env with
    | .errored e => evaluate rounds (handler e) env
    | x => return x
  | .loop again body v, env => iterate again (fun v => evaluate rounds (body v) env) rounds v
  | .async registration, env => guarded env (.entered env.token .registration) do
    let slot ← tryDraw fun worker => Machine.register worker registration
    wait (askCallback env.token slot)
  | .await future, env => guarded env (.entered env.token .future) do
    let pending ← tryDraw fun worker s => (Machine.start worker s future, s)
    wait (askFuture env.token pending)
  | .bracket acquire use release, env => guarded env (.entered env.token .acquisition) do
    match ← masked env (evaluate rounds acquire) with
    | .succeeded v =>
      let bracket ← acquired env v
      let x ← guarded env (.useStarted env.token bracket) (evaluate rounds (use v) env)
      finalize env bracket (fun exitCase => (release v exitCase).fault?)
        (fun exitCase => evaluate rounds (release v exitCase)) x
    | failed =>
      emit (.notAcquired env.token failed)
      return failed
  | .shift _, _ | .race .., _ | .parallel .., _ => throw .outside

/-- An effect that neither starts tasks of a run nor races, at any depth. -/
def Sequential : Effect → Prop
  | .pure _ | .fail _ | .fault _ | .cancel _ | .isCancelled _ | .async _ | .await _ => True
  | .perform _ next => ∀ reply, (next reply).Sequential
  | .map source _ => source.Sequential
  | .flatMap source f => source.Sequential ∧ ∀ v, (f v).Sequential
  | .handleErrorWith source handler => source.Sequential ∧ ∀ e, (handler e).Sequential
  | .loop _ body _ => ∀ v, (body v).Sequential
  | .bracket acquire use release =>
    acquire.Sequential ∧ (∀ v, (use v).Sequential) ∧ ∀ v x, (release v x).Sequential
  | .shift _ | .race .. | .parallel .. => False

/-- An effect without loops, at any depth. -/
def Loopless : Effect → Prop
  | .pure _ | .fail _ | .fault _ | .cancel _ | .isCancelled _ => True
  | .async _ | .await _ | .shift _ => True
  | .perform _ next => ∀ reply, (next reply).Loopless
  | .map source _ => source.Loopless
  | .flatMap source f => source.Loopless ∧ ∀ v, (f v).Loopless
  | .handleErrorWith source handler => source.Loopless ∧ ∀ e, (handler e).Loopless
  | .loop .. => False
  | .bracket acquire use release =>
    acquire.Loopless ∧ (∀ v, (use v).Loopless) ∧ ∀ v x, (release v x).Loopless
  | .race left right => left.Loopless ∧ right.Loopless
  | .parallel _ operands => ∀ i, (operands i).Loopless

end Effect

/-! ## Effects without loops -/

namespace Direct

variable {α β : Type}

/-- The bound on rounds is not met. -/
def Finishes (m : Direct α) : Prop := ∀ sc, (m sc).1 ≠ .error .unfinished

namespace Finishes

theorem pure (a : α) : Finishes (Pure.pure a : Direct α) := fun _ => nofun

theorem bind {m : Direct α} {f : α → Direct β} (first : m.Finishes) (rest : ∀ a, (f a).Finishes) :
    (m >>= f).Finishes := by
  intro sc
  have finished := first sc
  rw [bind_apply]
  generalize m sc = came at finished
  obtain ⟨e | a, sc'⟩ := came
  · simpa using finished
  · exact rest a sc'

theorem draw (f : Store → α × Store) : (Direct.draw f).Finishes := fun _ => nofun

theorem cancelled (env : Env) : (Direct.cancelled env).Finishes := fun _ => nofun

theorem tryDraw (f : Worker → Store → Except Fault α × Store) : (Direct.tryDraw f).Finishes := by
  intro sc
  rw [Direct.tryDraw]
  cases (f sc.worker sc.store).1 <;> nofun

theorem wait (ask : Worker → Store → Answer × Store) : (Direct.wait ask).Finishes := by
  rintro ⟨worker, polls, s⟩
  show (waitOn ask polls worker s).1 ≠ _
  induction polls generalizing worker s with
  | nil =>
    rw [waitOn]
    obtain ⟨x | f | _, s'⟩ := ask worker s <;> simp
  | cons poll polls ih =>
    rw [waitOn]
    obtain ⟨x | f | _, s'⟩ := ask worker s
    · simp
    · simp
    · exact ih _ _

theorem guarded {go : Direct Exit} (env : Env) (mark : Event) (h : go.Finishes) :
    (Direct.guarded env mark go).Finishes := by
  intro sc
  rw [guarded_apply]
  split
  · nofun
  · exact h _

theorem toEnd {body : Env → Direct Exit} (env : Env) (h : (body env).Finishes) :
    (Direct.toEnd env body).Finishes :=
  .bind h fun _ => .bind (.draw _) fun _ => .pure _

theorem masked {body : Env → Direct Exit} (env : Env) (h : ∀ env, (body env).Finishes) :
    (Direct.masked env body).Finishes :=
  .bind (.draw _) fun _ => .toEnd _ (h _)

theorem observe (env : Env) (x : Exit) : (Direct.observe env x).Finishes :=
  .bind (.cancelled env) fun stopped => by cases stopped <;> exact .pure _

theorem released (env : Env) (bracket : BracketId) (outcome exit : Exit) :
    (Direct.released env bracket outcome exit).Finishes := by
  refine .bind (.draw _) fun _ => ?_
  cases exit with
  | errored e =>
    cases outcome with
    | succeeded => exact .pure _
    | errored | canceled => exact .bind (.draw _) fun _ => .pure _
  | succeeded | canceled => exact .pure _

theorem finalize {fault? : ExitCase Value → Option Fault}
    {release : ExitCase Value → Env → Direct Exit} (env : Env) (bracket : BracketId)
    (h : ∀ exitCase env, (release exitCase env).Finishes) (x : Exit) :
    (Direct.finalize env bracket fault? release x).Finishes := by
  refine .bind (.observe env x) fun outcome => ?_
  cases fault? outcome.exitCase with
  | some f => exact fun _ => nofun
  | none =>
    refine .bind (.draw _) fun _ => .bind (.masked env (h _)) fun exit => ?_
    exact .released env bracket outcome exit

end Finishes

end Direct

open Direct in
theorem Effect.Loopless.finishes {effect : Effect} (h : effect.Loopless) (rounds : Nat)
    (env : Env) : (effect.evaluate rounds env).Finishes := by
  induction effect generalizing env with
  | pure | fail | isCancelled => exact fun _ => nofun
  | fault | shift | race | parallel => exact fun _ => nofun
  | cancel => exact .bind (.draw _) fun _ => .pure _
  | perform act next ih => exact .bind (.tryDraw _) fun reply => ih reply (h reply) env
  | map source f ih =>
    rw [evaluate]
    refine .bind (ih h env) fun x => ?_
    cases x with
    | succeeded v => exact .bind (.tryDraw _) fun _ => .pure _
    | errored | canceled => exact .pure _
  | flatMap source f ih ih' =>
    rw [evaluate]
    refine .bind (ih h.1 env) fun x => ?_
    cases x with
    | succeeded v => exact ih' v (h.2 v) env
    | errored | canceled => exact .pure _
  | handleErrorWith source handler ih ih' =>
    rw [evaluate]
    refine .bind (ih h.1 env) fun x => ?_
    cases x with
    | errored e => exact ih' e (h.2 e) env
    | succeeded | canceled => exact .pure _
  | loop => exact h.elim
  | async => exact .guarded env _ (.bind (.tryDraw _) fun _ => .wait _)
  | await => exact .guarded env _ (.bind (.tryDraw _) fun _ => .wait _)
  | bracket acquire use release ih ih' ih'' =>
    rw [evaluate]
    refine .guarded env _ (.bind (.masked env (ih h.1)) fun x => ?_)
    cases x with
    | errored | canceled => exact .bind (.draw _) fun _ => .pure _
    | succeeded v =>
      refine .bind (.draw _) fun bracket => .bind (.guarded env _ (ih' v (h.2.1 v) env)) fun x => ?_
      exact .finalize env bracket (fun exitCase => ih'' v exitCase (h.2.2 v exitCase)) x

end EffectFibers
