import EffectFibers.Proofs.LensStores
import EffectFibers.Proofs.RacePolls

/-!
# Effects that only sleep

An effect only sleeps if the one thing that it ever waits for is the clock: no callback, no task and
no token.  Its run loops stay in one task, which begins none of its own.  What such a loop does next
depends on a few parts of the store (`Store.sight`); who is woken, and what was reported before,
has no influence.  `free` says which tokens the effect may cancel.

## Main definitions

* `Effect.Sleeps`, `Segment.Sleeps`, `Config.Sleeps`: the effects, and the loops that evaluate them.
* `Store.sight`: what the loops see of the store.

## Main statements

* `Config.step_alike`: in stores that look the same a poll makes the same step.
* `Config.Polls.alike`: so a whole poll comes to the same.
-/

namespace EffectFibers

variable {free : TokenId → Prop}

/-! ## Effects and loops -/

/-- The effect waits for nothing but the clock, and cancels only tokens that it may cancel. -/
inductive Effect.Sleeps (free : TokenId → Prop) : Effect → Prop
  | pure (v : Value) : Sleeps free (.pure v)
  | fail (e : Value) : Sleeps free (.fail e)
  | fault (f : Fault) : Sleeps free (.fault f)
  | perform (act : Site → Memory → Except Fault Reply × Memory) {next : Reply → Effect}
      (rest : ∀ r, Sleeps free (next r)) : Sleeps free (.perform act next)
  | cancel {t : TokenId} (spare : free t) : Sleeps free (.cancel t)
  | isCancelled (t : TokenId) : Sleeps free (.isCancelled t)
  | map {m : Effect} (h : Sleeps free m) (f : Value → Except Fault Value) : Sleeps free (.map m f)
  | flatMap {m : Effect} {f : Value → Effect} (h : Sleeps free m)
      (next : ∀ v, Sleeps free (f v)) : Sleeps free (.flatMap m f)
  | handleErrorWith {m : Effect} {f : Value → Effect} (h : Sleeps free m)
      (handler : ∀ v, Sleeps free (f v)) : Sleeps free (.handleErrorWith m f)
  | loop (again : Value → Except Fault Bool) {body : Value → Effect}
      (h : ∀ v, Sleeps free (body v)) (v : Value) : Sleeps free (.loop again body v)
  | timer (delay : Nat) (result : Result) : Sleeps free (.await (.timer delay result))
  | bracket {acquire : Effect} {use : Value → Effect}
      {release : Value → ExitCase Value → Effect} (h : Sleeps free acquire)
      (used : ∀ v, Sleeps free (use v)) (released : ∀ v x, Sleeps free (release v x)) :
      Sleeps free (.bracket acquire use release)
  | race {left right : Effect} (h : Sleeps free left) (h' : Sleeps free right) :
      Sleeps free (.race left right)

inductive Frame.Sleeps (free : TokenId → Prop) : Frame → Prop
  | map (f : Value → Except Fault Value) : Sleeps free (.map f)
  | bind {f : Value → Effect} (h : ∀ v, (f v).Sleeps free) : Sleeps free (.bind f)
  | handle {f : Value → Effect} (h : ∀ v, (f v).Sleeps free) : Sleeps free (.handle f)
  | again (again : Value → Except Fault Bool) {body : Value → Effect}
      (h : ∀ v, (body v).Sleeps free) : Sleeps free (.again again body)
  | release (b : BracketId) {f : ExitCase Value → Effect} (h : ∀ x, (f x).Sleeps free) :
      Sleeps free (.release b f)

/-- What is still to come in the loop. -/
def Loop.Sleeps (free : TokenId → Prop) (loop : Loop) : Prop :=
  ∀ f ∈ loop.frames, f.Sleeps free

inductive Segment.Sleeps (free : TokenId → Prop) : Segment → Prop
  | start {loop : Loop} {e : Effect} (frames : loop.Sleeps free) (effect : e.Sleeps free) :
      Sleeps free (.start loop e)
  | future {loop : Loop} (frames : loop.Sleeps free) (time : Nat) (result : Result) :
      Sleeps free (.future loop (.deadline time result))
  | acquiring {loop : Loop} {use : Value → Effect} {release : Value → ExitCase Value → Effect}
      {inner : Segment} (frames : loop.Sleeps free) (used : ∀ v, (use v).Sleeps free)
      (released : ∀ v x, (release v x).Sleeps free) (h : Sleeps free inner) :
      Sleeps free (.acquiring loop use release inner)
  | releasing {loop : Loop} {inner : Segment} (frames : loop.Sleeps free) (b : BracketId) (x : Exit)
      (h : Sleeps free inner) : Sleeps free (.releasing loop b x inner)
  | racing {loop : Loop} {left right : Segment} (frames : loop.Sleeps free) (tokens : RaceTokens)
      (h : Sleeps free left) (h' : Sleeps free right) : Sleeps free (.racing loop tokens left right)
  | settling {loop : Loop} {loser : Segment} (frames : loop.Sleeps free) (winner : Side) (x : Exit)
      (h : Sleeps free loser) : Sleeps free (.settling loop winner x loser)
  | remaining {loop : Loop} {operand : Segment} (frames : loop.Sleeps free) (side : Side)
      (h : Sleeps free operand) : Sleeps free (.remaining loop side operand)

inductive Caller.Sleeps (free : TokenId → Prop) : Caller → Prop
  | acquiring {loop : Loop} {use : Value → Effect} {release : Value → ExitCase Value → Effect}
      (frames : loop.Sleeps free) (used : ∀ v, (use v).Sleeps free)
      (released : ∀ v x, (release v x).Sleeps free) : Sleeps free (.acquiring loop use release)
  | releasing {loop : Loop} (frames : loop.Sleeps free) (b : BracketId) (x : Exit) :
      Sleeps free (.releasing loop b x)
  | racingLeft {loop : Loop} {right : Segment} (frames : loop.Sleeps free) (tokens : RaceTokens)
      (h : right.Sleeps free) : Sleeps free (.racingLeft loop tokens right)
  | racingRight {loop : Loop} {left : Segment} (frames : loop.Sleeps free) (tokens : RaceTokens)
      (h : left.Sleeps free) : Sleeps free (.racingRight loop tokens left)
  | settling {loop : Loop} (frames : loop.Sleeps free) (winner : Side) (x : Exit) :
      Sleeps free (.settling loop winner x)
  | remaining {loop : Loop} (frames : loop.Sleeps free) (side : Side) :
      Sleeps free (.remaining loop side)

inductive Focus.Sleeps (free : TokenId → Prop) : Focus → Prop
  | eval {loop : Loop} {e : Effect} (frames : loop.Sleeps free) (effect : e.Sleeps free) :
      Sleeps free (.eval loop e)
  | unwind {loop : Loop} (frames : loop.Sleeps free) (x : Exit) : Sleeps free (.unwind loop x)
  | leave (x : Exit) : Sleeps free (.leave x)
  | resume {g : Segment} (h : g.Sleeps free) : Sleeps free (.resume g)
  | park {g : Segment} (h : g.Sleeps free) : Sleeps free (.park g)

structure Config.Sleeps (free : TokenId → Prop) (c : Config) : Prop where
  focus : c.focus.Sleeps free
  callers : ∀ k ∈ c.callers, k.Sleeps free

theorem Loop.Sleeps.push {loop : Loop} {f : Frame} (h : loop.Sleeps free) (frame : f.Sleeps free) :
    (loop.push f).Sleeps free :=
  List.forall_mem_cons.mpr ⟨frame, h⟩

/-- A loop that has just begun. -/
theorem Loop.sleeps_nil (free : TokenId → Prop) (env : Env) : Loop.Sleeps free ⟨env, []⟩ :=
  fun _ mem => by cases mem

/-! ## What the loops see -/

/-- The event is one of a bracket. -/
def Event.isBracket : Event → Bool
  | .acquired .. | .notAcquired .. | .useStarted .. | .releaseStarted .. | .releaseFailed ..
  | .releaseFinished .. => true
  | _ => false

/-- The parts of a store that have an influence on effects that only sleep, and what has become of
their brackets. -/
structure Sight where
  memory : Memory
  tokens : Forest
  brackets : BracketId
  now : Nat
  timed : Bool
  /-- The events of brackets, the newest one first. -/
  deeds : List Event

namespace Sight

def atTime (w : Sight) (time : Nat) : Sight := { w with now := time }

def cancel (w : Sight) (t : TokenId) : Sight := { w with tokens := w.tokens.cancel t }

def isCancelled (w : Sight) (t : TokenId) : Bool := w.tokens.isCancelled t

end Sight

namespace Store

def deeds (s : Store) : List Event := s.trace.filter Event.isBracket

def sight (s : Store) : Sight := ⟨s.memory, s.tokens, s.brackets, s.now, s.timed, s.deeds⟩

theorem sight_of_bare {s t : Store} (same : s.bare = t.bare) : s.sight = t.sight := by
  have bare : ∀ s : Store, s.bare.sight = s.sight := fun _ => rfl
  rw [← bare s, same, bare t]

section

variable (s : Store)

theorem sight_emit (e : Event) : (s.emit e).sight
    = { s.sight with deeds := if e.isBracket then e :: s.sight.deeds else s.sight.deeds } := by
  simp only [sight, deeds, Store.emit, List.filter_cons]

@[simp] theorem sight_watchTime (time : Nat) (task : TaskId) :
    (s.watchTime time task).sight = s.sight := rfl

@[simp] theorem sight_watchToken (t : TokenId) (task : TaskId) :
    (s.watchToken t task).sight = s.sight :=
  sight_of_bare (s.bare_watchToken t task)

theorem sight_cancel (t : TokenId) : (s.cancel t).sight = s.sight.cancel t :=
  sight_of_bare (s.bare_cancel t)

theorem sight_childToken (p : TokenId) :
    (s.childToken p).2.sight = { s.sight with tokens := (s.sight.tokens.child p).2 } := rfl

theorem sight_freshToken :
    s.freshToken.2.sight = { s.sight with tokens := s.sight.tokens.fresh.2 } := rfl

/-- What a poll leaves alone. -/
def clock : Nat × Bool := (s.now, s.timed)

theorem clock_of_bare {s t : Store} (same : s.bare = t.bare) : s.clock = t.clock := by
  have bare : ∀ s : Store, s.bare.clock = s.clock := fun _ => rfl
  rw [← bare s, same, bare t]

theorem clock_cancel (t : TokenId) : (s.cancel t).clock = s.clock :=
  (clock_of_bare (s.bare_cancel t)).trans rfl

theorem clock_watchToken (t : TokenId) (task : TaskId) : (s.watchToken t task).clock = s.clock :=
  clock_of_bare (s.bare_watchToken t task)

theorem clock_watchTime (time : Nat) (task : TaskId) : (s.watchTime time task).clock = s.clock :=
  rfl

end

section

variable {s t : Store} (same : s.sight = t.sight)
include same

theorem tokens_of_sight : t.tokens = s.tokens := (congrArg Sight.tokens same).symm

theorem isCancelled_of_sight (u : TokenId) : t.isCancelled u = s.isCancelled u := by
  simp only [Store.isCancelled, tokens_of_sight same]

theorem now_of_sight : t.now = s.now := (congrArg Sight.now same).symm

theorem timed_of_sight : t.timed = s.timed := (congrArg Sight.timed same).symm

theorem memory_of_sight : t.memory = s.memory := (congrArg Sight.memory same).symm

theorem brackets_of_sight : t.brackets = s.brackets := (congrArg Sight.brackets same).symm

theorem time_of_sight : t.time = s.time := by
  simp only [Store.time, now_of_sight same, timed_of_sight same]

theorem size_of_sight : t.size = s.size := by
  rw [Store.size, Store.size, tokens_of_sight same]

theorem deeds_of_sight : t.deeds = s.deeds := (congrArg Sight.deeds same).symm

theorem sight_emit_congr (e : Event) : (s.emit e).sight = (t.emit e).sight := by
  rw [sight_emit, sight_emit, same]

theorem sight_cancel_congr (u : TokenId) : (s.cancel u).sight = (t.cancel u).sight := by
  rw [sight_cancel, sight_cancel, same]

theorem sight_child_congr (p : TokenId) : (s.childToken p).2.sight = (t.childToken p).2.sight := by
  rw [sight_childToken, sight_childToken, same]

theorem sight_fresh_congr : s.freshToken.2.sight = t.freshToken.2.sight := by
  rw [sight_freshToken, sight_freshToken, same]

theorem sight_memory_congr (memory : Memory) :
    ({ s with memory } : Store).sight = ({ t with memory } : Store).sight := by
  have parts : ∀ s : Store, ({ s with memory } : Store).sight = { s.sight with memory } :=
    fun _ => rfl
  rw [parts, parts, same]

theorem sight_brackets_congr :
    ({ s with brackets := s.brackets + 1 } : Store).sight
      = ({ t with brackets := t.brackets + 1 } : Store).sight := by
  have parts : ∀ s : Store, ({ s with brackets := s.brackets + 1 } : Store).sight
      = { s.sight with brackets := s.sight.brackets + 1 } := fun _ => rfl
  rw [parts, parts, same]

end

end Store

/-! ## A step -/

namespace Machine

/-- Two polls have come to the same in stores that look the same, and only sleep further on. -/
inductive Alike (free : TokenId → Prop) : Progress × Store → Progress × Store → Prop
  | next {c : Config} {s t : Store} (sleeps : c.Sleeps free) (same : s.sight = t.sight) :
      Alike free (.next c, s) (.next c, t)
  | ended (x : Exit) {s t : Store} (same : s.sight = t.sight) :
      Alike free (.ended x, s) (.ended x, t)
  | parked {g : Segment} {s t : Store} (sleeps : g.Sleeps free) (same : s.sight = t.sight) :
      Alike free (.parked g, s) (.parked g, t)
  | faulted (f : Fault) {s t : Store} (same : s.sight = t.sight) :
      Alike free (.faulted f, s) (.faulted f, t)

variable {s t : Store} {loop : Loop} {callers : List Caller} {worker : Worker}

section

variable (frames : loop.Sleeps free) (around : ∀ k ∈ callers, k.Sleeps free)
  (same : s.sight = t.sight)
include frames around same

theorem alike_unwind (x : Exit) :
    Alike free (unwind loop x callers, s) (unwind loop x callers, t) :=
  .next ⟨.unwind frames x, around⟩ same

theorem alike_eval {e : Effect} (effect : e.Sleeps free) :
    Alike free (eval loop e callers, s) (eval loop e callers, t) :=
  .next ⟨.eval frames effect, around⟩ same

theorem alike_atPoint {point : Point} {go : Store → Progress × Store}
    (h : ∀ e, Alike free (go (s.emit e)) (go (t.emit e))) :
    Alike free (atPoint s loop callers point go) (atPoint t loop callers point go) := by
  unfold atPoint
  rw [Store.isCancelled_of_sight same]
  split
  · exact alike_unwind frames around same .canceled
  · exact h _

theorem evalStep_alike {e : Effect} (effect : e.Sleeps free) :
    Alike free (evalStep worker loop callers s e) (evalStep worker loop callers t e) := by
  cases effect with
  | pure v => exact alike_unwind frames around same _
  | fail e => exact alike_unwind frames around same _
  | fault f => exact .faulted f same
  | perform act rest =>
    simp only [evalStep, Store.time_of_sight same, Store.memory_of_sight same]
    split
    · exact alike_eval frames around (Store.sight_memory_congr same _) (rest _)
    · exact .faulted _ (Store.sight_memory_congr same _)
  | cancel spare => exact alike_unwind frames around (Store.sight_cancel_congr same _) _
  | isCancelled u =>
    simp only [evalStep, Store.isCancelled_of_sight same]
    exact alike_unwind frames around same _
  | map h f => exact alike_eval (frames.push (.map f)) around same h
  | flatMap h next => exact alike_eval (frames.push (.bind next)) around same h
  | handleErrorWith h handler => exact alike_eval (frames.push (.handle handler)) around same h
  | loop again h v =>
    simp only [evalStep]
    split
    · exact alike_eval (frames.push (.again again h)) around same (h v)
    · exact alike_unwind frames around same _
    · exact .faulted _ same
  | timer delay result =>
    simp only [evalStep]
    refine alike_atPoint frames around same fun e => ?_
    have emitted : (s.emit e).sight = (t.emit e).sight := Store.sight_emit_congr same e
    have starts : start worker (t.emit e) (.timer delay result)
        = start worker (s.emit e) (.timer delay result) := by
      simp only [start, Store.timed_of_sight emitted, Store.now_of_sight emitted]
    rw [starts]
    cases found : start worker (s.emit e) (.timer delay result) with
    | error f => exact .faulted f emitted
    | ok wait =>
      simp only [start] at found
      split at found
      · cases found
        exact .next ⟨.resume (.future frames _ _), around⟩ emitted
      · cases found
  | bracket h used released =>
    simp only [evalStep]
    refine alike_atPoint frames around same fun e => ?_
    have emitted : (s.emit e).sight = (t.emit e).sight := Store.sight_emit_congr same e
    have token : (t.emit e).freshToken.1 = (s.emit e).freshToken.1 := Store.size_of_sight emitted
    rw [token]
    have waits := List.forall_mem_cons.mpr ⟨.acquiring frames used released, around⟩
    exact alike_eval (Loop.sleeps_nil free _) waits (Store.sight_fresh_congr emitted) h
  | @race first second h h' =>
    simp only [evalStep]
    have opened := Store.sight_child_congr same loop.env.token
    have left : (t.childToken loop.env.token).1 = (s.childToken loop.env.token).1 := by
      rw [Store.childToken_fst, Store.childToken_fst, Store.size_of_sight same]
    have right : ((t.childToken loop.env.token).2.childToken loop.env.token).1
        = ((s.childToken loop.env.token).2.childToken loop.env.token).1 := by
      rw [Store.childToken_fst, Store.childToken_fst, Store.size_of_sight opened]
    rw [left, right]
    have waits (l r : TokenId) : (Caller.racingLeft loop ⟨l, r⟩
        (.start ⟨loop.env.withToken r, []⟩ second)).Sleeps free :=
      .racingLeft frames _ (.start (Loop.sleeps_nil free _) h')
    exact alike_eval (Loop.sleeps_nil free _) (List.forall_mem_cons.mpr ⟨waits _ _, around⟩)
      (Store.sight_child_congr opened _) h

theorem frameStep_alike {f : Frame} (frame : f.Sleeps free) (x : Exit) :
    Alike free (frameStep loop callers s f x) (frameStep loop callers t f x) := by
  cases frame with
  | map f =>
    cases x with
    | succeeded v =>
      simp only [frameStep]
      split
      · exact alike_unwind frames around same _
      · exact .faulted _ same
    | errored | canceled => exact alike_unwind frames around same _
  | bind h =>
    cases x with
    | succeeded v => exact alike_eval frames around same (h v)
    | errored | canceled => exact alike_unwind frames around same _
  | again again h =>
    cases x with
    | succeeded v => exact alike_eval frames around same (.loop again h v)
    | errored | canceled => exact alike_unwind frames around same _
  | handle h =>
    cases x with
    | errored e => exact alike_eval frames around same (h e)
    | succeeded | canceled => exact alike_unwind frames around same _
  | @release b f h =>
    simp only [frameStep, Store.isCancelled_of_sight same]
    split
    · exact .faulted _ same
    · generalize (if s.isCancelled loop.env.token = true then .canceled else x) = outcome
      have emitted : (s.emit (.releaseStarted loop.env.token b outcome)).sight
          = (t.emit (.releaseStarted loop.env.token b outcome)).sight :=
        Store.sight_emit_congr same _
      have token : (t.emit (.releaseStarted loop.env.token b outcome)).freshToken.1
          = (s.emit (.releaseStarted loop.env.token b outcome)).freshToken.1 :=
        Store.size_of_sight emitted
      rw [token]
      have waits := List.forall_mem_cons.mpr ⟨.releasing frames b outcome, around⟩
      exact alike_eval (Loop.sleeps_nil free _) waits (Store.sight_fresh_congr emitted) (h _)

theorem settle_alike (tokens : RaceTokens) (side : Side) (x : Exit) {other : Segment}
    (h : other.Sleeps free) : Alike free (settle loop tokens side x other callers s)
      (settle loop tokens side x other callers t) := by
  unfold settle
  rw [Store.isCancelled_of_sight same]
  split
  · exact .next ⟨.resume h, List.forall_mem_cons.mpr ⟨.remaining frames _, around⟩⟩ same
  · exact .next ⟨.resume h, List.forall_mem_cons.mpr ⟨.settling frames _ _, around⟩⟩
      (Store.sight_cancel_congr same _)

end

section

variable (around : ∀ k ∈ callers, k.Sleeps free) (same : s.sight = t.sight)
include around same

theorem unwindStep_alike (frames : loop.Sleeps free) (x : Exit) :
    Alike free (unwindStep loop x callers s) (unwindStep loop x callers t) := by
  obtain ⟨env, fs⟩ := loop
  cases fs with
  | nil => exact .next ⟨.leave x, around⟩ same
  | cons f fs =>
    obtain ⟨frame, rest⟩ := List.forall_mem_cons.mp frames
    have inner : Loop.Sleeps free ⟨env, fs⟩ := rest
    exact frameStep_alike inner around same frame x

theorem returnStep_alike {k : Caller} (h : k.Sleeps free) (x : Exit) :
    Alike free (returnStep x callers s k) (returnStep x callers t k) := by
  have one (e : Event) : (s.emit e).sight = (t.emit e).sight := Store.sight_emit_congr same e
  have two (e e' : Event) : ((s.emit e).emit e').sight = ((t.emit e).emit e').sight :=
    Store.sight_emit_congr (one e) e'
  cases h with
  | @acquiring loop use release frames used released =>
    cases x with
    | succeeded v =>
      simp only [returnStep, Store.brackets_of_sight same]
      generalize event : Event.acquired loop.env.token s.brackets v = e
      have counted := Store.sight_brackets_congr same
      rw [Store.brackets_of_sight same] at counted
      have acquired : (({ s with brackets := s.brackets + 1 } : Store).emit e).sight
          = (({ t with brackets := s.brackets + 1 } : Store).emit e).sight :=
        Store.sight_emit_congr counted e
      have waits := frames.push (.release s.brackets (released v))
      rw [Store.isCancelled_of_sight acquired]
      split
      · exact alike_unwind waits around acquired _
      · have began (e' : Event) :
            ((({ s with brackets := s.brackets + 1 } : Store).emit e).emit e').sight
              = ((({ t with brackets := s.brackets + 1 } : Store).emit e).emit e').sight :=
          Store.sight_emit_congr acquired e'
        exact alike_eval waits around (began _) (used v)
    | errored | canceled => exact alike_unwind frames around (one _) _
  | releasing frames b outcome =>
    cases x with
    | errored e =>
      cases outcome with
      | succeeded v => exact alike_unwind frames around (one _) _
      | errored | canceled => exact alike_unwind frames around (two _ _) _
    | succeeded | canceled => exact alike_unwind frames around (one _) _
  | racingLeft frames tokens h => exact settle_alike frames around same tokens .left x h
  | racingRight frames tokens h => exact settle_alike frames around same tokens .right x h
  | settling frames winner y => exact alike_unwind frames around (one _) _
  | remaining frames side => exact alike_unwind frames around same _

theorem resumeStep_alike {g : Segment} (h : g.Sleeps free) :
    Alike free (resumeStep worker callers s g) (resumeStep worker callers t g) := by
  have within {k : Caller} {inner : Segment} (h : inner.Sleeps free) (waits : k.Sleeps free) :
      Alike free (resume inner (k :: callers), s) (resume inner (k :: callers), t) :=
    .next ⟨.resume h, List.forall_mem_cons.mpr ⟨waits, around⟩⟩ same
  cases h with
  | start frames effect => exact alike_eval frames around same effect
  | future frames time result =>
    simp only [resumeStep, Wait.result?, Store.now_of_sight same]
    split
    · exact alike_unwind frames around same _
    · rw [Store.isCancelled_of_sight same]
      have left : (s.emit .futureAbandoned).sight = (t.emit .futureAbandoned).sight :=
        Store.sight_emit_congr same _
      split
      · exact alike_unwind frames around left .canceled
      · exact .next ⟨.park (.future frames time result), around⟩ (by simp [watch, same])
  | acquiring frames used released h => exact within h (.acquiring frames used released)
  | releasing frames b x h => exact within h (.releasing frames b x)
  | racing frames tokens h h' => exact within h (.racingLeft frames tokens h')
  | settling frames winner x h => exact within h (.settling frames winner x)
  | remaining frames side h => exact within h (.remaining frames side)

theorem park_alike {g : Segment} (h : g.Sleeps free) :
    Alike free (parkStep g callers, s) (parkStep g callers, t) := by
  cases callers with
  | nil => exact .parked h same
  | cons k callers =>
    obtain ⟨head, rest⟩ := List.forall_mem_cons.mp around
    cases head with
    | acquiring frames used released =>
      exact .next ⟨.park (.acquiring frames used released h), rest⟩ same
    | releasing frames b x => exact .next ⟨.park (.releasing frames b x h), rest⟩ same
    | racingLeft frames tokens h' =>
      exact .next ⟨.resume h', List.forall_mem_cons.mpr ⟨.racingRight frames tokens h, rest⟩⟩ same
    | racingRight frames tokens h' => exact .next ⟨.park (.racing frames tokens h' h), rest⟩ same
    | settling frames winner x => exact .next ⟨.park (.settling frames winner x h), rest⟩ same
    | remaining frames side => exact .next ⟨.park (.remaining frames side h), rest⟩ same

end

/-! ## The clock -/

theorem clock_frameStep (f : Frame) (x : Exit) :
    (frameStep loop callers s f x).2.clock = s.clock := by
  cases f with
  | map f =>
    cases x with
    | succeeded v =>
      simp only [frameStep]
      split <;> rfl
    | errored | canceled => rfl
  | bind | again | handle => cases x <;> rfl
  | release b f =>
    simp only [frameStep]
    split <;> rfl

theorem clock_settle (tokens : RaceTokens) (side : Side) (x : Exit) (other : Segment) :
    (settle loop tokens side x other callers s).2.clock = s.clock := by
  unfold settle
  split
  · rfl
  · exact s.clock_cancel _

theorem clock_returnStep (k : Caller) (x : Exit) :
    (returnStep x callers s k).2.clock = s.clock := by
  cases k with
  | acquiring loop use release =>
    cases x with
    | succeeded v =>
      simp only [returnStep]
      split <;> rfl
    | errored | canceled => rfl
  | releasing loop b outcome => cases x <;> cases outcome <;> rfl
  | racingLeft loop tokens other | racingRight loop tokens other => exact clock_settle _ _ _ _
  | settling | remaining => rfl

theorem clock_evalStep {e : Effect} (effect : e.Sleeps free) :
    (evalStep worker loop callers s e).2.clock = s.clock := by
  cases effect with
  | pure | fail | fault | isCancelled | map | flatMap | handleErrorWith | race => rfl
  | cancel spare => exact s.clock_cancel _
  | perform | loop =>
    simp only [evalStep]
    split <;> rfl
  | timer delay result =>
    simp only [evalStep, atPoint]
    split
    · rfl
    · split <;> rfl
  | bracket =>
    simp only [evalStep, atPoint]
    split <;> rfl

theorem clock_resumeStep {g : Segment} (h : g.Sleeps free) :
    (resumeStep worker callers s g).2.clock = s.clock := by
  cases h with
  | start | acquiring | releasing | racing | settling | remaining => rfl
  | future =>
    simp only [resumeStep]
    split
    · rfl
    · split
      · rfl
      · simp [Store.clock_watchToken, watch, Store.clock_watchTime]

end Machine

namespace Config

variable {c : Config} {s t s' : Store} {worker : Worker}

/-- A poll takes no time. -/
theorem step_clock (h : c.Sleeps free) (worker : Worker) (s : Store) :
    (c.step worker s).2.clock = s.clock := by
  obtain ⟨focus, callers⟩ := c
  cases h.focus with
  | eval frames effect => exact Machine.clock_evalStep effect
  | @unwind loop frames x =>
    obtain ⟨env, fs⟩ := loop
    cases fs with
    | nil => rfl
    | cons f fs => exact Machine.clock_frameStep f x
  | leave x =>
    cases callers with
    | nil => rfl
    | cons k callers => exact Machine.clock_returnStep k x
  | resume inner => exact Machine.clock_resumeStep inner
  | park inner => rfl

/-- In stores that look the same a poll of loops that only sleep makes the same step. -/
theorem step_alike (h : c.Sleeps free) (worker : Worker) (same : s.sight = t.sight) :
    Machine.Alike free (c.step worker s) (c.step worker t) := by
  obtain ⟨focus, callers⟩ := c
  obtain ⟨inside, around⟩ := h
  cases inside with
  | eval frames effect => exact Machine.evalStep_alike frames around same effect
  | unwind frames x => exact Machine.unwindStep_alike around same frames x
  | leave x =>
    cases callers with
    | nil => exact .ended x same
    | cons k callers =>
      obtain ⟨head, rest⟩ := List.forall_mem_cons.mp around
      exact Machine.returnStep_alike rest same head x
  | resume h => exact Machine.resumeStep_alike around same h
  | park h => exact Machine.park_alike around same h

/-- What a poll of loops that only sleep has come to. -/
structure Result.Slept (free : TokenId → Prop) (s : Store) (r : Result) (s' : Store) : Prop where
  sleeps : ∀ g, r = .parked g → g.Sleeps free
  clock : s'.clock = s.clock

/-- The whole poll comes to the same in stores that look the same. -/
theorem Polls.alike {r : Result} (h : c.Sleeps free) (same : s.sight = t.sight)
    (polls : c.Polls worker s r s') : r.Slept free s s' ∧
      ∃ t', c.Polls worker t r t' ∧ s'.sight = t'.sight := by
  obtain ⟨finished, bound, run⟩ := polls
  induction bound generalizing c s t with
  | zero =>
    cases run
    exact (finished rfl).elim
  | succ bound ih =>
    have clock := step_clock h worker s
    have alike := step_alike h worker same
    generalize one : c.step worker s = p, other : c.step worker t = q at alike clock
    rw [Config.run, one] at run
    cases alike with
    | next sleeps same =>
      obtain ⟨⟨asleep, still⟩, t', polls, same⟩ := ih sleeps same run
      exact ⟨⟨asleep, still.trans clock⟩, t', (polls_next other).mpr polls, same⟩
    | @ended x s₁ t₁ same =>
      cases run
      exact ⟨⟨by rintro _ ⟨⟩, clock⟩, t₁, (polls_last other (by rintro ⟨⟩)).mpr ⟨rfl, rfl⟩, same⟩
    | @parked g s₁ t₁ sleeps same =>
      cases run
      refine ⟨⟨?_, clock⟩, t₁, (polls_last other (by rintro ⟨⟩)).mpr ⟨rfl, rfl⟩, same⟩
      rintro g ⟨⟩
      exact sleeps
    | @faulted f s₁ t₁ same =>
      cases run
      exact ⟨⟨by rintro _ ⟨⟩, clock⟩, t₁, (polls_last other (by rintro ⟨⟩)).mpr ⟨rfl, rfl⟩, same⟩

end Config

end EffectFibers
