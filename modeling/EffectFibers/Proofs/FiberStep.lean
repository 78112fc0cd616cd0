import EffectFibers.Proofs.Berths
import EffectFibers.Proofs.StoreGrowth

/-!
# What a fiber can do

`Fiber.Step` says once what one run loop can do, whatever is nested around it: one rule for each
branch of the machine, with the marks that it leaves in the trace, newest first.  `Reaction` is
what a step of a poll does to the bag of its loops.  That the machine does nothing else is shown
in `EffectFibers.Proofs.MachineStep`.
-/

namespace EffectFibers

/-! ## Marks -/

/-- The fiber that an event is a mark of. -/
def Event.fiber? : Event → Option TokenId
  | .entered t _ | .acquired t _ _ | .notAcquired t _ | .useStarted t _ | .releaseStarted t _ _
  | .releaseFinished t _ _ | .left t _ => some t
  | _ => none

def Event.isMark (e : Event) : Bool := e.fiber?.isSome

namespace Store

/-- The token `c` was derived from `p`. -/
def Derived (s : Store) (p c : TokenId) : Prop := .derived p c ∈ s.trace

end Store

/-! ## The frames -/

/-- Whether an exit passes a frame unchanged. -/
def Frame.skips : Frame → Exit → Bool
  | .map _, x | .bind _, x | .again _ _, x => !x.isSucceeded
  | .handle _, x => !x.isErrored
  | .release .., _ => false

/-- The exit behind a release: what the release was given, unless that was a success and the
release failed. -/
def Exit.behind (outcome : Exit) : Exit → Exit
  | .errored e => if outcome.isSucceeded then .errored e else outcome
  | _ => outcome

/-- The suspension point at which an effect begins. -/
def Effect.point? : Effect → Option Point
  | .async _ => some .registration
  | .await _ => some .future
  | .shift _ => some .shift
  | .bracket .. => some .acquisition
  | _ => none

/-- Ended operands were taken out of a group. -/
structure Group.Advances (s : Store) (g g' : Group) : Prop where
  token : g'.token = g.token
  pending : g'.pending.Sublist g.pending
  ended : ∀ x ∈ g.pending, x ∈ g'.pending ∨
    ∃ y ∈ g.pending, y.1 = x.1 ∧ s.joined? y.2 ≠ none

/-! ## The rules -/

/-- The fiber's loop as it is cancelled or not. -/
def Fiber.isCancelled (s : Store) (φ : Fiber) : Bool := s.isCancelled φ.token

inductive Fiber.Step (s : Store) : Fiber → List Event → Fiber → Prop
  /- Evaluation. -/
  | pure {loop v} : Step s ⟨loop, .evaluating (.pure v)⟩ [] ⟨loop, .unwinding (.succeeded v)⟩
  | fail {loop e} : Step s ⟨loop, .evaluating (.fail e)⟩ [] ⟨loop, .unwinding (.errored e)⟩
  | perform {loop act next reply} {site : Site} {m : Memory} (h : (act site m).1 = .ok reply) :
      Step s ⟨loop, .evaluating (.perform act next)⟩ [] ⟨loop, .evaluating (next reply)⟩
  | cancel {loop t} :
      Step s ⟨loop, .evaluating (.cancel t)⟩ [] ⟨loop, .unwinding (.succeeded .null)⟩
  | isCancelled {loop t} : Step s ⟨loop, .evaluating (.isCancelled t)⟩ []
      ⟨loop, .unwinding (.succeeded (.bool (s.isCancelled t)))⟩
  | map {loop source f} : Step s ⟨loop, .evaluating (.map source f)⟩ []
      ⟨loop.push (.map f), .evaluating source⟩
  | bind {loop source f} : Step s ⟨loop, .evaluating (.flatMap source f)⟩ []
      ⟨loop.push (.bind f), .evaluating source⟩
  | handle {loop source handler} : Step s ⟨loop, .evaluating (.handleErrorWith source handler)⟩ []
      ⟨loop.push (.handle handler), .evaluating source⟩
  | again {loop again body v} (h : again v = .ok true) :
      Step s ⟨loop, .evaluating (.loop again body v)⟩ []
        ⟨loop.push (.again again body), .evaluating (body v)⟩
  | done {loop again body v} (h : again v = .ok false) :
      Step s ⟨loop, .evaluating (.loop again body v)⟩ [] ⟨loop, .unwinding (.succeeded v)⟩
  | refused {loop effect point} (h : effect.point? = some point)
      (cancelled : s.isCancelled loop.env.token = true) :
      Step s ⟨loop, .evaluating effect⟩ [] ⟨loop, .unwinding .canceled⟩
  | register {loop registration slot} (live : s.isCancelled loop.env.token = false) :
      Step s ⟨loop, .evaluating (.async registration)⟩ [.entered loop.env.token .registration]
        ⟨loop, .callback slot⟩
  | await {loop future wait} (live : s.isCancelled loop.env.token = false) :
      Step s ⟨loop, .evaluating (.await future)⟩ [.entered loop.env.token .future]
        ⟨loop, .future wait⟩
  | shift {loop context} (live : s.isCancelled loop.env.token = false) :
      Step s ⟨loop, .evaluating (.shift context)⟩ [.entered loop.env.token .shift]
        ⟨{ loop with env := loop.env.withContext context }, .evaluating Effect.unit⟩
  | bracket {loop acquire use release} (live : s.isCancelled loop.env.token = false) :
      Step s ⟨loop, .evaluating (.bracket acquire use release)⟩
        [.entered loop.env.token .acquisition] ⟨loop, .acquiring use release⟩
  | race {loop left right tokens} :
      Step s ⟨loop, .evaluating (.race left right)⟩ [] ⟨loop, .racing tokens⟩
  | fan {loop n operands group} :
      Step s ⟨loop, .evaluating (.parallel n operands)⟩ [] ⟨loop, .gathering group⟩
  /- Waiting. -/
  | delivered {loop slot result} :
      Step s ⟨loop, .callback slot⟩ [] ⟨loop, .unwinding (.ofExcept result)⟩
  | abandoned {loop slot} (cancelled : s.isCancelled loop.env.token = true) :
      Step s ⟨loop, .callback slot⟩ [] ⟨loop, .unwinding .canceled⟩
  | due {loop wait result} (h : Machine.Wait.result? s wait = some result) :
      Step s ⟨loop, .future wait⟩ [] ⟨loop, .unwinding (.ofExcept result)⟩
  | forgone {loop wait} (cancelled : s.isCancelled loop.env.token = true) :
      Step s ⟨loop, .future wait⟩ [] ⟨loop, .unwinding .canceled⟩
  | gather {loop g g'} (h : g.Advances s g') :
      Step s ⟨loop, .gathering g⟩ [] ⟨loop, .gathering g'⟩
  | gathered {loop g g'} (h : g.Advances s g') (none : g'.pending = []) :
      Step s ⟨loop, .gathering g⟩ [] ⟨loop, .unwinding g'.exit⟩
  /- Unwinding. -/
  | mapped {env f frames v w} (h : f v = .ok w) :
      Step s ⟨⟨env, .map f :: frames⟩, .unwinding (.succeeded v)⟩ []
        ⟨⟨env, frames⟩, .unwinding (.succeeded w)⟩
  | bound {env f frames v} : Step s ⟨⟨env, .bind f :: frames⟩, .unwinding (.succeeded v)⟩ []
      ⟨⟨env, frames⟩, .evaluating (f v)⟩
  | repeated {env again body frames v} :
      Step s ⟨⟨env, .again again body :: frames⟩, .unwinding (.succeeded v)⟩ []
        ⟨⟨env, frames⟩, .evaluating (.loop again body v)⟩
  | handled {env handler frames e} :
      Step s ⟨⟨env, .handle handler :: frames⟩, .unwinding (.errored e)⟩ []
        ⟨⟨env, frames⟩, .evaluating (handler e)⟩
  | skipped {env frame frames x} (h : frame.skips x = true) :
      Step s ⟨⟨env, frame :: frames⟩, .unwinding x⟩ [] ⟨⟨env, frames⟩, .unwinding x⟩
  | release {env bracket finalizer frames x outcome}
      (h : outcome = if s.isCancelled env.token then .canceled else x) :
      Step s ⟨⟨env, .release bracket finalizer :: frames⟩, .unwinding x⟩
        [.releaseStarted env.token bracket outcome] ⟨⟨env, frames⟩, .releasing bracket outcome⟩
  /- The end of a nested loop. -/
  | acquired {loop use release v} (live : s.isCancelled loop.env.token = false) :
      Step s ⟨loop, .acquiring use release⟩
        [.useStarted loop.env.token s.brackets, .acquired loop.env.token s.brackets v]
        ⟨loop.push (.release s.brackets (release v)), .evaluating (use v)⟩
  | acquiredLate {loop use release v} (cancelled : s.isCancelled loop.env.token = true) :
      Step s ⟨loop, .acquiring use release⟩ [.acquired loop.env.token s.brackets v]
        ⟨loop.push (.release s.brackets (release v)), .unwinding .canceled⟩
  | notAcquired {loop use release x} (h : x.isSucceeded = false) :
      Step s ⟨loop, .acquiring use release⟩ [.notAcquired loop.env.token x] ⟨loop, .unwinding x⟩
  | released {loop bracket outcome y} :
      Step s ⟨loop, .releasing bracket outcome⟩ [.releaseFinished loop.env.token bracket y]
        ⟨loop, .unwinding (Exit.behind outcome y)⟩
  | settle {loop tokens side x} :
      Step s ⟨loop, .racing tokens⟩ [] ⟨loop, .settling side x⟩
  | withdrawn {loop tokens side} (live : s.isCancelled loop.env.token = false) :
      Step s ⟨loop, .racing tokens⟩ [] ⟨loop, .remaining side⟩
  | settled {loop winner x} :
      Step s ⟨loop, .settling winner x⟩ [] ⟨loop, .unwinding (winner.tag x)⟩
  | remained {loop side y} :
      Step s ⟨loop, .remaining side⟩ [] ⟨loop, .unwinding (side.tag y)⟩

namespace Fiber

variable {s : Store} {φ φ' : Fiber} {ms : List Event}

/-- A fiber keeps its token. -/
theorem Step.token (h : φ.Step s ms φ') : φ'.token = φ.token := by
  cases h <;> rfl

/-- The marks of a step are marks of the fiber. -/
theorem Step.marks (h : φ.Step s ms φ') : ∀ e ∈ ms, e.fiber? = some φ.token := by
  cases h <;> simp [Event.fiber?, Fiber.token]

/-- The fiber is at a suspension point and is not stopped there. -/
structure Enters (s : Store) (φ : Fiber) (point : Point) : Prop where
  live : s.isCancelled φ.token = false
  effect : ∃ effect, φ.doing = .evaluating effect ∧ effect.point? = some point

/-- Whether the fiber is about to begin a parallel group. -/
def fans (φ : Fiber) : Bool :=
  match φ.doing with
  | .evaluating (.parallel ..) => true
  | _ => false

end Fiber

/-! ## Reactions -/

/-- A loop that was begun below the loop with a token: not cancelled from around, or under a
token derived from that one. -/
structure Post.Newborn (s s' : Store) (of : TokenId) (p : Post) : Prop where
  loop : ∃ env effect, p.piece = .fiber ⟨⟨env, []⟩, .evaluating effect⟩
  fresh : Within s.size s'.size p.token
  link : match p.link with
    | .operand q => q = of ∧ s'.Derived of p.token
    | .apart => ∀ q, s'.Derived q p.token → s.Derived q p.token
    | .outer => False

/-- The tasks of a group that was begun by the loop with a token. -/
structure Group.Begun (s s' : Store) (of : TokenId) (g : Group) (new : List Spawn) : Prop where
  token : Within s.size s'.size g.token
  derived : s'.Derived of g.token
  indices : (g.pending.map Prod.fst).Nodup
  tasks : ∀ x ∈ g.pending, Within s.joins.size s'.joins.size x.2
  operands : ∀ x ∈ new, ∃ env effect, x.segment? = some (.start ⟨env, []⟩ effect) ∧
    Within (g.token + 1) s'.size env.token ∧ s'.Derived g.token env.token ∧
    ∃ i, (i, x.task) ∈ g.pending
  distinct : ((Spawn.offspring new).map Post.token).Nodup

/-- What a step of a poll does to its loops, with the marks it leaves and the tasks it starts. -/
inductive Reaction (s s' : Store) :
    Multiset Post → List Event → List Spawn → Multiset Post → Prop
  | idle {P : Multiset Post} : Reaction s s' P [] [] P
  /-- One loop acts, and may begin others below it. -/
  | act {l : Link} {φ φ' : Fiber} {ms : List Event} {nested : Multiset Post} {new : List Spawn}
      {P : Multiset Post} (step : φ.Step s ms φ') (single : φ.fans = false)
      (newborn : ∀ p ∈ nested, p.Newborn s s' φ.token) (distinct : (nested.map Post.token).Nodup)
      (quiet : ∀ x ∈ new, x.segment? = none) :
      Reaction s s' (⟨l, .fiber φ⟩ ::ₘ P) ms new (⟨l, .fiber φ'⟩ ::ₘ (nested + P))
  /-- One loop begins a parallel group. -/
  | fan {l : Link} {loop : Loop} {n : Nat} {operands : Fin n → Effect} {group : Group}
      {new : List Spawn} {P : Multiset Post} (begun : group.Begun s s' loop.env.token new) :
      Reaction s s' (loop.at l (.evaluating (.parallel n operands)) ::ₘ P) [] new
        (loop.at l (.gathering group) ::ₘ P)
  /-- One loop goes on in a task of another context, unless that is closed. -/
  | sent {l : Link} {loop : Loop} {context : Context} {P : Multiset Post}
      (live : s.isCancelled loop.env.token = false)
      (refused : context.isOpen = false → s'.joined? s.joins.size = some .aborted) :
      Reaction s s' (loop.at l (.evaluating (.shift context)) ::ₘ P)
        [.entered loop.env.token .shift]
        (if context.isOpen then
          [⟨s.joins.size, context, .segment (.start
            { loop with env := loop.env.withContext context } Effect.unit)⟩] else [])
        (⟨l, .away loop.env s.joins.size⟩ ::ₘ P)
  /-- The task in which a loop went on has ended. -/
  | back {l : Link} {env : Env} {task : TaskId} {P : Multiset Post}
      (ended : s.joined? task ≠ none) :
      Reaction s s' (⟨l, .away env task⟩ ::ₘ P) [] [] P
  /-- One loop ends. -/
  | left {l : Link} {env : Env} {x : Exit} {P : Multiset Post} :
      Reaction s s' (Loop.at ⟨env, []⟩ l (.unwinding x) ::ₘ P)
      [.left env.token x] [] P

/-- What a step of a poll comes to. -/
inductive Turn (s s' : Store) (P : Multiset Post) :
    Progress → List Event → List Spawn → Prop
  | next {c : Config} {ms : List Event} {new : List Spawn}
      (reaction : Reaction s s' P ms new c.posts) : Turn s s' P (.next c) ms new
  | ended {x : Exit} (none : P = 0) : Turn s s' P (.ended x) [] []
  | parked {segment : Segment} (same : P = segment.posts .outer) :
      Turn s s' P (.parked segment) [] []
  | faulted {f : Fault} {ms : List Event} {new : List Spawn} (quiet : ∀ x ∈ new, x.segment? = none)
      (marks : ms = [] ∨ ∃ l φ point, ⟨l, .fiber φ⟩ ∈ P ∧ φ.Enters s point ∧
        ms = [.entered φ.token point]) :
      Turn s s' P (.faulted f) ms new

/-- A step of a poll with all that it adds to the store. -/
def Reacts (s : Store) (P : Multiset Post) (r : Progress × Store) : Prop :=
  s.Grows r.2 ∧ ∃ es new, r.2.trace = es ++ s.trace ∧ r.2.spawned = new ++ s.spawned ∧
    Turn s r.2 P r.1 (es.filter Event.isMark) new

end EffectFibers
