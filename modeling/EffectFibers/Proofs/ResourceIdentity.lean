import EffectFibers.Proofs.Promises
import EffectFibers.Proofs.ResourceUse
import EffectFibers.Proofs.Scoping
import EffectFibers.Value.Combine

/-!
# A resource beside an empty one

The empty resource is a bracket of its own: a value that is acquired, and a release that does
nothing.  Beside another resource it adds two looks at the token and no more.  Behind the other
one (`RightUse`) they change nothing: the combination does what the resource does by itself.  In
front of it (`LeftUse`) the release of the empty resource looks at the token once more, after the
last release of the other: a cancellation that came about during the releases becomes the outcome
of the use, which by itself would have been another.

## Main definitions

* `RightUse`, `LeftUse`: how far a use has come, and what the resource does by itself meanwhile.

## Main statements

* `Fiber.Trail.rightUse`, `Fiber.Trail.leftUse`: every trail of the combination follows it.
* `Runtime.Reachable.use_beside_empty`: the same for a fiber under every schedule.
-/

namespace EffectFibers

/-- The lease of an empty resource. -/
def Lease.empty (b : BracketId) (v : Value) : Lease := ⟨b, v, fun _ _ => Effect.unit⟩

/-- The frame of an empty resource. -/
def Frame.empty (b : BracketId) : Frame := .release b fun _ => Effect.unit

/-! ## Trees -/

namespace Resource

variable {op : Value → Value → Except Fault Value} {e : Value} {body : Value → Effect}

/-- The body behind an empty resource. -/
def behindEmpty (op : Value → Value → Except Fault Value) (e : Value) (body : Value → Effect)
    (a : Value) : Effect :=
  .bracket (.pure e) (fun b => match op a b with
    | .ok v => body v
    | .error x => .fault x) fun _ _ => Effect.unit

theorem use_combine_pure (r : Resource) :
    (r.combine op (pure e)).use body = r.use (behindEmpty op e body) := rfl

theorem use_pure_combine (r : Resource) : ((pure e).combine op r).use body =
    .bracket (.pure e) (fun a => r.use fun b => match op a b with
      | .ok v => body v
      | .error x => .fault x) fun _ _ => Effect.unit := rfl

/-- Two uses of one tree, with bodies that belong together.  The index says whether a leaf of the
tree, or a panic in it, is still to come. -/
inductive Parallel (next body : Value → Effect) : Bool → Effect → Effect → Prop
  | body (v : Value) : Parallel next body false (next v) (body v)
  | leaf {acquire : Effect} {use use' : Value → Effect} {release : Value → ExitCase Value → Effect}
      {kind : Value → Bool} (behind : ∀ v, Parallel next body (kind v) (use v) (use' v)) :
      Parallel next body true (.bracket acquire use release) (.bracket acquire use' release)
  | fault (f : Fault) : Parallel next body true (.fault f) (.fault f)

theorem parallel_use {next body b b' : Value → Effect} (r : Resource)
    (h : ∀ v, ∃ kind, Parallel next body kind (b v) (b' v)) :
    Parallel next body true (r.use b) (r.use b') := by
  induction r generalizing b b' with
  | make acquire release =>
    obtain ⟨kind, behind⟩ := Classical.axiomOfChoice h
    simp only [use]
    split
    · exact .fault _
    · exact .leaf behind
  | map r f ih =>
    refine ih fun v => ?_
    cases f v with
    | ok w => exact h w
    | error x => exact ⟨true, .fault x⟩
  | flatMap r f ih ihf => exact ih fun v => ⟨true, ihf v h⟩
  | fault f => exact .fault f

end Resource

/-! ## Behind a resource -/

/-- An acquisition with the use that it leads to, and what it would have been if the token had been
cancelled by its end. -/
structure Revises (k : TokenId) (acquired started acquired' : Moment) : Prop where
  events : ∃ b v, acquired.event = .acquired k b v ∧ acquired'.event = .acquired k b v ∧
    started.event = .useStarted k b
  cancelled : acquired'.cancelled = true

/-- The marks up to the acquisition of an empty resource behind another one, and those without it.
When the token was cancelled meanwhile, the other one by itself would have found it cancelled at
the end of its last acquisition. -/
inductive Opens (k : TokenId) (now : Store) (b : BracketId) : List Moment → List Moment → Prop
  | acquired {v : Value} {ns ms : List Moment} (opened : Acquisitions k [.empty b v] ns) :
      Opens k now b (ns ++ ms) ms
  | late {v : Value} {x : Exit} {acquired started acquired' : Moment} {ns ms : List Moment}
      (revises : Revises k acquired started acquired')
      (misses : Misses k now (fun _ _ => Effect.unit) [.empty b v] x ns) :
      Opens k now b (ns ++ started :: acquired :: ms) (acquired' :: ms)

/-- Marks with and without an empty resource behind another one. -/
inductive Beside (k : TokenId) (now : Store) : List Moment → List Moment → Prop
  | none {own : List Moment} : Beside k now own own
  /-- The empty resource was not even acquired. -/
  | refused {acquired started acquired' : Moment} {ms later : List Moment}
      (revises : Revises k acquired started acquired') :
      Beside k now (later ++ started :: acquired :: ms) (later ++ acquired' :: ms)
  | closed {b : BracketId} {x y : Exit} {started finished : Moment}
      {ms ms' later onward : List Moment} (opens : Opens k now b ms ms')
      (event : started.event = .releaseStarted k b x)
      (event' : finished.event = .releaseFinished k b y) :
      Beside k now (onward ++ finished :: started :: (later ++ ms)) (onward ++ (later ++ ms'))

/-- How far the use of a resource has come that has an empty one behind it, and how far the fiber
`φ` that uses the resource by itself would have come. -/
inductive RightUse (run : TokenId) (φ : Fiber) (next body : Value → Effect) :
    (Exit → Prop) → Store → List Moment → Fiber → Prop
  /-- The resource is being acquired. -/
  | waiting {due : Exit → Prop} {now : Store} {loop : Loop} {effect effect' : Effect}
      {own : List Moment} (path : φ.Path run now own ⟨loop, .evaluating effect'⟩)
      (same : Resource.Parallel next body true effect effect') :
      RightUse run φ next body due now own ⟨loop, .evaluating effect⟩
  | acquiring {due : Exit → Prop} {now : Store} {loop : Loop} {use use' : Value → Effect}
      {release : Value → ExitCase Value → Effect} {kind : Value → Bool} {own : List Moment}
      (path : φ.Path run now own ⟨loop, .acquiring use' release⟩)
      (same : ∀ v, Resource.Parallel next body (kind v) (use v) (use' v)) :
      RightUse run φ next body due now own ⟨loop, .acquiring use release⟩
  /-- The resource has been acquired, and the empty one is about to be. -/
  | opening {due : Exit → Prop} {s now : Store} {loop : Loop} {use : Value → Effect}
      {release : Value → ExitCase Value → Effect} {v w : Value} {own : List Moment}
      (path : φ.Path run now own ⟨loop, .acquiring use release⟩)
      (live : s.isCancelled loop.env.token = false) (ages : s.Ages now) (yields : use v = body w) :
      RightUse run φ next body due now
        ([.of run s (.useStarted loop.env.token s.brackets),
          .of run s (.acquired loop.env.token s.brackets v)] ++ own)
        ⟨loop.push (.release s.brackets (release v)), .evaluating (next w)⟩
  | entered {due : Exit → Prop} {s now : Store} {loop : Loop} {use use' : Value → Effect}
      {release : Value → ExitCase Value → Effect} {v w e : Value} {m : Moment}
      {own : List Moment} (path : φ.Path run now own ⟨loop, .acquiring use release⟩)
      (live : s.isCancelled loop.env.token = false) (ages : s.Ages now) (yields : use v = body w)
      (enters : m.Enters loop.env.token) (yields' : use' e = body w) (sure : due (.succeeded e)) :
      RightUse run φ next body due now
        (m :: [.of run s (.useStarted loop.env.token s.brackets),
          .of run s (.acquired loop.env.token s.brackets v)] ++ own)
        ⟨loop.push (.release s.brackets (release v)), .acquiring use' fun _ _ => Effect.unit⟩
  /-- The body, or the exit with which it is not even begun, is above the empty resource. -/
  | inside {due : Exit → Prop} {now : Store} {b b' : BracketId}
      {finalizer : ExitCase Value → Effect} {G : List Frame} {ψ : Fiber}
      {ms ms' later : List Moment} (opens : Opens φ.token now b ms ms')
      (path : φ.Path run now (later ++ ms') (ψ.above (.release b' finalizer :: G))) :
      RightUse run φ next body due now (later ++ ms)
        (ψ.above (.empty b :: .release b' finalizer :: G))
  /-- The empty resource is being released. -/
  | closing {due : Exit → Prop} {now : Store} {b b' : BracketId}
      {finalizer : ExitCase Value → Effect} {env : Env} {G : List Frame} {x : Exit} {m : Moment}
      {ms ms' later : List Moment} (opens : Opens φ.token now b ms ms')
      (path : φ.Path run now (later ++ ms') ⟨⟨env, .release b' finalizer :: G⟩, .unwinding x⟩)
      (started : m.event = .releaseStarted φ.token b (m.seen x))
      (seen : m.cancelled = true → now.isCancelled φ.token = true)
      (sure : due (.succeeded .null)) :
      RightUse run φ next body due now (m :: (later ++ ms))
        ⟨⟨env, .release b' finalizer :: G⟩, .releasing b (m.seen x)⟩
  /-- The token was found cancelled at the release of the empty resource, and will be at the next
  one. -/
  | canceled {due : Exit → Prop} {now : Store} {b b' : BracketId}
      {finalizer : ExitCase Value → Effect} {env : Env} {G : List Frame} {x y z : Exit}
      {started finished : Moment} {ms ms' later : List Moment} (opens : Opens φ.token now b ms ms')
      (path : φ.Path run now (later ++ ms') ⟨⟨env, .release b' finalizer :: G⟩, .unwinding x⟩)
      (event : started.event = .releaseStarted φ.token b y)
      (event' : finished.event = .releaseFinished φ.token b z)
      (seen : now.isCancelled φ.token = true) :
      RightUse run φ next body due now (finished :: started :: (later ++ ms))
        ⟨⟨env, .release b' finalizer :: G⟩, .unwinding .canceled⟩
  /-- There is no difference any more. -/
  | past {due : Exit → Prop} {now : Store} {φ' : Fiber} {own own' : List Moment}
      (beside : Beside φ.token now own own') (path : φ.Path run now own' φ') :
      RightUse run φ next body due now own φ'

namespace RightUse

variable {run : TokenId} {φ φ₁ φ₂ : Fiber} {next body : Value → Effect} {due : Exit → Prop}
  {s now : Store} {own : List Moment} {ms : List Event}

theorem mono (h : RightUse run φ next body due s own φ₁) (ages : s.Ages now) :
    RightUse run φ next body due now own φ₁ := by
  have opens : ∀ {b ms ms'}, Opens φ.token s b ms ms' → Opens φ.token now b ms ms' := by
    rintro b ms ms' (opened | ⟨revises, misses⟩)
    · exact .acquired opened
    · exact .late revises (misses.mono ages)
  cases h with
  | waiting path same => exact .waiting (path.mono ages) same
  | acquiring path same => exact .acquiring (path.mono ages) same
  | opening path live before yields => exact .opening (path.mono ages) live (before.trans ages) yields
  | entered path live before yields enters yields' sure =>
    exact .entered (path.mono ages) live (before.trans ages) yields enters yields' sure
  | inside opens' path => exact .inside (opens opens') (path.mono ages)
  | closing opens' path started seen sure =>
    exact .closing (opens opens') (path.mono ages) started
      (fun cancelled => ages.isCancelled _ (seen cancelled)) sure
  | canceled opens' path event event' seen =>
    exact .canceled (opens opens') (path.mono ages) event event' (ages.isCancelled _ seen)
  | past beside path =>
    refine .past ?_ (path.mono ages)
    cases beside with
    | none => exact .none
    | refused revises => exact .refused revises
    | closed opens' event event' => exact .closed (opens opens') event event'

/-- A step with nothing more to come for the empty resource. -/
theorem past_tail {own' : List Moment} (beside : Beside φ.token s own own')
    (path : φ.Path run s own' φ₁) (step : φ₁.Step s ms φ₂) :
    RightUse run φ next body due s (ms.map (.of run s) ++ own) φ₂ := by
  have path' := path.tail step (Store.Grows.ages .refl)
  refine .past ?_ path'
  cases beside with
  | none => exact .none
  | refused revises =>
    rw [← List.append_assoc, ← List.append_assoc]
    exact .refused revises
  | @closed b x y started finished ms₁ ms₁' later onward opens event event' =>
    rw [← List.append_assoc, ← List.append_assoc]
    exact .closed opens event event'

/-- The loop is directly above the empty resource. -/
theorem inside_first {b b' : BracketId} {finalizer : ExitCase Value → Effect} {env : Env}
    {G : List Frame} {doing : Doing} {ms ms' : List Moment} (opens : Opens φ.token now b ms ms')
    (path : φ.Path run now ms' ⟨⟨env, .release b' finalizer :: G⟩, doing⟩) :
    RightUse run φ next body due now ms
      ⟨⟨env, .empty b :: .release b' finalizer :: G⟩, doing⟩ := by
  have inside : RightUse run φ next body due now ([] ++ ms)
      (Fiber.above (.empty b :: .release b' finalizer :: G) ⟨⟨env, []⟩, doing⟩) :=
    .inside opens path
  exact inside

theorem waiting_tail {loop : Loop} {effect effect' : Effect} {due' : Exit → Prop}
    (path : φ.Path run s own ⟨loop, .evaluating effect'⟩)
    (same : Resource.Parallel next body true effect effect')
    (step : Fiber.Step s ⟨loop, .evaluating effect⟩ ms φ₂) :
    RightUse run φ next body due' s (ms.map (.of run s) ++ own) φ₂ := by
  cases same with
  | leaf behind =>
    cases step with
    | refused h cancelled =>
      cases h
      exact past_tail .none path (.refused rfl cancelled)
    | bracket live => exact .acquiring (path.tail (.bracket live) (Store.Grows.ages .refl)) behind
  | fault f =>
    cases step with
    | refused h => cases h

theorem acquiring_tail {loop : Loop} {use use' : Value → Effect}
    {release : Value → ExitCase Value → Effect} {kind : Value → Bool} {due' : Exit → Prop}
    (path : φ.Path run s own ⟨loop, .acquiring use' release⟩)
    (same : ∀ v, Resource.Parallel next body (kind v) (use v) (use' v))
    (step : Fiber.Step s ⟨loop, .acquiring use release⟩ ms φ₂) :
    RightUse run φ next body due' s (ms.map (.of run s) ++ own) φ₂ := by
  have ages : s.Ages s := Store.Grows.ages .refl
  cases step with
  | @acquired _ _ _ v live =>
    have path' := path.tail (.acquired (v := v) live) ages
    have parallel := same v
    generalize kind v = index at parallel
    generalize behind : use v = effect at parallel
    generalize behind' : use' v = effect' at parallel path'
    cases parallel with
    | body w => exact .opening path live ages behind'
    | leaf inner => exact .waiting path' (.leaf inner)
    | fault f => exact .waiting path' (.fault f)
  | acquiredLate cancelled => exact past_tail .none path (.acquiredLate cancelled)
  | notAcquired failed => exact past_tail .none path (.notAcquired failed)

/-- The token is found cancelled behind the last acquisition: by itself the resource would have
found it at the end of that acquisition. -/
theorem path_late {loop : Loop} {use : Value → Effect} {release : Value → ExitCase Value → Effect}
    {v : Value} {s₀ : Store} (path : φ.Path run s own ⟨loop, .acquiring use release⟩)
    (ages : s₀.Ages s) (cancelled : s.isCancelled loop.env.token = true) :
    ∃ m : Moment, Revises φ.token (.of run s₀ (.acquired loop.env.token s₀.brackets v))
      (.of run s₀ (.useStarted loop.env.token s₀.brackets)) m ∧
      φ.Path run s (m :: own) ⟨loop.push (.release s₀.brackets (release v)), .unwinding .canceled⟩
    := by
  have token : loop.env.token = φ.token := path.token
  let s₁ : Store := { s with brackets := s₀.brackets }
  have before : s₁.Ages s :=
    ⟨Nat.le_refl _, ages.brackets, fun _ h => h, fun _ _ h => h, fun _ _ h => .inl h⟩
  have late : Fiber.Step s₁ ⟨loop, .acquiring use release⟩
      [.acquired loop.env.token s₁.brackets v]
      ⟨loop.push (.release s₁.brackets (release v)), .unwinding .canceled⟩ :=
    .acquiredLate cancelled
  refine ⟨.of run s₁ (.acquired loop.env.token s₁.brackets v), ⟨⟨s₀.brackets, v, ?_⟩, cancelled⟩,
    path.tail late before⟩
  rw [← token]
  exact ⟨rfl, rfl, rfl⟩

theorem opening_tail {loop : Loop} {use : Value → Effect}
    {release : Value → ExitCase Value → Effect} {op : Value → Value → Except Fault Value}
    {e v w : Value} {s₀ : Store} (law : ∀ a, op a e = .ok a)
    (path : φ.Path run s own ⟨loop, .acquiring use release⟩)
    (live : s₀.isCancelled loop.env.token = false) (ages : s₀.Ages s) (yields : use v = body w)
    (step : Fiber.Step s ⟨loop.push (.release s₀.brackets (release v)),
      .evaluating (Resource.behindEmpty op e body w)⟩ ms φ₂) :
    RightUse run φ next body
      (Fiber.Promises ⟨loop.push (.release s₀.brackets (release v)),
        .evaluating (Resource.behindEmpty op e body w)⟩ φ₂) s
      (ms.map (.of run s) ++ ([.of run s₀ (.useStarted loop.env.token s₀.brackets),
        .of run s₀ (.acquired loop.env.token s₀.brackets v)] ++ own)) φ₂ := by
  cases step with
  | refused h cancelled =>
    obtain ⟨m, revises, path'⟩ := path_late path ages cancelled
    have beside : Beside φ.token s ([] ++ _ :: _ :: own) ([] ++ m :: own) := .refused revises
    exact .past beside path'
  | bracket live' =>
    have enters : (Moment.of run s (.entered loop.env.token .acquisition)).Enters
        loop.env.token := ⟨rfl, live'⟩
    have yields' : (match op w e with
        | .ok v => body v
        | .error x => .fault x) = body w := by rw [law]
    exact .entered path live ages yields enters yields' .acquiring

theorem entered_tail {loop : Loop} {use use' : Value → Effect}
    {release : Value → ExitCase Value → Effect} {e v w : Value} {s₀ : Store} {m : Moment}
    {due' : Exit → Prop} (path : φ.Path run s own ⟨loop, .acquiring use release⟩)
    (live : s₀.isCancelled loop.env.token = false) (ages : s₀.Ages s) (yields : use v = body w)
    (enters : m.Enters loop.env.token) (yields' : use' e = body w)
    (step : Fiber.Step s ⟨loop.push (.release s₀.brackets (release v)),
      .acquiring use' fun _ _ => Effect.unit⟩ ms φ₂)
    (goes : Fiber.GoesBy s (.succeeded e) ⟨loop.push (.release s₀.brackets (release v)),
      .acquiring use' fun _ _ => Effect.unit⟩ φ₂) :
    RightUse run φ next body due' s
      (ms.map (.of run s) ++ (m :: [.of run s₀ (.useStarted loop.env.token s₀.brackets),
        .of run s₀ (.acquired loop.env.token s₀.brackets v)] ++ own)) φ₂ := by
  have token : loop.env.token = φ.token := path.token
  have same := goes.acquiring
  cases step with
  | @acquired _ _ _ a live' =>
    let acquired : Moment := .of run s (.acquired loop.env.token s.brackets a)
    let started : Moment := .of run s (.useStarted loop.env.token s.brackets)
    have opened : Acquisitions φ.token [.empty s.brackets a] [started, acquired, m] := by
      rw [← token]
      exact .cons .nil enters rfl rfl live'
    have body' : use' a = body w := by
      have doing := congrArg Fiber.doing same
      rw [if_neg (by simpa using live')] at doing
      exact (Doing.evaluating.inj doing).trans yields'
    have path' := path.tail (.acquired (v := v) live) ages
    rw [yields] at path'
    rw [body']
    exact inside_first (.acquired opened : Opens φ.token s s.brackets
      ([started, acquired, m] ++ _) _) path'
  | @acquiredLate _ _ _ a cancelled =>
    let acquired : Moment := .of run s (.acquired loop.env.token s.brackets a)
    have late : acquired.cancelled = true := cancelled
    have misses : Misses φ.token s (fun _ _ => Effect.unit) [.empty s.brackets a] .canceled
        [acquired, m] := by
      rw [← token]
      exact .late enters rfl late
    obtain ⟨m', revises, path'⟩ := path_late path ages cancelled
    exact inside_first (.late revises misses : Opens φ.token s s.brackets
      ([acquired, m] ++ _ :: _ :: own) _) path'
  | notAcquired failed =>
    have frames := congrArg (fun φ => φ.frames.length) same
    simp [Fiber.frames, Loop.push] at frames

theorem inside_tail {b b' : BracketId} {finalizer : ExitCase Value → Effect} {G : List Frame}
    {ψ : Fiber} {ms₁ ms₁' later : List Moment} (opens : Opens φ.token s b ms₁ ms₁')
    (path : φ.Path run s (later ++ ms₁') (ψ.above (.release b' finalizer :: G)))
    (step : (ψ.above (.empty b :: .release b' finalizer :: G)).Step s ms φ₂) :
    RightUse run φ next body
      ((ψ.above (.empty b :: .release b' finalizer :: G)).Promises φ₂) s
      (ms.map (.of run s) ++ (later ++ ms₁)) φ₂ := by
  have ages : s.Ages s := Store.Grows.ages .refl
  by_cases spent : ψ.Over
  · obtain ⟨⟨env, frames⟩, doing⟩ := ψ
    obtain ⟨rfl, x, rfl⟩ := spent
    have token : env.token = φ.token := path.token
    have released : ∃ m : Moment, ms.map (.of run s) = [m] ∧
        (m.cancelled = s.isCancelled env.token) ∧ m.event = .releaseStarted env.token b (m.seen x) ∧
        φ₂ = ⟨⟨env, .release b' finalizer :: G⟩, .releasing b (m.seen x)⟩ := step.of_release
    obtain ⟨m, marks, flag, started, rfl⟩ := released
    rw [marks]
    rw [token] at started flag
    have promises : Fiber.Promises
        (Fiber.above (.empty b :: .release b' finalizer :: G) ⟨⟨env, []⟩, .unwinding x⟩)
        ⟨⟨env, .release b' finalizer :: G⟩, .releasing b (m.seen x)⟩ (.succeeded .null) :=
      .releasing rfl
    have closing : RightUse run φ next body _ s (m :: (later ++ ms₁)) _ :=
      .closing opens path started (fun cancelled => flag ▸ cancelled) promises
    exact closing
  · obtain ⟨ψ', step', rfl⟩ := step.of_above spent
    have path' := path.tail (step'.above _) ages
    rw [← List.append_assoc] at path' ⊢
    exact .inside opens path'

theorem closing_tail {b b' : BracketId} {finalizer : ExitCase Value → Effect} {env : Env}
    {G : List Frame} {x : Exit} {m : Moment} {due' : Exit → Prop} {ms₁ ms₁' later : List Moment}
    (opens : Opens φ.token s b ms₁ ms₁')
    (path : φ.Path run s (later ++ ms₁') ⟨⟨env, .release b' finalizer :: G⟩, .unwinding x⟩)
    (started : m.event = .releaseStarted φ.token b (m.seen x))
    (seen : m.cancelled = true → s.isCancelled φ.token = true)
    (step : Fiber.Step s ⟨⟨env, .release b' finalizer :: G⟩, .releasing b (m.seen x)⟩ ms φ₂)
    (goes : Fiber.GoesBy s (.succeeded .null)
      ⟨⟨env, .release b' finalizer :: G⟩, .releasing b (m.seen x)⟩ φ₂) :
    RightUse run φ next body due' s (ms.map (.of run s) ++ m :: (later ++ ms₁)) φ₂ := by
  have token : env.token = φ.token := path.token
  have finishes : ∃ (m₂ : Moment) (y : Exit), ms.map (.of run s) = [m₂] ∧
      m₂.event = .releaseFinished env.token b y ∧
      φ₂ = ⟨⟨env, .release b' finalizer :: G⟩, .unwinding ((m.seen x).behind y)⟩ :=
    step.of_releasing
  obtain ⟨m₂, y, marks, finished, -⟩ := finishes
  obtain rfl := goes.releasing
  rw [marks]
  rw [token] at finished
  have behind : (m.seen x).behind (.succeeded .null) = m.seen x := rfl
  rw [behind]
  cases flag : m.cancelled with
  | true =>
    have outcome : m.seen x = .canceled := by simp [Moment.seen, flag]
    rw [outcome]
    exact .canceled opens path started finished (seen flag)
  | false =>
    have outcome : m.seen x = x := by simp [Moment.seen, flag]
    have beside : Beside φ.token s ([] ++ m₂ :: m :: (later ++ ms₁)) ([] ++ (later ++ ms₁')) :=
      .closed opens started finished
    rw [outcome]
    exact .past beside path

theorem canceled_tail {b b' : BracketId} {finalizer : ExitCase Value → Effect} {env : Env}
    {G : List Frame} {x y z : Exit} {started finished : Moment} {due' : Exit → Prop}
    {ms₁ ms₁' later : List Moment} (opens : Opens φ.token s b ms₁ ms₁')
    (path : φ.Path run s (later ++ ms₁') ⟨⟨env, .release b' finalizer :: G⟩, .unwinding x⟩)
    (event : started.event = .releaseStarted φ.token b y)
    (event' : finished.event = .releaseFinished φ.token b z)
    (seen : s.isCancelled φ.token = true)
    (step : Fiber.Step s ⟨⟨env, .release b' finalizer :: G⟩, .unwinding .canceled⟩ ms φ₂) :
    RightUse run φ next body due' s (ms.map (.of run s) ++ finished :: started :: (later ++ ms₁))
      φ₂ := by
  have token : env.token = φ.token := path.token
  have same : Fiber.Step s ⟨⟨env, .release b' finalizer :: G⟩, .unwinding x⟩ ms φ₂ := by
    cases step with
    | skipped h => cases h
    | @release _ _ _ _ _ outcome given =>
      refine .release ?_
      rw [token, if_pos seen] at given ⊢
      exact given
  have beside : Beside φ.token s ([] ++ finished :: started :: (later ++ ms₁))
      ([] ++ (later ++ ms₁')) := .closed opens event event'
  exact past_tail beside path same

/-- One step further. -/
theorem tail {op : Value → Value → Except Fault Value} {e : Value} (law : ∀ a, op a e = .ok a)
    (h : RightUse run φ (Resource.behindEmpty op e body) body due s own φ₁)
    (step : φ₁.Step s ms φ₂) (kept : ∀ x, due x → φ₁.GoesBy s x φ₂) :
    RightUse run φ (Resource.behindEmpty op e body) body (φ₁.Promises φ₂) s
      (ms.map (.of run s) ++ own) φ₂ := by
  cases h with
  | waiting path same => exact waiting_tail path same step
  | acquiring path same => exact acquiring_tail path same step
  | opening path live ages yields => exact opening_tail law path live ages yields step
  | entered path live ages yields enters yields' sure =>
    exact entered_tail path live ages yields enters yields' step (kept _ sure)
  | inside opens path => exact inside_tail opens path step
  | closing opens path started seen sure =>
    exact closing_tail opens path started seen step (kept _ sure)
  | canceled opens path event event' seen => exact canceled_tail opens path event event' seen step
  | past beside path => exact past_tail beside path step

end RightUse

/-- A trail that begins with the use of a resource that has an empty one behind it. -/
theorem Fiber.Trail.rightUse {run : TokenId} {r : Resource} {body : Value → Effect} {env : Env}
    {rest : List Frame} {op : Value → Value → Except Fault Value} {e : Value}
    (law : ∀ a, op a e = .ok a) {due : Exit → Prop} {now : Store} {own : List Moment} {φ' : Fiber}
    (trail : Trail run ⟨⟨env, rest⟩, .evaluating ((r.combine op (Resource.pure e)).use body)⟩ due now
      own φ') :
    RightUse run ⟨⟨env, rest⟩, .evaluating (r.use body)⟩ (Resource.behindEmpty op e body) body due
      now own φ' := by
  induction trail with
  | refl => exact .waiting .refl (Resource.parallel_use r fun v => ⟨false, .body v⟩)
  | wait _ ages ih => exact ih.mono ages
  | tail _ step kept ih => exact ih.tail law step kept

/-! ## In front of a resource -/

/-- How far the use of a resource has come that has an empty one in front of it: the empty one is
being acquired or is not, the resource is used by itself above it, or the empty one is released,
with another look at the token. -/
inductive LeftUse (run : TokenId) (env : Env) (rest : List Frame) (alone : Effect) :
    (Exit → Prop) → Store → List Moment → Fiber → Prop
  | waiting {due : Exit → Prop} {now : Store} {effect : Effect} {use : Value → Effect} {e : Value}
      (begins : effect = .bracket (.pure e) use fun _ _ => Effect.unit) (yields : use e = alone) :
      LeftUse run env rest alone due now [] ⟨⟨env, rest⟩, .evaluating effect⟩
  | acquiring {due : Exit → Prop} {now : Store} {use : Value → Effect} {e : Value} {m : Moment}
      (enters : m.Enters env.token) (yields : use e = alone) (sure : due (.succeeded e)) :
      LeftUse run env rest alone due now [m]
        ⟨⟨env, rest⟩, .acquiring use fun _ _ => Effect.unit⟩
  /-- The token was cancelled before the resource was begun. -/
  | missed {due : Exit → Prop} {now : Store} {gained : List Lease} {ms later : List Moment}
      {φ' : Fiber} (misses : Misses env.token now (fun _ _ => Effect.unit) gained .canceled ms)
      (path : Fiber.Path run now
        ⟨⟨env, gained.map Lease.frame ++ rest⟩, .unwinding .canceled⟩ later φ') :
      LeftUse run env rest alone due now (later ++ ms) φ'
  | inside {due : Exit → Prop} {now : Store} {b : BracketId} {v : Value} {ms own : List Moment}
      {ψ : Fiber} (opened : Acquisitions env.token [.empty b v] ms)
      (path : Fiber.Path run now ⟨⟨env, []⟩, .evaluating alone⟩ own ψ) :
      LeftUse run env rest alone due now (own ++ ms) (ψ.above (.empty b :: rest))
  | closing {due : Exit → Prop} {now : Store} {b : BracketId} {v : Value} {x : Exit} {m : Moment}
      {ms own : List Moment} {env' : Env} (opened : Acquisitions env.token [.empty b v] ms)
      (path : Fiber.Path run now ⟨⟨env, []⟩, .evaluating alone⟩ own ⟨⟨env', []⟩, .unwinding x⟩)
      (started : m.event = .releaseStarted env.token b (m.seen x))
      (sure : due (.succeeded .null)) :
      LeftUse run env rest alone due now (m :: (own ++ ms))
        ⟨⟨env', rest⟩, .releasing b (m.seen x)⟩
  /-- The resource has come to an exit by itself, and the whole to the same, or to a cancellation
  that was seen at the release of the empty one. -/
  | past {due : Exit → Prop} {now : Store} {b : BracketId} {v : Value} {x y : Exit}
      {m₁ m₂ : Moment} {ms own later : List Moment} {env' : Env} {φ' : Fiber}
      (opened : Acquisitions env.token [.empty b v] ms)
      (path : Fiber.Path run now ⟨⟨env, []⟩, .evaluating alone⟩ own ⟨⟨env', []⟩, .unwinding x⟩)
      (started : m₁.event = .releaseStarted env.token b (m₁.seen x))
      (finished : m₂.event = .releaseFinished env.token b y)
      (onward : Fiber.Path run now ⟨⟨env', rest⟩, .unwinding (m₁.seen x)⟩ later φ') :
      LeftUse run env rest alone due now (later ++ m₂ :: m₁ :: (own ++ ms)) φ'

namespace LeftUse

variable {run : TokenId} {env env' : Env} {rest : List Frame} {alone : Effect} {due : Exit → Prop}
  {s now : Store} {own : List Moment} {ms : List Event} {φ₁ φ₂ : Fiber}

theorem mono (h : LeftUse run env rest alone due s own φ₁) (ages : s.Ages now) :
    LeftUse run env rest alone due now own φ₁ := by
  cases h with
  | waiting begins yields => exact .waiting begins yields
  | acquiring enters yields sure => exact .acquiring enters yields sure
  | missed misses path => exact .missed (misses.mono ages) (path.mono ages)
  | inside opened path => exact .inside opened (path.mono ages)
  | closing opened path started sure => exact .closing opened (path.mono ages) started sure
  | past opened path started finished onward =>
    exact .past opened (path.mono ages) started finished (onward.mono ages)

theorem waiting_tail {use : Value → Effect} {e : Value} (yields : use e = alone)
    (step : Fiber.Step s ⟨⟨env, rest⟩,
      .evaluating (.bracket (.pure e) use fun _ _ => Effect.unit)⟩ ms φ₂) :
    LeftUse run env rest alone
      (Fiber.Promises ⟨⟨env, rest⟩, .evaluating (.bracket (.pure e) use fun _ _ => Effect.unit)⟩ φ₂)
      s (ms.map (.of run s)) φ₂ := by
  cases step with
  | refused h cancelled =>
    cases h
    exact .missed (.refused cancelled) .refl
  | bracket live => exact .acquiring ⟨rfl, live⟩ yields .acquiring

theorem acquiring_tail {use : Value → Effect} {e : Value} {m : Moment} {due' : Exit → Prop}
    (enters : m.Enters env.token) (yields : use e = alone)
    (step : Fiber.Step s ⟨⟨env, rest⟩, .acquiring use fun _ _ => Effect.unit⟩ ms φ₂)
    (goes : Fiber.GoesBy s (.succeeded e) ⟨⟨env, rest⟩, .acquiring use fun _ _ => Effect.unit⟩
      φ₂) :
    LeftUse run env rest alone due' s (ms.map (.of run s) ++ [m]) φ₂ := by
  have same := goes.acquiring
  cases step with
  | @acquired _ _ _ v live =>
    let acquired : Moment := .of run s (.acquired env.token s.brackets v)
    let started : Moment := .of run s (.useStarted env.token s.brackets)
    have opened : Acquisitions env.token [.empty s.brackets v] [started, acquired, m] :=
      .cons .nil enters rfl rfl live
    have doing := congrArg Fiber.doing same
    rw [if_neg (by simpa using live)] at doing
    have inside : LeftUse run env rest alone due' s ([] ++ [started, acquired, m])
        (Fiber.above (.empty s.brackets :: rest) ⟨⟨env, []⟩, .evaluating alone⟩) :=
      .inside opened .refl
    rw [(Doing.evaluating.inj doing).trans yields]
    exact inside
  | @acquiredLate _ _ _ v cancelled =>
    let acquired : Moment := .of run s (.acquired env.token s.brackets v)
    have late : acquired.cancelled = true := cancelled
    have misses : Misses env.token s (fun _ _ => Effect.unit) [.empty s.brackets v] .canceled
        [acquired, m] := .late enters rfl late
    have missed : LeftUse run env rest alone due' s ([] ++ [acquired, m]) _ :=
      .missed misses .refl
    exact missed
  | notAcquired failed =>
    have frames := congrArg (fun φ => φ.frames.length) same
    simp [Fiber.frames, Loop.push] at frames

theorem inside_tail {b : BracketId} {v : Value} {ms₁ later : List Moment} {ψ : Fiber}
    (opened : Acquisitions env.token [.empty b v] ms₁)
    (path : Fiber.Path run s ⟨⟨env, []⟩, .evaluating alone⟩ later ψ)
    (step : (ψ.above (.empty b :: rest)).Step s ms φ₂) :
    LeftUse run env rest alone ((ψ.above (.empty b :: rest)).Promises φ₂) s
      (ms.map (.of run s) ++ (later ++ ms₁)) φ₂ := by
  by_cases spent : ψ.Over
  · obtain ⟨⟨env', frames⟩, doing⟩ := ψ
    obtain ⟨rfl, x, rfl⟩ := spent
    have token : env'.token = env.token := path.token
    have released : ∃ m : Moment, ms.map (.of run s) = [m] ∧
        (m.cancelled = s.isCancelled env'.token) ∧
        m.event = .releaseStarted env'.token b (m.seen x) ∧
        φ₂ = ⟨⟨env', rest⟩, .releasing b (m.seen x)⟩ := step.of_release
    obtain ⟨m, marks, -, started, rfl⟩ := released
    rw [marks]
    rw [token] at started
    have promises : Fiber.Promises (Fiber.above (.empty b :: rest) ⟨⟨env', []⟩, .unwinding x⟩)
        ⟨⟨env', rest⟩, .releasing b (m.seen x)⟩ (.succeeded .null) := .releasing rfl
    have closing : LeftUse run env rest alone _ s (m :: (later ++ ms₁)) _ :=
      .closing opened path started promises
    exact closing
  · obtain ⟨ψ', step', rfl⟩ := step.of_above spent
    rw [← List.append_assoc]
    exact .inside opened (path.tail step' (Store.Grows.ages .refl))

theorem closing_tail {b : BracketId} {v : Value} {x : Exit} {m : Moment} {ms₁ later : List Moment}
    {due' : Exit → Prop} (opened : Acquisitions env.token [.empty b v] ms₁)
    (path : Fiber.Path run s ⟨⟨env, []⟩, .evaluating alone⟩ later ⟨⟨env', []⟩, .unwinding x⟩)
    (started : m.event = .releaseStarted env.token b (m.seen x))
    (step : Fiber.Step s ⟨⟨env', rest⟩, .releasing b (m.seen x)⟩ ms φ₂)
    (goes : Fiber.GoesBy s (.succeeded .null) ⟨⟨env', rest⟩, .releasing b (m.seen x)⟩ φ₂) :
    LeftUse run env rest alone due' s (ms.map (.of run s) ++ m :: (later ++ ms₁)) φ₂ := by
  have token : env'.token = env.token := path.token
  have finishes : ∃ (m₂ : Moment) (y : Exit), ms.map (.of run s) = [m₂] ∧
      m₂.event = .releaseFinished env'.token b y ∧
      φ₂ = ⟨⟨env', rest⟩, .unwinding ((m.seen x).behind y)⟩ := step.of_releasing
  obtain ⟨m₂, y, marks, finished, -⟩ := finishes
  obtain rfl := goes.releasing
  rw [marks]
  rw [token] at finished
  have behind : (m.seen x).behind (.succeeded .null) = m.seen x := rfl
  rw [behind]
  have past : LeftUse run env rest alone due' s ([] ++ m₂ :: m :: (later ++ ms₁)) _ :=
    .past opened path started finished .refl
  exact past

/-- One step further. -/
theorem tail (h : LeftUse run env rest alone due s own φ₁) (step : φ₁.Step s ms φ₂)
    (kept : ∀ x, due x → φ₁.GoesBy s x φ₂) :
    LeftUse run env rest alone (φ₁.Promises φ₂) s (ms.map (.of run s) ++ own) φ₂ := by
  have ages : s.Ages s := Store.Grows.ages .refl
  cases h with
  | waiting begins yields =>
    subst begins
    rw [List.append_nil]
    exact waiting_tail yields step
  | acquiring enters yields sure => exact acquiring_tail enters yields step (kept _ sure)
  | missed misses path =>
    rw [← List.append_assoc]
    exact .missed misses (path.tail step ages)
  | inside opened path => exact inside_tail opened path step
  | closing opened path started sure => exact closing_tail opened path started step (kept _ sure)
  | past opened path started finished onward =>
    rw [← List.append_assoc]
    exact .past opened path started finished (onward.tail step ages)

end LeftUse

/-- A trail that begins with the use of a resource that has an empty one in front of it. -/
theorem Fiber.Trail.leftUse {run : TokenId} {r : Resource} {body : Value → Effect} {env : Env}
    {rest : List Frame} {op : Value → Value → Except Fault Value} {e : Value}
    (law : ∀ a, op e a = .ok a) {due : Exit → Prop} {now : Store} {own : List Moment} {φ' : Fiber}
    (trail : Trail run ⟨⟨env, rest⟩, .evaluating (((Resource.pure e).combine op r).use body)⟩ due
      now own φ') :
    LeftUse run env rest (r.use body) due now own φ' := by
  have yields : (r.use fun b => match op e b with
      | .ok v => body v
      | .error x => .fault x) = r.use body := by simp only [law]
  induction trail with
  | refl => exact .waiting (Resource.use_pure_combine r) yields
  | wait _ ages ih => exact ih.mono ages
  | tail _ step kept ih => exact ih.tail step kept

/-! ## Under every schedule -/

namespace Runtime

variable {σ σ' : Runtime} {run : TokenId}

theorem Trailed.fate {φ : Fiber} {new : List Moment} (trailed : Trailed σ' run φ new) :
    ∃ own last φ' due, ownOf φ.token new = last ++ own ∧ φ.Trail run due σ'.store own φ' ∧
      Fate σ' run φ' last := by
  cases trailed with
  | there trail mem => exact ⟨_, [], _, _, rfl, trail, .there mem⟩
  | parted trail parting marks gone =>
    rw [← trail.token] at gone
    exact ⟨_, _, _, _, marks, trail, .parted parting gone⟩

/-- A resource with an empty one behind it does what it does by itself, whatever fails on the way
and whenever it is cancelled.  So does a resource with an empty one in front of it, up to the last
of its releases; then the whole comes to what the resource has come to, unless the token is
cancelled by that time. -/
theorem Reachable.use_beside_empty (h : Reachable σ) {op : Value → Value → Except Fault Value}
    {e : Value} (left : ∀ a, op e a = .ok a) (right : ∀ a, op a e = .ok a) (r : Resource)
    (body : Value → Effect) (env : Env) (rest : List Frame) (steps : Steps σ σ') :
    ((run, ⟨⟨env, rest⟩, .evaluating ((r.combine op (Resource.pure e)).use body)⟩) ∈ σ.crew →
      ∃ new own last φ' due, σ'.log = new ++ σ.log ∧ ownOf env.token new = last ++ own ∧
        RightUse run ⟨⟨env, rest⟩, .evaluating (r.use body)⟩ (Resource.behindEmpty op e body) body
          due σ'.store own φ' ∧ Fate σ' run φ' last) ∧
    ((run, ⟨⟨env, rest⟩, .evaluating (((Resource.pure e).combine op r).use body)⟩) ∈ σ.crew →
      ∃ new own last φ' due, σ'.log = new ++ σ.log ∧ ownOf env.token new = last ++ own ∧
        LeftUse run env rest (r.use body) due σ'.store own φ' ∧ Fate σ' run φ' last) := by
  constructor
  · intro mem
    obtain ⟨new, log, trailed⟩ := Steps.trail h mem steps
    obtain ⟨own, last, φ', due, marks, trail, fate⟩ := trailed.fate
    exact ⟨new, own, last, φ', due, log, marks, trail.rightUse right, fate⟩
  · intro mem
    obtain ⟨new, log, trailed⟩ := Steps.trail h mem steps
    obtain ⟨own, last, φ', due, marks, trail, fate⟩ := trailed.fate
    exact ⟨new, own, last, φ', due, log, marks, trail.leftUse left, fate⟩

/-- The only release cancels the token of the run.  By itself, and with an empty resource behind
it, the resource comes to what its body comes to; with an empty one in front of it the use is
cancelled. -/
theorem use_beside_empty_release_cancels : ∃ r body,
    (∃ s, Segment.poll ⟨1, "main"⟩ 40 (.start ⟨⟨0, Context.home, []⟩, []⟩
      (r.use body)) (starting (r.use body) Context.home).store = (.ended (.succeeded .null), s)) ∧
    (∃ s, Segment.poll ⟨1, "main"⟩ 40 (.start ⟨⟨0, Context.home, []⟩, []⟩
      ((r.combine Value.combine (Resource.pure .null)).use body))
        (starting (r.use body) Context.home).store = (.ended (.succeeded .null), s)) ∧
    ∃ σ σ' new own last φ' due, Reachable σ ∧
      (0, ⟨⟨⟨0, Context.home, []⟩, []⟩,
        .evaluating (((Resource.pure .null).combine Value.combine r).use body)⟩) ∈ σ.crew ∧
      Steps σ σ' ∧ (∀ τ ∈ σ'.strands, τ.state = .ended .canceled) ∧ σ'.log = new ++ σ.log ∧
      ownOf 0 new = last ++ own ∧
      LeftUse 0 ⟨0, Context.home, []⟩ [] (r.use body) due σ'.store own φ' ∧
      Fate σ' 0 φ' last := by
  let r := Resource.make Effect.unit fun _ _ => .cancel 0
  let effect := ((Resource.pure .null).combine Value.combine r).use Effect.pure
  let worker : Worker := ⟨1, "main"⟩
  let start : Segment := .start ⟨⟨0, Context.home, []⟩, []⟩ effect
  -- The release of the empty resource is about to begin.
  let s := (start.poll worker 14 (starting effect Context.home).store).2
  let s' := (s.emit (.releaseStarted 0 0 .canceled)).freshToken.2
  have cancelled : s.isCancelled 0 = true := by
    change (Forest.cancel _ 0).isCancelled 0 = true
    exact Forest.isCancelled_cancel_self (Nat.zero_lt_succ 3)
  let closing : Config := ⟨.unwind ⟨⟨0, Context.home, []⟩, [.empty 0]⟩ (.succeeded .null), []⟩
  let last : Config := ⟨.eval ⟨⟨s.size, Context.home, []⟩, []⟩ Effect.unit,
    [.releasing ⟨⟨0, Context.home, []⟩, []⟩ 0 .canceled]⟩
  have seen : closing.step worker s = (.next last, s') := by
    simp only [Config.step, Machine.unwindStep, Machine.frameStep, Frame.empty, cancelled, closing]
    rfl
  have came : start.poll worker 40 (starting effect Context.home).store
      = (.ended .canceled, (last.run worker 25 s').2) :=
    calc start.poll worker 40 (starting effect Context.home).store
      _ = closing.run worker 26 s := rfl
      _ = last.run worker 25 s' := by rw [Config.run, seen]
      _ = (.ended .canceled, (last.run worker 25 s').2) := rfl
  obtain ⟨marks, logged, steps⟩ := steps_of_starting rfl came
  have spawned : (last.run worker 25 s').2.spawned = [] := rfl
  rw [spawned] at steps
  have ended : ∀ τ ∈ (⟨0, .root, .ended .canceled⟩ ::ₘ 0 : Multiset Strand),
      τ.state = .ended .canceled := fun τ mem => (Multiset.mem_singleton.mp mem) ▸ rfl
  have mem := mem_crew_starting effect Context.home
  have reach := reachable_starting effect Context.home
  obtain ⟨new, own, last, φ', due, log, split, leftUse, fate⟩ :=
    (reach.use_beside_empty Value.null_combine Value.combine_null r Effect.pure
      ⟨0, Context.home, []⟩ [] steps).2 mem
  exact ⟨r, Effect.pure, ⟨_, rfl⟩, ⟨_, rfl⟩, _, _, new, own, last, φ', due, reach, mem, steps, ended,
    log, split, leftUse, fate⟩

end Runtime

end EffectFibers
