import EffectFibers.Proofs.FootedRuns
import EffectFibers.Proofs.Masking
import EffectFibers.Proofs.ResourceIdentity

/-!
# Guarantees

A guarantee is a bracket around a value that is acquired at once: its effect is the use, and its
finalizer the release.  The fiber is followed through it (`Guarantee`): the effect begins unless
the token is cancelled, it runs by itself above the frame of the finalizer, and when it has come to
its exit the finalizer begins, once, with the case that it is to see.

## Main definitions

* `Guarantee`: how far a guarantee has come.

## Main statements

* `Fiber.Trail.guarantee`: every trail that begins with a guarantee follows it.
* `Runtime.Reachable.guaranteed`: the law of the guarantee, under every schedule.
-/

namespace EffectFibers

/-- The finalizer of an effect that is to be finalized if it is cancelled. -/
def Effect.whenCanceled (finalizer : Effect) : ExitCase Value → Effect
  | .canceled => finalizer
  | .completed | .error _ => unit

/-! ## The stages of a guarantee -/

section

variable (run : TokenId) (now : Store) (source : Effect) (env : Env)

/-- The guarantee was entered, under the number of a bracket, and its effect has come to an exit. -/
inductive Guarantee.Came (b : BracketId) : Exit → List Moment → Env → Prop
  /-- The effect was run by itself. -/
  | ran {m₁ m₂ m₃ : Moment} {v : Value} {x : Exit} {own : List Moment} {env' : Env}
      (entered : m₁.Enters env.token) (acquired : m₂.event = .acquired env.token b v)
      (started : m₃.event = .useStarted env.token b) (live : m₃.cancelled = false)
      (path : Fiber.Path run now ⟨⟨env, []⟩, .evaluating source⟩ own
        ⟨⟨env', []⟩, .unwinding x⟩) : Came b x (own ++ [m₃, m₂, m₁]) env'
  /-- The token was cancelled between the two looks at it, and the effect was not started. -/
  | late {m₁ m₂ : Moment} {v : Value} (entered : m₁.Enters env.token)
      (acquired : m₂.event = .acquired env.token b v) (cancelled : m₂.cancelled = true)
      (since : now.isCancelled env.token = true) : Came b .canceled [m₂, m₁] env

/-- The finalizer of a guarantee has begun with the case that it is to see: `canceled` if the token
is cancelled, else what the effect has come to. -/
structure Guarantee.Begins (b : BracketId) (x : Exit) (m : Moment) : Prop where
  event : m.event = .releaseStarted env.token b (m.seen x)
  cancelled : m.cancelled = true → now.isCancelled env.token = true

/-- A guarantee is over. -/
inductive Guarantee.Closed : Exit → List Moment → Env → Prop
  /-- The token was cancelled when it was to be entered. -/
  | refused {s : Store} (cancelled : s.isCancelled env.token = true) (ages : s.Ages now) :
      Closed .canceled [] env
  | finalized {b : BracketId} {x y : Exit} {m m' : Moment} {ms : List Moment} {env' : Env}
      (came : Guarantee.Came run now source env b x ms env')
      (begins : Guarantee.Begins now env b x m)
      (finished : m'.event = .releaseFinished env.token b y) :
      Closed ((m.seen x).behind y) (m' :: m :: ms) env'

/-- How far a fiber has come with a guarantee, with the exits that are due in it. -/
inductive Guarantee (finalizer : ExitCase Value → Effect) (rest : List Frame)
    (due : Exit → Prop) : List Moment → Fiber → Prop
  | waiting : Guarantee finalizer rest due [] ⟨⟨env, rest⟩, .evaluating
      (source.guaranteeCase finalizer)⟩
  | entering {m : Moment} (entered : m.Enters env.token) (sure : due (.succeeded .null)) :
      Guarantee finalizer rest due [m] ⟨⟨env, rest⟩, .acquiring (fun _ => source) fun _ => finalizer⟩
  | running {b : BracketId} {v : Value} {m₁ m₂ m₃ : Moment} {own : List Moment} {φ : Fiber}
      (entered : m₁.Enters env.token) (acquired : m₂.event = .acquired env.token b v)
      (started : m₃.event = .useStarted env.token b) (live : m₃.cancelled = false)
      (path : Fiber.Path run now ⟨⟨env, []⟩, .evaluating source⟩ own φ) (busy : ¬ φ.Over) :
      Guarantee finalizer rest due (own ++ [m₃, m₂, m₁]) (φ.above (.release b finalizer :: rest))
  | ending {b : BracketId} {x : Exit} {ms : List Moment} {env' : Env}
      (came : Guarantee.Came run now source env b x ms env') :
      Guarantee finalizer rest due ms ⟨⟨env', .release b finalizer :: rest⟩, .unwinding x⟩
  | releasing {b : BracketId} {x : Exit} {m : Moment} {ms : List Moment} {env' : Env}
      (came : Guarantee.Came run now source env b x ms env')
      (begins : Guarantee.Begins now env b x m) :
      Guarantee finalizer rest due (m :: ms) ⟨⟨env', rest⟩, .releasing b (m.seen x)⟩
  | past {z : Exit} {ms later : List Moment} {env' : Env} {φ' : Fiber}
      (closed : Guarantee.Closed run now source env z ms env')
      (path : Fiber.Path run now ⟨⟨env', rest⟩, .unwinding z⟩ later φ') :
      Guarantee finalizer rest due (later ++ ms) φ'

end

namespace Guarantee

variable {run : TokenId} {s now : Store} {source : Effect} {finalizer : ExitCase Value → Effect}
  {env env' : Env} {rest : List Frame} {due : Exit → Prop} {b : BracketId} {x z : Exit}
  {ms : List Moment} {own : List Moment} {m : Moment} {φ φ₁ φ₂ : Fiber}

theorem Came.mono (h : Came run s source env b x ms env') (ages : s.Ages now) :
    Came run now source env b x ms env' := by
  cases h with
  | ran entered acquired started live path =>
    exact .ran entered acquired started live (path.mono ages)
  | late entered acquired cancelled since =>
    exact .late entered acquired cancelled (ages.isCancelled _ since)

theorem Begins.mono (h : Begins s env b x m) (ages : s.Ages now) : Begins now env b x m :=
  ⟨h.event, fun cancelled => ages.isCancelled _ (h.cancelled cancelled)⟩

theorem Closed.mono (h : Closed run s source env z ms env') (ages : s.Ages now) :
    Closed run now source env z ms env' := by
  cases h with
  | refused cancelled before => exact .refused cancelled (before.trans ages)
  | finalized came begins finished => exact .finalized (came.mono ages) (begins.mono ages) finished

theorem mono (h : Guarantee run s source env finalizer rest due own φ) (ages : s.Ages now) :
    Guarantee run now source env finalizer rest due own φ := by
  cases h with
  | waiting => exact .waiting
  | entering entered sure => exact .entering entered sure
  | running entered acquired started live path busy =>
    exact .running entered acquired started live (path.mono ages) busy
  | ending came => exact .ending (came.mono ages)
  | releasing came begins => exact .releasing (came.mono ages) (begins.mono ages)
  | past closed path => exact .past (closed.mono ages) (path.mono ages)

theorem Came.token (h : Came run now source env b x ms env') : env'.token = env.token := by
  cases h with
  | ran entered acquired started live path => exact path.token
  | late => rfl

/-- The effect that runs by itself makes a step, or has come to its exit. -/
theorem of_path {v : Value} {m₁ m₂ m₃ : Moment} (entered : m₁.Enters env.token)
    (acquired : m₂.event = .acquired env.token b v) (started : m₃.event = .useStarted env.token b)
    (live : m₃.cancelled = false)
    (path : Fiber.Path run now ⟨⟨env, []⟩, .evaluating source⟩ own φ) :
    Guarantee run now source env finalizer rest due (own ++ [m₃, m₂, m₁])
      (φ.above (.release b finalizer :: rest)) := by
  by_cases spent : φ.Over
  · obtain ⟨⟨env', frames⟩, doing⟩ := φ
    obtain ⟨rfl, x, rfl⟩ := spent
    exact .ending (.ran entered acquired started live path)
  · exact .running entered acquired started live path spent

/-- One step of a fiber that is in a guarantee. -/
theorem tail {events : List Event} {due' : Exit → Prop}
    (h : Guarantee run s source env finalizer rest due own φ₁) (step : φ₁.Step s events φ₂)
    (kept : ∀ x, due x → φ₁.GoesBy s x φ₂) (promised : ∀ x, φ₁.Promises φ₂ x → due' x) :
    Guarantee run s source env finalizer rest due' (events.map (.of run s) ++ own) φ₂ := by
  have now : s.Ages s := Store.Grows.ages .refl
  cases h with
  | waiting =>
    cases step with
    | refused point cancelled => exact .past (.refused cancelled now) .refl
    | bracket live => exact .entering ⟨rfl, live⟩ (promised _ .acquiring)
  | @entering m entered sure =>
    have goes := (kept _ sure).acquiring
    cases step with
    | @acquired _ _ _ v live =>
      let started : Moment := .of run s (.useStarted env.token s.brackets)
      let acquired : Moment := .of run s (.acquired env.token s.brackets v)
      have begins : Guarantee run s source env finalizer rest due' ([] ++ [started, acquired, m]) _ :=
        of_path entered rfl rfl live .refl
      exact begins
    | @acquiredLate _ _ _ v cancelled => exact .ending (.late entered rfl cancelled cancelled)
    | notAcquired failed =>
      have frames := congrArg (fun φ : Fiber => φ.frames.length) goes
      simp [Fiber.frames, Loop.push] at frames
  | running entered acquired started live path busy =>
    obtain ⟨φ, step', rfl⟩ := step.of_above busy
    rw [← List.append_assoc]
    exact of_path entered acquired started live (path.tail step' now)
  | ending came =>
    obtain ⟨m, marks, cancelled, event, rfl⟩ := step.of_release
    rw [marks]
    refine .releasing came ⟨?_, ?_⟩
    · rwa [came.token] at event
    · rw [← came.token, ← cancelled]
      exact id
  | releasing came begins =>
    obtain ⟨m, y, marks, event, rfl⟩ := step.of_releasing
    rw [marks]
    have finished : m.event = .releaseFinished env.token _ y := came.token ▸ event
    have past : Guarantee run s source env finalizer rest due' ([] ++ _) _ :=
      .past (.finalized came begins finished) .refl
    exact past
  | past closed path =>
    rw [← List.append_assoc]
    exact .past closed (path.tail step now)

/-- If the token has not been cancelled, a guarantee comes to what its effect comes to by itself,
unless the finalizer fails. -/
theorem Closed.unchanged (h : Closed run now source env z ms env')
    (live : now.isCancelled env.token = false) : ∃ b v x y own,
      Fiber.Path run now ⟨⟨env, []⟩, .evaluating source⟩ own ⟨⟨env', []⟩, .unwinding x⟩ ∧
      ms.map Moment.event = .releaseFinished env.token b y :: .releaseStarted env.token b x ::
        (own.map Moment.event ++ [.useStarted env.token b, .acquired env.token b v,
          .entered env.token .acquisition]) ∧
      (y.isErrored = false → z = x) := by
  have never : ∀ {p : Prop}, now.isCancelled env.token = true → p := fun cancelled => by
    rw [live] at cancelled
    cases cancelled
  cases h with
  | refused cancelled ages => exact never (ages.isCancelled _ cancelled)
  | @finalized b x y m m' ms env' came begins finished =>
    have seen : m.seen x = x := by
      unfold Moment.seen
      split
      · next cancelled => exact never (begins.cancelled cancelled)
      · rfl
    have event := begins.event
    rw [seen] at event
    cases came with
    | late entered acquired cancelled since => exact never since
    | @ran m₁ m₂ m₃ v x own env' entered acquired started live' path =>
      refine ⟨b, v, x, y, own, path, ?_, fun sound => ?_⟩
      · simp [event, finished, started, acquired, entered.event]
      · rw [seen]
        cases y with
        | errored e => cases sound
        | succeeded | canceled => rfl

/-- A fiber that has come to the end of its frames is past the guarantee. -/
theorem of_over (h : Guarantee run now source env finalizer rest due own φ) (spent : φ.Over) :
    ∃ z ms later env', Closed run now source env z ms env' ∧ own = later ++ ms := by
  obtain ⟨none, x, doing⟩ := spent
  cases h with
  | waiting | entering | releasing => cases doing
  | running entered acquired started live path busy =>
    exact (busy ⟨(List.append_eq_nil_iff.mp none).1, x, doing⟩).elim
  | ending => cases none
  | past closed path => exact ⟨_, _, _, _, closed, rfl⟩

end Guarantee

/-- A trail that begins with a guarantee follows it. -/
theorem Fiber.Trail.guarantee {run : TokenId} {now : Store} {source : Effect}
    {finalizer : ExitCase Value → Effect} {env : Env} {rest : List Frame} {due : Exit → Prop}
    {own : List Moment} {φ' : Fiber}
    (trail : Trail run ⟨⟨env, rest⟩, .evaluating (source.guaranteeCase finalizer)⟩ due now own φ') :
    Guarantee run now source env finalizer rest due own φ' := by
  induction trail with
  | refl => exact .waiting
  | wait _ ages ih => exact ih.mono ages
  | tail _ step kept ih => exact ih.tail step kept fun _ => id

/-! ## Under every schedule -/

/-- The finalizer is built for the case that it sees, and begun as an effect of its own. -/
theorem Config.step_finalizer {env : Env} {rest : List Frame} {b : BracketId}
    {finalizer : ExitCase Value → Effect} {x outcome : Exit} {s : Store} (worker : Worker)
    (callers : List Caller)
    (given : outcome = if s.isCancelled env.token then .canceled else x)
    (sound : (finalizer outcome.exitCase).fault? = none) :
    Config.step worker ⟨.unwind ⟨env, .release b finalizer :: rest⟩ x, callers⟩ s =
      (.next ⟨.eval ⟨env.withToken s.size, []⟩ (finalizer outcome.exitCase),
        .releasing ⟨env, rest⟩ b outcome :: callers⟩,
        (s.emit (.releaseStarted env.token b outcome)).freshToken.2) := by
  simp only [Config.step, Machine.unwindStep, Machine.frameStep, ← given, sound]
  rfl

namespace Runtime

variable {σ σ' : Runtime} {run : TokenId} {source : Effect} {finalizer : ExitCase Value → Effect}
  {env : Env} {rest : List Frame}

/-- What has become of a guarantee, with the marks that its fiber has left since: it is under way
or over, the fiber has ended behind it, or the fiber was lost on the way, by a panic in its strand
or because it was to go on in a closed context. -/
inductive GuaranteeCourse (σ' : Runtime) (run : TokenId) (source : Effect)
    (finalizer : ExitCase Value → Effect) (env : Env) (rest : List Frame) (marks : List Moment) :
    Prop
  | there {due : Exit → Prop} {φ' : Fiber}
      (stage : Guarantee run σ'.store source env finalizer rest due marks φ')
      (mem : (run, φ') ∈ σ'.crew)
  | ended {z : Exit} {env' : Env} {ms later : List Moment}
      (closed : Guarantee.Closed run σ'.store source env z ms env') (split : marks = later ++ ms)
      (gone : env.token ∉ badges σ'.crew)
  | failed {due : Exit → Prop} {φ' : Fiber} {own last : List Moment}
      (stage : Guarantee run σ'.store source env finalizer rest due own φ')
      (failed : σ'.Failed run) (split : marks = last ++ own) (gone : env.token ∉ badges σ'.crew)
  | refused {due : Exit → Prop} {loop : Loop} {context : Context} {own : List Moment} {m : Moment}
      (stage : Guarantee run σ'.store source env finalizer rest due own
        ⟨loop, .evaluating (.shift context)⟩)
      (closed : context.isOpen = false) (split : marks = m :: own)
      (gone : env.token ∉ badges σ'.crew)

theorem Steps.guarantee (h : Reachable σ)
    (mem : (run, ⟨⟨env, rest⟩, .evaluating (source.guaranteeCase finalizer)⟩) ∈ σ.crew)
    (steps : Steps σ σ') : ∃ new, σ'.log = new ++ σ.log ∧
      GuaranteeCourse σ' run source finalizer env rest (ownOf env.token new) := by
  obtain ⟨new, log, trailed⟩ := Steps.trail h mem steps
  refine ⟨new, log, ?_⟩
  cases trailed with
  | there trail mem' => exact .there trail.guarantee mem'
  | parted trail parting marks gone =>
    have stage := trail.guarantee
    cases parting with
    | ended spent =>
      subst spent
      obtain ⟨z, ms, later, env', closed, rfl⟩ := stage.of_over ⟨rfl, _, rfl⟩
      rw [← List.append_assoc] at marks
      exact .ended closed marks gone
    | failed failed => exact .failed stage failed marks gone
    | faulted failed enters => exact .failed stage failed marks gone
    | refused closed sent =>
      subst sent
      exact .refused stage closed marks gone

/-- The law of a guarantee that a fiber is about to enter. -/
structure Guaranteed (σ : Runtime) (run : TokenId) (source : Effect)
    (finalizer : ExitCase Value → Effect) (env : Env) (rest : List Frame) : Prop where
  /-- The effect is started if the token is not cancelled, and what it comes to decides what the
  finalizer sees. -/
  course : ∀ σ', Steps σ σ' → ∃ new, σ'.log = new ++ σ.log ∧
    GuaranteeCourse σ' run source finalizer env rest (ownOf env.token new)
  /-- No finalizer begins twice. -/
  once : ∀ σ', Steps σ σ' → ∀ b, (σ'.log.map Moment.event).countP (Event.startsRelease b) ≤ 1
  /-- The effect of the finalizer is built for the case that it sees, and run. -/
  finalizes : ∀ σ', Steps σ σ' → ∀ env' b x,
    (run, ⟨⟨env', .release b finalizer :: rest⟩, .unwinding x⟩) ∈ σ'.crew → ∃ role callers,
      ⟨run, role, .running ⟨.unwind ⟨env', .release b finalizer :: rest⟩ x, callers⟩⟩ ∈ σ'.strands ∧
      ∀ worker outcome, outcome = (if σ'.store.isCancelled env'.token then .canceled else x) →
        (finalizer outcome.exitCase).fault? = none →
          Config.step worker ⟨.unwind ⟨env', .release b finalizer :: rest⟩ x, callers⟩ σ'.store =
            (.next ⟨.eval ⟨env'.withToken σ'.store.size, []⟩ (finalizer outcome.exitCase),
              .releasing ⟨env', rest⟩ b outcome :: callers⟩,
            (σ'.store.emit (.releaseStarted env'.token b outcome)).freshToken.2)
  /-- Up to its exit, the effect does what it does by itself. -/
  alike : ∀ s role callers others log b,
    Steps σ ⟨s, ⟨run, role, .running ⟨.eval ⟨env, .release b finalizer :: rest⟩ source, callers⟩⟩
      ::ₘ others, log⟩ →
    Unaffected env.token (.release b finalizer :: rest) run
      ⟨s, ⟨run, role, .running ⟨.eval ⟨env, []⟩ source, callers⟩⟩ ::ₘ others, log⟩
      ⟨s, ⟨run, role, .running ⟨.eval ⟨env, .release b finalizer :: rest⟩ source, callers⟩⟩
        ::ₘ others, log⟩
  /-- If the token has not been cancelled, the guarantee comes to what its effect comes to, unless
  the finalizer fails. -/
  unchanged : ∀ σ' z ms env', Steps σ σ' → σ'.store.isCancelled env.token = false →
    Guarantee.Closed run σ'.store source env z ms env' → ∃ b v x y own,
      Fiber.Path run σ'.store ⟨⟨env, []⟩, .evaluating source⟩ own ⟨⟨env', []⟩, .unwinding x⟩ ∧
      ms.map Moment.event = .releaseFinished env.token b y :: .releaseStarted env.token b x ::
        (own.map Moment.event ++ [.useStarted env.token b, .acquired env.token b v,
          .entered env.token .acquisition]) ∧
      (y.isErrored = false → z = x)

/-- A guarantee runs its finalizer once if it has started its effect, with the case that the effect
has come to, and changes nothing else.  `onCancel` is the guarantee whose finalizer does something
if that case is a cancellation, and nothing otherwise. -/
theorem Reachable.guaranteed (h : Reachable σ)
    (mem : (run, ⟨⟨env, rest⟩, .evaluating (source.guaranteeCase finalizer)⟩) ∈ σ.crew) :
    Guaranteed σ run source finalizer env rest ∧
    ∀ effect, source.onCancel effect = source.guaranteeCase (Effect.whenCanceled effect) ∧
      ∀ x : Exit, Effect.whenCanceled effect x.exitCase
        = if x.isCanceled then effect else Effect.unit := by
  refine ⟨⟨fun σ' steps => Steps.guarantee h mem steps, fun σ' steps b => ?_,
    fun σ' steps env' b x inCrew => ?_, fun s role callers others log b steps => ?_,
    fun σ' z ms env' steps live closed => closed.unchanged live⟩, fun effect => ⟨rfl, fun x => ?_⟩⟩
  · exact (Reachable.accounted (h.trans steps)).lawful.countP_releaseStarted_le b
  · obtain ⟨⟨run', role, state⟩, inStrands, rfl, callers, rfl⟩ := in_control inCrew
    exact ⟨role, callers, inStrands, fun worker outcome given sound =>
      Config.step_finalizer worker callers given sound⟩
  · exact Reachable.unaffected_foot (h.trans steps)
  · cases x <;> rfl

/-- A guarded effect fails: the finalizer sees the failure. -/
theorem guarantee_of_failure : ∃ σ σ' new env source finalizer, Reachable σ ∧
    (0, ⟨⟨env, []⟩, .evaluating (source.guaranteeCase finalizer)⟩) ∈ σ.crew ∧
    Guaranteed σ 0 source finalizer env [] ∧ Steps σ σ' ∧ σ'.log = new ++ σ.log ∧
    (ownOf env.token new).map Moment.event =
      [.left 0 (.errored .null), .releaseFinished 0 0 (.succeeded .null),
        .releaseStarted 0 0 (.errored .null), .useStarted 0 0, .acquired 0 0 .null,
        .entered 0 .acquisition] := by
  let source : Effect := .fail .null
  let effect := source.guarantee Effect.unit
  let poll := Segment.poll ⟨1, "main"⟩ 20 (.start ⟨⟨0, Context.home, []⟩, []⟩ effect)
    (starting effect Context.home).store
  have came : poll = (.ended (.errored .null), poll.2) := rfl
  obtain ⟨marks, logged, steps⟩ := steps_of_starting rfl came
  have reach := reachable_starting effect Context.home
  have mem := mem_crew_starting effect Context.home
  have law := (Reachable.guaranteed reach mem).1
  refine ⟨_, _, marks, _, source, fun _ => Effect.unit, reach, mem, law, steps,
    (List.append_nil _).symm, ?_⟩
  rw [map_ownOf, logged.events]
  rfl

/-- A guarded effect goes on in a closed context: the run ends, without a panic and uncancelled, and
the finalizer is never begun.  And a token that is cancelled after a guarantee was entered, but
before its effect is started, keeps the effect from being started. -/
theorem guarantee_without_effect : (∃ σ σ' new env context, Reachable σ ∧
      (0, ⟨⟨env, []⟩, .evaluating ((Effect.shift context).guarantee Effect.unit)⟩) ∈ σ.crew ∧
      Steps σ σ' ∧ σ'.log = new ++ σ.log ∧ (∀ τ ∈ σ'.strands, τ.state = .ended .canceled) ∧
      σ'.store.isCancelled env.token = false ∧ (ownOf env.token new).map Moment.event =
        [.entered 0 .shift, .useStarted 0 0, .acquired 0 0 .null, .entered 0 .acquisition]) ∧
    ∃ σ σ' new, Reachable σ ∧ σ.store.isCancelled 0 = false ∧
      (0, ⟨outermost, .evaluating (Effect.unit.guarantee Effect.unit)⟩) ∈ σ.crew ∧
      Steps σ σ' ∧ σ'.log = new ++ σ.log ∧ (ownOf 0 new).map Moment.event =
        [.releaseStarted 0 0 .canceled, .acquired 0 0 .null, .entered 0 .acquisition] := by
  constructor
  · let dead : Context := { thread := "dead", isOpen := false }
    let effect := (Effect.shift dead).guarantee Effect.unit
    let poll := Segment.poll ⟨1, "main"⟩ 20 (.start ⟨⟨0, Context.home, []⟩, []⟩ effect)
      (starting effect Context.home).store
    have came : poll = (.ended .canceled, poll.2) := rfl
    obtain ⟨marks, logged, steps⟩ := steps_of_starting rfl came
    have spawned : poll.2.spawned = [] := rfl
    rw [spawned] at steps
    have ended : ∀ τ ∈ (⟨0, .root, .ended .canceled⟩ ::ₘ 0 : Multiset Strand),
        τ.state = .ended .canceled := fun τ mem => (Multiset.mem_singleton.mp mem) ▸ rfl
    refine ⟨_, _, marks, ⟨0, Context.home, []⟩, dead, reachable_starting effect Context.home,
      mem_crew_starting effect Context.home, steps, (List.append_nil _).symm, ended, rfl, ?_⟩
    rw [map_ownOf, logged.events]
    rfl
  · let worker : Worker := ⟨1, "main"⟩
    let effect := Effect.unit.guarantee Effect.unit
    let s := (starting effect Context.home).store
    let caller : Caller := .acquiring outermost (fun _ => Effect.unit) fun _ _ => Effect.unit
    let inner : Loop := ⟨outermost.env.withToken 1, []⟩
    let done : Exit := .succeeded .null
    let s₁ := (s.emit (.entered 0 .acquisition)).freshToken.2
    let s₂ := s₁.emit (.left 1 done)
    let s₃ := s₂.cancel 0
    have resumed : Config.step worker ⟨.resume (.start outermost effect), []⟩ s
        = (.next ⟨.eval outermost effect, []⟩, s) := rfl
    have entered : Config.step worker ⟨.eval outermost effect, []⟩ s
        = (.next ⟨.eval inner Effect.unit, [caller]⟩, s₁) := rfl
    have evaluated : Config.step worker ⟨.eval inner Effect.unit, [caller]⟩ s₁
        = (.next ⟨.unwind inner done, [caller]⟩, s₁) := rfl
    have left : Config.step worker ⟨.unwind inner done, [caller]⟩ s₁
        = (.next ⟨.leave done, [caller]⟩, s₂) := rfl
    have cancelled : s₃.isCancelled 0 = true := by
      unfold Store.isCancelled
      rw [Store.tokens_cancel]
      exact Forest.isCancelled_cancel_self (Nat.zero_lt_succ 1)
    have brackets : s₃.brackets = 0 := Store.brackets_cancel s₂ 0
    let s₄ := { s₃ with brackets := 1 }.emit (.acquired 0 0 .null)
    have late : Config.step worker ⟨.leave done, [caller]⟩ s₃
        = (.next ⟨.unwind (guardedLoop Effect.unit) .canceled, []⟩, s₄) := by
      have cancelled' : ({ s₃ with brackets := 1 }.emit (.acquired 0 0 .null)).isCancelled 0
        = true := cancelled
      simp [Config.step, Machine.leaveStep, Machine.returnStep, caller, done, brackets, outermost,
        Loop.push, cancelled', Machine.unwind, guardedLoop, s₄]
    let s₅ := (s₄.emit (.releaseStarted 0 0 .canceled)).freshToken.2
    have finalized : Config.step worker ⟨.unwind (guardedLoop Effect.unit) .canceled, []⟩ s₄
        = (.next ⟨.eval ⟨outermost.env.withToken s₄.size, []⟩ Effect.unit,
          [.releasing outermost 0 .canceled]⟩, s₅) := by
      exact Config.step_finalizer _ _ (ite_self _).symm rfl
    have none : s.trace = [] ++ s.trace := rfl
    have reach : Reachable (lone s ⟨.eval outermost effect, []⟩ []) :=
      .tail (reachable_lone effect Context.home) (step_lone resumed none rfl)
    have mem : (0, ⟨outermost, .evaluating effect⟩)
        ∈ (lone s ⟨.eval outermost effect, []⟩ []).crew :=
      mem_crew_lone (Multiset.mem_singleton_self (⟨.outer, .fiber _⟩ : Berth))
    have trace₁ : s₁.trace = [.entered 0 .acquisition] ++ s.trace := rfl
    have trace₁' : s₁.trace = [] ++ s₁.trace := rfl
    have trace₂ : s₂.trace = [.left 1 done] ++ s₁.trace := rfl
    have trace₄ : s₄.trace = [.acquired 0 0 .null] ++ s₃.trace := rfl
    have trace₅ : s₅.trace = [.releaseStarted 0 0 .canceled] ++ s₄.trace := rfl
    have steps₁ : Steps (lone s ⟨.eval outermost effect, []⟩ []) _ :=
      .tail .refl (step_lone entered trace₁ rfl)
    have steps₂ := steps₁.tail (step_lone evaluated trace₁' rfl)
    have steps₃ := (steps₂.tail (step_lone left trace₂ rfl)).tail (.cancel _ 0)
    have steps₄ := steps₃.tail (step_lone late trace₄ rfl)
    have steps₅ := steps₄.tail (step_lone finalized trace₅ rfl)
    refine ⟨_, _, _, reach, rfl, mem, steps₅, (List.append_nil _).symm, ?_⟩
    rw [map_ownOf]
    rfl

end Runtime

end EffectFibers
