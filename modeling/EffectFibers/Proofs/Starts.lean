import EffectFibers.Proofs.Kinship

/-!
# Nothing new below a cancelled token

A fiber is stopped at each point where it would begin something new if its own token is cancelled.
That a cancelled token stops the fibers below it too needs the tokens in between: as long as
loops hold on to all of them, each hangs below its parent (`Runtime.Hung`), and a cancellation
comes down the whole way.  In a run without a panic they do, so nothing starts below a cancelled
token of the run except in an acquisition or in a release.  A panic can let go of a token on
the way, and then a fiber further down goes on.

## Main statements

* `Fiber.Step.at_point`: what a fiber does at such a point.
* `Runtime.Reachable.hung`: the tokens that loops hold on to hang below their parents.
* `Runtime.Reachable.starts`: where a fiber begins something in spite of a cancelled token.
-/

namespace EffectFibers

/-- At a point where a fiber would begin something it is stopped by a cancellation, and otherwise
leaves a mark. -/
theorem Fiber.Step.at_point {s : Store} {φ φ' : Fiber} {ms : List Event} {effect : Effect}
    {point : Point} (step : φ.Step s ms φ') (evaluating : φ.doing = .evaluating effect)
    (at_point : effect.point? = some point) :
    s.isCancelled φ.token = true ∧ φ' = ⟨φ.loop, .unwinding .canceled⟩ ∧ ms = [] ∨
      s.isCancelled φ.token = false ∧ ms = [.entered φ.token point] := by
  cases step with
  | refused other cancelled => exact .inl ⟨cancelled, rfl, rfl⟩
  | register live | await live | shift live | bracket live =>
    cases evaluating
    cases at_point
    exact .inr ⟨live, rfl⟩
  | pure | fail | perform | cancel | isCancelled | map | bind | handle | again | done | race | fan =>
    cases evaluating
    cases at_point
  | _ => cases evaluating

/-- The mark of a fiber that begins something. -/
theorem Fiber.Step.enters {s : Store} {φ φ' : Fiber} {ms : List Event} {k : TokenId}
    {point : Point} (step : φ.Step s ms φ') (mem : .entered k point ∈ ms) :
    φ.token = k ∧ φ.Enters s point := by
  cases step with
  | register live | await live | shift live | bracket live =>
    cases List.mem_singleton.mp mem
    exact ⟨rfl, live, _, rfl, rfl⟩
  | _ => simp at mem

namespace Runtime

variable {σ σ' : Runtime} {run p c k : TokenId}

/-! ## The tokens that loops hold on to -/

/-- A loop holds on to a token that was held before, or to a new one. -/
theorem Turnover.holds (turnover : Turnover σ σ') (held : σ'.Holds run c) :
    σ.Holds run c ∨ Within σ.store.size σ'.store.size c := by
  obtain ⟨π, mem, rfl, q, inside, own⟩ := held
  cases turnover.origin mem with
  | old mem => exact .inl ⟨π, mem, rfl, q, inside, own⟩
  | acted acting reaction =>
    obtain ⟨q₀, inside₀, own₀⟩ | fresh := reaction.owned inside own
    · exact .inl ⟨_, acting, rfl, q₀, inside₀, own₀⟩
    · exact .inr fresh
  | started acting acted reaction started =>
    obtain ⟨loop, effect, rfl, begun⟩ := reaction.starting started inside
    obtain rfl := List.mem_singleton.mp own
    obtain ⟨q₀, inside₀, own₀⟩ | fresh := begun
    · exact .inl ⟨_, acting, rfl, q₀, inside₀, own₀⟩
    · exact .inr fresh
  | lost => cases inside
  | begun fresh =>
    obtain rfl := Multiset.mem_singleton.mp inside
    obtain rfl := List.mem_singleton.mp own
    exact .inr fresh

/-- Every token that a loop holds on to hangs below its parent. -/
def Hung (σ : Runtime) : Prop :=
  ∀ run p c, σ.Holds run c → σ.store.Parent p c → σ.store.tokens.Hangs p c

theorem Step.hung (h : σ.Hung) (kindred : σ.Kindred) (step : Step σ σ') : σ'.Hung := by
  intro run p c held parent
  have before : c < σ.store.size → σ.Holds run c := fun known =>
    (step.turnover.holds held).resolve_right fun fresh => Nat.not_lt.mpr fresh.le known
  refine step.elapse.hangs kindred.family parent (fun known => ?_) fun old => ?_
  · obtain ⟨π, mem, -, q, inside, own⟩ := before known
    obtain ⟨τ, inStrands, rfl⟩ := Multiset.mem_map.mp mem
    exact ⟨τ, inStrands, q, inside, own⟩
  · exact h run p c (before (kindred.family.bound p c old.derived)) old

theorem Reachable.hung (h : Reachable σ) : σ.Hung := by
  induction h with
  | refl =>
    rintro run p c ⟨π, mem, -⟩
    have none : Runtime.parties {} = 0 := rfl
    simp [none] at mem
  | tail reach step ih => exact Step.hung ih (Reachable.kindred reach) step

/-- A cancellation has come down to a token if all tokens on the way are held. -/
theorem Hung.cancelled (h : σ.Hung) {t : TokenId} (below : σ.store.Below t k)
    (held : ∀ c, Relation.TransGen σ.store.Parent t c → σ.store.Below c k → ∃ run, σ.Holds run c)
    (cancelled : σ.store.isCancelled t = true) : σ.store.isCancelled k = true := by
  induction below with
  | refl => exact cancelled
  | @tail b k below parent ih =>
    have above := ih fun c low high => held c low (high.tail parent)
    obtain ⟨run, holds⟩ := held k (.tail' below parent) .refl
    exact (h run b k holds parent).cancelled above

/-- The tokens above one that a run holds on to are held by the run too, up to that of the run. -/
theorem Kindred.above (h : σ.Kindred) (whole : ¬ σ.Failed run) (held : σ.Holds run k)
    (below : σ.store.Below c k) : σ.Holds run c ∨ Relation.TransGen σ.store.Parent c run := by
  induction below using Relation.ReflTransGen.head_induction_on with
  | refl => exact .inl held
  | @head p c parent below ih =>
    obtain holds | under := ih
    · obtain up | rfl | failed := h.parent holds parent
      · exact .inl up
      · exact .inr (.single parent)
      · exact (whole failed).elim
    · exact .inr (.head parent under)

/-! ## Starting something -/

/-- Whatever is begun in a move is begun by a fiber whose own token is not cancelled. -/
theorem Move.enters (move : Move σ σ') : ∃ new, σ'.log = new ++ σ.log ∧
    ∀ m ∈ new, ∀ k point, m.event = .entered k point →
      ∃ φ, (m.run, φ) ∈ σ.crew ∧ φ.token = k ∧ φ.Enters σ.store point := by
  have given : ∀ (run : TokenId) (ms : List Event), σ'.log = ms.map (.of run σ.store) ++ σ.log →
      (∀ k point, .entered k point ∈ ms →
        ∃ φ, (run, φ) ∈ σ.crew ∧ φ.token = k ∧ φ.Enters σ.store point) →
      ∃ new, σ'.log = new ++ σ.log ∧ ∀ m ∈ new, ∀ k point, m.event = .entered k point →
        ∃ φ, (m.run, φ) ∈ σ.crew ∧ φ.token = k ∧ φ.Enters σ.store point := by
    intro run ms log enters
    refine ⟨_, log, fun m mem k point event => ?_⟩
    obtain ⟨e, inMarks, rfl⟩ := List.mem_map.mp mem
    obtain rfl : e = .entered k point := event
    exact enters k point inMarks
  cases move with
  | idle crew log | begin fresh crew log => exact given 0 [] log (by simp)
  | leave crew log => exact given _ [_] log (by simp)
  | @refuse run loop context closed aborted live crew log =>
    refine given run [_] log fun k point mem => ?_
    cases List.mem_singleton.mp mem
    let φ : Fiber := ⟨loop, .evaluating (.shift context)⟩
    have enters : φ.Enters σ.store .shift := ⟨live, _, rfl, rfl⟩
    exact ⟨φ, crew ▸ Multiset.mem_cons_self _ _, rfl, enters⟩
  | @lose run gone ms crew same failed marks log =>
    refine given run ms log fun k point mem => ?_
    obtain rfl | ⟨φ, point', inGone, enters, rfl⟩ := marks
    · cases mem
    · cases List.mem_singleton.mp mem
      exact ⟨φ, crew ▸ Multiset.mem_add.mpr (.inl inGone), rfl, enters⟩
  | @act run φ φ' ms born rest step fresh distinct numbered crew crew' log =>
    refine given run ms log fun k point mem => ⟨φ, crew ▸ Multiset.mem_cons_self _ _, ?_⟩
    exact step.enters mem

/-- A fiber with the token `k` begins something in a run, after the token `t` was cancelled. -/
structure Start (σ : Runtime) (t run k : TokenId) : Prop where
  live : σ.store.isCancelled k = false
  /-- Below the cancelled token that takes a token on the way that no loop holds on to. -/
  loose : σ.store.Below t k →
    ∃ c, Relation.TransGen σ.store.Parent t c ∧ σ.store.Below c k ∧ ∀ run, ¬ σ.Holds run c
  /-- As long as no part of the run has failed, there is no such token inside of the run. -/
  never : ¬ σ.Failed run → σ.store.Below run t → ¬ σ.store.Below t k
  outside : ¬ σ.Failed run → σ.store.Below t k → Relation.TransGen σ.store.Parent t run
  /-- What is begun in a cancelled run is a part of an acquisition or a release. -/
  apart : ¬ σ.Failed run → σ.store.isCancelled run = true →
    ∃ r, σ.Apart run r ∧ σ.store.Below r k

/-- Once a token is cancelled, a fiber below it begins nothing, unless a token on the way has been
let go of, which takes a panic in its run; what is begun in a cancelled run is begun in an
acquisition or in a release. -/
theorem Reachable.starts {σ₁ σ₂ : Runtime} {t : TokenId} (h : Reachable σ)
    (cancelled : σ.store.isCancelled t = true) (steps : Steps σ σ₁) (step : Step σ₁ σ₂) :
    ∃ new, σ₂.log = new ++ σ₁.log ∧
      ∀ m ∈ new, ∀ k point, m.event = .entered k point → Start σ₁ t m.run k := by
  have reach : Reachable σ₁ := Relation.ReflTransGen.trans h steps
  have hung := reach.hung
  have kindred := reach.kindred
  have now : σ₁.store.isCancelled t = true := (Steps.ages steps).isCancelled t cancelled
  obtain ⟨new, log, enters⟩ := step.move.enters
  refine ⟨new, log, fun m mem k point event => ?_⟩
  obtain ⟨φ, inCrew, rfl, live, -⟩ := enters m mem k point event
  obtain ⟨π, inParties, run, l, inPosts⟩ := mem_crew.mp inCrew
  have held : σ₁.Holds m.run φ.token := ⟨π, inParties, run, _, inPosts, Post.token_mem_owned _⟩
  -- Were all tokens on the way held, the cancellation would have come down to the fiber.
  have loose : ∀ t, σ₁.store.isCancelled t = true → σ₁.store.Below t φ.token →
      ∃ c, Relation.TransGen σ₁.store.Parent t c ∧ σ₁.store.Below c φ.token ∧
        ∀ run, ¬ σ₁.Holds run c := by
    intro t cancelled below
    by_contra none
    have held : ∀ c, Relation.TransGen σ₁.store.Parent t c → σ₁.store.Below c φ.token →
        ∃ run, σ₁.Holds run c := fun c low high =>
      not_forall_not.mp fun free => none ⟨c, low, high, free⟩
    have down := hung.cancelled below held cancelled
    simp [live] at down
  have outside : ¬ σ₁.Failed m.run → ∀ t, σ₁.store.isCancelled t = true →
      σ₁.store.Below t φ.token → Relation.TransGen σ₁.store.Parent t m.run := by
    intro whole t cancelled below
    obtain ⟨c, low, high, free⟩ := loose t cancelled below
    obtain holds | up := kindred.above whole held high
    · exact (free _ holds).elim
    · exact low.trans up
  have never : ¬ σ₁.Failed m.run → ∀ t, σ₁.store.isCancelled t = true →
      σ₁.store.Below m.run t → ¬ σ₁.store.Below t φ.token := by
    intro whole t cancelled inside below
    obtain ⟨b, parent, high⟩ := Relation.TransGen.head'_iff.mp (outside whole t cancelled below)
    have lt := Nat.lt_of_lt_of_le parent.lt (Store.below_le high)
    exact Nat.not_lt.mpr (Store.below_le inside) lt
  refine ⟨live, loose t now, fun whole => never whole t now, fun whole => outside whole t now,
    fun whole runCancelled => ?_⟩
  obtain ⟨r, rfl | apart, below⟩ := kindred.ancestor held whole
  · exact (never whole _ runCancelled .refl below).elim
  · exact ⟨r, apart, below⟩

/-- A run waits under a guard and is cancelled; the finalizer begins to wait all the same. -/
theorem starts_in_release : ∃ σ₁ σ₂ new, Reachable σ₁ ∧ σ₁.store.isCancelled 0 = true ∧
    Step σ₁ σ₂ ∧ σ₂.log = new ++ σ₁.log ∧ (∃ m ∈ new, m.run = 0 ∧ m.event = .entered 2 .future) ∧
    ∀ m ∈ new, ∀ k point, m.event = .entered k point → Start σ₁ 0 m.run k := by
  obtain ⟨s, marks, cancelled, size, reach⟩ := reachable_of_cancelled_wait Effect.never
  let loop : Loop := ⟨⟨2, Context.home, []⟩, []⟩
  let callers : List Caller := [.releasing ⟨⟨0, Context.home, []⟩, []⟩ 0 .canceled]
  let s₁ := (s.emit (.releaseStarted 0 0 .canceled)).freshToken.2
  have beyond : s.isCancelled 2 = false := by
    cases unknown : s.isCancelled 2 with
    | false => rfl
    | true => exact absurd (Forest.isCancelled_lt unknown) (Nat.not_lt.mpr (Nat.le_of_eq size))
  have live : s₁.isCancelled 2 = false := Forest.isCancelled_fresh.trans beyond
  have now : s₁.isCancelled 0 = true := Forest.isCancelled_fresh.trans cancelled
  have released : Config.step ⟨1, "main"⟩ ⟨.unwind (guardedLoop Effect.never) .canceled, []⟩ s
      = (.next ⟨.eval loop Effect.never, callers⟩, s₁) := by
    simp [Config.step, Machine.unwindStep, Machine.frameStep, guardedLoop, cancelled, size,
      Machine.eval, Env.withToken, Effect.never, Effect.fault?, s₁, loop, callers]
  have waited : Config.step ⟨1, "main"⟩ ⟨.eval loop Effect.never, callers⟩ s₁
      = (.next ⟨.resume (.future loop .never), callers⟩, s₁.emit (.entered 2 .future)) := by
    simp [Config.step, Machine.evalStep, Machine.atPoint, Machine.start, Machine.resume,
      Effect.never, live, loop]
  have trace : s₁.trace = [.releaseStarted 0 0 .canceled] ++ s.trace := rfl
  have spawned : s₁.spawned = [] ++ s.spawned := rfl
  have turned : Reachable ⟨s₁, ⟨0, .root, .running ⟨.eval loop Effect.never, callers⟩⟩ ::ₘ 0,
      .of 0 s (.releaseStarted 0 0 .canceled) :: marks⟩ :=
    .tail reach (.turn_eq released trace spawned)
  have trace' : (s₁.emit (.entered 2 .future)).trace = [.entered 2 .future] ++ s₁.trace := rfl
  have spawned' : (s₁.emit (.entered 2 .future)).spawned = [] ++ s₁.spawned := rfl
  have step : Step ⟨s₁, ⟨0, .root, .running ⟨.eval loop Effect.never, callers⟩⟩ ::ₘ 0,
      .of 0 s (.releaseStarted 0 0 .canceled) :: marks⟩ _ := .turn_eq waited trace' spawned'
  obtain ⟨new, log, starts⟩ := Reachable.starts turned now .refl step
  refine ⟨_, _, new, turned, now, step, log, ?_, starts⟩
  obtain rfl := List.append_cancel_right log
  exact ⟨_, List.mem_singleton_self _, rfl, rfl⟩

end Runtime

end EffectFibers
