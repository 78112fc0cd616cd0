import EffectFibers.Proofs.LateBrackets
import EffectFibers.Proofs.TimeLimits

/-!
# Timeouts

An effect that only sleeps has a time at which it ends when it runs on its own.  With a time limit
it ends at that time and with that exit, if this is not later than the limit, the limit included.
Otherwise it fails with the error of the timeout: at the limit the effect is cancelled where it
waits by then, and the timeout ends when the effect has been unwound.

## Main definitions

* `Effect.under`: the run loop of an effect.
* `Segment.EndsAs`: when, and how, a segment ends on a virtual clock.
* `TimeoutLaw`: what a timeout comes to by what its effect comes to on its own.

## Main statements

* `Runtime.Reachable.timeout_law`: the law.
-/

namespace EffectFibers

/-! ## The effect on its own -/

/-- The run loop in which the effect begins. -/
def Effect.under (e : Effect) (env : Env) : Segment := .start ⟨env, []⟩ e

/-- The store in which the operands of a race begin, of the loop with the token. -/
def Store.opened (s : Store) (t : TokenId) : Store := ((s.childToken t).2.childToken t).2

/-- It is the same time, and the same has been done. -/
structure Store.Agrees (s t : Store) : Prop where
  now : t.now = s.now
  memory : t.memory = s.memory
  deeds : t.deeds = s.deeds

/-- On a virtual clock the segment ends with the exit, when it is as late as in the store, and it has
done then what has been done there.  Until then it waits. -/
structure Segment.EndsAs (worker : Worker) (g : Segment) (s : Store) (y : Exit) (s₁ : Store) :
    Prop where
  ends : ∃ s', g.Timed worker s (.ended y) s' ∧ s₁.Agrees s'
  only : ∀ r s', g.Timed worker s r s' →
    r = .ended y ∧ s₁.Agrees s' ∨ (∃ g', r = .parked g') ∧ s'.now < s₁.now

section

variable {free out : TokenId → Prop} {worker : Worker} {g : Segment} {s s' s₁ : Store} {y : Exit}
  {w : Sight}

theorem Store.agrees_of_sight (same : s'.sight = s.sight) : s.Agrees s' :=
  ⟨congrArg Sight.now same, congrArg Sight.memory same, congrArg Sight.deeds same⟩

theorem Segment.endsAs_of_spans (tended : g.Tended free out s)
    (h : g.Spans worker s.sight (.ended y) w) (agrees : ∀ s', s'.sight = w → s₁.Agrees s') :
    g.EndsAs worker s y s₁ := by
  obtain ⟨s₂, timed, same⟩ := h.timed tended rfl
  refine ⟨⟨s₂, timed, agrees s₂ same⟩, fun r s' timed' => ?_⟩
  have spans := (timed'.spans tended).1
  obtain ⟨rfl, same'⟩ | ⟨waits, earlier⟩ := h.over nofun spans
  · exact .inl ⟨rfl, agrees s' same'⟩
  · have now : w.now = s₁.now := same ▸ (agrees s₂ same).now
    exact .inr ⟨waits, now ▸ earlier⟩

/-- The stores that the operands of a race begin in have the same tokens cancelled. -/
theorem Store.isCancelled_childToken {p : TokenId} (live : s.isCancelled p = false) (u : TokenId) :
    (s.childToken p).2.isCancelled u = s.isCancelled u := by
  have live : s.tokens.isCancelled p = false := live
  refine Forest.isCancelled_child.trans ?_
  rw [live, Bool.and_false, Bool.or_false]
  rfl

theorem Store.isCancelled_size (s : Store) : s.isCancelled s.size = false := by
  simp [Store.isCancelled, Store.size, Forest.isCancelled]

end

/-! ## The law -/

/-- The effect waits as a segment when its time limit is reached, in a store with its own token. -/
structure TimedOut (worker : Worker) (whole : Segment) (s : Store) (x : Value) (own : TokenId)
    (g : Segment) (s₁ : Store) : Prop where
  /-- It is cancelled there, and when it has ended the timeout fails. -/
  ends : ∀ z s₂, g.Timed worker (s₁.cancel own) (.ended z) s₂ → whole.EndsAs worker s (.errored x) s₂
  /-- Before, the timeout does not end. -/
  only : ∀ y s', whole.Timed worker s (.ended y) s' → y = .errored x ∧
    ∃ z s₂, g.Timed worker (s₁.cancel own) (.ended z) s₂ ∧ s₂.Agrees s'
  /-- In between the brackets of the effect are unwound. -/
  brackets : ∀ r s₂, g.Timed worker (s₁.cancel own) r s₂ → ∃ es, s₂.deeds = es ++ s₁.deeds ∧
    Unwinds own (g.posts .outer) r.leaves es s₂

/-- What an effect with a time limit comes to, by what the effect comes to on its own. -/
structure TimeoutLaw (worker : Worker) (env : Env) (e : Effect) (d : Nat) (x : Value) (s : Store) :
    Prop where
  /-- On its own the effect ends at one time and in one way, if it does. -/
  alone : ∀ y s₁, (e.under (env.withToken s.size)).Timed worker (s.opened env.token) (.ended y) s₁ →
    (e.under (env.withToken s.size)).EndsAs worker (s.opened env.token) y s₁
  /-- If that is not later than the limit, the timeout ends with the effect. -/
  inTime : ∀ y s₁, (e.under (env.withToken s.size)).Timed worker (s.opened env.token) (.ended y) s₁ →
    s₁.now ≤ s.now + d → ((e.timeoutWith d x).under env).EndsAs worker s y s₁
  /-- If it goes on for longer, it waits at the limit. -/
  overdue : ∀ r s₁, (e.under (env.withToken s.size)).Timed worker (s.opened env.token) r s₁ →
    s.now + d < s₁.now → ∃ g s₂, (e.under (env.withToken s.size)).Timed worker
      (s.opened env.token) (.parked g) s₂ ∧ s₂.now = s.now + d
  /-- If it waits at the limit, the timeout fails. -/
  late : ∀ g s₁, (e.under (env.withToken s.size)).Timed worker (s.opened env.token) (.parked g) s₁ →
    s₁.now = s.now + d →
      TimedOut worker ((e.timeoutWith d x).under env) s x s.size g s₁

section

variable {worker : Worker} {env : Env} {e : Effect} {d : Nat} {x : Value} {s s' : Store}
  {free : TokenId → Prop} {r : Config.Result} {w : Sight} {y : Exit}

/-- The race of a timeout. -/
def TimeLimit.of (env : Env) (d : Nat) (x : Value) (s : Store) : TimeLimit where
  env := env
  left := s.size
  right := s.size + 1
  time := s.now + d
  error := x

theorem Effect.Sleeps.under (h : e.Sleeps free) (env : Env) : (e.under env).Sleeps free :=
  .start (Loop.sleeps_nil free env) h

theorem Effect.Sleeps.timeoutWith (h : e.Sleeps free) (d : Nat) (x : Value) :
    (e.timeoutWith d x).Sleeps free :=
  .map (.race h (.flatMap (.timer d _) fun _ => .fail x)) _

/-- The first poll of a timeout is the first one of the race. -/
theorem TimeLimit.polls_of : ((e.timeoutWith d x).under env).Polls worker s r s' ↔
    ((TimeLimit.of env d x s).racing (e.under (env.withToken s.size))
      ((TimeLimit.of env d x s).first d)).Polls worker (s.opened env.token) r s' := by
  let L := TimeLimit.of env d x s
  let operand : Caller := .racingLeft L.loop ⟨L.left, L.right⟩ (L.first d)
  have begins : Config.step worker ⟨.eval L.loop (.race e (L.alarm d)), []⟩ s
      = (.next ⟨.eval ⟨env.withToken s.size, []⟩ e, [operand]⟩, s.opened env.token) := by
    simp only [Config.step, Machine.evalStep, Store.childToken_fst, Store.size_childToken]
    rfl
  have whole : ((e.timeoutWith d x).under env).Polls worker s r s' ↔
      Config.Polls worker ⟨.eval ⟨env.withToken s.size, []⟩ e, [operand]⟩ (s.opened env.token) r s' :=
    (Config.polls_next rfl).trans ((Config.polls_next rfl).trans (Config.polls_next begins))
  have race : (L.racing (e.under (env.withToken s.size)) (L.first d)).Polls worker
      (s.opened env.token) r s' ↔
      Config.Polls worker ⟨.eval ⟨env.withToken s.size, []⟩ e, [operand]⟩ (s.opened env.token) r s' :=
    (Config.polls_next rfl).trans (Config.polls_next rfl)
  exact whole.trans race.symm

theorem TimeLimit.runs_of (code : e.Sleeps free) :
    ((e.timeoutWith d x).under env).Runs worker s.sight r w ↔
      ((TimeLimit.of env d x s).racing (e.under (env.withToken s.size))
        ((TimeLimit.of env d x s).first d)).Runs worker (s.opened env.token).sight r w := by
  have whole : ((e.timeoutWith d x).under env).Sleeps free := (code.timeoutWith d x).under env
  have race : ((TimeLimit.of env d x s).racing (e.under (env.withToken s.size))
      ((TimeLimit.of env d x s).first d)).Sleeps free :=
    .racing TimeLimit.sleeps_loop _ (code.under _) (.start (Loop.sleeps_nil free _)
      ((TimeLimit.of env d x s).sleeps_alarm d free))
  constructor
  · intro run
    obtain ⟨s', polls, rfl⟩ := run.polls whole rfl
    exact Segment.Polls.runs (TimeLimit.polls_of.mp polls) race
  · intro run
    obtain ⟨s', polls, rfl⟩ := run.polls race rfl
    exact Segment.Polls.runs (TimeLimit.polls_of.mpr polls) whole

end

section

variable {worker : Worker} {env : Env} {e : Effect} {d : Nat} {x : Value} {s s' : Store}

/-- The effect may cancel a token: one that exists, and that the loop does not hang below. -/
def Store.Spare (s : Store) (t u : TokenId) : Prop := u < s.size ∧ ¬ s.Below u t

/-- A loop of a run that is not cancelled. -/
structure Store.Clear (s : Store) (t : TokenId) : Prop where
  known : t < s.size
  live : ∀ u, s.Below u t → s.isCancelled u = false
  family : s.Family
  listed : s.Listed

variable (clear : s.Clear env.token) (code : e.Sleeps (s.Spare env.token))
include clear code

/-- The timeout, and what is around it. -/
theorem Store.Clear.tended_under : (e.under env).Tended (s.Spare env.token)
    (fun u => s.Below u env.token ∧ u ≠ env.token) s where
  code := code.under env
  sound := .start _ _
  distinct := List.nodup_singleton _
  known u mem := by
    obtain rfl : u = env.token := List.mem_singleton.mp mem
    exact ⟨clear.known, fun spare => spare.2 .refl, fun outside => outside.2 rfl⟩
  outskirts :=
    { up := fun u q outside parent =>
        ⟨.head parent outside.1, fun same => absurd (Store.below_le outside.1)
          (Nat.not_le.mpr (same ▸ parent.lt))⟩
      parent := fun q parent => ⟨.single parent, Nat.ne_of_lt parent.lt⟩
      live := fun u outside => clear.live u outside.1
      known := fun u outside => Nat.lt_of_le_of_lt (Store.below_le outside.1) clear.known
      spared := fun u spare => ⟨fun outside => spare.2 outside.1, spare.1⟩ }
  family := clear.family
  listed := clear.listed

/-- The effect on its own, and what is around it: the right operand of the race is. -/
theorem Store.Clear.tended_operand : (e.under (env.withToken s.size)).Tended (s.Spare env.token)
    (fun u => s.Below u env.token ∨ u = s.size + 1) (s.opened env.token) := by
  have live := clear.live env.token .refl
  have size : (s.childToken env.token).2.size = s.size + 1 := s.size_childToken env.token
  have size' : (s.opened env.token).size = s.size + 2 := by simp [Store.opened]
  have live' := (Store.isCancelled_childToken live env.token).trans live
  have status (u : TokenId) : (s.opened env.token).isCancelled u = s.isCancelled u :=
    (Store.isCancelled_childToken live' u).trans (Store.isCancelled_childToken live u)
  have known {u : TokenId} (below : s.Below u env.token) : u < s.size :=
    Nat.lt_of_le_of_lt (Store.below_le below) clear.known
  have parents {q u : TokenId} (parent : (s.opened env.token).Parent q u) :
      s.Parent q u ∨ q = env.token ∧ s.size ≤ u := by
    obtain ⟨rfl, rfl⟩ | derived := Store.derived_childToken parent.derived
    · exact .inr ⟨rfl, by omega⟩
    · obtain ⟨rfl, rfl⟩ | derived := Store.derived_childToken derived
      · exact .inr ⟨rfl, Nat.le_refl _⟩
      · exact .inl ⟨derived, parent.lt⟩
  have grows : s.Grows (s.opened env.token) := .tail (.single (.child s env.token)) (.child _ _)
  refine ⟨code.under _, .start _ _, List.nodup_singleton _, fun u mem => ?_,
    ⟨fun u q outside parent => ?_, fun q parent => ?_, fun u outside => ?_, fun u outside => ?_,
      fun u spare => ⟨?_, Nat.lt_of_lt_of_le spare.1 grows.ages.size⟩⟩,
    grows.family clear.family, grows.listed clear.listed⟩
  · obtain rfl : u = s.size := List.mem_singleton.mp mem
    refine ⟨size' ▸ Nat.lt_succ_of_lt (Nat.lt_succ_self _),
      fun spare => Nat.lt_irrefl _ spare.1, ?_⟩
    rintro (below | same)
    · exact Nat.lt_irrefl _ (known below)
    · exact absurd same (Nat.ne_of_lt (Nat.lt_succ_self _))
  · obtain old | ⟨rfl, late⟩ := parents parent
    · obtain below | rfl := outside
      · exact .inl (.head old below)
      · exact absurd (clear.family.bound _ _ old.derived) (Nat.not_lt.mpr (Nat.le_succ _))
    · exact .inl .refl
  · obtain old | ⟨rfl, -⟩ := parents parent
    · exact absurd (clear.family.bound _ _ old.derived) (Nat.lt_irrefl _)
    · exact .inl .refl
  · rw [status]
    obtain below | rfl := outside
    · exact clear.live u below
    · have beyond := (s.childToken env.token).2.isCancelled_size
      rw [size] at beyond
      exact (Store.isCancelled_childToken live _).symm.trans beyond
  · obtain below | rfl := outside
    · exact Nat.lt_of_lt_of_le (known below) grows.ages.size
    · exact size' ▸ Nat.lt_succ_self _
  · rintro (below | same)
    · exact spare.2 below
    · exact absurd spare.1 (Nat.not_lt.mpr (same ▸ Nat.le_succ _))

theorem Store.Clear.ready : (e.under (env.withToken s.size)).Ready (s.Spare env.token)
    (fun u => s.Below u env.token ∨ u = s.size + 1) s.size (s.opened env.token).sight := by
  have live := clear.live env.token .refl
  have live' := (Store.isCancelled_childToken live env.token).trans live
  exact ⟨_, rfl, clear.tended_operand code, rfl,
    (Store.isCancelled_childToken live' _).trans
      ((Store.isCancelled_childToken live _).trans s.isCancelled_size)⟩

/-- What a timeout comes to, by what its effect comes to on its own. -/
theorem Store.Clear.spans_timeout {y : Exit} {w : Sight}
    (timers : s.timed = true ∨ worker.thread ≠ Context.home.thread) :
    ((e.timeoutWith d x).under env).Spans worker s.sight (.ended y) w ↔
      (TimeLimit.of env d x s).Outcome worker
        ((e.under (env.withToken s.size)).Spans worker (s.opened env.token).sight) y w :=
  (Segment.Spans.congr fun _ _ => TimeLimit.runs_of code).trans
    (TimeLimit.spans_iff (L := TimeLimit.of env d x s) (clear.ready code) (.inr rfl)
      (TimeLimit.rings_first _ worker rfl) timers (Nat.le_add_right _ _))

/-- What a timeout comes to if its effect still waits at the limit. -/
theorem Store.Clear.timed_out (timers : s.timed = true ∨ worker.thread ≠ Context.home.thread)
    {g : Segment} {s₁ : Store} (timed : (e.under (env.withToken s.size)).Timed worker
      (s.opened env.token) (.parked g) s₁) (limit : s₁.now = s.now + d) :
    TimedOut worker ((e.timeoutWith d x).under env) s x s.size g s₁ := by
  have whole := clear.tended_under (code.timeoutWith d x)
  obtain ⟨waits, kept⟩ := timed.spans (clear.tended_operand code)
  obtain ⟨tended, token, -⟩ := kept.parked g rfl
  have own : g.token = s.size := token
  have tended' := tended.cancel
  have reached : (s₁.cancel g.token).isCancelled g.token = true := by
    rw [Store.isCancelled, Store.tokens_cancel]
    exact Forest.isCancelled_cancel_self (tended.known _ (List.mem_cons_self ..)).1
  have sight := s₁.sight_cancel s.size
  rw [own] at tended' reached
  refine ⟨fun z s₂ unwinds => ?_, fun y s' ends => ?_, fun r s₂ unwinds => ?_⟩
  · have unwound := (unwinds.spans tended').1
    rw [sight] at unwound
    exact Segment.endsAs_of_spans whole
      ((clear.spans_timeout code timers).mpr (.late waits limit unwound))
      fun s' => Store.agrees_of_sight
  · have outcome := (clear.spans_timeout code timers).mp (ends.spans whole).1
    generalize late : s'.sight = w at outcome
    cases outcome with
    | inTime ends' le =>
      obtain ⟨same, -⟩ | ⟨-, earlier⟩ := ends'.over (by rintro _ ⟨⟩) waits
      · cases same
      · exact absurd (Nat.lt_of_lt_of_le earlier le) (Nat.not_lt.mpr (Nat.le_of_eq limit.symm))
    | late waits' limit' unwound =>
      obtain ⟨rfl, rfl⟩ := waits.once waits' (limit'.trans limit.symm)
      obtain ⟨s₂, timed₂, same⟩ := unwound.timed tended' sight
      exact ⟨rfl, _, s₂, timed₂, Store.agrees_of_sight (late.trans same.symm)⟩
  · obtain ⟨es, deeds, unwound⟩ := unwinds.unwound tended' (own ▸ reached)
    rw [own] at unwound
    exact ⟨es, by rw [deeds, s₁.deeds_cancel], unwound⟩

/-- What a timeout comes to, in a run that is not cancelled. -/
theorem Store.Clear.timeouts (timers : s.timed = true ∨ worker.thread ≠ Context.home.thread)
    (d : Nat) (x : Value) : TimeoutLaw worker env e d x s := by
  have operand := clear.tended_operand code
  have whole := clear.tended_under (code.timeoutWith d x)
  have spans {r : Config.Result} {s₁ : Store} (timed : (e.under (env.withToken s.size)).Timed worker
      (s.opened env.token) r s₁) := (timed.spans operand).1
  refine ⟨fun y s₁ timed => ?_, fun y s₁ timed le => ?_, fun r s₁ timed lt => ?_,
    fun g s₁ timed limit => clear.timed_out code timers timed limit⟩
  · exact Segment.endsAs_of_spans operand (spans timed) fun s' => Store.agrees_of_sight
  · refine Segment.endsAs_of_spans whole
      ((clear.spans_timeout code timers).mpr (.inTime (spans timed) le)) fun s' same => ?_
    exact ⟨congrArg Sight.now same, congrArg Sight.memory same, congrArg Sight.deeds same⟩
  · obtain ⟨g, w, naps, stop⟩ := (spans timed).stop (Nat.le_add_right _ _) lt
    obtain ⟨s₂, timed', rfl⟩ := naps.timed operand rfl
    exact ⟨g, s₂, timed', stop⟩

end

namespace Runtime

/-- On a virtual clock, in a run that is not cancelled, an effect that only sleeps and has a time
limit ends like the effect on its own, if that has ended by then, and is unwound from the limit on
otherwise. -/
theorem Reachable.timeout_law {σ : Runtime} {worker : Worker} {env : Env} {e : Effect}
    (h : Reachable σ) (known : env.token < σ.store.size)
    (live : ∀ u, σ.store.Below u env.token → σ.store.isCancelled u = false)
    (timers : σ.store.timed = true ∨ worker.thread ≠ Context.home.thread)
    (code : e.Sleeps (σ.store.Spare env.token)) (d : Nat) (x : Value) :
    TimeoutLaw worker env e d x σ.store :=
  Store.Clear.timeouts ⟨known, live, h.kindred.family, h.listed⟩ code timers d x

/-- An effect that sleeps for five units of time succeeds if it has five of them, and is cancelled if
it has none. -/
theorem timeout_law_at_limit : ∃ σ worker env e x, Reachable σ ∧
    TimeoutLaw worker env e 5 x σ.store ∧ TimeoutLaw worker env e 0 x σ.store ∧
    (∃ s, ((e.timeoutWith 5 x).under env).EndsAs worker σ.store (.succeeded .null) s ∧ s.now = 5) ∧
    ∃ s, ((e.timeoutWith 0 x).under env).EndsAs worker σ.store (.errored x) s ∧ s.now = 0 := by
  let e : Effect := .sleep 5
  let σ := starting e Context.home
  let worker : Worker := ⟨0, "pool"⟩
  let env : Env := ⟨0, Context.home, []⟩
  have law (d : Nat) : TimeoutLaw worker env e d (.bool true) σ.store := by
    refine (reachable_starting e Context.home).timeout_law (by decide) (fun u below => ?_)
      (.inr (by decide)) (.timer 5 _) d _
    obtain rfl : u = 0 := Nat.le_zero.mp (Store.below_le below)
    rfl
  let g : Segment := .future ⟨env.withToken 1, []⟩ (.deadline 5 (.ok .null))
  let entered := (σ.store.opened 0).emit (.entered 1 .future)
  let s₁ := (entered.watchTime 5 0).watchToken 1 0
  have waits : (e.under (env.withToken 1)).Polls worker (σ.store.opened 0) (.parked g) s₁ :=
    ⟨by rintro ⟨⟩, 4, rfl⟩
  have later : (s₁.advanceTo 5).now = 5 := congrArg Sight.now (s₁.sight_advanceTo 5)
  obtain ⟨s₂, ended, end₂⟩ : ∃ s₂, g.Polls worker (s₁.advanceTo 5) (.ended (.succeeded .null)) s₂ ∧
      s₂.now = 5 := ⟨(s₁.advanceTo 5).emit (.left 1 (.succeeded .null)), ⟨by rintro ⟨⟩, 3, rfl⟩, later⟩
  have canceled (s : Store) (now : s.now = 0) (reached : s.isCancelled (env.withToken 1).token = true) :
      ∃ s', g.Polls worker s (.ended .canceled) s' ∧ s'.now = 0 := by
    have step : Config.step worker ⟨.resume g, []⟩ s
        = (.next ⟨.unwind ⟨env.withToken 1, []⟩ .canceled, []⟩, s.emit .futureAbandoned) := by
      simp only [Config.step, g, Machine.resumeStep, Machine.Wait.result?, now, reached]
      rfl
    exact ⟨_, (Config.polls_next step).mpr ⟨by rintro ⟨⟩, 2, rfl⟩, now⟩
  obtain ⟨s₃, canceled, end₃⟩ := canceled (s₁.cancel 1) (congrArg Prod.fst (s₁.clock_cancel 1)) (by
    rw [Store.isCancelled, Store.tokens_cancel]
    exact Forest.isCancelled_cancel_self (by decide))
  have due : ∀ u ∈ g.deadlines, 5 ≤ u := by simp [g, Segment.deadlines]
  have inTime := (law 5).inTime _ s₂ (.wait waits (Nat.zero_le 5) due (.last ended))
    (Nat.le_of_eq end₂)
  have late := ((law 0).late g s₁ (.last waits) rfl).ends _ s₃ (.last canceled)
  exact ⟨σ, worker, env, e, .bool true, reachable_starting e Context.home, law 5, law 0,
    ⟨s₂, inTime, end₂⟩, ⟨s₃, late, end₃⟩⟩

end Runtime

end EffectFibers
