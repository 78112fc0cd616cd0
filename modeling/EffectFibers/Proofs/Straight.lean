import EffectFibers.Proofs.Portions

/-!
# Effects without suspension points

An effect that registers, waits, shifts, acquires, races and fans out nowhere is evaluated by one
loop, and the loop looks neither at its token nor at its context.  So it comes to the same under
another token: whether the loop is cancelled makes no difference (`Effect.ComesTo.straight`).

## Main definitions

* `Effect.Straight`: effects without suspension points.
* `Pace`: how far the loop has come.

## Main statements

* `Pace.goes`: a step of such a loop, the same for every environment.
* `Effect.Alone.straight`: what becomes of the effect by itself, in any environment.
-/

namespace EffectFibers

/-- The effect has no suspension points. -/
def Effect.Straight : Effect → Prop
  | .pure _ | .fail _ | .fault _ | .cancel _ | .isCancelled _ => True
  | .perform _ next => ∀ reply, (next reply).Straight
  | .map source _ => source.Straight
  | .flatMap source f => source.Straight ∧ ∀ v, (f v).Straight
  | .handleErrorWith source handler => source.Straight ∧ ∀ e, (handler e).Straight
  | .loop _ body _ => ∀ v, (body v).Straight
  | .async _ | .await _ | .shift _ | .bracket .. | .race .. | .parallel .. => False

def Frame.Straight : Frame → Prop
  | .map _ => True
  | .bind f | .handle f | .again _ f => ∀ v, (f v).Straight
  | .release .. => False

/-! ## How far a loop has come -/

/-- How far a loop has come that began with nothing above its frames. -/
inductive Pace where
  | waiting (effect : Effect)
  | resumed (effect : Effect)
  | eval (above : List Frame) (effect : Effect)
  | unwind (above : List Frame) (exit : Exit)

namespace Pace

/-- The state of the strand of the loop. -/
def state (loop : Loop) : Pace → Strand.State
  | .waiting effect => .waiting (.start loop effect)
  | .resumed effect => .running ⟨.resume (.start loop effect), []⟩
  | .eval above effect => .running ⟨.eval ⟨loop.env, above ++ loop.frames⟩ effect, []⟩
  | .unwind above exit => .running ⟨.unwind ⟨loop.env, above ++ loop.frames⟩ exit, []⟩

def Straight : Pace → Prop
  | .waiting effect | .resumed effect => effect.Straight
  | .eval above effect => (∀ frame ∈ above, frame.Straight) ∧ effect.Straight
  | .unwind above _ => ∀ frame ∈ above, frame.Straight

/-- The loop is back at the frames that it began with. -/
def Back (pace : Pace) : Prop := ∃ x, pace = .unwind [] x

variable {pace : Pace} {loop : Loop} {s s' : Store} {run t : TokenId} {role : Strand.Role}
  {worker : Worker}

/-- The loop of the strand is the only one, and holds on to its token. -/
theorem owned {p : Post} (inside : p ∈ (⟨run, role, pace.state loop⟩ : Strand).posts)
    (own : t ∈ p.owned) : t = loop.env.token := by
  cases pace <;>
    · obtain rfl : p = _ := Multiset.mem_singleton.mp inside
      exact List.mem_singleton.mp own

/-- A step of a poll comes to the same for every environment, and begins nothing. -/
def Uniform (frames : List Frame) (worker : Worker) (s : Store) (c : Env → Config) : Prop :=
  ∃ s' : Store, s'.trace = s.trace ∧ s'.spawned = s.spawned ∧
    ((∃ f, ∀ env, (c env).step worker s = (.faulted f, s')) ∨
      ∃ pace : Pace, pace.Straight ∧ ∀ env, ∃ progress,
        (c env).step worker s = (progress, s') ∧ progress.state = pace.state ⟨env, frames⟩)

section
variable {frames above : List Frame} {c : Env → Config} (s : Store) (worker : Worker)

theorem Uniform.still (pace : Pace) (straight : pace.Straight)
    (step : ∀ env, ∃ progress, (c env).step worker s = (progress, s) ∧
      progress.state = pace.state ⟨env, frames⟩) : Uniform frames worker s c :=
  ⟨s, rfl, rfl, .inr ⟨pace, straight, step⟩⟩

theorem Uniform.fault {f : Fault} (step : ∀ env, (c env).step worker s = (.faulted f, s)) :
    Uniform frames worker s c :=
  ⟨s, rfl, rfl, .inl ⟨f, step⟩⟩

theorem uniform_eval {effect : Effect} (below : ∀ frame ∈ above, frame.Straight)
    (straight : effect.Straight) :
    Uniform frames worker s fun env => ⟨.eval ⟨env, above ++ frames⟩ effect, []⟩ := by
  have push {frame : Frame} (h : frame.Straight) : ∀ f ∈ frame :: above, f.Straight := by
    intro f mem
    obtain rfl | mem := List.mem_cons.mp mem
    · exact h
    · exact below f mem
  cases effect with
  | pure v => exact .still s worker (.unwind above (.succeeded v)) below fun env => ⟨_, rfl, rfl⟩
  | fail e => exact .still s worker (.unwind above (.errored e)) below fun env => ⟨_, rfl, rfl⟩
  | fault f => exact .fault s worker fun env => rfl
  | perform act next =>
    rcases found : act ⟨worker.thread, s.time⟩ s.memory with ⟨reply | reply, memory⟩
    · refine ⟨{ s with memory }, rfl, rfl, .inl ⟨reply, fun env => ?_⟩⟩
      simp only [Config.step, Machine.evalStep, found]
    · refine ⟨{ s with memory }, rfl, rfl, .inr ⟨.eval above (next reply),
        ⟨below, straight reply⟩, fun env => ⟨Machine.eval _ _ _, ?_, rfl⟩⟩⟩
      simp only [Config.step, Machine.evalStep, found]
  | cancel t =>
    exact ⟨s.cancel t, s.trace_cancel t, s.spawned_cancel t,
      .inr ⟨.unwind above (.succeeded .null), below, fun env => ⟨_, rfl, rfl⟩⟩⟩
  | isCancelled t =>
    exact .still s worker (.unwind above (.succeeded (.bool (s.isCancelled t)))) below
      fun env => ⟨_, rfl, rfl⟩
  | map source f =>
    exact .still s worker (.eval (.map f :: above) source) ⟨push trivial, straight⟩
      fun env => ⟨_, rfl, rfl⟩
  | flatMap source f =>
    exact .still s worker (.eval (.bind f :: above) source) ⟨push straight.2, straight.1⟩
      fun env => ⟨_, rfl, rfl⟩
  | handleErrorWith source handler =>
    exact .still s worker (.eval (.handle handler :: above) source) ⟨push straight.2, straight.1⟩
      fun env => ⟨_, rfl, rfl⟩
  | loop again body v =>
    rcases found : again v with f | _ | _
    · refine .fault s worker (f := f) fun env => ?_
      simp only [Config.step, Machine.evalStep, found]
    · refine .still s worker (.unwind above (.succeeded v)) below
        fun env => ⟨Machine.unwind _ _ _, ?_, rfl⟩
      simp only [Config.step, Machine.evalStep, found]
    · refine .still s worker (.eval (.again again body :: above) (body v))
        ⟨push straight, straight v⟩ fun env => ⟨Machine.eval _ _ _, ?_, rfl⟩
      simp only [Config.step, Machine.evalStep, found, Loop.push, List.cons_append]
  | async | await | shift | bracket | race | parallel => exact straight.elim

theorem uniform_unwind {frame : Frame} {x : Exit} (straight : ∀ f ∈ frame :: above, f.Straight) :
    Uniform frames worker s fun env => ⟨.unwind ⟨env, (frame :: above) ++ frames⟩ x, []⟩ := by
  have here := straight frame List.mem_cons_self
  have below : ∀ f ∈ above, f.Straight := fun f mem => straight f (List.mem_cons_of_mem _ mem)
  have skipped (skips : ∀ env, Machine.frameStep ⟨env, above ++ frames⟩ [] s frame x
      = (Machine.unwind ⟨env, above ++ frames⟩ x [], s)) :
      Uniform frames worker s fun env => ⟨.unwind ⟨env, (frame :: above) ++ frames⟩ x, []⟩ :=
    .still s worker (.unwind above x) below fun env => ⟨_, skips env, rfl⟩
  cases frame with
  | map f =>
    cases x with
    | succeeded v =>
      cases found : f v with
      | error fault =>
        refine .fault s worker (f := fault) fun env => ?_
        simp only [Config.step, Machine.unwindStep, List.cons_append, Machine.frameStep, found]
      | ok w =>
        refine .still s worker (.unwind above (.succeeded w)) below
          fun env => ⟨Machine.unwind _ _ _, ?_, rfl⟩
        simp only [Config.step, Machine.unwindStep, List.cons_append, Machine.frameStep, found]
    | errored | canceled => exact skipped fun env => rfl
  | bind f =>
    cases x with
    | succeeded v =>
      exact .still s worker (.eval above (f v)) ⟨below, here v⟩ fun env => ⟨_, rfl, rfl⟩
    | errored | canceled => exact skipped fun env => rfl
  | again again body =>
    cases x with
    | succeeded v =>
      exact .still s worker (.eval above (.loop again body v)) ⟨below, here⟩
        fun env => ⟨_, rfl, rfl⟩
    | errored | canceled => exact skipped fun env => rfl
  | handle handler =>
    cases x with
    | errored e =>
      exact .still s worker (.eval above (handler e)) ⟨below, here e⟩ fun env => ⟨_, rfl, rfl⟩
    | succeeded | canceled => exact skipped fun env => rfl
  | release => exact here.elim

end

/-- A step of a strand with such a loop, the same for every environment. -/
theorem goes {env : Env} {frames : List Frame} {μ' : Strand} {begun : Multiset Strand}
    {marks : List Moment} (straight : pace.Straight) (back : ¬ pace.Back)
    (goes : Strand.Goes s ⟨run, role, pace.state ⟨env, frames⟩⟩ s' μ' begun marks) :
    begun = 0 ∧ ((∃ f, μ' = ⟨run, role, .faulted f⟩) ∨ ∃ pace' : Pace, pace'.Straight ∧
      μ' = ⟨run, role, pace'.state ⟨env, frames⟩⟩ ∧ ∀ env', ∃ marks',
        Strand.Goes s ⟨run, role, pace.state ⟨env', frames⟩⟩ s'
          ⟨run, role, pace'.state ⟨env', frames⟩⟩ 0 marks') := by
  have turned {c : Env → Config} (state : ∀ env, pace.state ⟨env, frames⟩ = .running (c env))
      (uniform : ∀ worker, Uniform frames worker s c) :
      begun = 0 ∧ ((∃ f, μ' = ⟨run, role, .faulted f⟩) ∨ ∃ pace' : Pace, pace'.Straight ∧
        μ' = ⟨run, role, pace'.state ⟨env, frames⟩⟩ ∧ ∀ env', ∃ marks',
          Strand.Goes s ⟨run, role, pace.state ⟨env', frames⟩⟩ s'
            ⟨run, role, pace'.state ⟨env', frames⟩⟩ 0 marks') := by
    rw [state env] at goes
    cases goes with
    | report run t result came h => cases h
    | @turn _ _ _ worker es new trace spawned =>
      obtain ⟨s₁, trace₁, spawned₁, out⟩ := uniform worker
      have same : ((c env).step worker s).2 = s₁ := by
        obtain ⟨f, step⟩ | ⟨pace', -, step⟩ := out
        · rw [step]
        · obtain ⟨progress, step, -⟩ := step env
          rw [step]
      rw [same, spawned₁] at spawned
      obtain rfl : new = [] := List.self_eq_append_left.mp spawned
      refine ⟨rfl, ?_⟩
      obtain ⟨f, step⟩ | ⟨pace', straight', step⟩ := out
      · exact .inl ⟨f, by rw [step]; rfl⟩
      · refine .inr ⟨pace', straight', ?_, fun env' => ?_⟩
        · obtain ⟨progress, step, state'⟩ := step env
          rw [step, state']
        · obtain ⟨progress, step, state'⟩ := step env'
          have quiet : ((c env').step worker s).2.trace = [] ++ s.trace := by
            rw [step]
            exact trace₁
          have none : ((c env').step worker s).2.spawned = [] ++ s.spawned := by
            rw [step]
            exact spawned₁
          have goes' := Strand.Goes.turn run role (c env') worker quiet none
          rw [step, state'] at goes'
          rw [state env', same]
          exact ⟨_, goes'⟩
  cases pace with
  | waiting effect =>
    cases goes with
    | report run t result came h => cases h
    | poll =>
      exact ⟨rfl, .inr ⟨.resumed effect, straight, rfl, fun env' => ⟨_, .poll run role _⟩⟩⟩
  | resumed effect =>
    refine turned (c := fun env => ⟨.resume (.start ⟨env, frames⟩ effect), []⟩) (fun _ => rfl)
      fun worker => .still s worker (.eval [] effect) ⟨by simp, straight⟩ fun env => ⟨_, rfl, rfl⟩
  | eval above effect =>
    exact turned (fun _ => rfl) fun worker => uniform_eval s worker straight.1 straight.2
  | unwind above x =>
    cases above with
    | nil => exact (back ⟨x, rfl⟩).elim
    | cons frame above => exact turned (fun _ => rfl) fun worker => uniform_unwind s worker straight

/-- The loop is back at the frames that it began with when it unwinds with nothing above them. -/
theorem over_iff {o : Outset} {y : Exit} :
    o.Over (⟨run, role, pace.state o.loop⟩ : Strand).posts y ↔ pace = .unwind [] y := by
  obtain ⟨run', role', ⟨env₀, frames⟩, size⟩ := o
  constructor
  · rintro ⟨env, -, inside⟩
    obtain ⟨l, inside⟩ := Post.mem_fibers.mp inside
    cases pace with
    | waiting | resumed | eval =>
      have same := Multiset.mem_singleton.mp inside
      simp [Loop.at] at same
    | unwind above x =>
      have same := Multiset.mem_singleton.mp inside
      simp only [Loop.at, Post.mk.injEq, Piece.fiber.injEq, Fiber.mk.injEq, Loop.mk.injEq,
        Doing.unwinding.injEq, List.self_eq_append_left] at same
      obtain ⟨-, ⟨-, rfl⟩, rfl⟩ := same
      rfl
  · rintro rfl
    exact ⟨env₀, rfl, Post.mem_fibers.mpr ⟨.outer, Multiset.mem_singleton_self _⟩⟩

theorem busy_of_not_back {o : Outset} (back : ¬ pace.Back) :
    o.Busy {⟨o.run, o.role, pace.state o.loop⟩} := by
  refine .inr fun ν mem x past => back ⟨x, ?_⟩
  obtain rfl := Multiset.mem_singleton.mp mem
  exact over_iff.mp past

/-- A loop that has come to the end of an effect goes on only if there is nothing below it. -/
theorem bare_of_busy {o : Outset} {x : Exit}
    (busy : o.Busy {⟨o.run, o.role, (Pace.unwind [] x).state o.loop⟩}) : o.loop.frames = [] :=
  busy.resolve_right fun free =>
    free _ (Multiset.mem_singleton_self _) x (over_iff.mpr rfl)

/-- A loop that has nothing to come back to ends. -/
theorem leaves {env : Env} {x : Exit} {μ' ν : Strand} {begun : Multiset Strand}
    {marks : List Moment}
    (goes : Strand.Goes s ⟨run, role, (Pace.unwind [] x).state ⟨env, []⟩⟩ s' μ' begun marks)
    (mem : ν ∈ μ' ::ₘ begun) : ν.posts = 0 := by
  rw [state] at goes
  cases goes with
  | report run t result came h => cases h
  | @turn _ _ _ worker es new trace spawned =>
    have none : s.spawned = new ++ s.spawned := spawned
    obtain rfl : new = [] := List.self_eq_append_left.mp none
    obtain rfl := Multiset.mem_singleton.mp mem
    exact Config.posts_leave [] x

end Pace

/-! ## The effect by itself -/

namespace Effect

variable {S : Ambit} {effect : Effect} {π : Runtime} {deeds : List Transition} {o : Outset}
  {t : TokenId} {x y : Exit}

/-- Where nothing is carried out, nothing is when a strand has gone on. -/
theorem idle_of_goes {s s' : Store} {μ μ' ν : Strand} {begun : Multiset Strand}
    {marks : List Moment} (goes : μ.Goes s s' μ' begun marks) (none : μ.posts = 0)
    (mem : ν ∈ μ' ::ₘ begun) : ν.posts = 0 := by
  obtain same | ⟨ms, new, reaction, rfl⟩ := goes.reacts
  · refine Multiset.eq_zero_of_forall_notMem fun p inside => ?_
    exact Multiset.notMem_zero p (none ▸ same ν mem p inside)
  · generalize found : μ.posts = P at reaction none
    generalize found' : μ'.posts = P' at reaction
    cases reaction with
    | idle =>
      obtain rfl := Multiset.mem_singleton.mp mem
      exact found'.trans none
    | act | fan | sent | back | left => exact (Multiset.cons_ne_zero none).elim

theorem idle_of_act {π' : Runtime} (act : Runtime.Act π π') (none : ∀ μ ∈ π.strands, μ.posts = 0)
    (ν : Strand) (mem : ν ∈ π'.strands) : ν.posts = 0 := by
  obtain @⟨s, s', μ, μ', begun, marks, goes, rest, log⟩ := act
  rw [← Multiset.cons_add] at mem
  obtain mem | mem := Multiset.mem_add.mp mem
  · exact idle_of_goes goes (none μ (Multiset.mem_cons_self _ _)) mem
  · exact none ν (Multiset.mem_cons_of_mem mem)

/-- What goes on around the strand of a loop might go on around it in any other environment: it
holds on to the token of its loop only. -/
theorem around_pace {s : Store} {pace : Pace} (h : S.Around o.token deeds π s)
    (strands : π.strands = {⟨o.run, o.role, pace.state o.loop⟩}) (env : Env) (log : List Moment) :
    S.Around env.token deeds
      ⟨π.store, {⟨o.run, o.role, pace.state ⟨env, o.loop.frames⟩⟩}, log⟩ s := by
  have first : ∀ t, Strand.Owns {⟨o.run, o.role, pace.state ⟨env, o.loop.frames⟩⟩} t →
      t = env.token := by
    rintro t ⟨ν, mem, p, inside, own⟩
    obtain rfl := Multiset.mem_singleton.mp mem
    exact pace.owned inside own
  refine ⟨?_, h.ages, h.spares, fun t owns ne => (ne (first t owns)).elim⟩
  obtain drifts | ⟨held, -, same⟩ := h.elsewhere
  · refine .inl ⟨drifts.tokens, drifts.brackets, drifts.joins, fun t lt => ?_⟩
    refine (drifts.joined t lt).imp_right fun settled => ⟨settled.1, fun μ mem => ?_⟩
    obtain rfl := Multiset.mem_singleton.mp mem
    exact settled.2 ⟨o.run, o.role, pace.state o.loop⟩ (strands ▸ Multiset.mem_singleton_self _)
  · exact .inr ⟨held, fun t owns ne => (ne (first t owns)).elim, same⟩

/-- An effect without suspension points by itself: its loop goes on, as it would in any other
environment, or nothing of it is left. -/
theorem Alone.straight (alone : effect.Alone S π deeds (some o)) (straight : effect.Straight) :
    (∃ pace : Pace, pace.Straight ∧ π.strands = {⟨o.run, o.role, pace.state o.loop⟩} ∧
      ∀ env, ∃ log, effect.Alone S
        ⟨π.store, {⟨o.run, o.role, pace.state ⟨env, o.loop.frames⟩⟩}, log⟩ deeds
        (some { o with loop := ⟨env, o.loop.frames⟩ })) ∨
      ∀ μ ∈ π.strands, μ.posts = 0 := by
  generalize same : some o = found at alone
  induction alone with
  | opens | waits => cases same
  | @begins σ log deeds state o before reached about size ih =>
    cases same
    have elsewhere (env : Env) {state : Strand.State}
        (about : state.Before ⟨env, o.loop.frames⟩ effect) : ∃ log, effect.Alone S
          ⟨σ.store, {⟨o.run, o.role, state⟩}, log⟩ deeds
          (some { o with loop := ⟨env, o.loop.frames⟩ }) :=
      ⟨log, .begins (o := { o with loop := ⟨env, o.loop.frames⟩ }) before reached about size⟩
    cases about with
    | waiting =>
      exact .inl ⟨.waiting effect, straight, rfl, fun env => elsewhere env .waiting⟩
    | resumed =>
      exact .inl ⟨.resumed effect, straight, rfl, fun env => elsewhere env .resumed⟩
    | running =>
      exact .inl ⟨.eval [] effect, ⟨by simp, straight⟩, rfl, fun env => elsewhere env .running⟩
  | @own π π' deeds o before busy act ih =>
    cases same
    obtain ⟨pace, straight', strands, other⟩ | none := ih rfl
    · obtain @⟨s, s', μ, μ', begun, marks, goes, rest, log⟩ := act
      obtain ⟨rfl, rfl⟩ := (Multiset.singleton_eq_cons_iff _).mp strands.symm
      by_cases back : pace.Back
      · obtain ⟨x, rfl⟩ := back
        obtain ⟨run, role, ⟨env, frames⟩, size⟩ := o
        obtain rfl : frames = [] := Pace.bare_of_busy busy
        rw [add_zero]
        exact .inr fun ν mem => Pace.leaves goes mem
      · obtain ⟨rfl, ⟨f, rfl⟩ | ⟨pace', straight', rfl, again⟩⟩ := Pace.goes straight' back goes
        · refine .inr fun ν mem => ?_
          obtain rfl := Multiset.mem_singleton.mp mem
          rfl
        · refine .inl ⟨pace', straight', rfl, fun env => ?_⟩
          obtain ⟨log', alone⟩ := other env
          obtain ⟨marks', goes'⟩ := again env
          have own := Alone.own alone (Pace.busy_of_not_back back) (.mk goes' 0 log')
          exact ⟨_, own⟩
    · exact .inr (idle_of_act act none)
  | @around π s deeds o before h ih =>
    cases same
    refine (ih rfl).imp_left ?_
    rintro ⟨pace, straight', strands, other⟩
    refine ⟨pace, straight', strands, fun env => ?_⟩
    obtain ⟨log, alone⟩ := other env
    exact ⟨log, .around alone (around_pace h strands env log)⟩
  | @yields s μ own log deeds o x before past ih =>
    cases same
    refine .inr fun ν mem => ?_
    obtain ⟨pace, -, strands, -⟩ | none := ih rfl
    · obtain ⟨-, rfl⟩ := (Multiset.singleton_eq_cons_iff _).mp strands.symm
      cases mem
    · exact none ν (Multiset.mem_cons_of_mem mem)

/-- An effect without suspension points by itself holds on to the token of its loop only. -/
theorem Alone.owns_straight (alone : effect.Alone S π deeds (some o)) (straight : effect.Straight)
    (owns : Strand.Owns π.strands t) : t = o.token := by
  obtain ⟨μ, mem, p, inside, own⟩ := owns
  obtain ⟨pace, -, strands, -⟩ | none := alone.straight straight
  · rw [strands, Multiset.mem_singleton] at mem
    subst mem
    exact pace.owned inside own
  · rw [none μ mem] at inside
    cases inside

/-- An effect without suspension points comes to the same whether its loop is cancelled or not. -/
theorem ComesTo.straight (comes : effect.ComesTo S x) (straight : effect.Straight)
    (alone : effect.Alone S π deeds (some o)) (unrefused : ∀ t, π.store.joined? t ≠ some .aborted)
    {μ : Strand} (mem : μ ∈ π.strands) (past : o.Over μ.posts y) : y = x := by
  obtain ⟨pace, -, strands, other⟩ | none := alone.straight straight
  · rw [strands, Multiset.mem_singleton] at mem
    subst mem
    obtain rfl := Pace.over_iff.mp past
    -- A token that there is not yet is not cancelled.
    obtain ⟨log, alone'⟩ := other (o.loop.env.withToken π.store.size)
    refine comes _ deeds _ y alone' (fun μ mem => ?_) unrefused (.inr (Nat.le_refl _)) ?_
      ⟨_, Multiset.mem_singleton_self _, Pace.over_iff.mpr rfl⟩
    · obtain rfl := Multiset.mem_singleton.mp mem
      exact id
    · show π.store.tokens.isCancelled π.store.size = false
      simp [Forest.isCancelled, Store.size]
  · obtain ⟨env, -, inside⟩ := past
    rw [none μ mem] at inside
    cases inside

end Effect

end EffectFibers
