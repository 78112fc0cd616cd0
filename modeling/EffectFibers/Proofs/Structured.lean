import EffectFibers.Proofs.Finalization
import EffectFibers.Proofs.Nesting
import EffectFibers.Proofs.Parallel

/-!
# Structured concurrency

Whatever a fiber begins runs inside of it: the operands of its races and of its groups, its
acquisitions and releases, and the rest of a loop behind a shift.  A fiber waits for as long as
something runs inside of it.  So it delivers nothing before all that it has begun has ended, with
all releases; and when a run has ended, nothing of it runs any more.

## Main statements

* `Runtime.Step.races`, `Runtime.Step.opens`: operands begin inside of the fiber that begins them.
* `Runtime.Steps.away`: a loop that was sent away comes back when the task has ended.
* `Runtime.Reachable.structured`: a fiber waits until all that runs inside of it has ended.
-/

namespace EffectFibers.Runtime

variable {σ σ' : Runtime} {run t c : TokenId} {loop loop' : Loop} {g : Group} {φ : Fiber}

/-! ## The end of a fiber -/

/-- How a fiber has come to its end: it has come to an exit, and all that it had acquired has been
released; or it was to go on in a context that was closed. -/
inductive Parted (σ : Runtime) (run c : TokenId) : Prop
  | left {x : Exit} (mem : .left c x ∈ σ.events) (released : ∀ b v,
      .acquired c b v ∈ σ.events → ∃ y, .releaseFinished c b y ∈ σ.events) : Parted σ run c
  | refused {σ₀ : Runtime} {loop : Loop} {context : Context} (steps : Steps σ₀ σ)
      (mem : (run, ⟨loop, .evaluating (.shift context)⟩) ∈ σ₀.crew)
      (token : loop.env.token = c) (closed : context.isOpen = false) : Parted σ run c

/-- A fiber has ended, and does not come back. -/
structure Ended (σ : Runtime) (run c : TokenId) : Prop where
  parted : σ.Parted run c
  gone : ∀ σ', Steps σ σ' → c ∉ badges σ'.crew

theorem Steps.gone (steps : Steps σ σ') (known : c < σ.store.size) (gone : c ∉ badges σ.crew) :
    c ∉ badges σ'.crew := by
  induction steps with
  | refl => exact gone
  | tail steps step ih =>
    exact (step.move.gone (Nat.lt_of_lt_of_le known (Steps.ages steps).size) ih).1

/-- The marks of a fiber are those that its steps add. -/
theorem mem_events_of_own {new : List Moment} (log : σ'.log = new ++ σ.log) {e : Event}
    (own : e.fiber? = some c) :
    e ∈ σ'.events ↔ e ∈ (ownOf c new).map Moment.event ∨ e ∈ σ.events := by
  rw [events, events, log, List.map_append, List.mem_append, map_ownOf, List.mem_filter]
  simp [own]

/-- A fiber that comes to its end has released what it had acquired. -/
theorem Step.parts (h : Reachable σ) (step : Step σ σ') (whole : ¬ σ'.Failed run)
    (mem : (run, φ) ∈ σ.crew) (gone : φ.token ∉ badges σ'.crew) : σ'.Parted run φ.token := by
  obtain ⟨new, log, follow⟩ := step.move.follow h.manned mem
  have stays : ∀ {φ' : Fiber}, (run, φ') ∈ σ'.crew → φ'.token ≠ φ.token := fun mem' token =>
    gone (mem_badges.mpr ⟨_, mem', token⟩)
  cases follow with
  | stay mem' => exact (stays mem' rfl).elim
  | act step mem' => exact (stays mem' step.token).elim
  | part parting gone own =>
    cases parting with
    | failed failed | faulted failed => exact (whole failed).elim
    | refused closed sent =>
      subst sent
      exact .refused (.single step) mem rfl closed
    | @ended s env x spent =>
      have left : .left φ.token x ∈ (ownOf φ.token new).map Moment.event := by simp [own, Moment.of]
      refine .left ((mem_events_of_own log rfl).mpr (.inl left)) fun b v acquired => ?_
      rw [mem_events_of_own log rfl, own] at acquired
      obtain now | before := acquired
      · cases List.mem_singleton.mp now
      · obtain held | ⟨y, finished⟩ := (h.accounted.kept _ mem).complete b v before
        · subst spent
          cases held
        · exact ⟨y, (mem_events_of_own log rfl).mpr (.inr finished)⟩

theorem Parted.step (h : σ.Parted run c) (step : Step σ σ') (known : c < σ.store.size)
    (gone : c ∉ badges σ.crew) : σ'.Parted run c := by
  obtain ⟨-, new, log, none⟩ := step.move.gone known gone
  have events : ∀ {e : Event}, e.fiber? = some c → (e ∈ σ'.events ↔ e ∈ σ.events) := fun own => by
    rw [mem_events_of_own log own, none]
    simp
  cases h with
  | left mem released =>
    refine .left ((events rfl).mpr mem) fun b v acquired => ?_
    obtain ⟨y, finished⟩ := released b v ((events rfl).mp acquired)
    exact ⟨y, (events rfl).mpr finished⟩
  | refused steps mem token closed => exact .refused (.tail steps step) mem token closed

theorem Steps.ended (h : Reachable σ) (mem : (run, φ) ∈ σ.crew) (steps : Steps σ σ')
    (whole : ¬ σ'.Failed run) (gone : φ.token ∉ badges σ'.crew) : σ'.Ended run φ.token := by
  have known : φ.token < σ.store.size := h.manned.bound _ (mem_badges.mpr ⟨_, mem, rfl⟩)
  refine ⟨?_, fun σ'' later => Steps.gone later (Nat.lt_of_lt_of_le known steps.ages.size) gone⟩
  induction steps with
  | refl => exact (gone (mem_badges.mpr ⟨_, mem, rfl⟩)).elim
  | @tail σ₁ σ₂ steps step ih =>
    obtain ⟨new, -, course⟩ := Steps.course h mem steps
    cases course with
    | there path mem₁ =>
      rw [← path.token] at gone ⊢
      exact step.parts (.trans h steps) whole mem₁ gone
    | parted path parting marks gone₁ =>
      have parted := ih (fun failed => whole (step.failure failed)) gone₁
      exact parted.step step (Nat.lt_of_lt_of_le known (Steps.ages steps).size) gone₁

/-! ## What begins inside of a fiber -/

/-- The operands of a race begin inside of the fiber that begins the race. -/
theorem Step.races (h : Reachable σ) (step : Step σ σ') {left right : Effect}
    {tokens : RaceTokens} (mem : (run, ⟨loop, .evaluating (.race left right)⟩) ∈ σ.crew)
    (mem' : (run, ⟨loop', .racing tokens⟩) ∈ σ'.crew) (token : loop'.env.token = loop.env.token)
    (side : Side) : σ'.Inside run loop.env.token (tokens.of side) := by
  obtain same | acts | ⟨effect, same, other⟩ := step.deed h mem mem' token
  · cases same
  · obtain ⟨role, l, nested, B, acting, acted, newborn, fields⟩ := acts.company
    obtain ⟨⟨l', piece⟩, inNested, room, own⟩ := fields tokens rfl side
    obtain ⟨env, effect, rfl⟩ := (newborn _ inNested).loop
    have inside : (⟨l', .fiber ⟨⟨env, []⟩, .evaluating effect⟩⟩ : Berth)
        ∈ (⟨l, .fiber ⟨loop', .racing tokens⟩⟩ ::ₘ (nested + B) : Multiset Berth) := by
      simp [inNested]
    have room : l' = .operand loop'.env.token side := room
    have around := Around.room acted inside (q := loop'.env.token) (by rw [room]; rfl)
    refine ⟨⟨role, loop'.env.token⟩, ⟨role, tokens.of side⟩, token, rfl, ?_, ?_, ?_⟩
    · exact ⟨l, _, _, acted, Multiset.mem_cons_self _ _, rfl⟩
    · exact ⟨l', _, _, acted, inside, own⟩
    · rw [own] at around
      exact .single around
  · cases same
    obtain ⟨n, operands, other⟩ | ⟨context, other⟩ := other <;> cases other

/-- The operands of a group begin inside of the fiber that begins the group, each in a task of its
own, unless the context is closed. -/
theorem Step.opens (h : Reachable σ) (step : Step σ σ') {n : Nat} {operands : Fin n → Effect}
    (mem : (run, ⟨loop, .evaluating (.parallel n operands)⟩) ∈ σ.crew)
    (mem' : (run, ⟨loop, .gathering g⟩) ∈ σ'.crew) : g.pending.map Prod.fst = List.range n ∧
      ∀ y ∈ g.pending, σ'.store.joined? y.2 = some .aborted ∨
        ∃ c, σ'.Present run ⟨.task y.2, c⟩ ∧ σ'.Inside run loop.env.token c := by
  obtain ⟨new, opened, started⟩ := step.group_opened h mem mem'
  refine ⟨opened.indices, fun y waiting => ?_⟩
  refine (began_of_opened opened started waiting).imp_right fun ⟨c, parent, company⟩ => ?_
  obtain ⟨κ, inCompanies, rfl, l, inside⟩ := mem_crew_iff.mp mem'
  have present : σ'.Present κ.run ⟨.task y.2, c⟩ :=
    ⟨.outer, _, _, company, Multiset.mem_singleton_self _, rfl⟩
  have tied : Post.Ties σ'.store y.2 c (Berth.post ⟨l, .fiber ⟨loop, .gathering g⟩⟩) :=
    .gathering waiting parent
  have around : σ'.Around κ.run ⟨κ.role, loop.env.token⟩ ⟨.task y.2, c⟩ :=
    .task inCompanies inside tied company (Multiset.mem_singleton_self _) rfl
  exact ⟨c, present, _, _, rfl, rfl, ⟨l, _, _, inCompanies, inside, rfl⟩, present, .single around⟩

/-! ## Loops that were sent away -/

/-- Something stands somewhere in a strand of a run. -/
def Stands (σ : Runtime) (run : TokenId) (role : Strand.Role) (b : Berth) : Prop :=
  ∃ B, ⟨run, role, B⟩ ∈ σ.companies ∧ b ∈ B

variable {role : Strand.Role} {l : Room} {env : Env} {u : TaskId}

/-- A loop that has been sent away goes on in the other context, as the only loop of a new task,
unless the context is closed. -/
theorem Step.sends (h : Reachable σ) (step : Step σ σ') (before : σ.Stands run role ⟨l, .fiber φ⟩)
    (after : σ'.Stands run role ⟨l, .away env u⟩) (token : env.token = φ.token) :
    ∃ loop context, φ = ⟨loop, .evaluating (.shift context)⟩ ∧ env = loop.env ∧
      (context.isOpen = false ∧ σ'.store.joined? u = some .aborted ∨
        ⟨run, .task u, {Loop.berth { loop with env := loop.env.withContext context } .outer
          (.evaluating Effect.unit)}⟩ ∈ σ'.companies) := by
  obtain ⟨B, mem, inside⟩ := before
  obtain ⟨B', mem', inside'⟩ := after
  obtain ⟨loop, effect, same⟩ | ⟨B₀, ms, new, acting, motion, tasks⟩ :=
    step.advance.berth mem' inside'
  · cases same
  cases h.unique_company mem acting rfl rfl
  have unique : ∀ {b : Berth}, b ∈ B → φ.token = b.token → ⟨l, .fiber φ⟩ = b :=
    (h.orderly _ mem).unique inside
  obtain away | ⟨loop, context, shifting, rfl, goes⟩ := motion.sends inside'
  · cases unique away token.symm
  · cases unique shifting token.symm
    refine ⟨loop, context, rfl, rfl, goes.imp_right fun started => ?_⟩
    refine tasks (Company.mem_ofSpawns.mpr ⟨_, started, nofun, ?_⟩)
    rw [Spawn.berths_of_segment? rfl]

/-- Nothing of a task is left. -/
def Spent (σ : Runtime) (t : TaskId) : Prop := ∀ κ ∈ σ.companies, κ.role = .task t → κ.berths = 0

theorem Booked.spent (h : σ.Booked) {u : TaskId} (ended : σ.store.joined? u ≠ none) :
    σ.Spent u := fun κ mem role => by
  by_contra alive
  have posts : κ.party.posts ≠ 0 := fun none => alive (Multiset.map_eq_zero.mp none)
  exact ended ((h.party (mem_parties.mpr ⟨κ, mem, rfl⟩) role).2 posts)

theorem Spent.steps (h : Reachable σ) {u : TaskId} (ended : σ.store.joined? u ≠ none)
    (steps : Steps σ σ') : σ'.Spent u := by
  obtain ⟨result, found⟩ := Option.ne_none_iff_exists'.mp ended
  exact (Reachable.booked (.trans h steps)).spent (by simp [steps.joined? h found])

/-- A loop that was sent away stays away until nothing of the task is left. -/
theorem Steps.away (h : Reachable σ) (stands : σ.Stands run role ⟨l, .away env u⟩)
    (steps : Steps σ σ') (whole : ¬ σ'.Failed run) :
    σ'.Stands run role ⟨l, .away env u⟩ ∨ ∀ σ'', Steps σ' σ'' → σ''.Spent u := by
  induction steps with
  | refl => exact .inl stands
  | @tail σ₁ σ₂ steps step ih =>
    have reach : Reachable σ₁ := .trans h steps
    obtain ⟨B₁, mem, inside⟩ | spent := ih fun failed => whole (step.failure failed)
    · obtain stays | ⟨ms, new, B₂, motion, acted⟩ | failed := step.advance.fate mem
      · exact .inl ⟨B₁, stays, inside⟩
      · refine (motion.away inside).imp (fun inside => ⟨B₂, acted, inside⟩) ?_
        intro ended σ'' later
        exact Spent.steps reach ended (.head step later)
      · exact (whole failed).elim
    · exact .inr fun σ'' later => spent σ'' (.head step later)

/-! ## Runs that are over -/

/-- Nothing of a run is left. -/
def Over (σ : Runtime) (run : TokenId) : Prop := ∀ κ ∈ σ.companies, κ.run = run → κ.berths = 0

theorem Reachable.over (h : Reachable σ) {x : Exit} (ended : ⟨run, .root, .ended x⟩ ∈ σ.strands)
    (whole : ¬ σ.Failed run) : σ.Over run := by
  rintro κ mem rfl
  by_contra alive
  have posts : κ.party.posts ≠ 0 := fun none => alive (Multiset.map_eq_zero.mp none)
  obtain ⟨π, inParties, own, root, alive₀⟩ | failed :=
    h.kindred.alive (mem_parties.mpr ⟨κ, mem, rfl⟩) posts
  · obtain ⟨κ₀, mem₀, rfl⟩ := mem_parties.mp inParties
    have mem' : (⟨κ.run, .root, 0⟩ : Company) ∈ σ.companies :=
      Multiset.mem_map_of_mem Strand.company ended
    rw [h.unique_company mem₀ mem' own root] at alive₀
    exact alive₀ rfl
  · exact whole failed

/-- A run that is over makes no step. -/
theorem Over.step (h : σ.Over run) (known : run < σ.store.size) (step : Step σ σ') :
    σ'.Over run ∧ σ'.trace run = σ.trace run := by
  have still : ∀ {role : Strand.Role} {B B' : Multiset Berth} {ms : List Event} {new : List Spawn},
      ⟨run, role, B⟩ ∈ σ.companies → Motion σ.store σ'.store B ms new B' → B' = 0 ∧ new = [] :=
    fun {role B B' ms new} mem motion => by
      have none : B = 0 := h _ mem rfl
      generalize B = B₀ at motion none
      cases motion with
      | idle => exact ⟨none, rfl⟩
      | act | fan | sent | back | left => simp at none
  constructor
  · rintro κ mem rfl
    cases step.advance.origin mem with
    | old mem => exact h _ mem rfl
    | acted acting motion => exact (still acting motion).1
    | started acting acted motion started =>
      rw [(still acting motion).2] at started
      cases started
    | lost => rfl
    | begun fresh => exact (Nat.not_lt.mpr fresh.le known).elim
  · obtain ⟨run', ms, log, marks⟩ := step.move.marks
    suffices none : traceOf run (ms.map (.of run' σ.store)) = [] by
      rw [trace, trace, log, traceOf_append, none, List.nil_append]
    refine List.eq_nil_iff_forall_not_mem.mpr fun e mem => ?_
    obtain ⟨m, inMarks, own, -⟩ := mem_traceOf.mp mem
    obtain ⟨e', inMarks', rfl⟩ := List.mem_map.mp inMarks
    obtain ⟨n, inCrew, rfl, -⟩ := marks e' inMarks'
    obtain ⟨κ, inCompanies, same, l, inside⟩ := mem_crew_iff.mp inCrew
    rw [h κ inCompanies (same.trans own)] at inside
    cases inside

theorem Over.steps (h : σ.Over run) (known : run < σ.store.size) (steps : Steps σ σ') :
    σ'.Over run ∧ σ'.trace run = σ.trace run := by
  induction steps with
  | refl => exact ⟨h, rfl⟩
  | tail steps step ih =>
    obtain ⟨still, trace⟩ := ih.1.step (Nat.lt_of_lt_of_le known (Steps.ages steps).size) step
    exact ⟨still, trace.trans ih.2⟩

/-! ## The law -/

/-- What runs inside of what, in a run that does not fail. -/
structure Structured (σ : Runtime) (run : TokenId) : Prop where
  /-- Every fiber of the run is the run's own, or runs inside of that. -/
  covered : ∀ φ, (run, φ) ∈ σ.crew → φ.token = run ∨ σ.Inside run run φ.token
  /-- A fiber goes on to wait until all that runs inside of it has ended. -/
  waits : ∀ t c, σ.Inside run t c → ∀ σ', Steps σ σ' → ¬ σ'.Failed run →
    (∃ φ, (run, φ) ∈ σ'.crew ∧ φ.token = t ∧ φ.waits = true) ∨ σ'.Ended run c
  /-- The operands of a race run inside of it. -/
  race : ∀ loop left right, (run, ⟨loop, .evaluating (.race left right)⟩) ∈ σ.crew →
    ∀ σ' loop' tokens, Step σ σ' → (run, ⟨loop', .racing tokens⟩) ∈ σ'.crew →
      loop'.env.token = loop.env.token → ∀ side, σ'.Inside run loop.env.token (tokens.of side)
  /-- The operands of a group run inside of it, each as a task, unless the context is closed. -/
  group : ∀ loop n operands,
    (run, ⟨loop, .evaluating (.parallel n operands)⟩) ∈ σ.crew →
    ∀ σ' g, Step σ σ' → (run, ⟨loop, .gathering g⟩) ∈ σ'.crew →
      g.pending.map Prod.fst = List.range n ∧ ∀ y ∈ g.pending,
        σ'.store.joined? y.2 = some .aborted ∨
          ∃ c, σ'.Present run ⟨.task y.2, c⟩ ∧ σ'.Inside run loop.env.token c
  /-- A loop that shifts goes on in a task of the other context, unless that is closed, and is
  back when nothing of the task is left. -/
  shift : ∀ role l loop context,
    σ.Stands run role ⟨l, .fiber ⟨loop, .evaluating (.shift context)⟩⟩ →
    ∀ σ' u, Step σ σ' → σ'.Stands run role ⟨l, .away loop.env u⟩ →
      (context.isOpen = false ∧ σ'.store.joined? u = some .aborted ∨
        ⟨run, .task u, {Loop.berth { loop with env := loop.env.withContext context } .outer
          (.evaluating Effect.unit)}⟩ ∈ σ'.companies) ∧
      ∀ σ'', Steps σ' σ'' → ¬ σ''.Failed run →
        σ''.Stands run role ⟨l, .away loop.env u⟩ ∨ ∀ σ₃, Steps σ'' σ₃ → σ₃.Spent u
  /-- Nothing of a run that has resolved is left, and nothing of it happens any more. -/
  resolved : ∀ x, ⟨run, .root, .ended x⟩ ∈ σ.strands → ∀ σ', Steps σ σ' →
    σ'.Over run ∧ σ'.trace run = σ.trace run

/-- A race, a group and a shift wait for all that they have begun, and a run has nothing left when
it has resolved. -/
theorem Reachable.structured (h : Reachable σ) (whole : ¬ σ.Failed run) : σ.Structured run where
  covered φ mem := by
    obtain ⟨role, l, sits⟩ := sits_of_mem_crew mem
    obtain own | ⟨y, own, present, under⟩ := h.covered whole sits
    · exact .inl own
    · exact .inr ⟨y, _, own, rfl, present, ⟨l, φ, sits⟩, under⟩
  waits t c inside σ' steps whole' := by
    by_cases lives : c ∈ badges σ'.crew
    · exact .inl (Inside.waits (.trans h steps) (inside.steps h steps whole' lives))
    · obtain ⟨y, x, rfl, rfl, -, ⟨l, φ, sits⟩, -⟩ := inside
      have token : φ.token = x.token := sits.token
      rw [← token] at lives ⊢
      exact .inr (Steps.ended h (sits.crew rfl) steps whole' lives)
  race loop left right mem σ' loop' tokens step mem' token := step.races h mem mem' token
  group loop n operands mem σ' g step mem' := step.opens h mem mem'
  shift role l loop context before σ' u step after := by
    refine ⟨?_, fun σ'' later whole'' => Steps.away (.tail h step) after later whole''⟩
    obtain ⟨loop', context', same, -, goes⟩ := step.sends h before after rfl
    cases same
    exact goes
  resolved x ended σ' steps := by
    have known := h.kindred.runs _ (mem_parties.mpr ⟨_, Multiset.mem_map_of_mem _ ended, rfl⟩)
    exact (h.over ended whole).steps known steps

/-- The operands of a race that has just begun run inside of it. -/
theorem structured_race : ∃ σ σ', Reachable σ ∧ ¬ σ.Failed 0 ∧ σ.Structured 0 ∧ Step σ σ' ∧
    σ'.Inside 0 0 1 ∧ σ'.Inside 0 0 2 := by
  obtain ⟨s, s', log, reach, begins⟩ := race_begins Effect.unit Effect.unit
  have structured := Reachable.structured reach (whole_lone _ _ _)
  have inRace : outermost.berth .outer (.racing ⟨1, 2⟩) ∈ Config.berths
      ⟨.eval (operandLoop 1) Effect.unit,
        [.racingLeft outermost ⟨1, 2⟩ (.start (operandLoop 2) Effect.unit)]⟩ := by
    simp [Caller.berths]
  have inside := structured.race outermost _ _ (mem_crew_lone (Multiset.mem_singleton_self _))
    _ _ _ begins (mem_crew_lone inRace) rfl
  exact ⟨_, _, reach, whole_lone _ _ _, structured, begins, inside .left, inside .right⟩

end EffectFibers.Runtime
