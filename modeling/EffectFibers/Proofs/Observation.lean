import EffectFibers.Proofs.Handover

/-!
# Where a cancellation is observed

A fiber that is cancelled is stopped at the next registration, future, shift or acquisition: it
unwinds from there, and whatever it was to go on with is not run.  A race and a parallel group are
no such points.  They begin although their fiber is cancelled, under tokens that are cancelled
from the start, and what they come to is what their operands come to.  So an operand that meets
one of the four points ends with `canceled`, and one that meets none ends as if it had not been
cancelled.

## Main statements

* `Runtime.Reachable.halted`: what becomes of a cancelled fiber at one of the four points.
* `Runtime.Reachable.left_canceled`: a fiber that was stopped leaves with `canceled`.
* `Runtime.Reachable.observed`: the four points, races and groups together.
-/

namespace EffectFibers

/-- Unwinding, a fiber has not left yet. -/
theorem Fiber.Unwinds.not_left {φ φ' : Fiber} {es : List Event} (h : φ.Unwinds es φ')
    (c : TokenId) (x : Exit) : .left c x ∉ es := by
  induction h with
  | refl => exact List.not_mem_nil
  | drop unwinds plain ih => exact ih
  | release unwinds ih | released y unwinds ih =>
    intro mem
    obtain _ | ⟨_, mem⟩ := mem
    exact ih mem

namespace Runtime

variable {σ σ' σ₁ σ₂ : Runtime} {run c : TokenId} {φ φ' : Fiber} {effect : Effect} {point : Point}
  {x : Exit}

theorem Steps.failure (steps : Steps σ σ') (failed : σ.Failed run) : σ'.Failed run := by
  induction steps with
  | refl => exact failed
  | tail steps step ih => exact Step.failure step ih

/-- A fiber that is gone stays gone and leaves no more marks. -/
theorem Steps.silent (steps : Steps σ σ') (known : c < σ.store.size) (gone : c ∉ badges σ.crew) :
    ∃ new, σ'.log = new ++ σ.log ∧ ownOf c new = [] ∧ c ∉ badges σ'.crew := by
  induction steps with
  | refl => exact ⟨[], rfl, rfl, gone⟩
  | tail steps step ih =>
    obtain ⟨new, log, own, gone⟩ := ih
    have known := Nat.lt_of_lt_of_le known (Steps.ages steps).size
    obtain ⟨gone, new', log', own'⟩ := (Step.move step).gone known gone
    refine ⟨new' ++ new, by rw [log', log, List.append_assoc], ?_, gone⟩
    rw [ownOf_append, own, own', List.append_nil]

/-- A fiber leaves once, and is gone then. -/
theorem Reachable.left_gone (h : Reachable σ) (left : .left c x ∈ σ.events) :
    c < σ.store.size ∧ c ∉ badges σ.crew := by
  induction h with
  | refl => cases left
  | @tail σ σ' reach step ih =>
    have manned := Reachable.manned reach
    have move := Step.move step
    obtain ⟨run, ms, log, marks⟩ := move.marks
    rw [events_append log] at left
    obtain now | before := List.mem_append.mp left
    · obtain ⟨⟨run', φ⟩, mem, rfl, own⟩ := marks _ now
      obtain rfl : c = φ.token := Option.some.inj own
      refine ⟨Nat.lt_of_lt_of_le (manned.bound _ (mem_badges.mpr ⟨_, mem, rfl⟩))
        (Step.ages step).size, ?_⟩
      obtain ⟨new, log', follow⟩ := move.follow manned mem
      obtain rfl := List.append_cancel_right (log.symm.trans log')
      have own : Moment.of run' σ.store (.left φ.token x) ∈ ownOf φ.token (ms.map (.of run' σ.store)) :=
        List.mem_filter.mpr ⟨List.mem_map_of_mem now, by simp [Moment.of, Event.fiber?]⟩
      cases follow with
      | stay mem' none => simp [none] at own
      | act acts mem' same =>
        rw [same] at own
        obtain ⟨e, inMarks, same⟩ := List.mem_map.mp own
        obtain rfl : e = .left φ.token x := congrArg Moment.event same
        cases acts <;> simp at inMarks
      | part parting gone => exact gone
    · obtain ⟨known, gone⟩ := ih before
      exact ⟨Nat.lt_of_lt_of_le known (Step.ages step).size, (move.gone known gone).1⟩

/-! ## Stopping -/

/-- A cancelled fiber at one of the four points makes no step but to stop there. -/
theorem Step.stops (h : Reachable σ) (step : Step σ σ') (mem : (run, φ) ∈ σ.crew)
    (cancelled : σ.store.isCancelled φ.token = true) (doing : φ.doing = .evaluating effect)
    (at_point : effect.point? = some point) :
    ∃ new, σ'.log = new ++ σ.log ∧ ownOf φ.token new = [] ∧ ((run, φ) ∈ σ'.crew ∨
      (run, ⟨φ.loop, .unwinding .canceled⟩) ∈ σ'.crew ∨
        σ'.Failed run ∧ φ.token ∉ badges σ'.crew) := by
  obtain ⟨new, log, follow⟩ := step.move.follow h.manned mem
  obtain ⟨new', log', enters⟩ := step.move.enters
  obtain rfl : new = new' := List.append_cancel_right (log.symm.trans log')
  -- Whoever enters a suspension point is not cancelled.
  have not_entered : ∀ {s : Store} {point : Point},
      ownOf φ.token new ≠ [.of run s (.entered φ.token point)] := fun {s point} own => by
    have mem' : Moment.of run s (.entered φ.token point) ∈ ownOf φ.token new :=
      own ▸ List.mem_singleton_self _
    obtain ⟨ψ, inCrew, token, entered⟩ := enters _ (List.mem_filter.mp mem').1 _ _ rfl
    have live := entered.live
    rw [token, cancelled] at live
    cases live
  refine ⟨new, log, ?_⟩
  cases follow with
  | stay mem' own => exact ⟨own, .inl mem'⟩
  | act acts mem' own =>
    obtain ⟨-, rfl, rfl⟩ | ⟨live, -⟩ := acts.at_point doing at_point
    · exact ⟨own, .inr (.inl mem')⟩
    · cases live.symm.trans cancelled
  | part parting gone own =>
    cases parting with
    | ended spent =>
      subst spent
      cases doing
    | failed failed => exact ⟨own, .inr (.inr ⟨failed, gone⟩)⟩
    | faulted => exact (not_entered own).elim
    | refused => exact (not_entered own).elim

/-- What has become of a fiber that was to be stopped, with the marks that it has left since. -/
inductive Stopped (σ' : Runtime) (run : TokenId) (φ : Fiber) (marks : List Event) : Prop
  /-- It has not come to its turn. -/
  | waiting (mem : (run, φ) ∈ σ'.crew) (quiet : marks = [])
  /-- It unwinds from where it is, or has. -/
  | unwinding (unwinding : Unwinding σ' run ⟨φ.loop, .unwinding .canceled⟩ marks)
  /-- A panic beside it has ended its strand before its turn. -/
  | failed (failed : σ'.Failed run) (gone : φ.token ∉ badges σ'.crew) (quiet : marks = [])

/-- A cancelled fiber at one of the four points does nothing but unwind from there. -/
theorem Reachable.halted (h : Reachable σ) (mem : (run, φ) ∈ σ.crew)
    (cancelled : σ.store.isCancelled φ.token = true) (doing : φ.doing = .evaluating effect)
    (at_point : effect.point? = some point) (steps : Steps σ σ') : ∃ new, σ'.log = new ++ σ.log ∧
      Stopped σ' run φ ((ownOf φ.token new).map Moment.event) := by
  induction steps using Relation.ReflTransGen.head_induction_on with
  | refl => exact ⟨[], rfl, .waiting mem rfl⟩
  | @head σ σ₁ step steps ih =>
    have reach₁ : Reachable σ₁ := .tail h step
    have known := h.manned.bound _ (mem_badges.mpr ⟨_, mem, rfl⟩)
    obtain ⟨new, log, own, mem₁ | mem₁ | ⟨failed, gone⟩⟩ :=
      step.stops h mem cancelled doing at_point
    · obtain ⟨later, log', stopped⟩ := ih reach₁ mem₁ (step.ages.isCancelled _ cancelled)
      refine ⟨later ++ new, by rw [log', log, List.append_assoc], ?_⟩
      rwa [ownOf_append, own, List.append_nil]
    · obtain ⟨later, log', unwinding⟩ := reach₁.unwinds mem₁ (.inl rfl) steps
      refine ⟨later ++ new, by rw [log', log, List.append_assoc], ?_⟩
      rw [ownOf_append, own, List.append_nil]
      exact .unwinding unwinding
    · obtain ⟨later, log', silent, gone'⟩ :=
        Steps.silent steps (Nat.lt_of_lt_of_le known step.ages.size) gone
      refine ⟨later ++ new, by rw [log', log, List.append_assoc], ?_⟩
      rw [ownOf_append, own, silent]
      exact .failed (Steps.failure steps failed) gone' rfl

/-- A fiber that was stopped at one of the four points leaves with `canceled`, if it does. -/
theorem Reachable.left_canceled (h : Reachable σ) (mem : (run, φ) ∈ σ.crew)
    (cancelled : σ.store.isCancelled φ.token = true) (doing : φ.doing = .evaluating effect)
    (at_point : effect.point? = some point) (steps : Steps σ σ')
    (left : .left φ.token x ∈ σ'.events) : x = .canceled := by
  obtain ⟨new, log, stopped⟩ := h.halted mem cancelled doing at_point steps
  obtain own | before := (mem_events_of_own log rfl).mp left
  · cases stopped with
    | waiting _ quiet | failed _ _ quiet => simp [quiet] at own
    | unwinding unwinding =>
      cases unwinding with
      | there unwinds | failed unwinds => exact (unwinds.not_left _ _ own).elim
      | ended unwinds last =>
        rw [last] at own
        obtain _ | ⟨_, own⟩ := own
        · rfl
        · exact (unwinds.not_left _ _ own).elim
  · exact ((h.left_gone before).2 (mem_badges.mpr ⟨_, mem, rfl⟩)).elim

/-- Up to a later runtime the fiber with a token is at none of the four points. -/
def Unstopped (σ σ' : Runtime) (c : TokenId) : Prop :=
  ∀ σ₁, Steps σ σ₁ → Steps σ₁ σ' → ∀ run φ, (run, φ) ∈ σ₁.crew → φ.token = c →
    ∀ effect, φ.doing = .evaluating effect → effect.point? = none

/-- What an operand that was cancelled from the start has come to: it has left with that exit, and
unless it is `canceled` it has met none of the four points. -/
structure Operand (σ σ' : Runtime) (c : TokenId) (x : Exit) : Prop where
  left : σ'.Left c x
  free : x ≠ .canceled → σ.Unstopped σ' c

theorem Left.operand (left : σ'.Left c x) (h : Reachable σ)
    (cancelled : σ.store.isCancelled c = true) : Operand σ σ' c x := by
  refine ⟨left, fun other σ₁ before after run φ mem token effect doing => ?_⟩
  obtain left | ⟨canceled, -⟩ := left
  · by_contra at_point
    obtain ⟨point, at_point⟩ := Option.ne_none_iff_exists'.mp at_point
    subst token
    exact other (Reachable.left_canceled (.trans h before) mem (before.ages.isCancelled _ cancelled)
      doing at_point after left)
  · exact (other canceled).elim

/-! ## Waiting for operands -/

variable {loop : Loop} {doing : Doing}

/-- What a loop has come to that waited for operands: it waits, or it has gone on with an exit. -/
inductive NodeCourse (run : TokenId) (now : Store) (loop : Loop) (waits : Doing → Prop)
    (came : Exit → Prop) : Fiber → Prop
  | waiting {doing : Doing} (still : waits doing) : NodeCourse run now loop waits came ⟨loop, doing⟩
  | goes {x : Exit} {own : List Moment} {φ : Fiber} (exit : came x)
      (path : Fiber.Path run now ⟨loop, .unwinding x⟩ own φ) : NodeCourse run now loop waits came φ

theorem NodeCourse.mono {now : Store} {waits waits' : Doing → Prop} {came came' : Exit → Prop}
    (h : NodeCourse run now loop waits came φ) (still : ∀ doing, waits doing → waits' doing)
    (later : ∀ x, came x → came' x) : NodeCourse run now loop waits' came' φ := by
  cases h with
  | waiting here => exact .waiting (still _ here)
  | goes exit path => exact .goes (later _ exit) path

/-- A loop waits until it goes on with an exit, and from there on it is on its own. -/
theorem Steps.node_course (waits : Runtime → Doing → Prop) (came : Runtime → Exit → Prop)
    (h : Reachable σ) (mem : (run, ⟨loop, doing⟩) ∈ σ.crew) (start : waits σ doing)
    (later : ∀ σ₁ σ₂, Steps σ σ₁ → Step σ₁ σ₂ → ∀ x, came σ₁ x → came σ₂ x)
    (advance : ∀ σ₁ σ₂, Steps σ σ₁ → Step σ₁ σ₂ → ∀ doing φ, waits σ₁ doing →
      (run, ⟨loop, doing⟩) ∈ σ₁.crew → (run, φ) ∈ σ₂.crew → φ.token = loop.env.token →
        (∃ doing', φ = ⟨loop, doing'⟩ ∧ waits σ₂ doing') ∨
          ∃ x, φ = ⟨loop, .unwinding x⟩ ∧ came σ₂ x)
    (steps : Steps σ σ') (mem' : (run, φ') ∈ σ'.crew) (token : φ'.token = loop.env.token) :
    NodeCourse run σ'.store loop (waits σ') (came σ') φ' := by
  have known := h.manned.bound _ (mem_badges.mpr ⟨_, mem, rfl⟩)
  induction steps generalizing φ' with
  | refl =>
    cases h.manned.unique mem' mem token
    exact .waiting start
  | @tail σ₁ σ₂ steps step ih =>
    have reach₁ : Reachable σ₁ := .trans h steps
    obtain ⟨⟨run₁, φ₁⟩, mem₁, own, token₁⟩ | fresh := (Step.move step).member mem'
    · obtain rfl : run₁ = run := own
      have token₁ : φ₁.token = loop.env.token := token₁.trans token
      obtain ⟨new, -, follow⟩ := (Step.move step).follow reach₁.manned mem₁
      have unique {ψ : Fiber} (there : (run₁, ψ) ∈ σ₂.crew) (same : ψ.token = φ₁.token) : φ' = ψ :=
        congrArg Prod.snd ((Reachable.manned (.tail reach₁ step)).unique mem' there
          (token.trans (same.trans token₁).symm))
      cases ih mem₁ token₁ with
      | waiting still =>
        obtain ⟨doing', rfl, still⟩ | ⟨x, rfl, exit⟩ :=
          advance σ₁ σ₂ steps step _ φ' still mem₁ mem' token
        · exact .waiting still
        · exact .goes exit .refl
      | goes exit path =>
        have exit := later σ₁ σ₂ steps step _ exit
        cases follow with
        | stay there =>
          obtain rfl := unique there rfl
          exact .goes exit (path.mono (Step.ages step))
        | act acts there =>
          obtain rfl := unique there acts.token
          exact .goes exit ((path.mono (Step.ages step)).tail acts (Step.ages step))
        | part parting gone =>
          exact (gone (mem_badges.mpr ⟨_, mem', token.trans token₁.symm⟩)).elim
    · have known₁ := Nat.lt_of_lt_of_le known (Steps.ages steps).size
      exact (Nat.not_lt.mpr (fresh.trans token.le) known₁).elim

/-! ## Races -/

variable {tokens : RaceTokens}

/-- The loop is in a race, or it has an exit with a property that decides the race. -/
def Contends (tokens : RaceTokens) (came : TokenId → Exit → Prop) : Doing → Prop
  | .racing tokens' => tokens' = tokens
  | .settling side x => came (tokens.of side) x
  | _ => False

/-- The exit of a race is that of an operand, which says which one it is. -/
def Decided (tokens : RaceTokens) (came : TokenId → Exit → Prop) (z : Exit) : Prop :=
  ∃ side x, z = side.tag x ∧ came (tokens.of side) x

/-- The operands of a race that a cancelled loop begins are cancelled from the start. -/
theorem Step.race_begins (h : Reachable σ) (begins : Step σ σ₁) {left right : Effect}
    (mem : (run, ⟨loop, .evaluating (.race left right)⟩) ∈ σ.crew)
    (mem₁ : (run, ⟨loop, .racing tokens⟩) ∈ σ₁.crew)
    (cancelled : σ.store.isCancelled loop.env.token = true) (side : Side) :
    σ₁.store.isCancelled (tokens.of side) = true := by
  obtain same | acts | ⟨effect, doing, ⟨n, operands, other⟩ | ⟨context, other⟩⟩ :=
    begins.deed h mem mem₁ rfl
  · cases same
  · obtain ⟨role, l, nested, B, -, after, newborn, fields⟩ := acts.company
    obtain ⟨b, inNested, room, token⟩ := fields tokens rfl side
    have derived := (newborn b inNested).room
    rw [room] at derived
    have held : σ₁.Holds run b.token := by
      refine ⟨_, mem_parties.mpr ⟨_, after, rfl⟩, rfl, b.post, ?_, b.post.token_mem_owned⟩
      refine Multiset.mem_map_of_mem Berth.post (Multiset.mem_cons_of_mem ?_)
      exact Multiset.mem_add.mpr (.inl inNested)
    have parent : σ₁.store.Parent loop.env.token b.token := by
      refine ⟨derived.2.1, ?_⟩
      exact Nat.lt_of_lt_of_le (h.manned.bound _ (mem_badges.mpr ⟨_, mem, rfl⟩))
        (newborn b inNested).fresh.le
    have reach₁ : Reachable σ₁ := .tail h begins
    rw [← token]
    exact (reach₁.hung run _ _ held parent).cancelled (begins.ages.isCancelled _ cancelled)
  · cases doing.trans (congrArg Doing.evaluating other)
  · cases doing.trans (congrArg Doing.evaluating other)

/-- What becomes of a race of a cancelled loop. -/
theorem Steps.race_course (h : Reachable σ) (mem : (run, ⟨loop, .racing tokens⟩) ∈ σ.crew)
    (cancelled : σ.store.isCancelled loop.env.token = true) (steps : Steps σ σ')
    (mem' : (run, φ') ∈ σ'.crew) (token : φ'.token = loop.env.token) :
    NodeCourse run σ'.store loop (Contends tokens σ'.Left) (Decided tokens σ'.Left) φ' := by
  refine Steps.node_course (fun σ => Contends tokens σ.Left) (fun σ => Decided tokens σ.Left) h mem
    rfl ?_ ?_ steps mem' token
  · rintro σ₁ σ₂ steps step z ⟨side, x, rfl, left⟩
    exact ⟨side, x, rfl, step.left (.trans h steps) left⟩
  · intro σ₁ σ₂ steps step doing φ still mem₁ mem₂ token
    have reach₁ : Reachable σ₁ := .trans h steps
    cases doing with
    | racing tokens' =>
      obtain rfl : tokens' = tokens := still
      obtain rfl | ⟨role, side, x, other, callers, inStrands, rfl⟩ :=
        step.decides reach₁ mem₁ mem₂ token
      · exact .inl ⟨_, rfl, rfl⟩
      · have live := steps.ages.isCancelled _ cancelled
        obtain ⟨c, left, heard⟩ := reach₁.handed inStrands rfl
        obtain rfl : c = tokens'.of side := by cases side <;> exact heard
        refine .inl ⟨_, rfl, ?_⟩
        simp only [Loop.decided, live, Bool.not_true, Bool.and_false, Bool.false_eq_true, if_false]
        exact step.left reach₁ left
    | settling side x =>
      obtain same | acts | ⟨effect, other, -⟩ := step.deed reach₁ mem₁ mem₂ token
      · exact .inl ⟨_, same, step.left reach₁ still⟩
      · obtain ⟨ms, acts⟩ := acts.step
        cases acts
        exact .inr ⟨_, rfl, side, x, rfl, step.left reach₁ still⟩
      · cases other
    | _ => exact still.elim

/-! ## Groups -/

variable {t : TaskId} {g g₀ : Group}

/-- A task ends with the exit that its outermost loop has left with. -/
theorem Steps.task_left (h : Reachable σ) (leads : σ.Leads t c) {τ : Strand} (mem : τ ∈ σ.strands)
    (task : τ.task? = some t) (early : τ.berths ≠ 0) (steps : Steps σ σ') {τ' : Strand}
    (mem' : τ' ∈ σ'.strands) (task' : τ'.task? = some t)
    (ended : τ'.state.handed? = some ([], x)) : σ'.Left c x := by
  induction steps generalizing τ' x with
  | refl =>
    cases h.booked.unique mem' mem task' task
    exact (early (Strand.berths_of_handed ended)).elim
  | @tail σ₁ σ₂ steps step ih =>
    have reach₁ : Reachable σ₁ := .trans h steps
    have leads₁ : σ₁.Leads t c := Steps.leads leads h mem task steps
    have role : τ'.role = .task t := by
      obtain ⟨run, role, state⟩ := τ'
      cases role <;> simp_all [Strand.task?]
    have outermost : ∀ {σ₁ : Runtime} {run : TokenId} {config : Config} {b : Berth},
        σ₁.Leads t c → ⟨run, τ'.role, .running config⟩ ∈ σ₁.strands → b ∈ config.berths →
          b.room = .outer → b.token = c := fun {σ₁ run config b} leads inStrands inside room => by
      have inCompanies := Multiset.mem_map_of_mem Strand.company inStrands
      exact leads _ (mem_parties.mpr ⟨_, inCompanies, rfl⟩) role b.post
        (Multiset.mem_map_of_mem Berth.post inside) (by rw [Berth.post, room]; rfl)
    obtain ⟨τ₁, mem₁, -, same, ended⟩ | ⟨env, mem₁, log⟩ | ⟨env, u, joined, mem₁, found, exit⟩ :=
      Step.hands step mem' ended
    · exact Step.left reach₁ step
        (ih mem₁ (by rw [Strand.task?, same, role]) ended)
    · have own : env.token = c :=
        outermost leads₁ mem₁ (Multiset.mem_add.mpr (.inl (Multiset.mem_singleton_self _))) rfl
      exact .inl (by simp [events, log, Moment.of, own])
    · have inside : (⟨.outer, .away env u⟩ : Berth)
          ∈ Config.berths ⟨.resume (.shifted env u), []⟩ :=
        Multiset.mem_add.mpr (.inl (Multiset.mem_singleton_self _))
      have own : env.token = c := outermost leads₁ mem₁ inside rfl
      have inCompanies := Multiset.mem_map_of_mem Strand.company mem₁
      refine Step.left reach₁ step ?_
      obtain came | ⟨aborted, rfl⟩ :=
        reach₁.came inCompanies inside (List.mem_singleton_self u) found exit
      · obtain ⟨c', left, -, ties⟩ := reach₁.handed came rfl
        obtain ⟨same⟩ := ties _ (mem_parties.mpr ⟨_, inCompanies, rfl⟩) _
          (Multiset.mem_map_of_mem Berth.post inside) (List.mem_singleton_self u)
        exact own.symm.trans same ▸ left
      · exact .inr ⟨rfl, u, aborted⟩

/-- The loop waits for the group with a token. -/
def Gathers (group : TokenId) : Doing → Prop
  | .gathering g => g.token = group
  | _ => False

/-- The exit of a group is what those of its operands make of it.  An operand whose task was refused
by a closed context counts as cancelled; the others run under tokens below that of the group. -/
def Gathered (group : TokenId) (n : Nat) (s : Store) (came : TokenId → Exit → Prop) (z : Exit) :
    Prop :=
  ∃ xs : Fin n → Exit, Exit.Together (List.ofFn xs) z ∧
    ∀ i, xs i = .canceled ∨ ∃ c, s.Parent group c ∧ s.isCancelled c = true ∧ came c (xs i)

/-- The operands of a group that a cancelled loop begins are cancelled from the start. -/
theorem Began.cancelled (began : σ.Began run loop.env g.token effect t) (h : Reachable σ)
    (mem : (run, ⟨loop, .gathering g⟩) ∈ σ.crew)
    (cancelled : σ.store.isCancelled loop.env.token = true) :
    σ.store.joined? t = some .aborted ∨ ∃ c, σ.store.Parent g.token c ∧
      σ.store.isCancelled c = true ∧
      ⟨run, .task t, {Loop.berth ⟨loop.env.withToken c, []⟩ .outer (.evaluating effect)}⟩
        ∈ σ.companies := by
  refine began.imp_right fun ⟨c, parent, started⟩ => ⟨c, parent, ?_, started⟩
  obtain ⟨π, inParties, own, l, inside⟩ := mem_crew.mp mem
  have group : σ.store.isCancelled g.token = true := by
    refine (h.hung run _ _ ?_ (linked_group h.kindred mem).1).cancelled cancelled
    exact ⟨π, inParties, own, _, inside, Post.mem_owned.mpr (.inr ⟨loop, g, rfl, rfl⟩)⟩
  refine (h.hung run _ _ ?_ parent).cancelled group
  refine ⟨_, mem_parties.mpr ⟨_, started, rfl⟩, rfl, _, Multiset.mem_singleton_self _, ?_⟩
  exact Post.token_mem_owned _

/-- What becomes of a parallel group of a cancelled loop. -/
theorem Steps.group_course (h : Reachable σ) (begins : Step σ σ₁) {n : Nat}
    {operands : Fin n → Effect} (mem : (run, ⟨loop, .evaluating (.parallel n operands)⟩) ∈ σ.crew)
    (mem₁ : (run, ⟨loop, .gathering g₀⟩) ∈ σ₁.crew)
    (cancelled : σ.store.isCancelled loop.env.token = true) (steps : Steps σ₁ σ')
    (mem' : (run, φ') ∈ σ'.crew) (token : φ'.token = loop.env.token) :
    NodeCourse run σ'.store loop (Gathers g₀.token) (Gathered g₀.token n σ₁.store σ'.Left) φ' := by
  have reach₁ : Reachable σ₁ := .tail h begins
  have cancelled₁ := begins.ages.isCancelled _ cancelled
  obtain ⟨tasks, began, distinct, known, tallied₁⟩ := begins.group_begins h mem mem₁
  refine Steps.node_course (fun _ => Gathers g₀.token)
    (fun σ => Gathered g₀.token n σ₁.store σ.Left) reach₁ mem₁ rfl ?_ ?_ steps mem' token
  · rintro σ₂ σ₃ steps step z ⟨xs, together, came⟩
    refine ⟨xs, together, fun i => (came i).imp_right fun ⟨c, parent, cancelled, left⟩ => ?_⟩
    exact ⟨c, parent, cancelled, step.left (.trans reach₁ steps) left⟩
  · intro σ₂ σ₃ steps step doing φ still mem₂ mem₃ token
    have reach₂ : Reachable σ₂ := .trans reach₁ steps
    cases doing with
    | gathering g =>
      have tallied := Steps.tallied tallied₁ reach₁ known distinct steps
      obtain same | acts | ⟨effect, other, -⟩ := step.deed reach₂ mem₂ mem₃ token
      · exact .inl ⟨_, same, still⟩
      · cases acts.deed with
        | plain plain => cases plain
        | gather ok tokens more =>
          have same := (Machine.gather_advances (congrArg Prod.fst ok)).1
          exact .inl ⟨_, rfl, same.trans still⟩
        | @gathered _ _ g' _ ok tokens none =>
          have tally := tallied.gather reach₂.kindred distinct mem₂ ok still
          obtain ⟨xs, exits, together⟩ := result_of_tally tally none
          refine .inr ⟨_, rfl, xs, together, fun i => ?_⟩
          have came := (began i).came reach₁ steps (exits i)
          obtain aborted | ⟨c, parent, cancelled, started⟩ :=
            (began i).cancelled reach₁ mem₁ cancelled₁
          · have aborted₂ := steps.joined? reach₁ aborted
            have exit := Store.exit?_of_joined aborted₂ rfl
            exact .inl (Option.some.inj ((exits i).symm.trans exit))
          · obtain ended | ⟨-, canceled⟩ := came
            · obtain ⟨leads, τ, inStrands, task, early⟩ :=
                leads_of_started reach₁.booked started
              exact .inr ⟨c, parent, cancelled, step.left reach₂
                (Steps.task_left reach₁ leads inStrands task early steps ended rfl rfl)⟩
            · exact .inl canceled
      · cases other
    | _ => exact still.elim

/-! ## Where a cancellation is observed -/

/-- What it means for a fiber of a run that its token is cancelled. -/
structure Observes (σ : Runtime) (run : TokenId) (φ : Fiber) : Prop where
  /-- At a registration, a future, a shift or an acquisition it stops: it unwinds from there, only
  releases run, and it leaves with `canceled`. -/
  stops : ∀ effect point, φ.doing = .evaluating effect → effect.point? = some point →
    ∀ σ', Steps σ σ' → (∀ x, .left φ.token x ∈ σ'.events → x = .canceled) ∧
      ∃ new, σ'.log = new ++ σ.log ∧ Stopped σ' run φ ((ownOf φ.token new).map Moment.event)
  /-- A race begins nevertheless, under tokens that are cancelled.  Its exit is that of an operand,
  and so `canceled` if that operand has met one of the four points. -/
  race : ∀ left right, φ.doing = .evaluating (.race left right) →
    ∀ σ₁ φ₁, Step σ σ₁ → (run, φ₁) ∈ σ₁.crew → φ₁.token = φ.token → φ₁ = φ ∨
      ∃ tokens, φ₁ = ⟨φ.loop, .racing tokens⟩ ∧
        (∀ side, σ₁.store.isCancelled (tokens.of side) = true) ∧
        ∀ σ₂ φ₂, Steps σ₁ σ₂ → (run, φ₂) ∈ σ₂.crew → φ₂.token = φ.token →
          NodeCourse run σ₂.store φ.loop (Contends tokens (Operand σ₁ σ₂))
            (Decided tokens (Operand σ₁ σ₂)) φ₂
  /-- So does a parallel group.  Its exit is what those of its operands make of it, and each of
  these is `canceled` if the operand has met one of the four points. -/
  group : ∀ n operands, φ.doing = .evaluating (.parallel n operands) →
    ∀ σ₁ φ₁, Step σ σ₁ → (run, φ₁) ∈ σ₁.crew → φ₁.token = φ.token → φ₁ = φ ∨
      ∃ g, φ₁ = ⟨φ.loop, .gathering g⟩ ∧
        ∀ σ₂ φ₂, Steps σ₁ σ₂ → (run, φ₂) ∈ σ₂.crew → φ₂.token = φ.token →
          NodeCourse run σ₂.store φ.loop (Gathers g.token)
            (Gathered g.token n σ₁.store (Operand σ₁ σ₂)) φ₂

theorem Contends.mono {came came' : TokenId → Exit → Prop} (h : Contends tokens came doing)
    (later : ∀ side x, came (tokens.of side) x → came' (tokens.of side) x) :
    Contends tokens came' doing := by
  cases doing with
  | settling side x => exact later side x h
  | _ => exact h

/-- A fiber that is about to begin a race does nothing else. -/
theorem Step.begins_race (h : Reachable σ) (step : Step σ σ') {left right : Effect}
    (mem : (run, ⟨loop, .evaluating (.race left right)⟩) ∈ σ.crew) (mem' : (run, φ') ∈ σ'.crew)
    (token : φ'.token = loop.env.token) :
    φ' = ⟨loop, .evaluating (.race left right)⟩ ∨ ∃ tokens, φ' = ⟨loop, .racing tokens⟩ := by
  obtain same | acts | ⟨effect, other, ⟨n, operands, rfl⟩ | ⟨context, rfl⟩⟩ :=
    step.deed h mem mem' token
  · exact .inl same
  · obtain ⟨ms, acts⟩ := acts.step
    cases acts with
    | refused at_point => cases at_point
    | race => exact .inr ⟨_, rfl⟩
  · cases other
  · cases other

/-- A fiber that is about to begin a group does nothing else. -/
theorem Step.begins_group (h : Reachable σ) (step : Step σ σ') {n : Nat}
    {operands : Fin n → Effect} (mem : (run, ⟨loop, .evaluating (.parallel n operands)⟩) ∈ σ.crew)
    (mem' : (run, φ') ∈ σ'.crew) (token : φ'.token = loop.env.token) :
    φ' = ⟨loop, .evaluating (.parallel n operands)⟩ ∨ ∃ g, φ' = ⟨loop, .gathering g⟩ := by
  obtain ⟨new, -, follow⟩ := step.move.follow h.manned mem
  have unique {ψ : Fiber} (there : (run, ψ) ∈ σ'.crew) (same : ψ.token = loop.env.token) : φ' = ψ :=
    congrArg Prod.snd ((Reachable.manned (.tail h step)).unique mem' there (token.trans same.symm))
  cases follow with
  | stay there => exact .inl (unique there rfl)
  | act acts there =>
    have same := unique there acts.token
    cases acts with
    | refused at_point => cases at_point
    | fan => exact .inr ⟨_, same⟩
  | part parting gone => exact (gone (mem_badges.mpr ⟨_, mem', token⟩)).elim

/-- A cancelled fiber observes its cancellation at a registration, a future, a shift or an
acquisition.  At a race or a parallel group it is its operands that do, each at the first of these
points that it meets; the exit of the node is what they come to. -/
theorem Reachable.observed (h : Reachable σ) (mem : (run, φ) ∈ σ.crew)
    (cancelled : σ.store.isCancelled φ.token = true) : Observes σ run φ where
  stops effect point doing at_point σ' steps :=
    ⟨fun x left => h.left_canceled mem cancelled doing at_point steps left,
      h.halted mem cancelled doing at_point steps⟩
  race left right doing σ₁ φ₁ begins mem₁ token := by
    obtain ⟨loop, doing'⟩ := φ
    subst doing
    have reach₁ : Reachable σ₁ := .tail h begins
    refine (begins.begins_race h mem mem₁ token).imp_right fun ⟨tokens, same⟩ => ?_
    subst same
    have operands := begins.race_begins h mem mem₁ cancelled
    refine ⟨tokens, rfl, operands, fun σ₂ φ₂ steps mem₂ token₂ => ?_⟩
    have course := Steps.race_course reach₁ mem₁ (begins.ages.isCancelled _ cancelled) steps mem₂
      token₂
    have operand : ∀ side x, σ₂.Left (tokens.of side) x → Operand σ₁ σ₂ (tokens.of side) x :=
      fun side x left => left.operand reach₁ (operands side)
    refine course.mono (fun _ contends => contends.mono operand) fun z => ?_
    rintro ⟨side, x, same, left⟩
    exact ⟨side, x, same, operand side x left⟩
  group n operands doing σ₁ φ₁ begins mem₁ token := by
    obtain ⟨loop, doing'⟩ := φ
    subst doing
    refine (begins.begins_group h mem mem₁ token).imp_right fun ⟨g, same⟩ => ?_
    subst same
    refine ⟨g, rfl, fun σ₂ φ₂ steps mem₂ token₂ => ?_⟩
    have course := Steps.group_course h begins mem mem₁ cancelled steps mem₂ token₂
    refine course.mono (fun _ => id) fun z => ?_
    rintro ⟨xs, together, came⟩
    refine ⟨xs, together, fun i => (came i).imp_right fun ⟨c, parent, cancelled, left⟩ => ?_⟩
    exact ⟨c, parent, cancelled, left.operand (.tail h begins) cancelled⟩

/-- A run that is cancelled begins a race nevertheless. -/
theorem observed_race : ∃ σ σ₁ φ tokens, Reachable σ ∧ (0, φ) ∈ σ.crew ∧
    σ.store.isCancelled φ.token = true ∧ Observes σ 0 φ ∧ Step σ σ₁ ∧
    (0, ⟨φ.loop, .racing tokens⟩) ∈ σ₁.crew ∧
    ∀ side, σ₁.store.isCancelled (tokens.of side) = true := by
  let race : Effect := .race (.pure .null) (.pure .null)
  let c : Config := ⟨.eval outermost race, []⟩
  let φ : Fiber := ⟨outermost, .evaluating race⟩
  obtain ⟨s, -, -, reach, -⟩ := race_begins (.pure .null) (.pure .null)
  have known : φ.token < s.size :=
    reach.manned.bound _ (mem_badges.mpr ⟨_, mem_crew_lone (Multiset.mem_singleton_self _), rfl⟩)
  let σ : Runtime := lone (s.cancel 0) c []
  have reached : Reachable σ := .tail reach (.cancel _ 0)
  have cancelled : σ.store.isCancelled φ.token = true := by
    change (s.cancel 0).tokens.isCancelled 0 = true
    rw [Store.tokens_cancel]
    exact Forest.isCancelled_cancel_self known
  have mem : (0, φ) ∈ σ.crew := mem_crew_lone (Multiset.mem_singleton_self _)
  have observes : Observes σ 0 φ := reached.observed mem cancelled
  have begins : Step σ (turn ⟨1, "main"⟩ 0 .root c ⟨s.cancel 0, 0, []⟩) := .turn ..
  let tokens : RaceTokens := ⟨(s.cancel 0).size, ((s.cancel 0).childToken 0).2.size⟩
  have mem₁ : (0, ⟨outermost, .racing tokens⟩)
      ∈ (turn ⟨1, "main"⟩ 0 .root c ⟨s.cancel 0, 0, []⟩).crew := by
    refine mem_crew_turn (l := .outer) ?_
    simp [c, race, Config.step, Machine.evalStep, Machine.eval, Progress.berths, Caller.berths,
      tokens, Loop.berth, outermost]
  obtain same | ⟨tokens', same, operands, -⟩ := observes.race _ _ rfl _ _ begins mem₁ rfl
  · cases congrArg Fiber.doing same
  · cases congrArg Fiber.doing same
    exact ⟨σ, _, φ, tokens, reached, mem, cancelled, observes, begins, mem₁, operands⟩

end Runtime

end EffectFibers
