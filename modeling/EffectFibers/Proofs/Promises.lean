import EffectFibers.Proofs.Handover

/-!
# Loops that are sure of their exit

A bracket whose acquisition is a value, or whose release is, begins a loop inside it of which it
is known what it will hand over.  A path of a fiber says nothing of the loops inside it; a trail
is a path that keeps such promises, and whose steps are in the order of time.

## Main definitions

* `Fiber.Promises`: the exit that the loop is sure of which a fiber begins inside it.
* `Fiber.Trail`: a path that keeps its promises.

## Main statements

* `Config.step_rests`: a loop that is not in control stays as it is.
* `Runtime.Steps.trail`: what a fiber does in a run of steps is a trail.
-/

namespace EffectFibers

/-! ## The loop in control -/

/-- What is in control of a poll when it is the loop's turn: the loop is in the middle of an
effect, carries an exit up, or looks at a callback. -/
def Fiber.focus? (φ : Fiber) : Option Focus :=
  match φ.doing with
  | .evaluating effect => some (.eval φ.loop effect)
  | .unwinding x => some (.unwind φ.loop x)
  | .callback slot => some (.resume (.callback φ.loop slot))
  | _ => none

section

variable {worker : Worker} {callers : List Caller} {s : Store} {l : Room} {φ : Fiber}
  {focus : Focus}

/-- Taking up a segment touches no loop that is not in control, and begins none anew. -/
theorem Machine.resumeStep_rests {segment : Segment} (focused : φ.focus? = some focus)
    (mem : ⟨l, .fiber φ⟩ ∈ segment.berths (Caller.innerRoom callers)) :
    .resume segment = focus ∨ ⟨l, .fiber φ⟩ ∈ (resumeStep worker callers s segment).1.berths := by
  cases segment with
  | start => exact .inr (Multiset.mem_add.mpr (.inl mem))
  | callback =>
    cases Multiset.mem_singleton.mp mem
    exact .inl (Option.some.inj focused)
  | future | gathering =>
    cases Multiset.mem_singleton.mp mem
    cases focused
  | shifted => cases Multiset.mem_singleton.mp mem
  | acquiring | releasing | racing | settling | remaining =>
    have grip := Multiset.mem_add.mpr (.inl mem :
      _ ∨ (⟨l, .fiber φ⟩ : Berth) ∈ Caller.allBerths callers)
    right
    simpa [resumeStep, Machine.resume, Progress.berths, Segment.berths, Caller.berths, Caller.room,
      Loop.side, Loop.inside, add_assoc, or_comm, or_left_comm, or_assoc] using grip

/-- A loop that goes on by itself is in control, or stays as it is. -/
theorem Config.step_rests (worker : Worker) (s : Store) {c : Config}
    (focused : φ.focus? = some focus) (mem : ⟨l, .fiber φ⟩ ∈ c.berths) :
    c.focus = focus ∨ ⟨l, .fiber φ⟩ ∈ (c.step worker s).1.berths ∨
      ∃ f, (c.step worker s).1 = .faulted f := by
  obtain ⟨focus', callers⟩ := c
  cases focus' with
  | eval loop' effect =>
    obtain same | mem := Multiset.mem_cons.mp mem
    · cases same
      exact .inl (Option.some.inj focused)
    · exact .inr ((Machine.inside_evalStep effect).berths mem)
  | unwind loop' y =>
    obtain same | mem := Multiset.mem_cons.mp mem
    · cases same
      exact .inl (Option.some.inj focused)
    obtain ⟨env, frames⟩ := loop'
    cases frames with
    | cons frame frames => exact .inr ((Machine.inside_frameStep frame y).berths mem)
    | nil =>
      refine .inr (.inl ?_)
      change _ ∈ Config.berths ⟨.leave y, callers⟩
      rwa [Config.berths_leave]
  | leave y =>
    rw [Config.berths_leave] at mem
    cases callers with
    | nil => cases mem
    | cons caller callers =>
      obtain mem | mem := Multiset.mem_add.mp mem
      · cases caller with
        | acquiring | releasing | settling | remaining =>
          cases Multiset.mem_singleton.mp mem
          cases focused
        | racingLeft loop' tokens' other | racingRight loop' tokens' other =>
          obtain same | mem := Multiset.mem_cons.mp mem
          · cases same
            cases focused
          · exact .inr (.inl (Machine.settle_berths mem))
      · exact .inr ((Machine.inside_returnStep caller).berths mem)
  | park segment =>
    refine .inr (.inl ?_)
    change _ ∈ (Machine.parkStep segment callers).berths
    rwa [Machine.parkStep_berths]
  | resume segment =>
    obtain mem | mem := Multiset.mem_add.mp mem
    · exact (Machine.resumeStep_rests focused mem).imp id .inl
    · cases here : segment.isShifted with
      | false => exact .inr ((Machine.inside_resumeStep here).berths mem)
      | true =>
        cases segment with
        | shifted env t => exact .inr (Machine.resumeStep_shifted mem)
        | _ => cases here

end

/-! ## Promises -/

/-- The fiber has begun a loop inside it whose effect is a value. -/
inductive Fiber.Promises : Fiber → Fiber → Exit → Prop
  | acquiring {loop : Loop} {v : Value} {use : Value → Effect}
      {release : Value → ExitCase Value → Effect} :
      Promises ⟨loop, .evaluating (.bracket (.pure v) use release)⟩ ⟨loop, .acquiring use release⟩
        (.succeeded v)
  | releasing {env : Env} {bracket : BracketId} {finalizer : ExitCase Value → Effect}
      {frames : List Frame} {x outcome : Exit} {v : Value}
      (value : finalizer outcome.exitCase = .pure v) :
      Promises ⟨⟨env, .release bracket finalizer :: frames⟩, .unwinding x⟩
        ⟨⟨env, frames⟩, .releasing bracket outcome⟩ (.succeeded v)

/-- A loop that waits for one inside it goes on by an exit that is handed to it. -/
def Fiber.GoesBy (s : Store) (x : Exit) (φ φ' : Fiber) : Prop :=
  ∃ caller : Caller, caller.fiber = φ ∧ φ' = caller.after s x

theorem Fiber.GoesBy.acquiring {s : Store} {loop : Loop} {use : Value → Effect}
    {release : Value → ExitCase Value → Effect} {v : Value} {φ' : Fiber}
    (goes : GoesBy s (.succeeded v) ⟨loop, .acquiring use release⟩ φ') :
    φ' = ⟨loop.push (.release s.brackets (release v)),
      if s.isCancelled loop.env.token then .unwinding .canceled else .evaluating (use v)⟩ := by
  obtain ⟨caller, same, rfl⟩ := goes
  cases caller <;> cases same
  rfl

theorem Fiber.GoesBy.releasing {s : Store} {loop : Loop} {bracket : BracketId} {outcome x : Exit}
    {φ' : Fiber} (goes : GoesBy s x ⟨loop, .releasing bracket outcome⟩ φ') :
    φ' = ⟨loop, .unwinding (outcome.behind x)⟩ := by
  obtain ⟨caller, same, rfl⟩ := goes
  cases caller <;> cases same
  rfl

/-- The loop in control will hand an exit over, whatever happens around it. -/
inductive Focus.Sure : Focus → Exit → Prop
  | eval {env : Env} {v : Value} : Sure (.eval ⟨env, []⟩ (.pure v)) (.succeeded v)
  | unwind {env : Env} {x : Exit} : Sure (.unwind ⟨env, []⟩ x) x
  | leave {x : Exit} : Sure (.leave x) x

/-- Steps of one fiber in the order of time, up to a store, that keep every promise.  The first
index says which exits are due: those that were promised by the last step. -/
inductive Fiber.Trail (run : TokenId) (φ : Fiber) :
    (Exit → Prop) → Store → List Moment → Fiber → Prop
  | refl {now : Store} : Trail run φ (fun _ => False) now [] φ
  | wait {due : Exit → Prop} {s now : Store} {own : List Moment} {φ' : Fiber}
      (trail : Trail run φ due s own φ') (ages : s.Ages now) : Trail run φ due now own φ'
  | tail {due : Exit → Prop} {s : Store} {own : List Moment} {φ₁ φ₂ : Fiber} {ms : List Event}
      (trail : Trail run φ due s own φ₁) (step : φ₁.Step s ms φ₂)
      (kept : ∀ x, due x → φ₁.GoesBy s x φ₂) :
      Trail run φ (φ₁.Promises φ₂) s (ms.map (.of run s) ++ own) φ₂

theorem Fiber.Trail.token {run : TokenId} {φ φ' : Fiber} {due : Exit → Prop} {now : Store}
    {own : List Moment} (trail : Trail run φ due now own φ') : φ'.token = φ.token := by
  induction trail with
  | refl => rfl
  | wait _ _ ih => exact ih
  | tail _ step _ ih => exact step.token.trans ih

/-- A trail is a path. -/
theorem Fiber.Trail.path {run : TokenId} {φ φ' : Fiber} {due : Exit → Prop} {now : Store}
    {own : List Moment} (trail : Trail run φ due now own φ') : φ.Path run now own φ' := by
  induction trail with
  | refl => exact .refl
  | wait _ ages ih => exact ih.mono ages
  | tail _ step _ ih => exact ih.tail step (Store.Grows.ages .refl)

theorem Caller.after_ne_fiber (s : Store) (x : Exit) (caller : Caller) :
    caller.after s x ≠ caller.fiber := by
  intro same
  have doing := congrArg Fiber.doing same
  cases caller with
  | acquiring loop use release =>
    cases x with
    | succeeded v =>
      simp only [after, fiber] at doing
      split at doing <;> cases doing
    | errored | canceled => cases doing
  | releasing | settling | remaining => cases doing
  | racingLeft loop tokens other | racingRight loop tokens other =>
    simp only [after, fiber, Loop.decided] at doing
    split at doing <;> cases doing

theorem Caller.ne_of_step {s : Store} {ms : List Event} {caller : Caller} {φ : Fiber}
    (step : caller.fiber.Step s ms φ) : φ ≠ caller.fiber := by
  intro same
  have doing := congrArg Fiber.doing same
  cases caller <;> cases step <;> cases doing

theorem Caller.hosts_fiber (caller : Caller) : ∃ room, caller.fiber.Hosts room := by
  cases caller with
  | acquiring => exact ⟨_, .acquiring⟩
  | releasing => exact ⟨_, .releasing⟩
  | racingLeft => exact ⟨_, .racing .left⟩
  | racingRight => exact ⟨_, .racing .right⟩
  | settling => exact ⟨_, .settling⟩
  | remaining => exact ⟨_, .remaining⟩

namespace Runtime

variable {σ σ' : Runtime} {run : TokenId} {φ φ' : Fiber} {x : Exit}

/-- In the strand of the fiber the loop inside it is in control, and sure of its exit. -/
def Awaits (σ : Runtime) (run : TokenId) (φ : Fiber) (x : Exit) : Prop :=
  ∃ role focus caller callers, ⟨run, role, .running ⟨focus, caller :: callers⟩⟩ ∈ σ.strands ∧
    caller.fiber = φ ∧ focus.Sure x

theorem mem_berths_of_caller (run : TokenId) (role : Strand.Role) (focus : Focus)
    (caller : Caller) (callers : List Caller) : ∃ l, ⟨l, .fiber caller.fiber⟩
      ∈ (⟨run, role, .running ⟨focus, caller :: callers⟩⟩ : Strand).berths := by
  refine ⟨Caller.innerRoom callers, Multiset.mem_add.mpr (.inr (Multiset.mem_add.mpr (.inl ?_)))⟩
  cases caller <;> simp [Caller.berths, Caller.fiber, Loop.berth]

/-- A fiber is in one strand. -/
theorem Reachable.strand_unique (h : Reachable σ) {τ τ' : Strand} (mem : τ ∈ σ.strands)
    (mem' : τ' ∈ σ.strands) {l l' : Room} (inside : ⟨l, .fiber φ⟩ ∈ τ.berths)
    (inside' : ⟨l', .fiber φ⟩ ∈ τ'.berths) : τ' = τ := by
  obtain ⟨s, strands, log⟩ := σ
  obtain ⟨rest, rfl⟩ := Multiset.exists_cons_of_mem mem
  obtain same | there := Multiset.mem_cons.mp mem'
  · exact same
  have crew : Runtime.crew ⟨s, τ ::ₘ rest, log⟩
      = Runtime.crew ⟨s, τ ::ₘ 0, log⟩ + Runtime.crew ⟨s, rest, log⟩ := by
    simp [Runtime.crew, parties]
  have distinct := h.manned.distinct
  rw [crew, badges_add, Multiset.nodup_add] at distinct
  have here : (τ.run, φ) ∈ Runtime.crew ⟨s, τ ::ₘ 0, log⟩ :=
    mem_crew_berths.mpr ⟨τ, Multiset.mem_cons_self τ 0, rfl, l, inside⟩
  have elsewhere : (τ'.run, φ) ∈ Runtime.crew ⟨s, rest, log⟩ :=
    mem_crew_berths.mpr ⟨τ', there, rfl, l', inside'⟩
  exact (Multiset.disjoint_left.mp distinct.2.2 (mem_badges.mpr ⟨_, here, rfl⟩)
    (mem_badges.mpr ⟨_, elsewhere, rfl⟩)).elim

/-- A fiber that is still there after a step, and is another then, was in the strand that made a
turn. -/
theorem Step.turned_of_ne (h : Reachable σ) (step : Step σ σ') (mem : (run, φ) ∈ σ.crew)
    (mem' : (run, φ') ∈ σ'.crew) (token : φ'.token = φ.token) (ne : φ' ≠ φ) :
    ∃ role c worker l, ⟨run, role, .running c⟩ ∈ σ.strands ∧ ⟨l, .fiber φ⟩ ∈ c.berths ∧
      σ'.store = (c.step worker σ.store).2 ∧
      ⟨run, role, (c.step worker σ.store).1.state⟩ ∈ σ'.strands ∧
      (∀ l', ⟨l', .fiber φ⟩ ∉ (c.step worker σ.store).1.berths) ∧
      ∀ f, (c.step worker σ.store).1 ≠ .faulted f := by
  have manned' := Reachable.manned (.tail h step)
  have stays : (run, φ) ∉ σ'.crew := fun there =>
    ne (congrArg Prod.snd (manned'.unique mem' there token))
  have stayed : (run, φ') ∉ σ.crew := fun there =>
    ne (congrArg Prod.snd (h.manned.unique there mem token))
  obtain ⟨τ, inStrands, rfl, l, inside⟩ := mem_crew_berths.mp mem
  have gone : τ ∉ σ'.strands := fun there =>
    stays (mem_crew_berths.mpr ⟨τ, there, rfl, l, inside⟩)
  cases step with
  | begin | beginBelow => exact (gone (Multiset.mem_cons_of_mem inStrands)).elim
  | report | cancel | fresh | child | prune | outside => exact (gone inStrands).elim
  | poll s rest log run role segment =>
    obtain rfl | inRest := Multiset.mem_cons.mp inStrands
    · refine (stays (mem_crew_berths.mpr ⟨_, Multiset.mem_cons_self _ _, rfl, l, ?_⟩)).elim
      simpa [Strand.berths] using inside
    · exact (gone (Multiset.mem_cons_of_mem inRest)).elim
  | giveUp s rest log r segment live unstarted =>
    obtain ⟨τ', inStrands', same, l', inside'⟩ := mem_crew_berths.mp mem'
    obtain rfl | inRest := Multiset.mem_cons.mp inStrands'
    · unfold Strand.remainder at same inside'
      split at inside'
      · next goes =>
        rw [if_pos goes] at same
        exact (stayed (mem_crew_berths.mpr
          ⟨_, Multiset.mem_cons_self _ _, same, l', inside'⟩)).elim
      · cases inside'
    · exact (stayed (mem_crew_berths.mpr
        ⟨τ', Multiset.mem_cons_of_mem inRest, same, l', inside'⟩)).elim
  | turn s rest log run role c worker =>
    obtain rfl | inRest := Multiset.mem_cons.mp inStrands
    · refine ⟨role, c, worker, l, Multiset.mem_cons_self _ _, inside, rfl,
        Multiset.mem_cons_self _ _, fun l' there => stays (mem_crew_turn there), fun f fault => ?_⟩
      obtain ⟨τ', inStrands', same, l', inside'⟩ := mem_crew_berths.mp mem'
      rw [turn_faulted fault] at inStrands'
      obtain rfl | inRest := Multiset.mem_cons.mp inStrands'
      · cases inside'
      · exact stayed (mem_crew_berths.mpr
          ⟨τ', Multiset.mem_cons_of_mem inRest, same, l', inside'⟩)
    · exact (gone (Multiset.mem_cons_of_mem (Multiset.mem_add.mpr (.inr inRest)))).elim

/-- What a promise says holds when the loop inside the fiber has begun. -/
theorem Step.promised (h : Reachable σ) (step : Step σ σ') (mem : (run, φ) ∈ σ.crew)
    (mem' : (run, φ') ∈ σ'.crew) (promises : φ.Promises φ' x) : σ'.Awaits run φ' x := by
  have token : φ'.token = φ.token := by cases promises <;> rfl
  have ne : φ' ≠ φ := by
    rintro rfl
    cases promises
  obtain ⟨role, c, worker, l, -, inside, -, turned, gone, noFault⟩ :=
    step.turned_of_ne h mem mem' token ne
  have manned' := Reachable.manned (.tail h step)
  -- Whatever the turn has made of the loop is the fiber of the promise.
  have is : ∀ {ψ : Fiber} {l' : Room} {progress : Progress},
      ⟨run, role, progress.state⟩ ∈ σ'.strands → ⟨l', .fiber ψ⟩ ∈ progress.berths →
      ψ.token = φ.token → ψ = φ' := fun there berth same =>
    congrArg Prod.snd (manned'.unique (mem_crew_berths.mpr
      ⟨_, there, rfl, _, (Strand.berths_state run role _).symm ▸ berth⟩) mem'
      (same.trans token.symm))
  have inControl : ∀ {focus : Focus}, φ.focus? = some focus → c.focus = focus := fun focused => by
    obtain same | there | ⟨f, fault⟩ := Config.step_rests worker σ.store focused inside
    · exact same
    · exact (gone l there).elim
    · exact (noFault f fault).elim
  obtain ⟨focus, callers⟩ := c
  cases promises with
  | @acquiring loop v use release =>
    obtain rfl : focus = _ := inControl rfl
    simp only [Config.step, Machine.evalStep, Machine.atPoint] at turned
    split at turned
    · cases is turned (Multiset.mem_cons_self _ _) rfl
    · exact ⟨role, _, _, callers, turned, rfl, .eval⟩
  | @releasing env bracket finalizer frames x outcome v value =>
    obtain rfl : focus = _ := inControl rfl
    simp only [Config.step, Machine.unwindStep, Machine.frameStep] at turned noFault
    split at turned
    · next f given => exact (noFault f (by rw [given])).elim
    · cases is turned (Multiset.mem_add.mpr (.inr (Multiset.mem_add.mpr
        (.inl (Multiset.mem_singleton_self _))))) rfl
      rw [value] at turned
      exact ⟨role, _, _, callers, turned, rfl, .eval⟩

/-- Nothing but the loop in control leads on, and that is sure of its exit. -/
theorem Step.awaits (h : Reachable σ) (step : Step σ σ') (awaits : σ.Awaits run φ x)
    (mem' : (run, φ) ∈ σ'.crew) : σ'.Awaits run φ x := by
  obtain ⟨role, focus, caller, callers, inStrands, rfl, sure⟩ := awaits
  have kept : ⟨run, role, .running ⟨focus, caller :: callers⟩⟩ ∈ σ'.strands →
      σ'.Awaits run caller.fiber x := fun there =>
    ⟨role, focus, caller, callers, there, rfl, sure⟩
  cases step with
  | begin | beginBelow => exact kept (Multiset.mem_cons_of_mem inStrands)
  | report | cancel | fresh | child | prune | outside => exact kept inStrands
  | poll s rest log run role segment =>
    obtain same | inRest := Multiset.mem_cons.mp inStrands
    · cases same
    · exact kept (Multiset.mem_cons_of_mem inRest)
  | giveUp s rest log r segment live unstarted =>
    obtain same | inRest := Multiset.mem_cons.mp inStrands
    · simp [Strand.ofRun, live] at same
    · exact kept (Multiset.mem_cons_of_mem inRest)
  | turn s rest log run' role' c worker =>
    obtain same | inRest := Multiset.mem_cons.mp inStrands
    · cases same
      cases sure with
      | eval => exact ⟨role, _, caller, callers, Multiset.mem_cons_self _ _, rfl, .unwind⟩
      | unwind => exact ⟨role, _, caller, callers, Multiset.mem_cons_self _ _, rfl, .leave⟩
      | leave =>
        have manned' := Reachable.manned (.tail h (.turn s rest log run role _ worker))
        have after : (run, caller.after s x)
            ∈ (Runtime.turn worker run role ⟨.leave x, caller :: callers⟩ ⟨s, rest, log⟩).crew :=
          mem_crew_turn (Machine.returnStep_after x callers caller)
        have same := manned'.unique after mem' (caller.token_after s x)
        exact (caller.after_ne_fiber s x (congrArg Prod.snd same)).elim
    · exact kept (Multiset.mem_cons_of_mem (Multiset.mem_add.mpr (.inr inRest)))

/-- A fiber goes on by the exit that the loop inside it is sure of. -/
theorem Step.goesBy (h : Reachable σ) (step : Step σ σ') (awaits : σ.Awaits run φ x)
    (mem' : (run, φ') ∈ σ'.crew) (token : φ'.token = φ.token) (ne : φ' ≠ φ) :
    φ.GoesBy σ.store x φ' := by
  obtain ⟨role, focus, caller, callers, inStrands, rfl, sure⟩ := awaits
  obtain ⟨l, inside⟩ := mem_berths_of_caller run role focus caller callers
  have mem : (run, caller.fiber) ∈ σ.crew := mem_crew_berths.mpr ⟨_, inStrands, rfl, l, inside⟩
  obtain ⟨room, hosts⟩ := caller.hosts_fiber
  obtain same | ⟨role', y, caller', callers', inStrands', same, rfl⟩ :=
    step.returns h mem hosts mem' token
  · exact (ne same).elim
  obtain ⟨l', inside'⟩ := mem_berths_of_caller run role' (.leave y) caller' callers'
  rw [same] at inside'
  cases h.strand_unique inStrands inStrands' inside inside'
  cases sure
  exact ⟨_, rfl, rfl⟩

/-! ## Trails -/

/-- What becomes of a fiber in a run of steps: it has followed a trail, and is still there, or has
parted. -/
inductive Trailed (σ' : Runtime) (run : TokenId) (φ : Fiber) (new : List Moment) : Prop
  | there {due : Exit → Prop} {φ' : Fiber}
      (trail : φ.Trail run due σ'.store (ownOf φ.token new) φ') (mem : (run, φ') ∈ σ'.crew)
      (awaits : ∀ x, due x → σ'.Awaits run φ' x)
  | parted {due : Exit → Prop} {φ' : Fiber} {own last : List Moment}
      (trail : φ.Trail run due σ'.store own φ') (parting : Parting σ' run φ' last)
      (marks : ownOf φ.token new = last ++ own) (gone : φ.token ∉ badges σ'.crew)

theorem Steps.trail (h : Reachable σ) (mem : (run, φ) ∈ σ.crew) (steps : Steps σ σ') :
    ∃ new, σ'.log = new ++ σ.log ∧ Trailed σ' run φ new := by
  have known : φ.token < σ.store.size :=
    (Reachable.manned h).bound _ (mem_badges.mpr ⟨_, mem, rfl⟩)
  induction steps with
  | refl => exact ⟨[], rfl, .there .refl mem fun _ due => due.elim⟩
  | @tail σ₁ σ₂ steps step ih =>
    obtain ⟨new, log, trailed⟩ := ih
    have reach : Reachable σ₁ := Relation.ReflTransGen.trans h steps
    have move := Step.move step
    have ages := step.ages
    have longer : ∀ {new'}, σ₂.log = new' ++ σ₁.log → σ₂.log = (new' ++ new) ++ σ.log :=
      fun log' => by rw [log', log, List.append_assoc]
    cases trailed with
    | @there due φ₁ trail mem₁ awaits =>
      obtain ⟨new', log', follow⟩ := move.follow reach.manned mem₁
      have token := trail.token
      refine ⟨new' ++ new, longer log', ?_⟩
      cases follow with
      | stay mem₂ own =>
        rw [token] at own
        refine .there ?_ mem₂ fun x promised => step.awaits reach (awaits x promised) mem₂
        rw [ownOf_append, own]
        exact trail.wait ages
      | @act φ₂ ms step' mem₂ own =>
        rw [token] at own
        refine .there ?_ mem₂ fun x promises => step.promised reach mem₁ mem₂ promises
        rw [ownOf_append, own]
        refine (trail.tail step' fun x promised => ?_).wait ages
        by_cases ne : φ₂ = φ₁
        · subst ne
          obtain ⟨-, -, caller, -, -, rfl, -⟩ := awaits x promised
          exact (Caller.ne_of_step step' rfl).elim
        · exact step.goesBy reach (awaits x promised) mem₂ step'.token ne
      | part parting gone own =>
        rw [token] at gone own
        refine .parted (trail.wait ages) parting ?_ gone
        rw [ownOf_append, own]
    | parted trail parting marks gone =>
      have known₁ : φ.token < σ₁.store.size := Nat.lt_of_lt_of_le known (Steps.ages steps).size
      obtain ⟨gone', new', log', none⟩ := move.gone known₁ gone
      have parting' := parting.mono fun failed => Step.failure step failed
      refine ⟨new' ++ new, longer log', .parted (trail.wait ages) parting' ?_ gone'⟩
      rw [ownOf_append, none, marks, List.nil_append]

end Runtime

end EffectFibers
