import EffectFibers.Proofs.Panics

/-!
# Handing an exit over

A loop that has ended hands its exit to the loop that waits for it.  Between the two the exit is
under way in a strand (`Strand.State.handed?`).  This module says where such an exit is from, and
whose it is: of an operand of the race that receives it, of the outermost loop of a task that is
waited for, or of the run.

## Main statements

* `Config.step_hands`: the machine hands an exit over only when the loop in control has ended, or
  the task in which it went on.
* `Runtime.Step.returns`: a loop that waits for a nested one goes on by the exit that it is handed.
* `Runtime.Reachable.staffed`: a task that is waited for has a strand, or was refused.
* `Runtime.Reachable.handed`: an exit that is handed over was left by the loop that it is from.
-/

namespace EffectFibers

/-! ## The machine -/

/-- The exit that is under way in a strand, and the callers that it is handed to. -/
def Strand.State.handed? : Strand.State → Option (List Caller × Exit)
  | .running ⟨.leave x, callers⟩ => some (callers, x)
  | .ended x => some ([], x)
  | .running _ | .waiting _ | .faulted _ | .dropped => none

/-- The loop has gone on in a task. -/
def Segment.isShifted : Segment → Bool
  | .shifted .. => true
  | _ => false

/-- Where the exit is from that a step of a poll hands over. -/
inductive Config.Hands (s : Store) (callers : List Caller) (x : Exit) : Config → Prop
  | left {env : Env} : Hands s callers x ⟨.unwind ⟨env, []⟩ x, callers⟩
  /-- The loop went on in a task, which has ended. -/
  | back {env : Env} {t : TaskId} {joined : Joined} (found : s.joined? t = some joined)
      (exit : joined.exit = .ok x) : Hands s callers x ⟨.resume (.shifted env t), callers⟩
  /-- Nobody waits for it. -/
  | last (none : callers = []) : Hands s callers x ⟨.leave x, callers⟩

namespace Machine

variable {worker : Worker} {loop : Loop} {callers callers' : List Caller} {s : Store} {x : Exit}

/-- The poll goes on inside its callers, and nothing is handed over. -/
def Inside (callers : List Caller) : Progress → Prop
  | .next ⟨.leave _, _⟩ | .ended _ | .parked _ => False
  | .next c => callers <:+ c.callers
  | .faulted _ => True

theorem Inside.handed? {progress : Progress} (h : Inside callers progress) :
    progress.state.handed? = none := by
  cases progress with
  | next c =>
    obtain ⟨focus, callers'⟩ := c
    cases focus with
    | leave => exact h.elim
    | eval | unwind | resume | park => rfl
  | faulted => rfl
  | ended | parked => exact h.elim

theorem inside_atPoint {point : Point} {go : Store → Progress × Store}
    (h : ∀ s, Inside callers (go s).1) : Inside callers (atPoint s loop callers point go).1 := by
  unfold atPoint
  split
  · exact List.suffix_refl _
  · exact h _

theorem inside_evalStep (effect : Effect) :
    Inside callers (evalStep worker loop callers s effect).1 := by
  have same : callers <:+ callers := List.suffix_refl _
  cases effect with
  | pure | fail | cancel | isCancelled | map | flatMap | handleErrorWith | parallel => exact same
  | race => exact List.suffix_cons _ _
  | fault => trivial
  | perform | loop =>
    simp only [evalStep]
    split <;> trivial
  | async r =>
    refine inside_atPoint fun s => ?_
    split <;> trivial
  | await future =>
    refine inside_atPoint fun s => ?_
    split <;> trivial
  | shift => exact inside_atPoint fun s => same
  | bracket => exact inside_atPoint fun s => List.suffix_cons _ _

theorem inside_frameStep (frame : Frame) (x : Exit) :
    Inside callers (frameStep loop callers s frame x).1 := by
  have same : callers <:+ callers := List.suffix_refl _
  cases frame with
  | map f =>
    cases x with
    | succeeded v =>
      simp only [frameStep]
      split <;> trivial
    | errored | canceled => exact same
  | bind | again | handle => cases x <;> exact same
  | release bracket finalizer =>
    simp only [frameStep]
    split
    · trivial
    · exact List.suffix_cons _ _

theorem inside_settle {tokens : RaceTokens} {side : Side} {other : Segment} :
    Inside callers (settle loop tokens side x other callers s).1 := by
  unfold settle
  split <;> exact List.suffix_cons _ _

theorem inside_returnStep (caller : Caller) :
    Inside callers (returnStep x callers s caller).1 := by
  have same : callers <:+ callers := List.suffix_refl _
  cases caller with
  | acquiring loop use release =>
    cases x with
    | succeeded v =>
      simp only [returnStep]
      split <;> trivial
    | errored | canceled => exact same
  | releasing loop bracket outcome => cases x <;> cases outcome <;> exact same
  | racingLeft | racingRight => exact inside_settle
  | settling | remaining => exact same

theorem inside_resumeStep {segment : Segment} (here : segment.isShifted = false) :
    Inside callers (resumeStep worker callers s segment).1 := by
  have same : callers <:+ callers := List.suffix_refl _
  cases segment with
  | shifted => cases here
  | start => exact same
  | acquiring | releasing | racing | settling | remaining => exact List.suffix_cons _ _
  | callback loop slot =>
    simp only [resumeStep]
    split
    · exact same
    · trivial
    · split <;> exact same
  | future loop wait =>
    simp only [resumeStep]
    split
    · exact same
    · split <;> exact same
  | gathering loop g =>
    simp only [resumeStep]
    split
    · trivial
    · split <;> exact same

theorem handed?_parkStep (segment : Segment) :
    (parkStep segment callers).state.handed? = none := by
  unfold parkStep
  split <;> rfl

end Machine

/-- The machine hands an exit over only when the loop in control has ended, or the task in which
it went on. -/
theorem Config.step_hands {worker : Worker} {c : Config} {s : Store} {callers : List Caller}
    {x : Exit} (h : (c.step worker s).1.state.handed? = some (callers, x)) :
    Config.Hands s callers x c := by
  have silent : ∀ {callers' : List Caller} {progress : Progress},
      Machine.Inside callers' progress → progress.state.handed? = some (callers, x) →
        Config.Hands s callers x c := fun inside h => by
    cases inside.handed?.symm.trans h
  obtain ⟨focus, callers'⟩ := c
  cases focus with
  | eval loop effect => exact silent (Machine.inside_evalStep effect) h
  | unwind loop y =>
    obtain ⟨env, frames⟩ := loop
    cases frames with
    | cons frame frames => exact silent (Machine.inside_frameStep frame y) h
    | nil =>
      cases h
      exact .left
  | leave y =>
    cases callers' with
    | cons caller callers' => exact silent (Machine.inside_returnStep caller) h
    | nil =>
      cases h
      exact .last rfl
  | park segment => cases (Machine.handed?_parkStep segment).symm.trans h
  | resume segment =>
    cases here : segment.isShifted with
    | false => exact silent (Machine.inside_resumeStep here) h
    | true =>
      cases segment with
      | shifted env t =>
        simp only [Config.step, Machine.resumeStep] at h
        split at h
        · next joined found =>
          split at h
          · next exit came =>
            cases h
            exact .back found came
          · cases h
        · cases h
      | _ => cases here

/-! ## Loops that wait for nested ones -/

/-- The caller that waits for an operand of a race that is not decided. -/
def Caller.race (loop : Loop) (tokens : RaceTokens) (other : Segment) : Side → Caller
  | .left => .racingLeft loop tokens other
  | .right => .racingRight loop tokens other

/-- The loop that waits. -/
def Caller.fiber : Caller → Fiber
  | .acquiring loop use release => ⟨loop, .acquiring use release⟩
  | .releasing loop bracket outcome => ⟨loop, .releasing bracket outcome⟩
  | .racingLeft loop tokens _ | .racingRight loop tokens _ => ⟨loop, .racing tokens⟩
  | .settling loop winner x => ⟨loop, .settling winner x⟩
  | .remaining loop side => ⟨loop, .remaining side⟩

/-- What the loop of a race goes on with when an operand has ended. -/
def Loop.decided (s : Store) (loop : Loop) (side : Side) (x : Exit) : Doing :=
  if x.isCanceled && !s.isCancelled loop.env.token then .remaining side.other
  else .settling side x

/-- What the loop that waits goes on with when it is handed an exit. -/
def Caller.after (s : Store) (x : Exit) : Caller → Fiber
  | .acquiring loop use release =>
    match x with
    | .succeeded v => ⟨loop.push (.release s.brackets (release v)),
        if s.isCancelled loop.env.token then .unwinding .canceled else .evaluating (use v)⟩
    | failed => ⟨loop, .unwinding failed⟩
  | .releasing loop _ outcome => ⟨loop, .unwinding (Exit.behind outcome x)⟩
  | .racingLeft loop _ _ => ⟨loop, loop.decided s .left x⟩
  | .racingRight loop _ _ => ⟨loop, loop.decided s .right x⟩
  | .settling loop winner y => ⟨loop, .unwinding (winner.tag y)⟩
  | .remaining loop side => ⟨loop, .unwinding (side.tag x)⟩

theorem Caller.token_after (s : Store) (x : Exit) (caller : Caller) :
    (caller.after s x).token = caller.fiber.token := by
  cases caller with
  | acquiring => cases x <;> rfl
  | releasing | racingLeft | racingRight | settling | remaining => rfl

theorem Caller.race_of_fiber {caller : Caller} {loop : Loop} {tokens : RaceTokens}
    (h : caller.fiber = ⟨loop, .racing tokens⟩) :
    ∃ side other, caller = .race loop tokens other side := by
  cases caller with
  | racingLeft loop tokens other =>
    cases h
    exact ⟨.left, other, rfl⟩
  | racingRight loop tokens other =>
    cases h
    exact ⟨.right, other, rfl⟩
  | acquiring | releasing | settling | remaining => cases h

theorem Caller.after_race {s : Store} {x : Exit} {loop : Loop} {tokens : RaceTokens}
    {other : Segment} {side : Side} :
    (Caller.race loop tokens other side).after s x = ⟨loop, loop.decided s side x⟩ := by
  cases side <;> rfl

/-- The loops of what a step of a poll has come to. -/
def Progress.berths : Progress → Multiset Berth
  | .next c => c.berths
  | .parked segment => segment.berths .outer
  | .ended _ | .faulted _ => 0

section

variable {worker : Worker} {c : Config} {s : Store} {l : Room} {φ : Fiber}

theorem Caller.allBerths_suffix {callers callers' : List Caller} (h : callers <:+ callers') :
    allBerths callers ⊆ allBerths callers' := by
  obtain ⟨inner, rfl⟩ := h
  induction inner with
  | nil => exact Multiset.Subset.refl _
  | cons caller inner ih =>
    exact fun b mem => Multiset.mem_add.mpr (.inr (ih mem))

/-- What is in the callers stays there while a poll goes on inside them. -/
theorem Machine.Inside.berths {callers : List Caller} {progress : Progress}
    (h : Inside callers progress) {b : Berth} (mem : b ∈ Caller.allBerths callers) :
    b ∈ progress.berths ∨ ∃ f, progress = .faulted f := by
  cases progress with
  | next c =>
    obtain ⟨focus, callers'⟩ := c
    cases focus with
    | leave => exact h.elim
    | eval | unwind | resume | park =>
      exact .inl (Multiset.mem_add.mpr (.inr (Caller.allBerths_suffix h mem)))
  | faulted f => exact .inr ⟨f, rfl⟩
  | ended | parked => exact h.elim

theorem Machine.parkStep_berths (segment : Segment) (callers : List Caller) :
    (parkStep segment callers).berths
      = segment.berths (Caller.innerRoom callers) + Caller.allBerths callers := by
  cases callers with
  | nil => simp [parkStep, Progress.berths]
  | cons caller callers =>
    cases caller <;>
      simp [parkStep, Machine.park, Machine.resume, Progress.berths, Segment.berths,
        Caller.berths, Caller.room, Loop.side, Loop.inside, add_assoc, add_left_comm]

/-- The other operand is taken up where it is, however a race goes on. -/
theorem Machine.settle_berths {loop : Loop} {tokens : RaceTokens} {side : Side} {x : Exit}
    {other : Segment} {callers : List Caller} {b : Berth}
    (mem : b ∈ other.berths (loop.side side.other)) :
    b ∈ (settle loop tokens side x other callers s).1.berths := by
  unfold settle
  split <;> exact Multiset.mem_add.mpr (.inl mem)

/-- Taking up a segment touches none of its loops that wait for nested ones. -/
theorem Machine.resumeStep_hosts {segment : Segment} {callers : List Caller} {room : Room}
    (hosts : φ.Hosts room) (mem : ⟨l, .fiber φ⟩ ∈ segment.berths (Caller.innerRoom callers)) :
    ⟨l, .fiber φ⟩ ∈ (resumeStep worker callers s segment).1.berths := by
  cases segment with
  | start | callback | future | gathering =>
    cases Multiset.mem_singleton.mp mem
    cases hosts
  | shifted => cases Multiset.mem_singleton.mp mem
  | acquiring loop' use release inner | releasing loop' bracket outcome inner
  | racing loop' tokens' left right | settling loop' winner exit inner
  | remaining loop' side inner =>
    have grip := Multiset.mem_add.mpr (.inl mem :
      _ ∨ (⟨l, .fiber φ⟩ : Berth) ∈ Caller.allBerths callers)
    simpa [resumeStep, Machine.resume, Progress.berths, Segment.berths, Caller.berths, Caller.room,
      Loop.side, Loop.inside, add_assoc, or_comm, or_left_comm, or_assoc] using grip

theorem Machine.resumeStep_shifted {env : Env} {t : TaskId} {callers : List Caller} {b : Berth}
    (mem : b ∈ Caller.allBerths callers) :
    b ∈ (resumeStep worker callers s (.shifted env t)).1.berths ∨
      ∃ f, (resumeStep worker callers s (.shifted env t)).1 = .faulted f := by
  simp only [resumeStep]
  split
  · split
    · next x came =>
      refine .inl ?_
      change b ∈ Config.berths ⟨.leave x, callers⟩
      rwa [Config.berths_leave]
    · next f came => exact .inr ⟨f, rfl⟩
  · exact .inl (Multiset.mem_add.mpr (.inr mem))

/-- A loop that waits for a nested one goes on by nothing but an exit that is handed to it. -/
theorem Config.step_hosts (worker : Worker) (s : Store) {room : Room} (hosts : φ.Hosts room)
    (mem : ⟨l, .fiber φ⟩ ∈ c.berths) :
    (∃ x caller callers, c = ⟨.leave x, caller :: callers⟩ ∧ caller.fiber = φ) ∨
      ⟨l, .fiber φ⟩ ∈ (c.step worker s).1.berths ∨ ∃ f, (c.step worker s).1 = .faulted f := by
  obtain ⟨focus, callers⟩ := c
  cases focus with
  | eval loop' effect =>
    obtain same | mem := Multiset.mem_cons.mp mem
    · cases same
      cases hosts
    · exact .inr ((Machine.inside_evalStep effect).berths mem)
  | unwind loop' y =>
    obtain same | mem := Multiset.mem_cons.mp mem
    · cases same
      cases hosts
    obtain ⟨env, frames⟩ := loop'
    cases frames with
    | cons frame frames => exact .inr ((Machine.inside_frameStep frame y).berths mem)
    | nil =>
      refine .inr (.inl ?_)
      change _ ∈ Config.berths ⟨.leave y, callers⟩
      rwa [Config.berths_leave]
  | leave y =>
    rw [Config.berths_leave] at mem
    cases callers with
    | nil => cases mem
    | cons caller callers =>
      obtain mem | mem := Multiset.mem_add.mp mem
      · cases caller with
        | acquiring | releasing | settling | remaining =>
          cases Multiset.mem_singleton.mp mem
          exact .inl ⟨y, _, callers, rfl, rfl⟩
        | racingLeft loop' tokens' other | racingRight loop' tokens' other =>
          obtain same | mem := Multiset.mem_cons.mp mem
          · cases same
            exact .inl ⟨y, _, callers, rfl, rfl⟩
          · exact .inr (.inl (Machine.settle_berths mem))
      · exact .inr ((Machine.inside_returnStep caller).berths mem)
  | park segment =>
    refine .inr (.inl ?_)
    change _ ∈ (Machine.parkStep segment callers).berths
    rwa [Machine.parkStep_berths]
  | resume segment =>
    obtain mem | mem := Multiset.mem_add.mp mem
    · exact .inr (.inl (Machine.resumeStep_hosts hosts mem))
    · cases here : segment.isShifted with
      | false => exact .inr ((Machine.inside_resumeStep here).berths mem)
      | true =>
        cases segment with
        | shifted env t => exact .inr (Machine.resumeStep_shifted mem)
        | _ => cases here

theorem Machine.settle_after {loop : Loop} {tokens : RaceTokens} {side : Side} {x : Exit}
    {other : Segment} {callers : List Caller} :
    loop.berth (Caller.innerRoom callers) (loop.decided s side x)
      ∈ (settle loop tokens side x other callers s).1.berths := by
  unfold settle Loop.decided
  split <;>
    exact Multiset.mem_add.mpr (.inr (Multiset.mem_add.mpr (.inl (Multiset.mem_singleton_self _))))

theorem Machine.returnStep_after (x : Exit) (callers : List Caller) (caller : Caller) :
    ⟨Caller.innerRoom callers, .fiber (caller.after s x)⟩ ∈ (returnStep x callers s caller).1.berths
    := by
  cases caller with
  | acquiring loop use release =>
    cases x with
    | succeeded v =>
      simp only [returnStep, Caller.after]
      have same : ∀ e : Event, Store.isCancelled
          (Store.emit { s with brackets := s.brackets + 1 } e) loop.env.token
            = s.isCancelled loop.env.token := fun _ => rfl
      cases live : s.isCancelled loop.env.token <;>
        simp [same, live, Loop.push, Machine.unwind, Machine.eval, Progress.berths, Loop.berth]
    | errored | canceled => exact Multiset.mem_cons_self _ _
  | releasing loop bracket outcome => cases x <;> cases outcome <;> exact Multiset.mem_cons_self _ _
  | racingLeft | racingRight => exact Machine.settle_after
  | settling | remaining => exact Multiset.mem_cons_self _ _

end

/-- A task that is waited for was waited for before, or it has just been started, or refused. -/
theorem Motion.staffs {s s' : Store} {B B' : Multiset Berth} {ms : List Event} {new : List Spawn}
    (h : Motion s s' B ms new B') {b : Berth} {t : TaskId} (mem : b ∈ B') (wait : t ∈ b.post.waits) :
    (∃ b₀ ∈ B, t ∈ b₀.post.waits) ∨ s'.joined? t = some .aborted ∨
      ∃ x ∈ new, x.task = t ∧ x.segment? ≠ none := by
  have kept : ∀ {b₀ : Berth} {B : Multiset Berth}, b ∈ B →
      ∃ b₁ ∈ b₀ ::ₘ B, t ∈ b₁.post.waits := fun mem => ⟨b, Multiset.mem_cons_of_mem mem, wait⟩
  cases h with
  | idle => exact .inl ⟨b, mem, wait⟩
  | back | left => exact .inl (kept mem)
  | @act l φ φ' _ _ _ _ step deed newborn =>
    obtain rfl | mem := Multiset.mem_cons.mp mem
    · obtain ⟨loop', doing'⟩ := φ'
      cases doing' with
      | gathering g' =>
        obtain ⟨g, rfl, advances⟩ := step.gathering (deed.single step)
        exact .inl ⟨_, Multiset.mem_cons_self _ _, (advances.pending.map _).subset wait⟩
      | _ => cases wait
    · obtain mem | mem := Multiset.mem_add.mp mem
      · obtain ⟨env, effect, same⟩ := (newborn b mem).loop
        simp [Berth.post, Post.waits, same] at wait
      · exact .inl (kept mem)
  | fan opened =>
    obtain rfl | mem := Multiset.mem_cons.mp mem
    · obtain ⟨y, waiting, rfl⟩ := List.mem_map.mp wait
      obtain aborted | ⟨token, derived, started⟩ := opened.tasks y waiting
      · exact .inr (.inl aborted)
      · exact .inr (.inr ⟨_, started, rfl, Option.some_ne_none _⟩)
    · exact .inl (kept mem)
  | @sent l loop context B live refused =>
    obtain rfl | mem := Multiset.mem_cons.mp mem
    · obtain rfl := List.mem_singleton.mp wait
      cases state : context.isOpen with
      | false => exact .inr (.inl (refused state))
      | true => exact .inr (.inr ⟨_, List.mem_singleton_self _, rfl, Option.some_ne_none _⟩)
    · exact .inl (kept mem)

theorem Strand.berths_state (run : TokenId) (role : Role) (progress : Progress) :
    (⟨run, role, progress.state⟩ : Strand).berths = progress.berths := by
  cases progress <;> rfl

/-- A strand in which an exit is under way has the loops of the callers and no other. -/
theorem Strand.berths_of_handed {τ : Strand} {callers : List Caller} {x : Exit}
    (hands : τ.state.handed? = some (callers, x)) : τ.berths = Caller.allBerths callers := by
  obtain ⟨run, role, state⟩ := τ
  cases state with
  | waiting | faulted | dropped => cases hands
  | ended y =>
    cases hands
    rfl
  | running config =>
    obtain ⟨focus, callers'⟩ := config
    cases focus with
    | eval | unwind | resume | park => cases hands
    | leave y =>
      cases hands
      exact Config.berths_leave _ _

namespace Runtime

variable {σ σ' : Runtime} {run c : TokenId} {φ φ' : Fiber} {loop : Loop} {tokens : RaceTokens}
  {t : TaskId} {x : Exit}

theorem mem_crew_berths : (run, φ) ∈ σ.crew ↔
    ∃ τ ∈ σ.strands, τ.run = run ∧ ∃ l, ⟨l, .fiber φ⟩ ∈ τ.berths := by
  rw [mem_crew_iff]
  constructor
  · rintro ⟨κ, mem, rfl, inside⟩
    obtain ⟨τ, inStrands, rfl⟩ := Multiset.mem_map.mp mem
    exact ⟨τ, inStrands, rfl, inside⟩
  · rintro ⟨τ, inStrands, rfl, inside⟩
    exact ⟨τ.company, Multiset.mem_map_of_mem _ inStrands, rfl, inside⟩

theorem mem_crew_turn {worker : Worker} {role : Strand.Role} {c : Config} {s : Store}
    {rest : Multiset Strand} {log : List Moment} {l : Room}
    (mem : ⟨l, .fiber φ⟩ ∈ (c.step worker s).1.berths) :
    (run, φ) ∈ (turn worker run role c ⟨s, rest, log⟩).crew :=
  mem_crew_berths.mpr
    ⟨_, Multiset.mem_cons_self _ _, rfl, l, (Strand.berths_state run role _).symm ▸ mem⟩

/-- A strand that fails starts nothing that goes on. -/
theorem turn_faulted {worker : Worker} {role : Strand.Role} {c : Config} {s : Store}
    {rest : Multiset Strand} {log : List Moment} {f : Fault}
    (fault : (c.step worker s).1 = .faulted f) : (turn worker run role c ⟨s, rest, log⟩).strands
      = ⟨run, role, .faulted f⟩ ::ₘ rest := by
  obtain ⟨-, es, new, trace, spawned, came⟩ := c.step_moves worker s
  rw [fault] at came
  cases came with
  | faulted quiet =>
    have none : Strand.ofSpawns run new = 0 := by
      refine Multiset.eq_zero_of_forall_notMem fun τ mem => ?_
      obtain ⟨x, started, segment, some, -⟩ := Strand.mem_ofSpawns.mp mem
      cases (quiet x started).symm.trans some
    simp [Runtime.turn_eq trace spawned, fault, Progress.state, none]

/-- A loop that waits for a nested one goes on by the exit that it is handed. -/
theorem Step.returns (h : Reachable σ) (step : Step σ σ') (mem : (run, φ) ∈ σ.crew) {room : Room}
    (hosts : φ.Hosts room) (mem' : (run, φ') ∈ σ'.crew) (token : φ'.token = φ.token) :
    φ' = φ ∨ ∃ role x caller callers,
      ⟨run, role, .running ⟨.leave x, caller :: callers⟩⟩ ∈ σ.strands ∧ caller.fiber = φ ∧
        φ' = caller.after σ.store x := by
  have manned' := Reachable.manned (.tail h step)
  have stays : (run, φ) ∈ σ'.crew → φ' = φ := fun there =>
    congrArg Prod.snd (manned'.unique mem' there token)
  have stayed : (run, φ') ∈ σ.crew → φ' = φ := fun there =>
    congrArg Prod.snd (h.manned.unique there mem token)
  obtain ⟨τ, inStrands, rfl, l, inside⟩ := mem_crew_berths.mp mem
  have kept : τ ∈ σ'.strands → φ' = φ := fun there =>
    stays (mem_crew_berths.mpr ⟨τ, there, rfl, l, inside⟩)
  cases step with
  | begin | beginBelow => exact .inl (kept (Multiset.mem_cons_of_mem inStrands))
  | report | cancel | fresh | child | prune | outside => exact .inl (kept inStrands)
  | poll s rest log run role segment =>
    obtain rfl | inStrands := Multiset.mem_cons.mp inStrands
    · refine .inl (stays (mem_crew_berths.mpr ⟨_, Multiset.mem_cons_self _ _, rfl, l, ?_⟩))
      simpa [Strand.berths] using inside
    · exact .inl (kept (Multiset.mem_cons_of_mem inStrands))
  | giveUp s rest log r segment live unstarted =>
    obtain ⟨τ', inStrands', same, l', inside'⟩ := mem_crew_berths.mp mem'
    obtain rfl | inRest := Multiset.mem_cons.mp inStrands'
    · refine .inl (stayed (mem_crew_berths.mpr ⟨_, Multiset.mem_cons_self _ _, ?_⟩))
      unfold Strand.remainder at same inside'
      split at inside'
      · next goes =>
        rw [if_pos goes] at same
        exact ⟨same, l', inside'⟩
      · cases inside'
    · exact .inl (stayed (mem_crew_berths.mpr
        ⟨τ', Multiset.mem_cons_of_mem inRest, same, l', inside'⟩))
  | turn s rest log run role c worker =>
    obtain rfl | inStrands := Multiset.mem_cons.mp inStrands
    · obtain ⟨x, caller, callers, rfl, rfl⟩ | there | ⟨f, fault⟩ :=
        Config.step_hosts worker s hosts inside
      · refine .inr ⟨role, x, caller, callers, Multiset.mem_cons_self _ _, rfl, ?_⟩
        have goes := Machine.returnStep_after (s := s) x callers caller
        exact congrArg Prod.snd
          (manned'.unique mem' (mem_crew_turn goes) (token.trans (caller.token_after s x).symm))
      · exact .inl (stays (mem_crew_turn there))
      · obtain ⟨τ', inStrands', same, l', inside'⟩ := mem_crew_berths.mp mem'
        rw [turn_faulted fault] at inStrands'
        obtain rfl | inRest := Multiset.mem_cons.mp inStrands'
        · cases inside'
        · exact .inl (stayed (mem_crew_berths.mpr
            ⟨τ', Multiset.mem_cons_of_mem inRest, same, l', inside'⟩))
    · exact .inl (kept (Multiset.mem_cons_of_mem (Multiset.mem_add.mpr (.inr inStrands))))

/-- A race goes on by the exit of an operand that is handed to it: that exit decides it, unless
the operand was cancelled by itself. -/
theorem Step.decides (h : Reachable σ) (step : Step σ σ')
    (mem : (run, ⟨loop, .racing tokens⟩) ∈ σ.crew) (mem' : (run, φ') ∈ σ'.crew)
    (token : φ'.token = loop.env.token) :
    φ' = ⟨loop, .racing tokens⟩ ∨ ∃ role side x other callers,
      ⟨run, role, .running ⟨.leave x, .race loop tokens other side :: callers⟩⟩ ∈ σ.strands ∧
        φ' = ⟨loop, loop.decided σ.store side x⟩ := by
  refine (step.returns h mem (.racing .left) mem' token).imp_right ?_
  rintro ⟨role, x, caller, callers, inStrands, same, rfl⟩
  obtain ⟨side, other, rfl⟩ := Caller.race_of_fiber same
  exact ⟨role, side, x, other, callers, inStrands, Caller.after_race⟩

/-! ## Who carries a task out -/

/-- A task that is waited for has a strand of the run, or was refused by a closed context. -/
def Staffed (σ : Runtime) : Prop :=
  ∀ κ ∈ σ.companies, ∀ b ∈ κ.berths, ∀ t ∈ b.post.waits,
    (∃ τ ∈ σ.strands, τ.run = κ.run ∧ τ.role = .task t) ∨ σ.store.joined? t = some .aborted

theorem Step.staffed (h : σ.Staffed) (booked : σ.Booked) (step : Step σ σ') : σ'.Staffed := by
  intro κ mem b inside t wait
  obtain ⟨loop, effect, rfl⟩ | ⟨B, ms, new, acting, motion, started⟩ :=
    step.advance.berth mem inside
  · cases wait
  obtain ⟨b₀, mem₀, wait₀⟩ | aborted | ⟨x, begun, rfl, part⟩ := motion.staffs inside wait
  · obtain ⟨τ, inStrands, run, role⟩ | aborted := h _ acting b₀ mem₀ t wait₀
    · obtain ⟨τ', inStrands', run', role'⟩ := step.strand inStrands
      exact .inl ⟨τ', inStrands', run'.trans run, role'.trans role⟩
    · exact .inr (step.joined? booked aborted)
  · exact .inr aborted
  · obtain ⟨τ, inStrands, same⟩ :=
      Multiset.mem_map.mp (started (Company.mem_ofSpawns.mpr ⟨x, begun, part, rfl⟩))
    exact .inl ⟨τ, inStrands, congrArg Company.run same, congrArg Company.role same⟩

theorem Reachable.staffed (h : Reachable σ) : σ.Staffed := by
  induction h with
  | refl => exact fun κ mem => by cases mem
  | tail reach step ih => exact Step.staffed ih (Reachable.booked reach) step

/-- What is handed to a loop that waits for a task is what the task has come to. -/
theorem Reachable.came (h : Reachable σ) {κ : Company} (mem : κ ∈ σ.companies) {b : Berth}
    (inside : b ∈ κ.berths) (wait : t ∈ b.post.waits) {joined : Joined}
    (found : σ.store.joined? t = some joined) (exit : joined.exit = .ok x) :
    σ.Came κ.run t x := by
  obtain ⟨⟨run, role, state⟩, inStrands, rfl, rfl⟩ | aborted := h.staffed κ mem b inside t wait
  · exact h.booked.came inStrands (Store.exit?_of_joined found exit)
  · cases found.symm.trans aborted
    cases exit
    exact .inr ⟨aborted, rfl⟩

/-! ## Where an exit is from -/

/-- An exit that is under way was so before, or the loop that it is from was in control: it has
ended, or the task has in which it went on. -/
theorem Step.hands (step : Step σ σ') {τ' : Strand} (mem : τ' ∈ σ'.strands)
    {callers : List Caller} (hands : τ'.state.handed? = some (callers, x)) :
    (∃ τ ∈ σ.strands, τ.run = τ'.run ∧ τ.role = τ'.role ∧ τ.state.handed? = some (callers, x)) ∨
      (∃ env, ⟨τ'.run, τ'.role, .running ⟨.unwind ⟨env, []⟩ x, callers⟩⟩ ∈ σ.strands ∧
        σ'.log = .of τ'.run σ.store (.left env.token x) :: σ.log) ∨
      ∃ env t joined, ⟨τ'.run, τ'.role, .running ⟨.resume (.shifted env t), callers⟩⟩ ∈ σ.strands ∧
        σ.store.joined? t = some joined ∧ joined.exit = .ok x := by
  have old : τ' ∈ σ.strands → _ := fun mem =>
    (⟨τ', mem, rfl, rfl, hands⟩ : ∃ τ ∈ σ.strands, τ.run = τ'.run ∧ τ.role = τ'.role ∧
      τ.state.handed? = some (callers, x))
  cases step with
  | begin | beginBelow =>
    obtain rfl | mem := Multiset.mem_cons.mp mem
    · cases hands
    · exact .inl (old mem)
  | report | cancel | fresh | child | prune | outside => exact .inl (old mem)
  | poll s rest log run role segment =>
    obtain rfl | mem := Multiset.mem_cons.mp mem
    · cases hands
    · exact .inl (old (Multiset.mem_cons_of_mem mem))
  | giveUp s rest log r segment live unstarted =>
    obtain rfl | mem := Multiset.mem_cons.mp mem
    · unfold Strand.remainder at hands
      split at hands
      · simp [Strand.ofRun, live, Strand.State.handed?] at hands
      · cases hands
    · exact .inl (old (Multiset.mem_cons_of_mem mem))
  | turn s rest log run role c worker =>
    obtain rfl | mem := Multiset.mem_cons.mp mem
    · cases Config.step_hands hands with
      | @left env =>
        refine .inr (.inl ⟨env, Multiset.mem_cons_self _ _, ?_⟩)
        have since : s.since (s.emit (.left env.token x)) = [.left env.token x] :=
          Store.since_eq rfl
        change ((s.since (s.emit (.left env.token x))).filter Event.isMark).map _ ++ log = _
        rw [since]
        rfl
      | back found exit =>
        exact .inr (.inr ⟨_, _, _, Multiset.mem_cons_self _ _, found, exit⟩)
      | last none =>
        subst none
        exact .inl ⟨_, Multiset.mem_cons_self _ _, rfl, rfl, rfl⟩
    · obtain mem | mem := Multiset.mem_add.mp mem
      · obtain ⟨y, started, segment, some, rfl⟩ := Strand.mem_ofSpawns.mp mem
        cases hands
      · exact .inl (old (Multiset.mem_cons_of_mem mem))

/-- The exit that a strand of a run hands to its callers is that of the loop with the token `c`:
of the run itself, of the outermost loop of its task, or of an operand of the race that waits. -/
def Heard (σ : Runtime) (run : TokenId) (role : Strand.Role) (callers : List Caller)
    (c : TokenId) : Prop :=
  match callers, role with
  | [], .root => c = run
  | [], .task t => t < σ.store.joins.size ∧
      ∀ π ∈ σ.parties, ∀ p ∈ π.posts, t ∈ p.waits → p.Ties σ.store t c
  | .racingLeft _ tokens _ :: _, _ => c = tokens.left
  | .racingRight _ tokens _ :: _, _ => c = tokens.right
  | _ :: _, _ => True

theorem Step.heard (h : Reachable σ) (step : Step σ σ') {role : Strand.Role}
    {callers : List Caller} (heard : σ.Heard run role callers c) :
    σ'.Heard run role callers c := by
  cases callers with
  | cons caller callers => cases caller <;> exact heard
  | nil =>
    cases role with
    | root => exact heard
    | task t =>
      obtain ⟨known, ties⟩ := heard
      refine ⟨Nat.lt_of_lt_of_le known step.joins_le, fun π mem p inside wait => ?_⟩
      obtain ⟨π₀, mem₀, p₀, inside₀, wait₀, later⟩ | ⟨fresh, -⟩ :=
        step.turnover.bonds h.booked step.ages mem inside wait
      · exact later c (ties π₀ mem₀ p₀ inside₀ wait₀)
      · exact (Nat.not_lt.mpr fresh.le known).elim

/-- What stands in the room of the loop in control is the loop whose exit the callers will
receive. -/
theorem Reachable.heard (h : Reachable σ) {τ : Strand} (mem : τ ∈ σ.strands) {b : Berth}
    {callers : List Caller} (inside : b ∈ τ.berths) (room : b.room = Caller.innerRoom callers)
    (around : Caller.allBerths callers ⊆ τ.berths) : σ.Heard τ.run τ.role callers b.token := by
  have inCompanies : τ.company ∈ σ.companies := Multiset.mem_map_of_mem _ mem
  have inParties : τ.company.party ∈ σ.parties := mem_parties.mpr ⟨_, inCompanies, rfl⟩
  have post : b.post ∈ τ.company.party.posts := Multiset.mem_map_of_mem Berth.post inside
  obtain ⟨run, role, state⟩ := τ
  cases callers with
  | nil =>
    have link : b.post.link = .outer := by rw [Berth.post, room]; rfl
    cases role with
    | root => exact h.kindred.root _ inParties rfl _ post link
    | task t =>
      refine ⟨h.booked.known _ mem t rfl, fun π mem p inside wait => ?_⟩
      exact (h.bonded π mem p inside t wait).2 _ inParties rfl _ post link
  | cons caller callers =>
    cases caller with
    | acquiring | releasing | settling | remaining => trivial
    | racingLeft loop tokens other =>
      exact (h.orderly _ inCompanies).operands _ loop tokens
        (around (Multiset.mem_add.mpr (.inl (Multiset.mem_cons_self _ _)))) b inside .left room
    | racingRight loop tokens other =>
      exact (h.orderly _ inCompanies).operands _ loop tokens
        (around (Multiset.mem_add.mpr (.inl (Multiset.mem_cons_self _ _)))) b inside .right room

/-- A loop has left with an exit, or it was cancelled without being carried out. -/
def Left (σ : Runtime) (c : TokenId) (x : Exit) : Prop :=
  .left c x ∈ σ.events ∨ x = .canceled ∧ ∃ t, σ.store.joined? t = some .aborted

theorem Step.left (h : Reachable σ) (step : Step σ σ') (left : σ.Left c x) : σ'.Left c x := by
  obtain ⟨new, log, -⟩ := step.move.enters
  refine left.imp (fun mem => ?_) (And.imp_right fun ⟨t, aborted⟩ =>
    ⟨t, step.joined? h.booked aborted⟩)
  simp only [events, log, List.map_append, List.mem_append]
  exact .inr mem

/-- An exit that is handed over was left by the loop that it is from. -/
theorem Reachable.handed (h : Reachable σ) {τ : Strand} (mem : τ ∈ σ.strands)
    {callers : List Caller} (hands : τ.state.handed? = some (callers, x)) :
    ∃ c, σ.Left c x ∧ σ.Heard τ.run τ.role callers c := by
  induction h generalizing τ callers x with
  | refl => cases mem
  | @tail σ σ' reach step ih =>
    have later : ∀ {run : TokenId} {role : Strand.Role},
        (∃ c, σ.Left c x ∧ σ.Heard run role callers c) →
          ∃ c, σ'.Left c x ∧ σ'.Heard run role callers c := fun ⟨c, left, heard⟩ =>
      ⟨c, step.left reach left, step.heard reach heard⟩
    have around : ∀ P : Multiset Berth, Caller.allBerths callers ⊆ P + Caller.allBerths callers :=
      fun P => Multiset.subset_of_le (Multiset.le_add_left _ _)
    obtain ⟨τ₀, mem₀, run, role, hands⟩ | ⟨env, mem₀, log⟩ |
      ⟨env, t, joined, mem₀, found, exit⟩ := step.hands mem hands
    · exact run ▸ role ▸ later (ih mem₀ hands)
    · refine ⟨env.token, .inl (by simp [events, log, Moment.of]), step.heard reach ?_⟩
      exact Reachable.heard reach mem₀ (Multiset.mem_add.mpr (.inl (Multiset.mem_singleton_self _))) rfl
        (around _)
    · have inside : (⟨Caller.innerRoom callers, .away env t⟩ : Berth)
          ∈ Config.berths ⟨.resume (.shifted env t), callers⟩ :=
        Multiset.mem_add.mpr (.inl (Multiset.mem_singleton_self _))
      have heard := Reachable.heard reach mem₀ inside rfl (around _)
      have inCompanies := Multiset.mem_map_of_mem Strand.company mem₀
      refine later ?_
      obtain ended | ⟨aborted, rfl⟩ :=
        Reachable.came reach inCompanies inside (List.mem_singleton_self t) found exit
      · obtain ⟨c, left, -, ties⟩ := ih ended rfl
        have waiting := ties _ (mem_parties.mpr ⟨_, inCompanies, rfl⟩) _
          (Multiset.mem_map_of_mem Berth.post inside) (List.mem_singleton_self t)
        obtain ⟨same⟩ := waiting
        exact ⟨c, left, same ▸ heard⟩
      · exact ⟨_, .inr ⟨rfl, t, aborted⟩, heard⟩

end Runtime

end EffectFibers
