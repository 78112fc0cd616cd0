import EffectFibers.Proofs.Panics

/-!
# The reach of a panic

A fiber that a panic elsewhere has cancelled goes on to its end as any cancelled fiber does: it
begins nothing more, each release that it begins is given `canceled`, and unless its own strand is
cut off too, it leaves when it has released what it had acquired, once.  Which fibers a panic
cancels depends on the tokens in between: a group that meets a panicked operand reaches all that
is moored to it, and so does the run when it is dropped, but nothing else is reached.

## Main statements

* `Runtime.Reachable.stopped`: what becomes of a fiber that is cancelled.
* `Runtime.Reachable.containment`: where a panic arrives, whom it cancels, and what they do.
-/

namespace EffectFibers

namespace Machine

/-- A wait that is taken up again under a cancelled token is over. -/
theorem resume_cancelled {s : Store} {loop : Loop} (worker : Worker) (callers : List Caller)
    (cancelled : s.isCancelled loop.env.token = true) {segment : Segment}
    (waits : (∃ slot, segment = .callback loop slot) ∨ ∃ wait, segment = .future loop wait) :
    (∃ x s', resumeStep worker callers s segment = (unwind loop x callers, s')) ∨
      resumeStep worker callers s segment = (.faulted .callbackDropped, s) := by
  obtain ⟨slot, rfl⟩ | ⟨wait, rfl⟩ := waits
  · simp only [resumeStep]
    split
    · exact .inl ⟨_, _, rfl⟩
    · exact .inr rfl
    · exact .inl ⟨_, _, by rw [if_pos cancelled]⟩
  · simp only [resumeStep]
    split
    · exact .inl ⟨_, _, rfl⟩
    · exact .inl ⟨_, _, by rw [if_pos cancelled]⟩

end Machine

namespace Runtime

variable {σ σ' : Runtime} {run t u c : TokenId}

/-! ## What is cancelled comes to its end -/

/-- A panic, or a closed context, has cut the strand off. -/
def Lost (σ : Runtime) (run : TokenId) (role : Strand.Role) : Prop :=
  ∃ τ ∈ σ.strands, τ.run = run ∧ τ.role = role ∧ τ.failed

/-- One strand makes a move, with its marks. -/
inductive Carries (σ σ' : Runtime) (κ : Company) : Prop
  | stays (mem : κ ∈ σ'.companies)
  | moves {ms : List Event} {new : List Spawn} {B' : Multiset Berth}
      (motion : Motion σ.store σ'.store κ.berths ms new B')
      (mem : ⟨κ.run, κ.role, B'⟩ ∈ σ'.companies)
      (log : σ'.log = ms.map (.of κ.run σ.store) ++ σ.log)
  | lost (lost : σ'.Lost κ.run κ.role)

theorem turn_fate (s : Store) (rest : Multiset Strand) (log : List Moment) (run : TokenId)
    (role : Strand.Role) (c : Config) (worker : Worker) :
    rest ≤ (turn worker run role c ⟨s, rest, log⟩).strands ∧
      Carries ⟨s, ⟨run, role, .running c⟩ ::ₘ rest, log⟩
        (turn worker run role c ⟨s, rest, log⟩) ⟨run, role, c.berths⟩ := by
  obtain ⟨grows, es, new, trace, spawned, came⟩ := c.step_moves worker s
  rw [turn_eq trace spawned]
  generalize (c.step worker s).2 = s' at came
  refine ⟨(Multiset.le_add_left _ _).trans (Multiset.le_cons_self _ _), ?_⟩
  generalize es.filter Event.isMark = ms at came
  generalize (c.step worker s).1 = progress at came
  cases came with
  | next motion =>
    exact .moves motion (Multiset.mem_map_of_mem Strand.company (Multiset.mem_cons_self _ _)) rfl
  | @ended x none =>
    refine .stays (Multiset.mem_map.mpr ⟨⟨run, role, .ended x⟩, Multiset.mem_cons_self _ _, ?_⟩)
    rw [none]
    rfl
  | @parked segment same =>
    refine .stays (Multiset.mem_map.mpr
      ⟨⟨run, role, .waiting segment⟩, Multiset.mem_cons_self _ _, ?_⟩)
    rw [same]
    rfl
  | @faulted f _ _ quiet marks =>
    exact .lost ⟨⟨run, role, .faulted f⟩, Multiset.mem_cons_self _ _, rfl, rfl, trivial⟩

/-- What becomes of the loops of one strand, whatever happens to the others. -/
theorem Step.carries (step : Step σ σ') {κ : Company} (mem : κ ∈ σ.companies) :
    Carries σ σ' κ := by
  cases step with
  | begin _ effect kept context | beginBelow _ parent lt effect kept context =>
    refine .stays ?_
    rw [companies_begin]
    exact Multiset.mem_cons_of_mem mem
  | poll s rest log run role segment =>
    refine .stays ?_
    simpa [companies, Strand.company, Strand.berths] using mem
  | turn s rest log run role c worker =>
    obtain ⟨others, fate⟩ := turn_fate s rest log run role c worker
    obtain ⟨τ, inStrands, rfl⟩ := Multiset.mem_map.mp mem
    obtain rfl | inRest := Multiset.mem_cons.mp inStrands
    · exact fate
    · exact .stays (Multiset.mem_map_of_mem _ (Multiset.mem_of_le others inRest))
  | report s rest log run t state result came => exact .stays mem
  | giveUp s rest log r segment live unstarted =>
    obtain ⟨τ, inStrands, rfl⟩ := Multiset.mem_map.mp mem
    obtain rfl | inRest := Multiset.mem_cons.mp inStrands
    · by_cases begun : r.started && r.context.isOpen
      · refine .stays (Multiset.mem_map.mpr ⟨_, Multiset.mem_cons_self _ _, ?_⟩)
        rw [Strand.remainder, if_pos begun]
      · refine .lost ⟨_, Multiset.mem_cons_self _ _, ?_, ?_, ?_⟩
        all_goals rw [Strand.remainder, if_neg begun]
        · rfl
        · rfl
        · trivial
    · exact .stays (Multiset.mem_map_of_mem _ (Multiset.mem_cons_of_mem inRest))
  | cancel | fresh | child | prune | outside => exact .stays mem

/-- What has become of a fiber that was cancelled. -/
inductive Halt (σ : Runtime) (run : TokenId) (y : Seat) : Prop
  | there {l : Room} {φ : Fiber} (sits : σ.Sits run y ⟨l, .fiber φ⟩)
  /-- It has ended, and what it had acquired has been released, once. -/
  | left {x : Exit} (mem : .left y.token x ∈ σ.events) (gone : y.token ∉ badges σ.crew)
      (released : ∀ b v, .acquired y.token b v ∈ σ.events →
        σ.events.countP (Event.startsRelease b) = 1 ∧
          ∃ z, .releaseFinished y.token b z ∈ σ.events)
  /-- A panic in its own strand, or a closed context, has cut it off. -/
  | lost (lost : σ.Lost run y.role)

theorem Reachable.released (h : Reachable σ) {b : BracketId} {z : Exit}
    (finished : .releaseFinished c b z ∈ σ.events) :
    σ.events.countP (Event.startsRelease b) = 1 := by
  obtain ⟨x, started⟩ := h.accounted.lawful.releaseStarted_of_releaseFinished finished
  exact h.accounted.lawful.countP_releaseStarted started

theorem Halt.step {y : Seat} (halt : σ.Halt run y) (h : Reachable σ) (step : Step σ σ')
    (cancelled : σ.store.isCancelled y.token = true) : σ'.Halt run y := by
  have reach' : Reachable σ' := .tail h step
  cases halt with
  | @there l φ sits =>
    have token : φ.token = y.token := sits.token
    have inCrew := sits.crew rfl
    obtain ⟨B, mem, inside, -⟩ := sits
    cases step.carries mem with
    | stays mem' => exact .there ⟨B, mem', inside, token⟩
    | lost lost => exact .lost lost
    | @moves ms _ B' motion mem' log =>
      obtain ⟨φ', inside', same⟩ | ⟨env, x, rfl, rfl⟩ := motion.keeps inside (token ▸ cancelled)
      · exact .there ⟨B', mem', inside', same.trans token⟩
      obtain ⟨new, log', follow⟩ := step.move.follow h.manned inCrew
      obtain rfl := List.append_cancel_right (log'.symm.trans log)
      cases follow with
      | stay _ own => simp [ownOf, Moment.of, Event.fiber?] at own
      | act acts => cases acts
      | part _ gone =>
        have events : σ'.events = .left y.token x :: σ.events := by
          simp [events, log, Moment.of, token]
        refine .left (x := x) (events ▸ List.mem_cons_self ..) (token ▸ gone) fun b v acquired => ?_
        have before : .acquired y.token b v ∈ σ.events := by simpa [events] using acquired
        obtain held | ⟨z, finished⟩ :=
          (h.accounted.kept _ inCrew).complete b v (token.symm ▸ before)
        · cases held
        · have finished : .releaseFinished y.token b z ∈ σ'.events := by
            rw [events, ← token]
            exact List.mem_cons_of_mem _ finished
          exact ⟨reach'.released finished, z, finished⟩
  | @left x mem gone released =>
    have known : y.token < σ.store.size := Forest.isCancelled_lt cancelled
    obtain ⟨gone', new, log, none⟩ := step.move.gone known gone
    have events : ∀ {e : Event}, e.fiber? = some y.token → (e ∈ σ'.events ↔ e ∈ σ.events) :=
      fun own => by
        rw [mem_events_of_own log own, none]
        simp
    refine .left ((events rfl).mpr mem) gone' fun b v acquired => ?_
    obtain ⟨-, z, finished⟩ := released b v ((events rfl).mp acquired)
    have finished := (events rfl).mpr finished
    exact ⟨reach'.released finished, z, finished⟩
  | lost lost =>
    obtain ⟨τ, mem, same, role, failed⟩ := lost
    exact .lost ⟨τ, step.failed mem failed, same, role, failed⟩

/-- A cancelled fiber begins nothing any more, each release that it begins is given `canceled`,
and if nothing cuts off its strand, it ends when it has released all that it had acquired. -/
theorem Reachable.stopped (h : Reachable σ) {y : Seat} (halt : σ.Halt run y)
    (cancelled : σ.store.isCancelled y.token = true) (steps : Steps σ σ') :
    σ'.Halt run y ∧ ∃ new, σ'.log = new ++ σ.log ∧ ∀ m ∈ new,
      (∀ point, m.event ≠ .entered y.token point) ∧
        ∀ b x, m.event = .releaseStarted y.token b x → x = .canceled := by
  induction steps with
  | refl => exact ⟨halt, [], rfl, nofun⟩
  | @tail σ₁ σ₂ steps step ih =>
    obtain ⟨halt₁, new, log, stopped⟩ := ih
    have reach₁ : Reachable σ₁ := .trans h steps
    have reach₂ : Reachable σ₂ := .tail reach₁ step
    have now : σ₁.store.isCancelled y.token = true := (Steps.ages steps).isCancelled _ cancelled
    refine ⟨halt₁.step reach₁ step now, ?_⟩
    obtain ⟨new', log', enters⟩ := step.move.enters
    obtain ⟨run', ms, marked, -⟩ := step.move.marks
    obtain rfl := List.append_cancel_right (log'.symm.trans marked)
    refine ⟨_, by rw [log', log, List.append_assoc], fun m mem => ?_⟩
    obtain mem | mem := List.mem_append.mp mem
    · refine ⟨fun point event => ?_, fun b x event => ?_⟩
      · obtain ⟨φ, -, token, live, -⟩ := enters m mem _ point event
        rw [token, now] at live
        cases live
      · refine reach₂.late m (log' ▸ List.mem_append_left _ mem) _ b x event ?_
        obtain ⟨e, -, rfl⟩ := List.mem_map.mp mem
        obtain rfl : e = .releaseStarted y.token b x := event
        exact now
    · exact stopped m mem

/-! ## Where a panic goes -/

/-- Where a panic arrives, whom it cancels, and what becomes of them. -/
structure Containment (σ : Runtime) : Prop where
  /-- What a panic leaves behind for who joins its task is the payload. -/
  origin : ∀ τ ∈ σ.strands, ∀ t, τ.role = .task t → ∀ f, σ.store.joined? t = some (.faulted f) →
    τ.state = .faulted f
  /-- A loop that waits behind a shift panics with the payload. -/
  shift : ∀ run role env t callers rest f worker,
    σ.strands = ⟨run, role, .running ⟨.resume (.shifted env t), callers⟩⟩ ::ₘ rest →
    σ.store.joined? t = some (.faulted f) →
    turn worker run role ⟨.resume (.shifted env t), callers⟩ ⟨σ.store, rest, σ.log⟩
      = ⟨σ.store, ⟨run, role, .faulted f⟩ ::ₘ rest, σ.log⟩
  /-- A group that meets panicked operands panics with the payload of the first of them, and what
  is moored to the group is cancelled. -/
  group : ∀ run role loop g callers rest worker,
    σ.strands = ⟨run, role, .running ⟨.resume (.gathering loop g), callers⟩⟩ ::ₘ rest →
    (∃ y ∈ g.pending, ∃ f, σ.store.joined? y.2 = some (.faulted f)) →
    GroupPanics σ (turn worker run role ⟨.resume (.gathering loop g), callers⟩
      ⟨σ.store, rest, σ.log⟩) run role g
  /-- The run that is dropped cancels what is moored to its token, and nothing else. -/
  drop : ∀ held : TokenId → Bool, (∀ c, held c = true ↔ ∃ run, σ.Holds run c) →
    ∀ t < σ.store.size, ∀ u, ((σ.store.tokens.prune held).cancel t).isCancelled u = true ↔
      σ.store.isCancelled u = true ∨ σ.Moored t u
  /-- A wait that is taken up again under a cancelled token is over. -/
  wakes : ∀ worker callers loop segment, σ.store.isCancelled loop.env.token = true →
    ((∃ slot, segment = .callback loop slot) ∨ ∃ wait, segment = .future loop wait) →
    (∃ x s, Machine.resumeStep worker callers σ.store segment
      = (Machine.unwind loop x callers, s)) ∨
      Machine.resumeStep worker callers σ.store segment = (.faulted .callbackDropped, σ.store)
  /-- A fiber that is cancelled begins nothing, gives `canceled` to each release that it begins,
  and releases once what it had acquired before it leaves. -/
  halts : ∀ run y, σ.Halt run y → σ.store.isCancelled y.token = true → ∀ σ', Steps σ σ' →
    σ'.Halt run y ∧ ∃ new, σ'.log = new ++ σ.log ∧ ∀ m ∈ new,
      (∀ point, m.event ≠ .entered y.token point) ∧
        ∀ b x, m.event = .releaseStarted y.token b x → x = .canceled

/-- For every run under every schedule: a panic reaches whoever joins the strand that it ends, with
its payload, and cancels all that is moored to a group or to a run that it passes through.  What is
moored to them by tokens that only the dropped loops held is not reached. -/
theorem Reachable.containment (h : Reachable σ) : σ.Containment where
  origin τ mem t role f result := h.booked.panicked mem role result
  shift run role env t callers rest f worker strands result :=
    turn_shifted result worker role env callers rest σ.log
  group run role loop g callers rest worker strands panic := by
    obtain ⟨s, _, log⟩ := σ
    cases strands
    exact h.group_panics worker panic
  drop held exactly t known u := h.dropped exactly known
  wakes worker callers _ _ cancelled waits :=
    Machine.resume_cancelled worker callers cancelled waits
  halts run y halt cancelled σ' steps := h.stopped halt cancelled steps

/-- A loop that is sent elsewhere panics there, and the run that sent it panics with the same
payload. -/
theorem containment_shift : ∃ σ σ' : Runtime, ∃ rest, Reachable σ ∧ σ.Containment ∧ Step σ σ' ∧
    σ'.strands = ⟨0, .root, .faulted (.raised "boom")⟩ ::ₘ rest := by
  let effect : Effect := (Effect.shift Context.home).flatMap fun _ => .fault (.raised "boom")
  let worker : Worker := ⟨1, "main"⟩
  let env : Env := ⟨0, Context.home, []⟩
  let away : Segment := .shifted env 1
  let remainder : Segment :=
    .start ⟨env, [.bind fun _ => .fault (.raised "boom")]⟩ Effect.unit
  let boom : Joined := .faulted (.raised "boom")
  let panicked : Strand := ⟨0, .task 1, .faulted (.raised "boom")⟩
  let waits : Strand := ⟨0, .root, .waiting away⟩
  -- The rest of the loop is sent away.
  obtain ⟨s, sent, spawned, known⟩ : ∃ s, Segment.poll worker 10 (.start ⟨env, []⟩ effect)
      (starting effect Context.home).store = (.parked away, s) ∧
      s.spawned = [⟨1, Context.home, .segment remainder⟩] ∧ s.joins.size = 2 :=
    ⟨_, rfl, rfl, rfl⟩
  obtain ⟨marks, -, sends⟩ := steps_of_starting rfl sent
  rw [spawned] at sends
  have strands : waits ::ₘ
      Strand.ofSpawns 0 [⟨1, Context.home, .segment remainder⟩]
        = ⟨0, .task 1, .waiting remainder⟩ ::ₘ waits ::ₘ 0 :=
    Multiset.cons_swap _ _ 0
  rw [strands] at sends
  -- It panics there, and that is told.
  let config : Config := ⟨.resume remainder, []⟩
  have panic : config.run worker 10 s = (.faulted (.raised "boom"), s) := rfl
  have polled : Step ⟨s, ⟨0, .task 1, .waiting remainder⟩ ::ₘ waits ::ₘ 0, marks⟩
      ⟨s, ⟨0, .task 1, .running config⟩ ::ₘ waits ::ₘ 0, marks⟩ := .poll ..
  obtain ⟨new, es, marks', spawned', -, -, panics⟩ :=
    steps_of_poll 0 (.task 1) (waits ::ₘ 0) marks rfl panic
  obtain rfl : new = [] := by simpa using spawned'
  have swapped : panicked ::ₘ waits ::ₘ 0
      = waits ::ₘ panicked ::ₘ 0 := Multiset.cons_swap _ _ 0
  rw [show Strand.ofSpawns 0 [] = 0 from rfl, zero_add] at panics
  let s' := s.finish 1 boom
  have told : Step ⟨s, panicked ::ₘ waits ::ₘ 0, marks' ++ marks⟩
      ⟨s', panicked ::ₘ waits ::ₘ 0, marks' ++ marks⟩ := .report _ _ _ _ _ _ _ rfl
  have ended := panics.tail told
  rw [swapped] at ended
  -- The run takes it up.
  have resumed : Step ⟨s', waits ::ₘ panicked ::ₘ 0, marks' ++ marks⟩
      ⟨s', ⟨0, .root, .running ⟨.resume away, []⟩⟩ ::ₘ panicked ::ₘ 0, marks' ++ marks⟩ := .poll ..
  have reach : Reachable
      ⟨s', ⟨0, .root, .running ⟨.resume away, []⟩⟩ ::ₘ panicked ::ₘ 0, marks' ++ marks⟩ :=
    ((((reachable_starting effect Context.home).trans sends).tail polled).trans ended).tail resumed
  have result : s'.joined? 1 = some boom :=
    (finish_joined s 1 1 boom (Nat.lt_of_lt_of_eq (Nat.lt_succ_self 1) known.symm)).trans
      (if_pos rfl)
  have contained := reach.containment
  have arrives := contained.shift 0 .root env 1 [] (panicked ::ₘ 0) _ worker rfl result
  exact ⟨_, _, panicked ::ₘ 0, reach, contained, .turn _ _ _ _ _ _ worker,
    congrArg Runtime.strands arrives⟩

end Runtime

end EffectFibers
