import EffectFibers.Effect.Combinators
import EffectFibers.Proofs.Brackets
import EffectFibers.Proofs.Kinship

/-!
# Finalization

What a run has done is its part of the log.  When the run has ended, and no panic and no shut-down
has cut a part of it off, its trace is lawful and every bracket that it acquired has been released,
once.

## Main statements

* `Runtime.Reachable.loyal`: the marks of a fiber belong to one run.
* `Runtime.Reachable.finalized`: the trace of a run that has ended.
-/

namespace EffectFibers.Runtime

variable {σ σ' : Runtime}

/-! ## The marks of a fiber -/

/-- A fiber and all its marks belong to one run. -/
structure Loyal (σ : Runtime) : Prop where
  crew : ∀ m ∈ σ.log, ∀ n ∈ σ.crew, m.event.fiber? = some n.2.token → m.run = n.1
  log : ∀ m ∈ σ.log, ∀ m' ∈ σ.log, ∀ t, m.event.fiber? = some t → m'.event.fiber? = some t →
    m.run = m'.run

/-- The marks of a move are those of a member of the crew. -/
theorem Move.marks (move : Move σ σ') : ∃ (run : TokenId) (ms : List Event),
    σ'.log = ms.map (.of run σ.store) ++ σ.log ∧
      ∀ e ∈ ms, ∃ n ∈ σ.crew, n.1 = run ∧ e.fiber? = some n.2.token := by
  cases move with
  | idle crew log | begin fresh crew log => exact ⟨0, [], log, by simp⟩
  | @act run φ φ' ms born rest step fresh distinct numbered crew crew' log =>
    refine ⟨run, ms, log, fun e mem => ⟨(run, φ), ?_, rfl, step.marks e mem⟩⟩
    exact crew ▸ Multiset.mem_cons_self _ _
  | @leave run env x crew log =>
    refine ⟨run, [.left env.token x], log, fun e mem => ?_⟩
    obtain rfl := List.mem_singleton.mp mem
    exact ⟨_, crew ▸ Multiset.mem_cons_self _ _, rfl, rfl⟩
  | @refuse run loop context closed aborted live crew log =>
    refine ⟨run, [.entered loop.env.token .shift], log, fun e mem => ?_⟩
    obtain rfl := List.mem_singleton.mp mem
    exact ⟨_, crew ▸ Multiset.mem_cons_self _ _, rfl, rfl⟩
  | @lose run gone ms crew same failed marks log =>
    refine ⟨run, ms, log, fun e mem => ?_⟩
    obtain rfl | ⟨φ, point, inGone, enters, rfl⟩ := marks
    · cases mem
    · obtain rfl := List.mem_singleton.mp mem
      exact ⟨(run, φ), crew ▸ Multiset.mem_add.mpr (.inl inGone), rfl, rfl⟩

/-- A member behind a move was there with its token, or has a new one. -/
theorem Move.member (move : Move σ σ') {n : Member} (mem : n ∈ σ'.crew) :
    (∃ n₀ ∈ σ.crew, n₀.1 = n.1 ∧ n₀.2.token = n.2.token) ∨ σ.store.size ≤ n.2.token := by
  cases move with
  | idle crew => exact .inl ⟨n, crew ▸ mem, rfl, rfl⟩
  | @act run φ φ' ms born rest step fresh distinct numbered crew crew' =>
    rw [crew'] at mem
    obtain rfl | mem := Multiset.mem_cons.mp mem
    · exact .inl ⟨(run, φ), crew ▸ Multiset.mem_cons_self _ _, rfl, step.token.symm⟩
    obtain mem | mem := Multiset.mem_add.mp mem
    · obtain ⟨χ, inBorn, rfl⟩ := Multiset.mem_map.mp mem
      exact .inr (fresh χ inBorn).fresh.le
    · exact .inl ⟨n, crew ▸ Multiset.mem_cons_of_mem mem, rfl, rfl⟩
  | leave crew => exact .inl ⟨n, crew ▸ Multiset.mem_cons_of_mem mem, rfl, rfl⟩
  | refuse closed aborted live crew =>
    exact .inl ⟨n, crew ▸ Multiset.mem_cons_of_mem mem, rfl, rfl⟩
  | lose crew => exact .inl ⟨n, crew ▸ Multiset.mem_add.mpr (.inr mem), rfl, rfl⟩
  | @begin φ fresh crew =>
    rw [crew] at mem
    obtain rfl | mem := Multiset.mem_cons.mp mem
    · exact .inr fresh.fresh.le
    · exact .inl ⟨n, mem, rfl, rfl⟩

theorem Loyal.move (h : σ.Loyal) (manned : σ.Manned) (move : Move σ σ') : σ'.Loyal := by
  obtain ⟨run, ms, log, marks⟩ := move.marks
  have known : ∀ m ∈ σ.log, ∀ t, m.event.fiber? = some t → t < σ.store.size := fun m mem =>
    manned.marked m.event (List.mem_map_of_mem mem)
  -- A mark of the past or of the move, seen beside a member that was there before.
  have beside : ∀ m ∈ σ'.log, ∀ n ∈ σ.crew, m.event.fiber? = some n.2.token → m.run = n.1 := by
    intro m mem n inCrew fiber
    rw [log] at mem
    obtain mem | mem := List.mem_append.mp mem
    · obtain ⟨e, inMarks, rfl⟩ := List.mem_map.mp mem
      obtain ⟨n', inCrew', rfl, fiber'⟩ := marks e inMarks
      have token : n'.2.token = n.2.token := Option.some.inj (fiber'.symm.trans fiber)
      rw [manned.unique inCrew' inCrew token]
      rfl
    · exact h.crew m mem n inCrew fiber
  refine ⟨fun m mem n inCrew fiber => ?_, fun m mem m' mem' t fiber fiber' => ?_⟩
  · obtain ⟨n₀, inCrew₀, run₀, token₀⟩ | new := move.member inCrew
    · exact (beside m mem n₀ inCrew₀ (token₀ ▸ fiber)).trans run₀
    · rw [log] at mem
      refine absurd new (Nat.not_le.mpr ?_)
      obtain mem | mem := List.mem_append.mp mem
      · obtain ⟨e, inMarks, rfl⟩ := List.mem_map.mp mem
        obtain ⟨n', inCrew', rfl, fiber'⟩ := marks e inMarks
        have token : n'.2.token = n.2.token := Option.some.inj (fiber'.symm.trans fiber)
        exact token ▸ manned.bound _ (mem_badges.mpr ⟨n', inCrew', rfl⟩)
      · exact known m mem _ fiber
  · have now : ∀ m ∈ ms.map (Moment.of run σ.store), ∀ m' ∈ σ'.log, m.event.fiber? = some t →
        m'.event.fiber? = some t → m.run = m'.run := by
      intro m mem m' mem' fiber fiber'
      obtain ⟨e, inMarks, rfl⟩ := List.mem_map.mp mem
      obtain ⟨n, inCrew, rfl, token⟩ := marks e inMarks
      obtain rfl : n.2.token = t := Option.some.inj (token.symm.trans fiber)
      exact (beside m' mem' n inCrew fiber').symm
    have inLog := log ▸ mem
    have inLog' := log ▸ mem'
    obtain new | old := List.mem_append.mp inLog
    · exact now m new m' mem' fiber fiber'
    · obtain new' | old' := List.mem_append.mp inLog'
      · exact (now m' new' m mem fiber' fiber).symm
      · exact h.log m old m' old' t fiber fiber'

theorem Reachable.loyal (h : Reachable σ) : σ.Loyal := by
  induction h with
  | refl => exact ⟨by simp, by simp⟩
  | tail reach step ih => exact ih.move (Reachable.manned reach) (Step.move step)

/-! ## The trace of a run -/

/-- The part of a log that belongs to a run, newest mark first. -/
def traceOf (run : TokenId) (log : List Moment) : List Event :=
  (log.filter (·.run == run)).map Moment.event

def trace (σ : Runtime) (run : TokenId) : List Event := traceOf run σ.log

theorem mem_traceOf {run : TokenId} {log : List Moment} {e : Event} :
    e ∈ traceOf run log ↔ ∃ m ∈ log, m.run = run ∧ m.event = e := by
  simp [traceOf, and_assoc]

theorem traceOf_append (run : TokenId) (new log : List Moment) :
    traceOf run (new ++ log) = traceOf run new ++ traceOf run log := by
  simp [traceOf]

/-- The trace of a run is lawful by itself. -/
theorem lawful_traceOf {log : List Moment} (lawful : Lawful (log.map Moment.event))
    (loyal : ∀ m ∈ log, ∀ m' ∈ log, ∀ t, m.event.fiber? = some t → m'.event.fiber? = some t →
      m.run = m'.run) (run : TokenId) : Lawful (traceOf run log) := by
  induction log with
  | nil => trivial
  | cons m log ih =>
    have rest := ih lawful.2 fun m₁ mem₁ m₂ mem₂ =>
      loyal m₁ (List.mem_cons_of_mem _ mem₁) m₂ (List.mem_cons_of_mem _ mem₂)
    by_cases same : m.run = run
    · have now : traceOf run (m :: log) = m.event :: traceOf run log := by simp [traceOf, same]
      rw [now]
      refine ⟨lawful.1.part (fun e mem => ?_) fun e mem marked own => ?_, rest⟩
      · obtain ⟨m', inLog, -, rfl⟩ := mem_traceOf.mp mem
        exact List.mem_map_of_mem inLog
      · obtain ⟨m', inLog, rfl⟩ := List.mem_map.mp mem
        obtain ⟨t, fiber⟩ := Option.isSome_iff_exists.mp marked
        refine mem_traceOf.mpr ⟨m', inLog, ?_, rfl⟩
        rw [← same]
        exact loyal m' (List.mem_cons_of_mem _ inLog) m (List.mem_cons_self ..) t fiber
          (own ▸ fiber)
    · have now : traceOf run (m :: log) = traceOf run log := by simp [traceOf, same]
      exact now ▸ rest

theorem traceOf_of_logged {run : TokenId} {es : List Event} {marks : List Moment}
    (h : Logged run es marks) : traceOf run marks = es.filter Event.isMark := by
  rw [← h.events, traceOf, List.filter_eq_self.mpr fun m mem => beq_iff_eq.mpr (h.run m mem)]

/-! ## Runs that have ended -/

/-- What the trace of a run, newest mark first, says when all is well: it is lawful, and each
acquired bracket was released once, and the release has ended. -/
structure Finalized (es : List Event) : Prop where
  lawful : Lawful es
  once : ∀ t b v, .acquired t b v ∈ es → es.countP (Event.startsRelease b) = 1
  finished : ∀ t b v, .acquired t b v ∈ es → ∃ y, .releaseFinished t b y ∈ es

/-- No panic has hit a part of the run, and no context was shut down. -/
structure Sound (σ : Runtime) (run : TokenId) : Prop where
  unharmed : ∀ τ ∈ σ.strands, τ.run = run → ¬ τ.failed
  opened : ∀ t, σ.store.joined? t ≠ some .aborted

theorem Sound.whole {run : TokenId} (h : σ.Sound run) : ¬ σ.Failed run := by
  rintro ⟨τ, mem, same, failed⟩
  exact h.unharmed τ mem same failed

theorem Sound.notCut {run : TokenId} (h : σ.Sound run) : ¬ σ.Cut run := by
  rintro (failed | ⟨t, aborted⟩)
  · exact h.whole failed
  · exact h.opened t aborted

/-- One strand that has not failed, in a store without other tasks. -/
theorem sound_alone {s : Store} {τ : Strand} {log : List Moment} {run : TokenId}
    (unharmed : ¬ τ.failed) (joins : s.joins = #[{}]) : Sound ⟨s, τ ::ₘ 0, log⟩ run where
  unharmed τ' mem _ := (Multiset.mem_singleton.mp mem) ▸ unharmed
  opened t := by
    have unknown : (default : Join).result = none := rfl
    cases t <;> simp [Store.joined?, Store.join, joins, unknown]

/-- When a run has ended, none of its loops is alive. -/
theorem Kindred.over (h : σ.Kindred) {τ : Strand} (mem : τ ∈ σ.strands) (root : τ.role = .root)
    {x : Exit} (ended : τ.state = .ended x) (whole : ¬ σ.Failed τ.run) {m : Member}
    (inCrew : m ∈ σ.crew) : m.1 ≠ τ.run := by
  intro run
  obtain ⟨π, inParties, same, l, inPosts⟩ := mem_crew.mp inCrew
  have alive : π.posts ≠ 0 := fun none => by simp [none] at inPosts
  rw [run] at same
  obtain ⟨π₀, mem₀, run₀, root₀, alive₀⟩ | failed := h.alive inParties alive
  · -- The party of the run's own strand is the only root of the run, and has no loops.
    have party : τ.party ∈ σ.parties := Multiset.mem_map_of_mem _ mem
    have dead : τ.party.posts = 0 := by simp [Strand.party, Strand.posts, ended]
    have isRoot : τ.party.root? = some τ.run := by simp [Party.root?, Strand.party, root]
    have isRoot₀ : π₀.root? = some τ.run := by simp [Party.root?, root₀, run₀, same]
    obtain rfl := unique_of_nodup_filterMap h.roots party mem₀ isRoot isRoot₀
    exact alive₀ dead
  · exact whole (same ▸ failed)

/-- Every run that has ended, its remainder if it was given up, has released each bracket that
it acquired exactly once, in the opposite order inside each fiber. -/
theorem Reachable.finalized (h : Reachable σ) {τ : Strand} (mem : τ ∈ σ.strands)
    (root : τ.role = .root) {x : Exit} (ended : τ.state = .ended x) (sound : σ.Sound τ.run) :
    Finalized (σ.trace τ.run) := by
  have accounted := h.accounted
  have loyal := h.loyal
  have lawful : Lawful (σ.trace τ.run) := lawful_traceOf accounted.lawful loyal.log τ.run
  have finished : ∀ t b v, .acquired t b v ∈ σ.trace τ.run →
      ∃ y, .releaseFinished t b y ∈ σ.trace τ.run := by
    intro t b v acquired
    obtain ⟨m, inLog, run, event⟩ := mem_traceOf.mp acquired
    obtain ⟨y, finished⟩ | ⟨φ, inCrew, -⟩ | cut := accounted.settled m inLog t b v event
    · obtain ⟨m', inLog', event'⟩ := List.mem_map.mp finished
      refine ⟨y, mem_traceOf.mpr ⟨m', inLog', ?_, event'⟩⟩
      rw [← run]
      exact loyal.log m' inLog' m inLog t (by rw [event']; rfl) (by rw [event]; rfl)
    · exact (h.kindred.over mem root ended sound.whole inCrew run).elim
    · exact (sound.notCut (run ▸ cut)).elim
  refine ⟨lawful, fun t b v acquired => ?_, finished⟩
  obtain ⟨y, released⟩ := finished t b v acquired
  obtain ⟨z, started⟩ := lawful.releaseStarted_of_releaseFinished released
  exact lawful.countP_releaseStarted started

/-- A guarded value is run to its end: what its trace says is said of a bracket. -/
theorem finalized_guarantee : ∃ σ : Runtime, Reachable σ ∧ σ.trace 0 =
    [.left 0 (.succeeded .null), .releaseFinished 0 0 (.succeeded .null),
      .left 2 (.succeeded .null), .releaseStarted 0 0 (.succeeded .null), .useStarted 0 0,
      .acquired 0 0 .null, .left 1 (.succeeded .null), .entered 0 .acquisition] ∧
    Finalized (σ.trace 0) := by
  let effect := Effect.unit.guarantee Effect.unit
  let poll := Segment.poll ⟨1, "main"⟩ 20 (.start ⟨⟨0, Context.home, []⟩, []⟩ effect)
    (starting effect Context.home).store
  have came : poll = (.ended (.succeeded .null), poll.2) := rfl
  obtain ⟨marks, logged, steps⟩ := steps_of_starting rfl came
  have joins : poll.2.joins = #[{}] := rfl
  have spawned : poll.2.spawned = [] := rfl
  rw [spawned] at steps
  have reach := Relation.ReflTransGen.trans (reachable_starting effect Context.home) steps
  let τ : Strand := ⟨0, .root, .ended (.succeeded .null)⟩
  have sound : Sound ⟨poll.2, τ ::ₘ 0, marks⟩ 0 := sound_alone id joins
  refine ⟨_, reach, (traceOf_of_logged logged).trans rfl, ?_⟩
  exact Reachable.finalized reach (Multiset.mem_cons_self τ 0) rfl rfl sound

end EffectFibers.Runtime
