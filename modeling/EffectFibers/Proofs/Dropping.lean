import EffectFibers.Proofs.Handover
import EffectFibers.Proofs.Lockstep
import EffectFibers.Proofs.Reach
import EffectFibers.Proofs.RunStages

/-!
# Runs that are dropped

A run that its caller lets go of is cancelled.  If it was polled before, what is left of it goes
on in a task of its own; this has the same course as the run would have had that is cancelled and
stays where it is.  The task takes a number, and so all later tasks have other numbers than they
would have had; nothing else differs, and the numbers are seen by nobody.

## Main statements

* `Runtime.Reachable.dropping`: what a dropped run is, at each of its stages.
-/

namespace EffectFibers

/-! ## A gap in the numbers of tasks -/

/-- Tasks with a gap in their numbers: on one side, another task has taken the number `n`. -/
def Lens.gap (n : TaskId) : Lens where
  named _ := True
  memory m m' := m = m'
  equivalence := eq_equivalence
  write _ same := same ▸ rfl
  task t t' := t' = if t < n then t else t + 1
  bracket b b' := b = b'
  single {t t' u u'} same same' := by
    split at same <;> split at same' <;> simp only [TaskId] at * <;> omega

theorem Lens.plain_gap (n : TaskId) : (Lens.gap n).Plain where
  named _ := trivial
  memory same := same
  bracket same := same

section

variable {n : TaskId}

theorem Lens.gap_of_lt {t : TaskId} (lt : t < n) : (Lens.gap n).task t t := by
  simp [Lens.gap, lt]

theorem Frame.mirrors_gap (f : Frame) : f.Mirrors (.gap n) f := by
  have all := (Lens.plain_gap n).reads
  cases f with
  | map f => exact .map f
  | bind f => exact .bind fun v => all (f v)
  | handle f => exact .handle fun e => all (f e)
  | again again body => exact .again again fun v => all (body v)
  | release b f => exact .release (L := .gap n) rfl fun x => all (f x)

theorem Loop.mirrors_gap (l : Loop) : l.Mirrors (.gap n) l :=
  .mk l.env (List.forall₂_same.mpr fun f _ => f.mirrors_gap)

theorem Segment.mirrors_gap (g : Segment) (link : Link)
    (known : ∀ p ∈ g.posts link, ∀ t ∈ p.waits, t < n) : g.Mirrors (.gap n) g := by
  have all := (Lens.plain_gap n).reads
  induction g generalizing link with
  | start loop effect => exact .start loop.mirrors_gap (all effect)
  | callback loop slot => exact .callback loop.mirrors_gap slot
  | future loop wait =>
    refine .future loop.mirrors_gap ?_
    cases wait with
    | never => exact .never
    | deadline time result => exact .deadline time result
    | cancellation t => exact .cancellation trivial
  | shifted env t =>
    exact .shifted env (Lens.gap_of_lt (known _ (Multiset.mem_singleton_self _) t
      (List.mem_singleton_self t)))
  | acquiring loop use release inner ih =>
    exact .acquiring loop.mirrors_gap (fun v => all (use v)) (fun v x => all (release v x))
      (ih .apart fun p mem => known p (Multiset.mem_cons_of_mem mem))
  | releasing loop b outcome inner ih =>
    exact .releasing (L := .gap n) loop.mirrors_gap rfl outcome
      (ih .apart fun p mem => known p (Multiset.mem_cons_of_mem mem))
  | racing loop tokens left right ih ih' =>
    exact .racing loop.mirrors_gap tokens
      (ih loop.below fun p mem =>
        known p (Multiset.mem_cons_of_mem (Multiset.mem_add.mpr (.inl mem))))
      (ih' loop.below fun p mem =>
        known p (Multiset.mem_cons_of_mem (Multiset.mem_add.mpr (.inr mem))))
  | settling loop winner exit loser ih =>
    exact .settling loop.mirrors_gap winner exit
      (ih loop.below fun p mem => known p (Multiset.mem_cons_of_mem mem))
  | remaining loop side operand ih =>
    exact .remaining loop.mirrors_gap side
      (ih loop.below fun p mem => known p (Multiset.mem_cons_of_mem mem))
  | gathering loop group =>
    have pending := known _ (Multiset.mem_singleton_self _)
    obtain ⟨token, pending, values, failure, canceled⟩ := group
    refine .gathering loop.mirrors_gap (.mk token ?_ values failure canceled)
    exact List.forall₂_same.mpr fun y mem =>
      ⟨rfl, Lens.gap_of_lt (pending y.2 (List.mem_map_of_mem mem))⟩

theorem Caller.mirrors_gap (c : Caller) (link : Link)
    (known : ∀ p ∈ c.posts link, ∀ t ∈ p.waits, t < n) : c.Mirrors (.gap n) c := by
  have all := (Lens.plain_gap n).reads
  cases c with
  | acquiring loop use release =>
    exact .acquiring loop.mirrors_gap (fun v => all (use v)) fun v x => all (release v x)
  | releasing loop b outcome => exact .releasing (L := .gap n) loop.mirrors_gap rfl outcome
  | racingLeft loop tokens right =>
    exact .racingLeft loop.mirrors_gap tokens
      (right.mirrors_gap loop.below fun p mem => known p (Multiset.mem_cons_of_mem mem))
  | racingRight loop tokens left =>
    exact .racingRight loop.mirrors_gap tokens
      (left.mirrors_gap loop.below fun p mem => known p (Multiset.mem_cons_of_mem mem))
  | settling loop winner exit => exact .settling loop.mirrors_gap winner exit
  | remaining loop side => exact .remaining loop.mirrors_gap side

theorem Caller.allMirror_gap (cs : List Caller)
    (known : ∀ p ∈ allPosts cs, ∀ t ∈ p.waits, t < n) : AllMirror (.gap n) cs cs := by
  induction cs with
  | nil => exact .nil
  | cons c cs ih =>
    rw [allPosts_cons] at known
    exact .cons
      (c.mirrors_gap (innermost cs) fun p mem => known p (Multiset.mem_add.mpr (.inl mem)))
      (ih fun p mem => known p (Multiset.mem_add.mpr (.inr mem)))

theorem Config.mirrors_gap (c : Config) (known : ∀ p ∈ c.posts, ∀ t ∈ p.waits, t < n) :
    c.Mirrors (.gap n) c := by
  obtain ⟨focus, cs⟩ := c
  have callers := Caller.allMirror_gap (n := n) cs fun p mem =>
    known p (Multiset.mem_add.mpr (.inr mem))
  have inner : ∀ p ∈ focus.posts (Caller.innermost cs), ∀ t ∈ p.waits, t < n := fun p mem =>
    known p (Multiset.mem_add.mpr (.inl mem))
  cases focus with
  | eval loop effect =>
    exact .eval loop.mirrors_gap ((Lens.plain_gap n).reads effect) callers
  | unwind loop x => exact .unwind loop.mirrors_gap x callers
  | leave x => exact .leave x callers
  | resume g => exact .resume (g.mirrors_gap _ inner) callers
  | park g => exact .park (g.mirrors_gap _ inner) callers

theorem Strand.mirrors_gap (τ : Strand) (task : ∀ t, τ.role = .task t → t < n)
    (known : ∀ p ∈ τ.posts, ∀ t ∈ p.waits, t < n) : τ.Mirrors (.gap n) τ := by
  obtain ⟨run, role, state⟩ := τ
  refine .mk run ?_ ?_
  · cases role with
    | root => exact .root
    | task t => exact .task (Lens.gap_of_lt (task t rfl))
  · cases state with
    | waiting g => exact .waiting (g.mirrors_gap .outer known)
    | running c => exact .running (c.mirrors_gap known)
    | ended x => exact .ended x
    | faulted f => exact .faulted f
    | dropped => exact .dropped

end

/-- A task that only one side begins leaves the gap. -/
theorem Store.agree_gap (s : Store) (e : Event) {context : Context}
    (accepts : context.isOpen = true) (job : Job) :
    s.Agree (.gap s.joins.size) (fun _ => False) ((s.emit e).spawn context job).2 := by
  unfold Store.spawn
  rw [if_pos accepts]
  exact {
    tokens := ⟨rfl, fun _ _ => rfl, fun _ _ => False.elim, fun _ => False.elim⟩
    clear := fun _ _ => id
    memory := rfl, now := rfl, timed := rfl, ended := rfl, slots := rfl
    join := by
      rintro t _ rfl
      simp only [Store.join, emit, Array.getElem?_push]
      split
      · next lt => simp [Nat.ne_of_lt lt]
      · next ge =>
        have le : s.joins.size ≤ t := Nat.not_lt.mp ge
        have unknown : s.joins[t]? = none := Array.getElem?_eq_none le
        have unknown' : s.joins[t + 1]? = none := Array.getElem?_eq_none (Nat.le_succ_of_le le)
        have ne : t + 1 ≠ s.joins.size := Nat.ne_of_gt (Nat.lt_succ_of_le le)
        simp [ne, unknown, unknown']
    tasks := fun i => by simp [Lens.gap, emit, Nat.add_right_comm]
    brackets := fun _ => rfl }

namespace Runtime

variable {σ σ' : Runtime} {τ : Strand}

/-- The tasks that are waited for are known. -/
theorem Reachable.waits_known (h : Reachable σ) (mem : τ ∈ σ.strands) :
    ∀ p ∈ τ.posts, ∀ t ∈ p.waits, t < σ.store.joins.size := by
  intro p inside t wait
  rw [← τ.map_berths] at inside
  obtain ⟨b, stands, rfl⟩ := Multiset.mem_map.mp inside
  have company : τ.company ∈ σ.companies := Multiset.mem_map_of_mem _ mem
  obtain ⟨τ', inStrands, -, role⟩ | aborted := h.staffed τ.company company b stands t wait
  · exact h.booked.known τ' inStrands t (by simp [Strand.task?, role])
  · by_contra unknown
    have none : σ.store.joins[t]? = none := Array.getElem?_eq_none (Nat.not_lt.mp unknown)
    rw [Store.joined?, Store.join, none] at aborted
    cases aborted

/-- A run that is over, and of which nothing was cut off, has released what it acquired, once. -/
theorem Reachable.settled (h : Reachable σ) {run : TokenId} (gone : σ.Over run)
    (uncut : ¬ σ.Cut run) : Finalized (σ.trace run) := by
  have loyal := h.loyal.log
  have lawful : Lawful (σ.trace run) := lawful_traceOf h.accounted.lawful loyal run
  have finished : ∀ t b v, .acquired t b v ∈ σ.trace run →
      ∃ y, .releaseFinished t b y ∈ σ.trace run := by
    intro t b v acquired
    obtain ⟨m, inLog, rfl, event⟩ := mem_traceOf.mp acquired
    obtain ⟨y, finished⟩ | ⟨φ, inCrew, -⟩ | cut := h.accounted.settled m inLog t b v event
    · obtain ⟨m', inLog', event'⟩ := List.mem_map.mp finished
      have same := loyal m' inLog' m inLog t (by rw [event']; rfl) (by rw [event]; rfl)
      exact ⟨y, mem_traceOf.mpr ⟨m', inLog', same, event'⟩⟩
    · obtain ⟨κ, inCompanies, own, l, inside⟩ := mem_crew_iff.mp inCrew
      rw [gone κ inCompanies own] at inside
      cases inside
    · exact (uncut cut).elim
  refine ⟨lawful, fun t b v acquired => ?_, finished⟩
  obtain ⟨y, released⟩ := finished t b v acquired
  obtain ⟨z, started⟩ := lawful.releaseStarted_of_releaseFinished released
  exact lawful.countP_releaseStarted started

end Runtime

/-! ## Dropping a run -/

namespace Run

variable {r : Run} {τ : Strand} {s : Store}

/-- What is left of the strand of a run that is dropped. -/
def leaves (r : Run) (τ : Strand) : Strand :=
  match r.state with
  | .live _ => .remainder r
  | .complete | .broken => τ

theorem isCancelled_giveUp (unfinished : r.isFinished = false) (t : TokenId) :
    (r.giveUp s).isCancelled t = (s.cancel r.token).isCancelled t := by
  obtain ⟨token, context, state, started⟩ := r
  cases state with
  | complete => cases unfinished
  | broken => rfl
  | live g =>
    cases started with
    | false => rfl
    | true =>
      simp only [giveUp, if_true]
      unfold Store.spawn
      split <;> rfl

theorem giveUp_of_finished (finished : r.isFinished = true) : r.giveUp s = s := by
  obtain ⟨token, context, state, started⟩ := r
  cases state with
  | complete => rfl
  | live | broken => cases finished

end Run

namespace Runtime

variable {s : Store} {rest : Multiset Strand} {log : List Moment} {r : Run} {τ : Strand}

/-- The caller lets go of a run. -/
def drop (r : Run) (τ : Strand) (s : Store) (rest : Multiset Strand) (log : List Moment) :
    Runtime := ⟨r.giveUp s, r.leaves τ ::ₘ rest, log⟩

/-- A run can be dropped at each of its stages. -/
theorem steps_drop (stands : r.Stands τ) :
    Steps ⟨s, τ ::ₘ rest, log⟩ (drop r τ s rest log) := by
  cases stands with
  | unpolled t context fresh effect =>
    refine .single (.giveUp s rest log ⟨t, context, .live _, false⟩ _ rfl fun _ => ?_)
    simp [Segment.isFresh, fresh]
  | suspended t context g =>
    refine .single (.giveUp s rest log ⟨t, context, .live g, true⟩ g rfl fun unstarted => ?_)
    cases unstarted
  | complete => exact .refl
  | broken t context f =>
    refine .tail (.single (.cancel _ t)) (.outside _ _ ?_)
    exact ⟨rfl, rfl, ⟨[_], rfl, by simp [Event.isMark, Event.fiber?, Event.isPlain]⟩,
      Nat.le_refl _, fun _ _ => .inl rfl⟩

/-- What the drop of a run is, at each of its stages. -/
structure Dropping (r : Run) (τ : Strand) (s : Store) (rest : Multiset Strand)
    (log : List Moment) : Prop where
  /-- Of a run that was not polled, nothing is ever carried out. -/
  unpolled : r.started = false → ∀ σ', Steps (drop r τ s rest log) σ' →
    σ'.Over r.token ∧ σ'.trace r.token = []
  /-- A run that is suspended goes on as one that is cancelled and stays where it is. -/
  suspended : ∀ g, r.state = .live g → r.started = true → r.context.isOpen = true →
    SameCourse ⟨s.cancel r.token, τ ::ₘ rest, log⟩ (drop r τ s rest log)
  /-- It is cancelled, and with it what was derived from its token, and nothing else is. -/
  cancelled : r.isFinished = false → (r.giveUp s).isCancelled r.token = true
  others : ∀ t, ¬ s.Below r.token t → (r.giveUp s).isCancelled t = s.isCancelled t
  /-- The caller's tokens are older than the run. -/
  older : ∀ t < r.token, (r.giveUp s).isCancelled t = s.isCancelled t
  /-- When it has ended, all that it had acquired was released, once, unless a part of it was cut
  off on the way. -/
  finalized : ∀ σ' x, Steps (drop r τ s rest log) σ' → ⟨r.token, .root, .ended x⟩ ∈ σ'.strands →
    ¬ σ'.Cut r.token → σ'.Over r.token ∧ Finalized (σ'.trace r.token)
  /-- After completion, the drop is nothing, and nothing of the run happens any more. -/
  complete : r.isFinished = true → drop r τ s rest log = ⟨s, τ ::ₘ rest, log⟩ ∧
    (¬ Failed ⟨s, τ ::ₘ rest, log⟩ r.token → ∀ σ', Steps (drop r τ s rest log) σ' →
      σ'.Over r.token ∧ σ'.trace r.token = traceOf r.token log)

/-- Nothing is left of a run that was not polled and is dropped. -/
theorem Reachable.over_unpolled (h : Reachable ⟨s, τ ::ₘ rest, log⟩) (stands : r.Stands τ)
    (unpolled : r.started = false) : Over (drop r τ s rest log) r.token := by
  obtain ⟨-, alone⟩ := h.untouched stands unpolled (Multiset.mem_cons_self τ rest)
  intro κ mem run
  obtain ⟨τ', inStrands, rfl⟩ := Multiset.mem_map.mp mem
  cases stands with
  | suspended | complete | broken => cases unpolled
  | @unpolled t context loop fresh effect =>
    -- The strand that is left has no loops, and the run has no other one.
    let left : Strand := ⟨t, .root, .dropped⟩
    have inStrands' : τ' ∈ left ::ₘ rest := inStrands
    have root : τ'.role = .root := by
      obtain rfl | inRest := Multiset.mem_cons.mp inStrands'
      · rfl
      · exact alone τ' (Multiset.mem_cons_of_mem inRest) run
    have reach := h.trans (steps_drop (.unpolled t context fresh effect))
    have same :=
      Reachable.unique_root reach inStrands (Multiset.mem_cons_self left rest) root rfl run
    rw [same]
    rfl

/-- A run that is suspended and dropped has the same course as the run that is cancelled. -/
theorem Reachable.sameCourse (h : Reachable ⟨s, τ ::ₘ rest, log⟩) (stands : r.Stands τ)
    {g : Segment} (live : r.state = .live g) (started : r.started = true)
    (accepts : r.context.isOpen = true) :
    SameCourse ⟨s.cancel r.token, τ ::ₘ rest, log⟩ (drop r τ s rest log) := by
  cases stands with
  | unpolled => cases started
  | complete | broken => cases live
  | suspended t context g =>
    let σ : Runtime := ⟨s.cancel t, ⟨t, .root, .waiting g⟩ ::ₘ rest, log⟩
    have reach : Reachable σ := .tail h (.cancel _ t)
    refine Mirrors.sameCourse (Lens.plain_gap σ.store.joins.size) ⟨?_, ?_, rfl⟩
    · exact σ.store.agree_gap (.runDropped context.name) accepts (.detached g)
    · have accepts : context.isOpen = true := accepts
      have left : Run.leaves ⟨t, context, .live g, true⟩ ⟨t, .root, .waiting g⟩
          = ⟨t, .root, .waiting g⟩ := by simp [Run.leaves, Strand.remainder, accepts, Strand.ofRun]
      rw [drop, left]
      refine Multiset.rel_refl_of_refl_on fun τ mem => τ.mirrors_gap (fun u role => ?_)
        (reach.waits_known mem)
      exact reach.booked.known τ mem u (by simp [Strand.task?, role])

/-- For every run under every schedule, at each of its stages: to drop a run is to cancel it. -/
theorem Reachable.dropping (h : Reachable ⟨s, τ ::ₘ rest, log⟩) (stands : r.Stands τ) :
    Dropping r τ s rest log := by
  have reach : Reachable (drop r τ s rest log) := h.trans (steps_drop stands)
  have mem : τ ∈ τ ::ₘ rest := Multiset.mem_cons_self τ rest
  have known : r.token < s.size :=
    stands.run ▸ h.kindred.runs τ.party (Multiset.mem_map_of_mem _ mem)
  have known' : r.token < (drop r τ s rest log).store.size :=
    Nat.lt_of_lt_of_le known (giveUp_grows r s).size_le
  have others : ∀ t, ¬ s.Below r.token t → (r.giveUp s).isCancelled t = s.isCancelled t := by
    intro t apart
    cases finished : r.isFinished with
    | true => rw [Run.giveUp_of_finished finished]
    | false =>
      rw [Run.isCancelled_giveUp finished, Bool.eq_iff_iff]
      refine ⟨fun cancelled => ?_, (Store.Grows.ages (.single (.cancel s r.token))).isCancelled t⟩
      rw [Store.isCancelled, Store.tokens_cancel] at cancelled
      exact (h.listed.below cancelled).resolve_right apart
  refine ⟨fun unpolled σ' steps => ?_, fun g live started accepts => ?_, fun unfinished => ?_,
    others, fun t lt => others t fun below => ?_, fun σ' x steps ended uncut => ?_,
    fun finished => ⟨?_, fun whole σ' steps => ?_⟩⟩
  · obtain ⟨gone, trace⟩ := (h.over_unpolled stands unpolled).steps known' steps
    refine ⟨gone, trace.trans (List.eq_nil_iff_forall_not_mem.mpr fun e mem' => ?_)⟩
    obtain ⟨m, inLog, own, -⟩ := mem_traceOf.mp mem'
    exact (h.untouched stands unpolled mem).silent m inLog own
  · exact h.sameCourse stands live started accepts
  · rw [Run.isCancelled_giveUp unfinished, Store.isCancelled, Store.tokens_cancel]
    exact Forest.isCancelled_cancel_self known
  · exact Nat.not_lt.mpr (Store.below_le below) lt
  · have reach' : Reachable σ' := reach.trans steps
    have gone := Reachable.over reach' ended fun failed => uncut (.inl failed)
    exact ⟨gone, Reachable.settled reach' gone uncut⟩
  · cases stands with
    | complete => rfl
    | unpolled | suspended | broken => cases finished
  · cases stands with
    | unpolled | suspended | broken => cases finished
    | complete t context x => exact (Reachable.over h mem whole).steps known steps

/-- A guarded wait is dropped after a poll: what the drop is, is said of a lease. -/
theorem dropping_guarantee : ∃ r τ s rest log, Reachable ⟨s, τ ::ₘ rest, log⟩ ∧ r.Stands τ ∧
    r.started = true ∧ .acquired 0 0 .null ∈ traceOf 0 log ∧ Dropping r τ s rest log := by
  let waiting : Segment := .future (guardedLoop .unit) .never
  let poll := Segment.poll ⟨1, "main"⟩ 20
    (.start ⟨⟨0, Context.home, []⟩, []⟩ (Effect.never.guarantee .unit))
    (starting (Effect.never.guarantee .unit) Context.home).store
  have came : poll = (.parked waiting, poll.2) := rfl
  obtain ⟨marks, logged, steps⟩ := steps_of_starting rfl came
  have reach := Relation.ReflTransGen.trans (reachable_starting _ Context.home) steps
  have stands := Run.Stands.suspended 0 Context.home waiting
  refine ⟨_, _, _, _, _, reach, stands, rfl, ?_, Reachable.dropping reach stands⟩
  rw [traceOf_of_logged logged]
  exact List.mem_filter.mpr ⟨List.mem_cons_of_mem _ (List.mem_cons_of_mem _
    (List.mem_cons_self ..)), rfl⟩

/-- A release panics when the run is unwound that was dropped: the lease around it is lost. -/
theorem lease_lost_in_dropped_run : ∃ r τ s log σ', Reachable ⟨s, τ ::ₘ 0, log⟩ ∧ r.Stands τ ∧
    r.started = true ∧ r.context.isOpen = true ∧ Steps (drop r τ s 0 log) σ' ∧
    (∀ τ' ∈ σ'.strands, τ'.posts = 0) ∧ .acquired 0 0 .null ∈ σ'.trace 0 ∧
    ∀ x, .releaseStarted 0 0 x ∉ σ'.trace 0 := by
  let worker : Worker := ⟨1, "main"⟩
  let panic : Effect := Effect.unit.flatMap fun _ => .fault (.raised "boom")
  let effect : Effect := (Effect.never.guarantee panic).guarantee .unit
  let waiting : Segment := .future
    ⟨⟨0, Context.home, []⟩, [.release 1 fun _ => panic, .release 0 fun _ => .unit]⟩ .never
  let poll := Segment.poll worker 30 (.start ⟨⟨0, Context.home, []⟩, []⟩ effect)
    (starting effect Context.home).store
  have came : poll = (.parked waiting, poll.2) := rfl
  obtain ⟨marks, logged, steps⟩ := steps_of_starting rfl came
  have reach := Relation.ReflTransGen.trans (reachable_starting effect Context.home) steps
  have spawned : poll.2.spawned = [] := rfl
  rw [spawned] at reach
  have stands := Run.Stands.suspended 0 Context.home waiting
  -- The token has no children: it is the only one that the drop cancels.
  have live : poll.2.tokens.nodes[0]? = some ⟨false, []⟩ := rfl
  have cancelled : poll.2.tokens.cancel 0 = poll.2.tokens.mark 0 := by
    rw [Forest.cancel_of_live live rfl, Forest.cancelAll]
  let s : Store := ({ Store.wakeAll { poll.2 with
    tokens := poll.2.tokens.mark 0, watchers := [] } [1] with
    trace := .runDropped none :: poll.2.trace }.spawn Context.home (.detached waiting)).2
  have dropped : Run.giveUp ⟨0, Context.home, .live waiting, true⟩ poll.2 = s := by
    unfold Run.giveUp
    simp only [Store.cancel, cancelled]
    rfl
  let unwound := Config.run worker 30 ⟨.resume waiting, []⟩ s
  have came : unwound = (.faulted (.raised "boom"), unwound.2) := rfl
  obtain ⟨new, es, marks', spawned', trace, logged', steps'⟩ :=
    steps_of_poll 0 .root 0 marks rfl came
  obtain rfl : new = [] := List.append_cancel_right (spawned'.symm.trans rfl)
  have begun : Step ⟨s, ⟨0, .root, .waiting waiting⟩ ::ₘ 0, marks⟩
      ⟨s, ⟨0, .root, .running ⟨.resume waiting, []⟩⟩ ::ₘ 0, marks⟩ := .poll ..
  let σ' : Runtime :=
    ⟨unwound.2, ⟨0, .root, .faulted (.raised "boom")⟩ ::ₘ 0, marks' ++ marks⟩
  have events : σ'.trace 0 = [.releaseStarted 0 1 .canceled, .entered 0 .future, .useStarted 0 1,
      .acquired 0 1 .null, .left 2 (.succeeded .null), .entered 0 .acquisition, .useStarted 0 0,
      .acquired 0 0 .null, .left 1 (.succeeded .null), .entered 0 .acquisition] := by
    have own : (es ++ s.trace).filter Event.isMark
        = es.filter Event.isMark ++ poll.2.trace.filter Event.isMark := List.filter_append ..
    rw [Runtime.trace, traceOf_append, traceOf_of_logged logged', traceOf_of_logged logged, ← own,
      ← trace]
    rfl
  refine ⟨_, _, _, marks, σ', reach, stands, rfl, rfl, ?_, fun τ' mem => ?_, ?_, fun x mem => ?_⟩
  · rw [drop, dropped]
    exact .head begun steps'
  · rw [Multiset.mem_singleton.mp mem]
    rfl
  · simp [events]
  · simp [events] at mem

end Runtime

end EffectFibers
