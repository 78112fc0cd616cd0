import EffectFibers.Proofs.Finalization

/-!
# The course of a fiber

A fiber is followed through a run of the runtime by its token.  Between two moments it makes some
of its own steps, with exactly its own marks in the log, or it ends, or it is lost when its strand
fails or when it goes to a closed context.  What a fiber can do on its own (`Fiber.Path`) is so
what it can do in any runtime, under every schedule.

## Main statements

* `Runtime.Steps.course`: what becomes of a fiber in a run of steps.
-/

namespace EffectFibers

/-- Steps of one fiber, with its marks, newest first, up to the time of a store; between two of
its steps anything else may have happened. -/
inductive Fiber.Path (run : TokenId) (now : Store) (φ : Fiber) : List Moment → Fiber → Prop
  | refl : Path run now φ [] φ
  | tail {own : List Moment} {φ₁ φ₂ : Fiber} {s : Store} {ms : List Event}
      (path : Path run now φ own φ₁) (step : φ₁.Step s ms φ₂) (before : s.Ages now) :
      Path run now φ (ms.map (.of run s) ++ own) φ₂

namespace Fiber.Path

variable {run : TokenId} {now now' : Store} {φ φ₁ φ' : Fiber} {own own' : List Moment}

theorem token (h : φ.Path run now own φ') : φ'.token = φ.token := by
  induction h with
  | refl => rfl
  | tail path step before ih => exact step.token.trans ih

theorem mono (h : φ.Path run now own φ') (ages : now.Ages now') : φ.Path run now' own φ' := by
  induction h with
  | refl => exact .refl
  | tail path step before ih => exact ih.tail step (before.trans ages)

end Fiber.Path

/-! ## Frames below -/

namespace Fiber

variable {run : TokenId} {s now : Store} {φ φ' χ : Fiber} {ms : List Event} {own : List Moment}
  {F : List Frame}

/-- The fiber with more frames below its own. -/
def above (F : List Frame) (φ : Fiber) : Fiber :=
  ⟨{ φ.loop with frames := φ.loop.frames ++ F }, φ.doing⟩

/-- The fiber has come to the end of its frames. -/
def Over (φ : Fiber) : Prop := φ.frames = [] ∧ ∃ x, φ.doing = .unwinding x

theorem Step.of_above (h : (φ.above F).Step s ms χ) (busy : ¬ φ.Over) :
    ∃ φ', φ.Step s ms φ' ∧ χ = φ'.above F := by
  obtain ⟨⟨env, frames⟩, doing⟩ := φ
  simp only [above] at h
  by_cases unwinding : ∃ x, doing = .unwinding x
  · obtain ⟨x, rfl⟩ := unwinding
    cases frames with
    | nil => exact (busy ⟨rfl, x, rfl⟩).elim
    | cons frame frames =>
      rw [List.cons_append] at h
      cases h with
      | mapped h => exact ⟨_, .mapped h, rfl⟩
      | bound => exact ⟨_, .bound, rfl⟩
      | repeated => exact ⟨_, .repeated, rfl⟩
      | handled => exact ⟨_, .handled, rfl⟩
      | skipped h => exact ⟨_, .skipped h, rfl⟩
      | release h => exact ⟨_, .release h, rfl⟩
  · generalize whole : frames ++ F = all at h
    cases h
    case mapped | bound | repeated | handled | skipped | release =>
      exact (unwinding ⟨_, rfl⟩).elim
    all_goals subst whole
    case pure => exact ⟨_, .pure, rfl⟩
    case fail => exact ⟨_, .fail, rfl⟩
    case perform h => exact ⟨_, .perform h, rfl⟩
    case cancel => exact ⟨_, .cancel, rfl⟩
    case isCancelled => exact ⟨_, .isCancelled, rfl⟩
    case map => exact ⟨_, .map, rfl⟩
    case bind => exact ⟨_, .bind, rfl⟩
    case handle => exact ⟨_, .handle, rfl⟩
    case again h => exact ⟨_, .again h, rfl⟩
    case done h => exact ⟨_, .done h, rfl⟩
    case refused h cancelled => exact ⟨_, .refused h cancelled, rfl⟩
    case register live => exact ⟨_, .register live, rfl⟩
    case await live => exact ⟨_, .await live, rfl⟩
    case shift live => exact ⟨_, .shift live, rfl⟩
    case bracket live => exact ⟨_, .bracket live, rfl⟩
    case race => exact ⟨_, .race, rfl⟩
    case fan => exact ⟨_, .fan, rfl⟩
    case delivered => exact ⟨_, .delivered, rfl⟩
    case abandoned cancelled => exact ⟨_, .abandoned cancelled, rfl⟩
    case due h => exact ⟨_, .due h, rfl⟩
    case forgone cancelled => exact ⟨_, .forgone cancelled, rfl⟩
    case gather h => exact ⟨_, .gather h, rfl⟩
    case gathered h none => exact ⟨_, .gathered h none, rfl⟩
    case acquired live => exact ⟨_, .acquired live, rfl⟩
    case acquiredLate cancelled => exact ⟨_, .acquiredLate cancelled, rfl⟩
    case notAcquired h => exact ⟨_, .notAcquired h, rfl⟩
    case released => exact ⟨_, .released, rfl⟩
    case settle => exact ⟨_, .settle, rfl⟩
    case withdrawn live => exact ⟨_, .withdrawn live, rfl⟩
    case settled => exact ⟨_, .settled, rfl⟩
    case remained => exact ⟨_, .remained, rfl⟩

/-- What a fiber does it also does above other frames. -/
theorem Step.above (F : List Frame) (step : φ.Step s ms φ') :
    (φ.above F).Step s ms (φ'.above F) := by
  cases step with
  | pure => exact .pure
  | fail => exact .fail
  | perform h => exact .perform h
  | cancel => exact .cancel
  | isCancelled => exact .isCancelled
  | map => exact .map
  | bind => exact .bind
  | handle => exact .handle
  | again h => exact .again h
  | done h => exact .done h
  | refused h cancelled => exact .refused h cancelled
  | register live => exact .register live
  | await live => exact .await live
  | shift live => exact .shift live
  | bracket live => exact .bracket live
  | race => exact .race
  | fan => exact .fan
  | delivered => exact .delivered
  | abandoned cancelled => exact .abandoned cancelled
  | due h => exact .due h
  | forgone cancelled => exact .forgone cancelled
  | gather h => exact .gather h
  | gathered h none => exact .gathered h none
  | mapped h => exact .mapped h
  | bound => exact .bound
  | repeated => exact .repeated
  | handled => exact .handled
  | skipped h => exact .skipped h
  | release h => exact .release h
  | acquired live => exact .acquired live
  | acquiredLate cancelled => exact .acquiredLate cancelled
  | notAcquired h => exact .notAcquired h
  | released => exact .released
  | settle => exact .settle
  | withdrawn live => exact .withdrawn live
  | settled => exact .settled
  | remained => exact .remained

/-- A path is empty, or begins with a step. -/
theorem Path.head (path : φ.Path run now own χ) : own = [] ∧ χ = φ ∨
    ∃ s ms φ₁ own₁, φ.Step s ms φ₁ ∧ s.Ages now ∧ φ₁.Path run now own₁ χ ∧
      own = own₁ ++ ms.map (.of run s) := by
  induction path with
  | refl => exact .inl ⟨rfl, rfl⟩
  | @tail own φ₁ φ₂ s ms path step before ih =>
    right
    obtain ⟨rfl, rfl⟩ | ⟨s₀, ms₀, φ₀, own₀, step₀, before₀, path₀, rfl⟩ := ih
    · exact ⟨s, ms, φ₂, [], step, before, .refl, List.append_nil _⟩
    · exact ⟨s₀, ms₀, φ₀, _, step₀, before₀, path₀.tail step before, (List.append_assoc ..).symm⟩

/-- A path above other frames is a path without them, up to the end of the frames above. -/
theorem Path.of_above (path : (φ.above F).Path run now own χ) : ∃ φ₁ own₁,
    φ.Path run now own₁ φ₁ ∧ (¬ φ₁.Over ∧ own = own₁ ∧ χ = φ₁.above F ∨
      φ₁.Over ∧ ∃ own₂, own = own₂ ++ own₁ ∧ (φ₁.above F).Path run now own₂ χ) := by
  have reached : ∀ {φ₁ : Fiber} {own₁ : List Moment}, φ.Path run now own₁ φ₁ →
      ∃ φ₂ own₂, φ.Path run now own₂ φ₂ ∧ (¬ φ₂.Over ∧ own₁ = own₂ ∧ φ₁.above F = φ₂.above F ∨
        φ₂.Over ∧ ∃ own₃, own₁ = own₃ ++ own₂ ∧ (φ₂.above F).Path run now own₃ (φ₁.above F)) := by
    intro φ₁ own₁ path
    by_cases spent : φ₁.Over
    · exact ⟨φ₁, own₁, path, .inr ⟨spent, [], rfl, .refl⟩⟩
    · exact ⟨φ₁, own₁, path, .inl ⟨spent, rfl, rfl⟩⟩
  induction path with
  | refl => exact reached .refl
  | @tail own χ₁ χ₂ s ms path step before ih =>
    obtain ⟨φ₁, own₁, path₁, ⟨busy, rfl, rfl⟩ | ⟨spent, own₂, rfl, path₂⟩⟩ := ih
    · obtain ⟨φ₂, step₁, rfl⟩ := step.of_above busy
      exact reached (path₁.tail step₁ before)
    · refine ⟨φ₁, own₁, path₁, .inr ⟨spent, _, ?_, path₂.tail step before⟩⟩
      rw [List.append_assoc]

end Fiber

/-! ## The marks of one fiber -/

/-- The marks of a fiber. -/
def ownOf (k : TokenId) (log : List Moment) : List Moment :=
  log.filter fun m => m.event.fiber? == some k

theorem ownOf_append (k : TokenId) (log log' : List Moment) :
    ownOf k (log ++ log') = ownOf k log ++ ownOf k log' :=
  List.filter_append ..

theorem map_ownOf (k : TokenId) (log : List Moment) : (ownOf k log).map Moment.event
    = (log.map Moment.event).filter (·.fiber? == some k) := by
  rw [List.filter_map]
  rfl

theorem ownOf_of {k run : TokenId} {s : Store} (ms : List Event)
    (own : ∀ e ∈ ms, e.fiber? = some k) : ownOf k (ms.map (.of run s)) = ms.map (.of run s) := by
  refine List.filter_eq_self.mpr fun m mem => ?_
  obtain ⟨e, inMarks, rfl⟩ := List.mem_map.mp mem
  exact beq_iff_eq.mpr (own e inMarks)

theorem ownOf_mark {k run : TokenId} {s : Store} {e : Event} (own : e.fiber? = some k) :
    ownOf k [.of run s e] = [.of run s e] :=
  ownOf_of [e] fun _ mem => List.mem_singleton.mp mem ▸ own

theorem ownOf_other {k run : TokenId} {s : Store} (ms : List Event)
    (other : ∀ e ∈ ms, e.fiber? ≠ some k) : ownOf k (ms.map (.of run s)) = [] := by
  refine List.filter_eq_nil_iff.mpr fun m mem => ?_
  obtain ⟨e, inMarks, rfl⟩ := List.mem_map.mp mem
  exact fun same => other e inMarks (beq_iff_eq.mp same)

namespace Runtime

variable {σ σ' : Runtime} {run : TokenId} {φ : Fiber} {last : List Moment}

/-- How a fiber parts from the crew, with the last mark that it leaves. -/
inductive Parting (σ' : Runtime) (run : TokenId) (φ : Fiber) : List Moment → Prop
  | ended {s : Store} {env : Env} {x : Exit} (spent : φ = ⟨⟨env, []⟩, .unwinding x⟩) :
      Parting σ' run φ [.of run s (.left φ.token x)]
  /-- Its strand has failed. -/
  | failed (failed : σ'.Failed run) : Parting σ' run φ []
  /-- Its strand has failed at a suspension point of the fiber. -/
  | faulted {s : Store} {point : Point} (failed : σ'.Failed run) (enters : φ.Enters s point) :
      Parting σ' run φ [.of run s (.entered φ.token point)]
  /-- It was to go on in a closed context. -/
  | refused {s : Store} {loop : Loop} {context : Context} (closed : context.isOpen = false)
      (sent : φ = ⟨loop, .evaluating (.shift context)⟩) :
      Parting σ' run φ [.of run s (.entered φ.token .shift)]

/-- What one step means for a fiber, with what it adds to the log. -/
inductive Follow (σ σ' : Runtime) (run : TokenId) (φ : Fiber) (new : List Moment) : Prop
  | stay (mem : (run, φ) ∈ σ'.crew) (own : ownOf φ.token new = [])
  | act {φ' : Fiber} {ms : List Event} (step : φ.Step σ.store ms φ') (mem : (run, φ') ∈ σ'.crew)
      (own : ownOf φ.token new = ms.map (.of run σ.store))
  | part {last : List Moment} (parting : Parting σ' run φ last) (gone : φ.token ∉ badges σ'.crew)
      (own : ownOf φ.token new = last)

theorem Move.follow (manned : σ.Manned) (move : Move σ σ') (mem : (run, φ) ∈ σ.crew) :
    ∃ new, σ'.log = new ++ σ.log ∧ Follow σ σ' run φ new := by
  have other : ∀ (ms : List Event) {m : Member} {rest : Multiset Member},
      σ.crew = m ::ₘ rest → (run, φ) ∈ rest → (∀ e ∈ ms, e.fiber? = some m.2.token) →
      ownOf φ.token (ms.map (.of m.1 σ.store)) = [] := by
    intro ms m rest crew inRest own
    refine ownOf_other ms fun e inMarks same => ?_
    have distinct := manned.distinct
    rw [crew, badges_cons] at distinct
    have token : m.2.token = φ.token := Option.some.inj ((own e inMarks).symm.trans same)
    exact (Multiset.nodup_cons.mp distinct).1 (mem_badges.mpr ⟨_, inRest, token.symm⟩)
  cases move with
  | idle crew log => exact ⟨[], log, .stay (crew ▸ mem) rfl⟩
  | @act run₁ φ₁ φ' ms born rest step fresh distinct numbered crew crew' log =>
    refine ⟨_, log, ?_⟩
    rw [crew] at mem
    obtain same | mem := Multiset.mem_cons.mp mem
    · cases same
      exact .act step (crew' ▸ Multiset.mem_cons_self _ _) (ownOf_of ms step.marks)
    · exact .stay (crew' ▸ by simp [mem]) (other ms crew mem step.marks)
  | @leave run₁ env x crew log =>
    refine ⟨[_], log, ?_⟩
    have distinct := manned.distinct
    rw [crew, badges_cons] at distinct
    rw [crew] at mem
    obtain same | mem := Multiset.mem_cons.mp mem
    · cases same
      exact .part (.ended rfl) (Multiset.nodup_cons.mp distinct).1 (ownOf_mark rfl)
    · refine .stay mem (other [.left env.token x] crew mem ?_)
      simp [Event.fiber?, Fiber.token]
  | @lose run₁ gone ms crew same failed marks log =>
    refine ⟨_, log, ?_⟩
    have distinct := manned.distinct
    rw [crew, badges_add, Multiset.nodup_add] at distinct
    have apart : ∀ {m : Member}, m ∈ gone → m.2.token ∉ badges σ'.crew := fun inGone =>
      Multiset.disjoint_left.mp distinct.2.2 (mem_badges.mpr ⟨_, inGone, rfl⟩)
    have here := mem
    rw [crew] at here
    obtain inGone | stays := Multiset.mem_add.mp here
    · obtain rfl : run = run₁ := same _ inGone
      obtain rfl | ⟨χ, point, inGone', enters, rfl⟩ := marks
      · exact .part (.failed failed) (apart inGone) rfl
      · by_cases token : χ.token = φ.token
        · have member : (run, χ) ∈ σ.crew := crew ▸ Multiset.mem_add.mpr (.inl inGone')
          cases manned.unique member mem token
          exact .part (.faulted failed enters) (apart inGone) (ownOf_mark rfl)
        · refine .part (.failed failed) (apart inGone) (ownOf_other [.entered χ.token point] ?_)
          simpa [Event.fiber?] using token
    · refine .stay stays (ownOf_other ms fun e inMarks fiber => ?_)
      obtain rfl | ⟨χ, point, inGone, enters, rfl⟩ := marks
      · cases inMarks
      · obtain rfl := List.mem_singleton.mp inMarks
        have token : χ.token = φ.token := Option.some.inj fiber
        exact apart inGone (mem_badges.mpr ⟨_, stays, token.symm⟩)
  | @refuse run₁ loop context closed aborted live crew log =>
    refine ⟨[_], log, ?_⟩
    have distinct := manned.distinct
    rw [crew, badges_cons] at distinct
    rw [crew] at mem
    obtain same | mem := Multiset.mem_cons.mp mem
    · cases same
      exact .part (.refused closed rfl) (Multiset.nodup_cons.mp distinct).1 (ownOf_mark rfl)
    · refine .stay mem (other [.entered loop.env.token .shift] crew mem ?_)
      simp [Event.fiber?, Fiber.token]
  | begin fresh crew log =>
    exact ⟨[], log, .stay (crew ▸ Multiset.mem_cons_of_mem mem) rfl⟩

/-- A fiber that is gone leaves no more marks, and none takes its token. -/
theorem Move.gone (move : Move σ σ') {k : TokenId} (known : k < σ.store.size)
    (gone : k ∉ badges σ.crew) :
    k ∉ badges σ'.crew ∧ ∃ new, σ'.log = new ++ σ.log ∧ ownOf k new = [] := by
  refine ⟨fun mem => ?_, ?_⟩
  · obtain ⟨n, inCrew, rfl⟩ := mem_badges.mp mem
    obtain ⟨n₀, inCrew₀, -, token₀⟩ | new := move.member inCrew
    · exact gone (mem_badges.mpr ⟨n₀, inCrew₀, token₀⟩)
    · exact Nat.not_lt.mpr new known
  · obtain ⟨run, ms, log, marks⟩ := move.marks
    refine ⟨_, log, ownOf_other ms fun e inMarks fiber => ?_⟩
    obtain ⟨n, inCrew, -, token⟩ := marks e inMarks
    exact gone (mem_badges.mpr ⟨n, inCrew, Option.some.inj (token.symm.trans fiber)⟩)

theorem Parting.mono (h : Parting σ run φ last) (failure : σ.Failed run → σ'.Failed run) :
    Parting σ' run φ last := by
  cases h with
  | ended spent => exact .ended spent
  | failed failed => exact .failed (failure failed)
  | faulted failed enters => exact .faulted (failure failed) enters
  | refused closed sent => exact .refused closed sent

/-- What has become of a fiber that made some steps: it is still there, or has parted.  Its marks
are those of its steps, and of its parting. -/
inductive Course (σ' : Runtime) (run : TokenId) (φ : Fiber) (new : List Moment) : Prop
  | there {φ' : Fiber} (path : φ.Path run σ'.store (ownOf φ.token new) φ')
      (mem : (run, φ') ∈ σ'.crew)
  | parted {φ' : Fiber} {own last : List Moment} (path : φ.Path run σ'.store own φ')
      (parting : Parting σ' run φ' last) (marks : ownOf φ.token new = last ++ own)
      (gone : φ.token ∉ badges σ'.crew)

/-- What becomes of a fiber in a run of steps. -/
theorem Steps.course (h : Reachable σ) (mem : (run, φ) ∈ σ.crew) (steps : Steps σ σ') :
    ∃ new, σ'.log = new ++ σ.log ∧ Course σ' run φ new := by
  have known : φ.token < σ.store.size :=
    (Reachable.manned h).bound _ (mem_badges.mpr ⟨_, mem, rfl⟩)
  induction steps with
  | refl => exact ⟨[], rfl, .there .refl mem⟩
  | @tail σ₁ σ₂ steps step ih =>
    obtain ⟨new, log, course⟩ := ih
    have reach : Reachable σ₁ := Relation.ReflTransGen.trans h steps
    have move := Step.move step
    have ages := step.ages
    have longer : ∀ {new'}, σ₂.log = new' ++ σ₁.log → σ₂.log = (new' ++ new) ++ σ.log :=
      fun log' => by rw [log', log, List.append_assoc]
    cases course with
    | @there φ₁ path mem₁ =>
      obtain ⟨new', log', follow⟩ := move.follow reach.manned mem₁
      have token := path.token
      refine ⟨new' ++ new, longer log', ?_⟩
      cases follow with
      | stay mem₂ own =>
        refine .there ?_ mem₂
        rw [token] at own
        rw [ownOf_append, own]
        exact path.mono ages
      | act step' mem₂ own =>
        refine .there ?_ mem₂
        rw [token] at own
        rw [ownOf_append, own]
        exact (path.mono ages).tail step' ages
      | part parting gone own =>
        rw [token] at gone own
        refine .parted (path.mono ages) parting ?_ gone
        rw [ownOf_append, own]
    | parted path parting marks gone =>
      have known₁ : φ.token < σ₁.store.size := Nat.lt_of_lt_of_le known (Steps.ages steps).size
      obtain ⟨gone', new', log', none⟩ := move.gone known₁ gone
      have parting' := parting.mono fun failed => Step.failure step failed
      refine ⟨new' ++ new, longer log', .parted (path.mono ages) parting' ?_ gone'⟩
      rw [ownOf_append, none, marks, List.nil_append]

end Runtime

end EffectFibers
