import EffectFibers.Proofs.Course

/-!
# Unwinding from a cancellation

Once a fiber unwinds from a cancellation, or has given a cancellation to one of its releases, it
does nothing but unwind: it drops what is not a release, and runs its releases one after the
other, innermost first, each with `canceled`, whatever the ones before came to (`Fiber.Unwinds`).
Nothing recovers it, and it ends with `canceled`.

## Main statements

* `Fiber.Unwinds.releases`: the releases that have begun, and those to come, are all there are.
* `Runtime.Reachable.unwinding`: what becomes of such a fiber under every schedule.
-/

namespace EffectFibers

namespace Fiber

/-- The fiber unwinds from a cancellation, or one of its releases was given a cancellation. -/
def Doomed (φ : Fiber) : Prop :=
  φ.doing = .unwinding .canceled ∨ ∃ b, φ.doing = .releasing b .canceled

/-- Unwinding from a cancellation, with the marks that it leaves, newest first. -/
inductive Unwinds (φ : Fiber) : List Event → Fiber → Prop
  | refl : Unwinds φ [] φ
  /-- A frame that is not a release is dropped: its closures do not run. -/
  | drop {env : Env} {frame : Frame} {frames : List Frame} {es : List Event}
      (unwinds : Unwinds φ es ⟨⟨env, frame :: frames⟩, .unwinding .canceled⟩)
      (plain : frame.isRelease = false) :
      Unwinds φ es ⟨⟨env, frames⟩, .unwinding .canceled⟩
  | release {env : Env} {b : BracketId} {finalizer : ExitCase Value → Effect}
      {frames : List Frame} {es : List Event}
      (unwinds : Unwinds φ es ⟨⟨env, .release b finalizer :: frames⟩, .unwinding .canceled⟩) :
      Unwinds φ (.releaseStarted φ.token b .canceled :: es)
        ⟨⟨env, frames⟩, .releasing b .canceled⟩
  /-- A release has ended, with whatever exit. -/
  | released {loop : Loop} {b : BracketId} {es : List Event} (y : Exit)
      (unwinds : Unwinds φ es ⟨loop, .releasing b .canceled⟩) :
      Unwinds φ (.releaseFinished φ.token b y :: es) ⟨loop, .unwinding .canceled⟩

variable {run : TokenId} {s now : Store} {φ φ' φ₁ φ₂ : Fiber} {ms es : List Event}
  {own : List Moment}

/-- The only steps of a doomed fiber are those of unwinding. -/
theorem Unwinds.step (h : φ.Unwinds es φ₁) (token : φ₁.token = φ.token) (doomed : φ₁.Doomed)
    (step : φ₁.Step s ms φ₂) : φ.Unwinds (ms ++ es) φ₂ ∧ φ₂.Doomed := by
  obtain ⟨loop, doing⟩ := φ₁
  obtain rfl | ⟨b, rfl⟩ := doomed
  · cases step with
    | @skipped env frame frames x skips =>
      refine ⟨h.drop ?_, .inl rfl⟩
      cases frame with
      | release => cases skips
      | _ => rfl
    | @release env b finalizer frames x outcome given =>
      obtain rfl : outcome = .canceled := given.trans (ite_self _)
      have same : env.token = φ.token := token
      rw [same]
      exact ⟨h.release, .inr ⟨b, rfl⟩⟩
  · cases step with
    | @released loop b outcome y =>
      have same : loop.env.token = φ.token := token
      have behind : Exit.behind .canceled y = .canceled := by cases y <;> rfl
      rw [same, behind]
      exact ⟨h.released y, .inl rfl⟩

theorem Path.unwinds (path : φ.Path run now own φ') (doomed : φ.Doomed) :
    φ.Unwinds (own.map Moment.event) φ' ∧ φ'.Doomed := by
  induction path with
  | refl => exact ⟨.refl, doomed⟩
  | @tail own φ₁ φ₂ s ms path step before ih =>
    have events : (ms.map (Moment.of run s) ++ own).map Moment.event
        = ms ++ own.map Moment.event := by
      simp [Moment.of, Function.comp_def]
    rw [events]
    exact ih.1.step path.token ih.2 step

/-- The frames that are left are the outer ones. -/
theorem Unwinds.frames (h : φ.Unwinds es φ') : φ'.frames <:+ φ.frames := by
  induction h with
  | refl => exact List.suffix_refl _
  | drop unwinds plain ih => exact (List.suffix_cons _ _).trans ih
  | release unwinds ih => exact (List.suffix_cons _ _).trans ih
  | released y unwinds ih => exact ih

end Fiber

/-- The release that an event begins, with what it is given. -/
def Event.started? : Event → Option (BracketId × Exit)
  | .releaseStarted _ b x => some (b, x)
  | _ => none

/-- The releases that have begun while a fiber unwound, oldest first, and those that are still to
come are all its releases, innermost first; each is given `canceled`. -/
theorem Fiber.Unwinds.releases {φ φ' : Fiber} {es : List Event} (h : φ.Unwinds es φ') :
    es.reverse.filterMap Event.started? ++ φ'.opened.map (·, .canceled)
      = φ.opened.map (·, .canceled) := by
  induction h with
  | refl => rfl
  | @drop env frame frames es unwinds plain ih =>
    rw [← ih]
    cases frame with
    | release => cases plain
    | _ => rfl
  | release unwinds ih =>
    rw [← ih, List.reverse_cons, List.filterMap_append, List.append_assoc]
    rfl
  | released y unwinds ih =>
    rw [← ih, List.reverse_cons, List.filterMap_append, List.append_assoc]
    rfl

/-! ## Who is in control -/

/-- The loop of the post is not unwinding. -/
def Post.Rests (p : Post) : Prop := ∀ loop x, p.piece ≠ .fiber ⟨loop, .unwinding x⟩

section

variable {p : Post} {l : Link}

theorem Segment.rests (segment : Segment) (mem : p ∈ segment.posts l) : p.Rests := by
  induction segment generalizing l with
  | start | callback | future | shifted | gathering =>
    obtain rfl := Multiset.mem_singleton.mp mem
    exact nofun
  | acquiring loop use release inner ih | releasing loop bracket outcome inner ih
  | settling loop winner exit inner ih | remaining loop side inner ih =>
    obtain rfl | mem := Multiset.mem_cons.mp mem
    · exact nofun
    · exact ih mem
  | racing loop tokens left right ihl ihr =>
    obtain rfl | mem := Multiset.mem_cons.mp mem
    · exact nofun
    · exact (Multiset.mem_add.mp mem).elim ihl ihr

theorem Caller.rests (callers : List Caller) (mem : p ∈ allPosts callers) : p.Rests := by
  induction callers with
  | nil => cases mem
  | cons caller callers ih =>
    obtain mem | mem := Multiset.mem_add.mp mem
    · cases caller with
      | acquiring | releasing | settling | remaining =>
        obtain rfl := Multiset.mem_singleton.mp mem
        exact nofun
      | racingLeft loop tokens other | racingRight loop tokens other =>
        obtain rfl | mem := Multiset.mem_cons.mp mem
        · exact nofun
        · exact other.rests mem
    · exact ih mem

/-- The only loop of a strand that can be unwinding is the one in control of a poll. -/
theorem Strand.in_control {τ : Strand} {loop : Loop} {x : Exit}
    (mem : ⟨l, .fiber ⟨loop, .unwinding x⟩⟩ ∈ τ.posts) :
    ∃ callers, τ.state = .running ⟨.unwind loop x, callers⟩ := by
  obtain ⟨run, role, state⟩ := τ
  cases state with
  | waiting segment => exact (segment.rests mem loop x rfl).elim
  | ended | faulted | dropped => cases mem
  | running config =>
    obtain ⟨focus, callers⟩ := config
    obtain mem | mem := Multiset.mem_add.mp mem
    · cases focus with
      | unwind loop' x' =>
        cases Multiset.mem_singleton.mp mem
        exact ⟨callers, rfl⟩
      | eval => cases Multiset.mem_singleton.mp mem
      | leave => cases mem
      | resume segment | park segment => exact (segment.rests mem loop x rfl).elim
    · exact (Caller.rests callers mem loop x rfl).elim

end

namespace Runtime

variable {σ σ' : Runtime}

/-- A fiber that unwinds waits for nothing: its strand is in the middle of a poll, and it is in
control of that. -/
theorem in_control {run : TokenId} {loop : Loop} {x : Exit}
    (mem : (run, ⟨loop, .unwinding x⟩) ∈ σ.crew) :
    ∃ τ ∈ σ.strands, τ.run = run ∧ ∃ callers, τ.state = .running ⟨.unwind loop x, callers⟩ := by
  obtain ⟨π, inParties, rfl, l, inPosts⟩ := mem_crew.mp mem
  obtain ⟨τ, inStrands, rfl⟩ := Multiset.mem_map.mp inParties
  exact ⟨τ, inStrands, rfl, τ.in_control inPosts⟩

/-! ## Under every schedule -/

/-- A release that begins while the token of its fiber is cancelled is given `canceled`. -/
def Late (σ : Runtime) : Prop :=
  ∀ m ∈ σ.log, ∀ t b x, m.event = .releaseStarted t b x → m.cancelled = true → x = .canceled

theorem Move.late (move : Move σ σ') (h : σ.Late) : σ'.Late := by
  have quiet : ∀ (run : TokenId) (ms : List Event), σ'.log = ms.map (.of run σ.store) ++ σ.log →
      (∀ t b x, .releaseStarted t b x ∈ ms → σ.store.isCancelled t = true → x = .canceled) →
      σ'.Late := by
    intro run ms log given m mem t b x event cancelled
    rw [log] at mem
    obtain mem | mem := List.mem_append.mp mem
    · obtain ⟨e, inMarks, rfl⟩ := List.mem_map.mp mem
      obtain rfl : e = .releaseStarted t b x := event
      exact given t b x inMarks cancelled
    · exact h m mem t b x event cancelled
  cases move with
  | idle crew log | begin fresh crew log => exact quiet 0 [] log (by simp)
  | leave crew log => exact quiet _ [_] log (by simp)
  | refuse closed aborted live crew log => exact quiet _ [_] log (by simp)
  | @lose run gone ms crew same failed marks log =>
    refine quiet run ms log fun t b x mem => ?_
    obtain rfl | ⟨φ, point, -, -, rfl⟩ := marks
    · cases mem
    · cases List.mem_singleton.mp mem
  | @act run φ φ' ms born rest step fresh distinct numbered crew crew' log =>
    refine quiet run ms log fun t b x mem cancelled => ?_
    cases step with
    | @release env bracket finalizer frames y outcome given =>
      cases List.mem_singleton.mp mem
      exact given.trans (if_pos cancelled)
    | _ => simp at mem

theorem Reachable.late (h : Reachable σ) : σ.Late := by
  induction h with
  | refl => exact nofun
  | tail reach step ih => exact (Step.move step).late ih

/-- What has become of a fiber that was doomed, with the marks that it has left since. -/
inductive Unwinding (σ' : Runtime) (run : TokenId) (φ : Fiber) (marks : List Event) : Prop
  | there {φ' : Fiber} (unwinds : φ.Unwinds marks φ') (mem : (run, φ') ∈ σ'.crew)
      (doomed : φ'.Doomed)
  /-- All its frames are gone, and it has ended with `canceled`. -/
  | ended {env : Env} {es : List Event}
      (unwinds : φ.Unwinds es ⟨⟨env, []⟩, .unwinding .canceled⟩)
      (last : marks = .left φ.token .canceled :: es)
      (released : es.reverse.filterMap Event.started? = φ.opened.map (·, .canceled))
      (gone : φ.token ∉ badges σ'.crew)
  /-- A panic, in one of its releases or beside it, has ended its strand. -/
  | failed {φ' : Fiber} (unwinds : φ.Unwinds marks φ') (failed : σ'.Failed run)
      (gone : φ.token ∉ badges σ'.crew)

/-- A fiber that is doomed does nothing but unwind, whatever happens around it. -/
theorem Reachable.unwinds (h : Reachable σ) {run : TokenId} {φ : Fiber} (mem : (run, φ) ∈ σ.crew)
    (doomed : φ.Doomed) (steps : Steps σ σ') : ∃ new, σ'.log = new ++ σ.log ∧
      Unwinding σ' run φ ((ownOf φ.token new).map Moment.event) := by
  obtain ⟨new, log, course⟩ := Steps.course h mem steps
  refine ⟨new, log, ?_⟩
  cases course with
  | there path mem' =>
    obtain ⟨unwinds, doomed'⟩ := path.unwinds doomed
    exact .there unwinds mem' doomed'
  | @parted φ' own last path parting marks gone =>
    obtain ⟨unwinds, doomed'⟩ := path.unwinds doomed
    have token := path.token
    cases parting with
    | @ended s env x spent =>
      subst spent
      obtain ⟨⟨⟩⟩ | ⟨b, ⟨⟩⟩ := doomed'
      have released := unwinds.releases
      rw [show Fiber.opened ⟨⟨env, []⟩, .unwinding .canceled⟩ = [] from rfl, List.map_nil,
        List.append_nil] at released
      refine .ended unwinds ?_ released gone
      rw [marks, token]
      rfl
    | failed failed =>
      rw [List.nil_append] at marks
      exact .failed (marks ▸ unwinds) failed gone
    | @faulted s point failed enters =>
      obtain ⟨effect, at_point, -⟩ := enters.effect
      obtain unwinding | ⟨b, releasing⟩ := doomed'
      · cases unwinding.symm.trans at_point
      · cases releasing.symm.trans at_point
    | refused closed sent =>
      subst sent
      obtain ⟨⟨⟩⟩ | ⟨b, ⟨⟩⟩ := doomed'

/-- Every release that begins while its fiber's token is cancelled is given `canceled`; and a
fiber that is doomed does nothing but unwind, whatever happens around it, and is never held up
between two releases. -/
theorem Reachable.unwinding (h : Reachable σ) : σ.Late ∧
    ∀ run φ, (run, φ) ∈ σ.crew → φ.Doomed →
      (∀ σ', Steps σ σ' → ∃ new, σ'.log = new ++ σ.log ∧
        Unwinding σ' run φ ((ownOf φ.token new).map Moment.event)) ∧
      (φ.doing = .unwinding .canceled → ∃ τ ∈ σ.strands, τ.run = run ∧
        ∃ callers, τ.state = .running ⟨.unwind φ.loop .canceled, callers⟩) := by
  refine ⟨h.late, fun run φ mem doomed => ⟨fun σ' => h.unwinds mem doomed, fun unwinding => ?_⟩⟩
  obtain ⟨loop, doing⟩ := φ
  cases unwinding
  exact in_control mem

/-- A guarded wait is cancelled: the fiber unwinds, with one release to come. -/
theorem unwinding_guarantee : ∃ σ φ, Reachable σ ∧ (0, φ) ∈ σ.crew ∧
    φ.doing = .unwinding .canceled ∧ φ.opened = [0] ∧ σ.Late ∧
    ∀ σ', Steps σ σ' → ∃ new, σ'.log = new ++ σ.log ∧
      Unwinding σ' 0 φ ((ownOf φ.token new).map Moment.event) := by
  obtain ⟨s, marks, -, -, reach⟩ := reachable_of_cancelled_wait Effect.unit
  let φ : Fiber := ⟨guardedLoop Effect.unit, .unwinding .canceled⟩
  have mem : (0, φ) ∈ Runtime.crew ⟨s, ⟨0, .root, .running ⟨.unwind φ.loop .canceled, []⟩⟩ ::ₘ 0,
      marks⟩ := by
    simp [crew, parties, Party.crew, Strand.party, Strand.posts, φ]
  obtain ⟨late, unwinding⟩ := reach.unwinding
  exact ⟨_, φ, reach, mem, rfl, rfl, late, (unwinding 0 φ mem (.inl rfl)).1⟩

end Runtime

end EffectFibers
