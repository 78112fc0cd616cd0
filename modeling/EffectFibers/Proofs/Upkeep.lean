import EffectFibers.Proofs.MachineStep

/-!
# Properties of all loops

A property of loops is kept by a poll when each rule keeps it: the rule by which a loop acts, the
one by which it begins a loop inside it, and those by which it hands a loop to a task.  Unlike
`Reaction`, the rules here say on which thread a step on the memory is made, and on which context
a task begins.

## Main definitions

* `Fiber.Upkeep`: the rules keep a property of loops.

## Main statements

* `Config.step_upkeep`: a property that the rules keep holds of every loop after a step.
-/

namespace EffectFibers

/-! ## All loops -/

/-- Every loop of some posts has a property. -/
def Post.All (Q : Fiber → Prop) (P : Multiset Post) : Prop := ∀ l φ, ⟨l, .fiber φ⟩ ∈ P → Q φ

namespace Post

variable {Q : Fiber → Prop} {P P' : Multiset Post} {l : Link}

@[simp] theorem all_zero : All Q 0 := fun _ _ mem => by cases mem

@[simp] theorem all_cons_at {loop : Loop} {doing : Doing} :
    All Q (loop.at l doing ::ₘ P) ↔ Q ⟨loop, doing⟩ ∧ All Q P := by
  constructor
  · exact fun all => ⟨all l _ (Multiset.mem_cons_self _ _),
      fun l φ mem => all l φ (Multiset.mem_cons_of_mem mem)⟩
  · rintro ⟨first, others⟩ l' φ mem
    obtain same | mem := Multiset.mem_cons.mp mem
    · cases same
      exact first
    · exact others l' φ mem

@[simp] theorem all_cons_away {env : Env} {task : TaskId} :
    All Q (⟨l, .away env task⟩ ::ₘ P) ↔ All Q P := by
  refine ⟨fun all l φ mem => all l φ (Multiset.mem_cons_of_mem mem), fun all l φ mem => ?_⟩
  obtain same | mem := Multiset.mem_cons.mp mem
  · cases same
  · exact all l φ mem

@[simp] theorem all_singleton_at {loop : Loop} {doing : Doing} :
    All Q {loop.at l doing} ↔ Q ⟨loop, doing⟩ := by
  rw [← Multiset.cons_zero, all_cons_at]
  exact and_iff_left all_zero

@[simp] theorem all_singleton_away {env : Env} {task : TaskId} :
    All Q {⟨l, .away env task⟩} := fun l' φ mem => by
  cases Multiset.mem_singleton.mp mem

@[simp] theorem all_add : All Q (P + P') ↔ All Q P ∧ All Q P' := by
  constructor
  · exact fun all => ⟨fun l φ mem => all l φ (Multiset.mem_add.mpr (.inl mem)),
      fun l φ mem => all l φ (Multiset.mem_add.mpr (.inr mem))⟩
  · rintro ⟨left, right⟩ l φ mem
    exact (Multiset.mem_add.mp mem).elim (left l φ) (right l φ)

theorem All.mono {Q' : Fiber → Prop} (all : All Q P) (weaker : ∀ φ, Q φ → Q' φ) : All Q' P :=
  fun l φ mem => weaker φ (all l φ mem)

end Post

/-- How a segment is linked matters for none of its loops. -/
theorem Post.All.posts {Q : Fiber → Prop} {g : Segment} {l l' : Link}
    (all : Post.All Q (g.posts l)) : Post.All Q (g.posts l') := by
  cases g <;> simp_all [Segment.posts]

/-- The posts of what a step of a poll has come to. -/
def Progress.posts : Progress → Multiset Post
  | .next c => c.posts
  | .parked segment => segment.posts .outer
  | .ended _ | .faulted _ => 0

/-! ## The rules -/

/-- Whether a loop is about to make a step on the memory. -/
def Fiber.performs (φ : Fiber) : Bool :=
  match φ.doing with
  | .evaluating (.perform ..) => true
  | _ => false

/-- Whether a loop waits for a loop inside it. -/
def Fiber.nests (φ : Fiber) : Bool :=
  match φ.doing with
  | .acquiring .. | .releasing .. | .racing _ => true
  | _ => false

/-- The rules for a poll on a thread keep a property of loops, and establish another, which
depends on the context, of the loops with which tasks begin. -/
structure Fiber.Upkeep (worker : Worker) (s : Store) (Q : Fiber → Prop)
    (R : Context → Fiber → Prop) : Prop where
  /-- A loop acts in its environment. -/
  act {φ φ' : Fiber} {s' : Store} {ms : List Event} (kept : Q φ) (step : φ.Step s' ms φ')
    (env : φ'.loop.env = φ.loop.env) (still : φ.performs = false) : Q φ'
  perform {loop : Loop} {act : Site → Memory → Except Fault Reply × Memory} {next : Reply → Effect}
    {reply : Reply} {m : Memory} (kept : Q ⟨loop, .evaluating (.perform act next)⟩)
    (done : act ⟨worker.thread, s.time⟩ s.memory = (.ok reply, m)) :
    Q ⟨loop, .evaluating (next reply)⟩
  /-- A loop begins one inside it. -/
  nested {φ φ' : Fiber} {s' : Store} {ms : List Event} {t : TokenId} {effect : Effect} (kept : Q φ)
    (step : φ.Step s' ms φ') (nests : φ'.nests = true) :
    Q ⟨⟨φ.loop.env.withToken t, []⟩, .evaluating effect⟩
  operand {loop : Loop} {n : Nat} {operands : Fin n → Effect} {t : TokenId} {effect : Effect}
    (kept : Q ⟨loop, .evaluating (.parallel n operands)⟩) :
    R loop.env.context ⟨⟨loop.env.withToken t, []⟩, .evaluating effect⟩
  shift {loop : Loop} {context : Context} (kept : Q ⟨loop, .evaluating (.shift context)⟩) :
    R context ⟨{ loop with env := loop.env.withContext context }, .evaluating Effect.unit⟩

/-- The loops with which tasks begin have the property of their context. -/
def Spawn.Comply (R : Context → Fiber → Prop) (new : List Spawn) : Prop :=
  ∀ x ∈ new, Post.All (R x.context) x.posts

/-- What a step of a poll leaves: the property of every loop, and that of the tasks it starts. -/
def Upkept (s : Store) (Q : Fiber → Prop) (R : Context → Fiber → Prop) (r : Progress × Store) :
    Prop :=
  Post.All Q r.1.posts ∧ ∃ new, r.2.spawned = new ++ s.spawned ∧ Spawn.Comply R new

namespace Machine

variable {worker : Worker} {s s' : Store} {Q : Fiber → Prop} {R : Context → Fiber → Prop}
  {loop : Loop} {callers : List Caller}

theorem upkept_of_same {progress : Progress} (all : Post.All Q progress.posts)
    (same : s'.spawned = s.spawned) : Upkept s Q R (progress, s') :=
  ⟨all, [], same, fun _ mem => by cases mem⟩

theorem comply_of_quiet {new : List Spawn} (quiet : ∀ x ∈ new, x.segment? = none) :
    Spawn.Comply R new := fun x mem l φ inside => by
  simp [Spawn.posts, quiet x mem] at inside

theorem atPoint_upkept {effect : Effect} {point : Point} {go : Store → Progress × Store}
    (rules : Fiber.Upkeep worker s Q R) (here : Q ⟨loop, .evaluating effect⟩)
    (around : Post.All Q (Caller.allPosts callers)) (at_point : effect.point? = some point)
    (live : s.isCancelled loop.env.token = false →
      Upkept s Q R (go (s.emit (.entered loop.env.token point)))) :
    Upkept s Q R (atPoint s loop callers point go) := by
  have still : Fiber.performs ⟨loop, .evaluating effect⟩ = false := by
    cases effect <;> first | rfl | cases at_point
  unfold atPoint
  split
  · next cancelled =>
    have refused := rules.act here (.refused at_point cancelled) rfl still
    exact upkept_of_same (by simp [unwind, Progress.posts, refused, around]) rfl
  · next notCancelled => exact live (by simpa using notCancelled)

theorem comply_spawnOperands {env : Env} {group : TokenId} {operands : Nat → Effect}
    (begins : ∀ t i, R env.context ⟨⟨env.withToken t, []⟩, .evaluating (operands i)⟩)
    (indices : List Nat) (s : Store) : ∃ new,
      (spawnOperands env group operands indices s).2.spawned = new ++ s.spawned ∧
        Spawn.Comply R new := by
  induction indices generalizing s with
  | nil => exact ⟨[], rfl, fun _ mem => by cases mem⟩
  | cons i rest ih =>
    let s₁ := (s.childToken group).2
    let job : Job := .segment (.start ⟨env.withToken s.size, []⟩ (operands i))
    let first : List Spawn := if env.context.isOpen then [⟨s₁.joins.size, env.context, job⟩] else []
    have spawned₁ : (s₁.spawn env.context job).2.spawned = first ++ s.spawned :=
      Store.spawned_spawn _ _ _
    obtain ⟨new, spawned, comply⟩ := ih (s₁.spawn env.context job).2
    refine ⟨new ++ first, ?_, fun x mem => ?_⟩
    · simp only [spawnOperands, Store.childToken_fst]
      rw [spawned, spawned₁, List.append_assoc]
    · obtain mem | mem := List.mem_append.mp mem
      · exact comply x mem
      · simp only [first] at mem
        split at mem
        · obtain rfl := List.mem_singleton.mp mem
          simpa [Spawn.posts, Spawn.segment?, job, Segment.posts] using begins _ i
        · cases mem

theorem evalStep_upkept (rules : Fiber.Upkeep worker s Q R) {effect : Effect}
    (here : Q ⟨loop, .evaluating effect⟩) (around : Post.All Q (Caller.allPosts callers)) :
    Upkept s Q R (evalStep worker loop callers s effect) := by
  have goes : ∀ {φ' : Fiber} {ms : List Event}, Fiber.Step s ⟨loop, .evaluating effect⟩ ms φ' →
      φ'.loop.env = loop.env → Fiber.performs ⟨loop, .evaluating effect⟩ = false → Q φ' :=
    fun step env still => rules.act here step env still
  have faults : ∀ {f : Fault} {s' : Store}, s'.spawned = s.spawned →
      Upkept s Q R (.faulted f, s') := fun same => upkept_of_same (by simp [Progress.posts]) same
  have evals : ∀ {l : Loop} {e : Effect}, Q ⟨l, .evaluating e⟩ →
      Upkept s Q R (eval l e callers, s) := fun q =>
    upkept_of_same (by simp [eval, Progress.posts, q, around]) rfl
  have unwinds : ∀ {x : Exit} {s' : Store}, s'.spawned = s.spawned → Q ⟨loop, .unwinding x⟩ →
      Upkept s Q R (unwind loop x callers, s') := fun same q =>
    upkept_of_same (by simp [unwind, Progress.posts, q, around]) same
  cases effect with
  | pure v => exact unwinds rfl (goes .pure rfl rfl)
  | fail e => exact unwinds rfl (goes .fail rfl rfl)
  | fault f => exact faults rfl
  | perform act next =>
    simp only [evalStep]
    split
    · next reply memory done =>
      have after := rules.perform here done
      exact upkept_of_same (by simp [eval, Progress.posts, after, around]) rfl
    · exact faults rfl
  | cancel t => exact unwinds (s.spawned_cancel t) (goes .cancel rfl rfl)
  | isCancelled t => exact unwinds rfl (goes .isCancelled rfl rfl)
  | map source f => exact evals (goes .map rfl rfl)
  | flatMap source f => exact evals (goes .bind rfl rfl)
  | handleErrorWith source handler => exact evals (goes .handle rfl rfl)
  | loop again body v =>
    simp only [evalStep]
    split
    · next go => exact evals (goes (.again go) rfl rfl)
    · next stop => exact unwinds rfl (goes (.done stop) rfl rfl)
    · exact faults rfl
  | async r =>
    refine atPoint_upkept rules here around rfl fun live => ?_
    have quiet := register_quiet worker r (s.emit (.entered loop.env.token .registration))
    split
    · next slot s' found =>
      rw [found] at quiet
      obtain ⟨new, spawned, silent⟩ := quiet.spawned
      have registered : Q ⟨loop, .callback slot⟩ := goes (.register live) rfl rfl
      exact ⟨by simp [resume, Progress.posts, Segment.posts, registered, around], new, spawned,
        comply_of_quiet silent⟩
    · next f s' found =>
      rw [found] at quiet
      obtain ⟨new, spawned, silent⟩ := quiet.spawned
      exact ⟨by simp [Progress.posts], new, spawned, comply_of_quiet silent⟩
  | await future =>
    refine atPoint_upkept rules here around rfl fun live => ?_
    split
    · next wait started =>
      have waits : Q ⟨loop, .future wait⟩ := goes (.await live) rfl rfl
      exact upkept_of_same (by simp [resume, Progress.posts, Segment.posts, waits, around]) rfl
    · exact faults rfl
  | shift context =>
    refine atPoint_upkept rules here around rfl fun live => ?_
    refine ⟨by simp [resume, Progress.posts, Segment.posts, around], _,
      Store.spawned_spawn _ _ _, fun x mem => ?_⟩
    split at mem
    · obtain rfl := List.mem_singleton.mp mem
      simpa [Spawn.posts, Spawn.segment?, Segment.posts] using rules.shift here
    · cases mem
  | bracket acquire use release =>
    refine atPoint_upkept rules here around rfl fun live => ?_
    have waits := goes (.bracket live) rfl rfl
    have inner : Q ⟨⟨loop.env.withToken s.size, []⟩, .evaluating acquire⟩ :=
      rules.nested here (.bracket live) rfl
    exact upkept_of_same (by simpa [eval, Progress.posts, Caller.posts, waits, around] using inner)
      rfl
  | race left right =>
    let l := (s.childToken loop.env.token).1
    let r := ((s.childToken loop.env.token).2.childToken loop.env.token).1
    have races : Fiber.Step s ⟨loop, .evaluating (.race left right)⟩ []
        ⟨loop, .racing ⟨l, r⟩⟩ := .race
    have waits := goes races rfl rfl
    have first : Q ⟨⟨loop.env.withToken l, []⟩, .evaluating left⟩ :=
      rules.nested here races rfl
    have second : Q ⟨⟨loop.env.withToken r, []⟩, .evaluating right⟩ :=
      rules.nested here races rfl
    refine upkept_of_same ?_ rfl
    simp only [eval, Progress.posts, Config.posts_eval, Caller.allPosts_cons, Caller.posts,
      Segment.posts, Post.all_cons_at, Post.all_add, Post.all_singleton_at]
    exact ⟨first, ⟨waits, second⟩, around⟩
  | parallel n operands =>
    let tasks := spawnOperands loop.env s.size (operandAt operands) (List.range n)
      (s.childToken loop.env.token).2
    have gathers : Q ⟨loop, .gathering { token := s.size, pending := tasks.1 }⟩ :=
      goes .fan rfl rfl
    have begins : ∀ t i, R loop.env.context
        ⟨⟨loop.env.withToken t, []⟩, .evaluating (operandAt operands i)⟩ :=
      fun t i => rules.operand here
    obtain ⟨new, spawned, comply⟩ :=
      comply_spawnOperands begins (List.range n) (s.childToken loop.env.token).2
    simp only [evalStep, Store.childToken_fst]
    refine ⟨?_, new, spawned, comply⟩
    simpa [resume, Progress.posts, Segment.posts, around] using gathers

theorem unwindStep_upkept (rules : Fiber.Upkeep worker s Q R) {x : Exit}
    (here : Q ⟨loop, .unwinding x⟩) (around : Post.All Q (Caller.allPosts callers)) :
    Upkept s Q R (unwindStep loop x callers s) := by
  obtain ⟨env, frames⟩ := loop
  cases frames with
  | nil => exact upkept_of_same (by simpa [leave, Progress.posts] using around) rfl
  | cons frame frames =>
    have goes : ∀ {φ' : Fiber} {ms : List Event},
        Fiber.Step s ⟨⟨env, frame :: frames⟩, .unwinding x⟩ ms φ' → φ'.loop.env = env → Q φ' :=
      fun step env => rules.act here step env rfl
    have evals : ∀ {e : Effect}, Q ⟨⟨env, frames⟩, .evaluating e⟩ →
        Upkept s Q R (eval ⟨env, frames⟩ e callers, s) := fun q =>
      upkept_of_same (by simp [eval, Progress.posts, q, around]) rfl
    have unwinds : ∀ {y : Exit}, Q ⟨⟨env, frames⟩, .unwinding y⟩ →
        Upkept s Q R (unwind ⟨env, frames⟩ y callers, s) := fun q =>
      upkept_of_same (by simp [unwind, Progress.posts, q, around]) rfl
    have skips : frame.skips x = true → Upkept s Q R (unwind ⟨env, frames⟩ x callers, s) :=
      fun skips => unwinds (goes (.skipped skips) rfl)
    simp only [unwindStep]
    cases frame with
    | map f =>
      cases x with
      | succeeded v =>
        simp only [frameStep]
        split
        · next w value => exact unwinds (goes (.mapped value) rfl)
        · exact upkept_of_same (by simp [Progress.posts]) rfl
      | errored | canceled => exact skips rfl
    | bind f =>
      cases x with
      | succeeded v => exact evals (goes .bound rfl)
      | errored | canceled => exact skips rfl
    | again again body =>
      cases x with
      | succeeded v => exact evals (goes .repeated rfl)
      | errored | canceled => exact skips rfl
    | handle handler =>
      cases x with
      | errored e => exact evals (goes .handled rfl)
      | succeeded | canceled => exact skips rfl
    | release bracket finalizer =>
      simp only [frameStep]
      split
      · exact upkept_of_same (by simp [Progress.posts]) rfl
      · next none =>
        let outcome : Exit := if s.isCancelled env.token then .canceled else x
        have begins : Fiber.Step s ⟨⟨env, .release bracket finalizer :: frames⟩, .unwinding x⟩
            [.releaseStarted env.token bracket outcome]
            ⟨⟨env, frames⟩, .releasing bracket outcome⟩ := .release rfl
        have waits := goes begins rfl
        have inner : Q ⟨⟨env.withToken s.size, []⟩, .evaluating (finalizer outcome.exitCase)⟩ :=
          rules.nested here begins rfl
        refine upkept_of_same ?_ rfl
        simp only [eval, Progress.posts, Config.posts_eval, Caller.allPosts_cons, Caller.posts,
          Post.all_cons_at, Post.all_add, Post.all_singleton_at]
        exact ⟨inner, waits, around⟩

theorem settle_upkept (rules : Fiber.Upkeep worker s Q R) {tokens : RaceTokens} {side : Side}
    {x : Exit} {other : Segment} {l : Link} (here : Q ⟨loop, .racing tokens⟩)
    (operand : Post.All Q (other.posts l)) (around : Post.All Q (Caller.allPosts callers)) :
    Upkept s Q R (settle loop tokens side x other callers s) := by
  have inside : ∀ l', Post.All Q (other.posts l') := fun l' => operand.posts
  unfold settle
  split
  · next withdrawn =>
    have live : s.isCancelled loop.env.token = false := by simp_all
    have remains : Q ⟨loop, .remaining side.other⟩ := rules.act here (.withdrawn live) rfl rfl
    exact upkept_of_same
      (by simp [resume, Progress.posts, Caller.posts, remains, inside, around]) rfl
  · have settles : Q ⟨loop, .settling side x⟩ := rules.act here (.settle (s := s)) rfl rfl
    exact upkept_of_same
      (by simp [resume, Progress.posts, Caller.posts, settles, inside, around])
      (s.spawned_cancel _)

theorem leaveStep_upkept (rules : Fiber.Upkeep worker s Q R) {x : Exit}
    (around : Post.All Q (Caller.allPosts callers)) :
    Upkept s Q R (leaveStep x callers s) := by
  cases callers with
  | nil => exact upkept_of_same (by simp [Progress.posts]) rfl
  | cons caller callers =>
    obtain ⟨first, outer⟩ := Post.all_add.mp around
    have unwinds : ∀ {l : Loop} {y : Exit} {s' : Store}, s'.spawned = s.spawned →
        Q ⟨l, .unwinding y⟩ → Upkept s Q R (unwind l y callers, s') := fun same q =>
      upkept_of_same (by simp [unwind, Progress.posts, q, outer]) same
    simp only [leaveStep]
    cases caller with
    | acquiring loop use release =>
      have here := Post.all_singleton_at.mp first
      have goes : ∀ {φ' : Fiber} {ms : List Event},
          Fiber.Step s ⟨loop, .acquiring use release⟩ ms φ' → φ'.loop.env = loop.env → Q φ' :=
        fun step env => rules.act here step env rfl
      cases x with
      | succeeded v =>
        simp only [returnStep]
        split
        · next cancelled => exact unwinds rfl (goes (.acquiredLate cancelled) rfl)
        · next live =>
          have live' : s.isCancelled loop.env.token = false := by
            simpa [Loop.push, Store.isCancelled, Store.emit] using live
          have uses := goes (.acquired (v := v) live') rfl
          exact upkept_of_same (by simp [eval, Progress.posts, outer, uses]) rfl
      | errored | canceled => exact unwinds rfl (goes (.notAcquired rfl) rfl)
    | releasing loop bracket outcome =>
      have goes := fun y : Exit =>
        rules.act (Post.all_singleton_at.mp first) (.released (s := s) (y := y)) rfl rfl
      have released := goes x
      cases x <;> cases outcome <;> exact unwinds rfl released
    | racingLeft loop tokens right =>
      obtain ⟨here, operand⟩ := Post.all_cons_at.mp first
      exact settle_upkept rules here operand outer
    | racingRight loop tokens left =>
      obtain ⟨here, operand⟩ := Post.all_cons_at.mp first
      exact settle_upkept rules here operand outer
    | settling loop winner y =>
      exact unwinds rfl
        (rules.act (Post.all_singleton_at.mp first) (.settled (s := s)) rfl rfl)
    | remaining loop side =>
      exact unwinds rfl
        (rules.act (Post.all_singleton_at.mp first) (.remained (s := s)) rfl rfl)

theorem resumeStep_upkept (rules : Fiber.Upkeep worker s Q R) {segment : Segment} {l : Link}
    (here : Post.All Q (segment.posts l)) (around : Post.All Q (Caller.allPosts callers)) :
    Upkept s Q R (resumeStep worker callers s segment) := by
  have parks : ∀ {s' : Store}, s'.spawned = s.spawned →
      Upkept s Q R (park segment callers, s') := fun same =>
    upkept_of_same (by simp [park, Progress.posts, here.posts, around]) same
  have unwinds : ∀ {loop : Loop} {x : Exit} {s' : Store}, s'.spawned = s.spawned →
      Q ⟨loop, .unwinding x⟩ → Upkept s Q R (unwind loop x callers, s') := fun same q =>
    upkept_of_same (by simp [unwind, Progress.posts, q, around]) same
  have faults : ∀ {f : Fault} {s' : Store}, s'.spawned = s.spawned →
      Upkept s Q R (.faulted f, s') := fun same => upkept_of_same (by simp [Progress.posts]) same
  cases segment with
  | start loop effect =>
    have here := Post.all_singleton_at.mp here
    exact upkept_of_same (by simp [eval, Progress.posts, here, around]) rfl
  | callback loop slot =>
    have waits := Post.all_singleton_at.mp here
    simp only [resumeStep]
    split
    · exact unwinds rfl (rules.act waits (.delivered (s := s)) rfl rfl)
    · exact faults rfl
    · split
      · next cancelled => exact unwinds rfl (rules.act waits (.abandoned cancelled) rfl rfl)
      · exact parks ((s.same_watchCallback _ _).trans (Store.same_watchToken _ _ _)).spawned
  | future loop wait =>
    have waits := Post.all_singleton_at.mp here
    simp only [resumeStep]
    split
    · next due => exact unwinds rfl (rules.act waits (.due due) rfl rfl)
    · split
      · next cancelled => exact unwinds rfl (rules.act waits (.forgone cancelled) rfl rfl)
      · exact parks ((same_watch worker s wait).trans (Store.same_watchToken _ _ _)).spawned
  | shifted env task =>
    simp only [resumeStep]
    split
    · split
      · exact upkept_of_same (by simpa [leave, Progress.posts] using around) rfl
      · exact faults rfl
    · exact parks (s.same_watchTask _ _).spawned
  | acquiring loop use release inner | releasing loop bracket outcome inner
  | settling loop winner exit inner | remaining loop side inner =>
    obtain ⟨waits, inner⟩ := Post.all_cons_at.mp here
    exact upkept_of_same
      (by simp [resume, Progress.posts, Caller.posts, waits, inner.posts, around]) rfl
  | racing loop tokens left right =>
    obtain ⟨waits, operands⟩ := Post.all_cons_at.mp here
    obtain ⟨left, right⟩ := Post.all_add.mp operands
    exact upkept_of_same
      (by simp [resume, Progress.posts, Caller.posts, waits, left.posts, right.posts, around]) rfl
  | gathering loop group =>
    have waits := Post.all_singleton_at.mp here
    have spawned := (gather_unmarked group (endedOperands group s) s).spawned
    simp only [resumeStep]
    split
    · next f s' found => exact faults (by simpa [found] using spawned)
    · next group' s' found =>
      rw [found] at spawned
      have advances := advances_of_gather found
      split
      · next none =>
        have ends := rules.act waits (.gathered advances (List.isEmpty_iff.mp none)) rfl rfl
        exact unwinds spawned ends
      · have gathers := rules.act waits (.gather advances) rfl rfl
        have watched := s'.same_watchTasks group'.pending worker.task
        exact upkept_of_same (by simpa [park, Progress.posts, Segment.posts, around] using gathers)
          (watched.spawned.trans spawned)

theorem parkStep_upkept {segment : Segment} {l : Link} (here : Post.All Q (segment.posts l))
    (around : Post.All Q (Caller.allPosts callers)) :
    Upkept s Q R (parkStep segment callers, s) := by
  refine upkept_of_same ?_ rfl
  cases callers with
  | nil => exact here.posts
  | cons caller callers =>
    obtain ⟨first, outer⟩ := Post.all_add.mp around
    cases caller with
    | acquiring | releasing | settling | remaining =>
      have waits := Post.all_singleton_at.mp first
      simp [parkStep, park, Progress.posts, Segment.posts, waits, here.posts, outer]
    | racingLeft loop tokens other | racingRight loop tokens other =>
      obtain ⟨waits, other⟩ := Post.all_cons_at.mp first
      simp [parkStep, park, resume, Progress.posts, Segment.posts, Caller.posts, waits,
        here.posts, other.posts, outer]

end Machine

/-- A property of loops that the rules keep holds of every loop after a step. -/
theorem Config.step_upkeep {worker : Worker} {s : Store} {Q : Fiber → Prop}
    {R : Context → Fiber → Prop} (rules : Fiber.Upkeep worker s Q R) {c : Config}
    (all : Post.All Q c.posts) : Upkept s Q R (c.step worker s) := by
  obtain ⟨focus, callers⟩ := c
  obtain ⟨here, around⟩ := Post.all_add.mp all
  cases focus with
  | eval loop effect =>
    exact Machine.evalStep_upkept rules (Post.all_singleton_at.mp here) around
  | unwind loop x => exact Machine.unwindStep_upkept rules (Post.all_singleton_at.mp here) around
  | leave x => exact Machine.leaveStep_upkept rules around
  | resume segment => exact Machine.resumeStep_upkept rules here around
  | park segment => exact Machine.parkStep_upkept here around

end EffectFibers
