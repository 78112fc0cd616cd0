import EffectFibers.Proofs.Parties

/-!
# The crew of a runtime

The crew is the bag of all fibers that can still act, each with its run, whichever strand they
are in.  A step of the runtime moves the crew in one of few ways (`Runtime.Move`): one fiber
makes one of its steps, one fiber ends, a run begins, or a panic takes a strand away.  What is
said about fibers, and not about tasks, follows from these alone.

## Main statements

* `Runtime.Step.move`: a step is a move.
* `Runtime.Reachable.manned`: every fiber has a token of its own.
-/

namespace EffectFibers

/-- A fiber with the token of its run. -/
abbrev Member := TokenId × Fiber

namespace Post

def fibers (P : Multiset Post) : Multiset Fiber := P.filterMap Post.fiber?

/-- The fibers among the posts of a strand of a run. -/
def crew (run : TokenId) (P : Multiset Post) : Multiset Member := (fibers P).map (Prod.mk run)

variable {run : TokenId} {P Q : Multiset Post} {l : Link}

@[simp] theorem fibers_zero : fibers 0 = 0 := rfl

@[simp] theorem fibers_cons_fiber {φ : Fiber} : fibers (⟨l, .fiber φ⟩ ::ₘ P) = φ ::ₘ fibers P :=
  Multiset.filterMap_cons_some _ _ _ rfl

@[simp] theorem fibers_cons_at {loop : Loop} {doing : Doing} :
    fibers (loop.at l doing ::ₘ P) = ⟨loop, doing⟩ ::ₘ fibers P := fibers_cons_fiber

@[simp] theorem fibers_cons_away {env : Env} {task : TaskId} :
    fibers (⟨l, .away env task⟩ ::ₘ P) = fibers P :=
  Multiset.filterMap_cons_none _ _ rfl

@[simp] theorem fibers_add : fibers (P + Q) = fibers P + fibers Q :=
  Multiset.filterMap_add _ _ _

@[simp] theorem crew_zero : crew run 0 = 0 := rfl

@[simp] theorem crew_cons_fiber {φ : Fiber} :
    crew run (⟨l, .fiber φ⟩ ::ₘ P) = (run, φ) ::ₘ crew run P := by
  simp [crew]

@[simp] theorem crew_cons_at {loop : Loop} {doing : Doing} :
    crew run (loop.at l doing ::ₘ P) = (run, ⟨loop, doing⟩) ::ₘ crew run P := crew_cons_fiber

@[simp] theorem crew_singleton_at {loop : Loop} {doing : Doing} :
    crew run {loop.at l doing} = {(run, ⟨loop, doing⟩)} := by
  rw [← Multiset.cons_zero, crew_cons_at, crew_zero, Multiset.cons_zero]

@[simp] theorem crew_cons_away {env : Env} {task : TaskId} :
    crew run (⟨l, .away env task⟩ ::ₘ P) = crew run P := by
  simp [crew]

@[simp] theorem crew_add : crew run (P + Q) = crew run P + crew run Q := by
  simp [crew]

theorem mem_fibers {φ : Fiber} : φ ∈ fibers P ↔ ∃ l, ⟨l, .fiber φ⟩ ∈ P := by
  simp only [fibers, Multiset.mem_filterMap]
  constructor
  · rintro ⟨⟨l, φ' | ⟨env, task⟩⟩, mem, same⟩
    · cases same
      exact ⟨l, mem⟩
    · cases same
  · rintro ⟨l, mem⟩
    exact ⟨_, mem, rfl⟩

theorem tokens_fibers_le : (fibers P).map Fiber.token ≤ P.map Post.token := by
  induction P using Multiset.induction_on with
  | empty => simp
  | cons p P ih =>
    obtain ⟨l, φ | ⟨env, task⟩⟩ := p
    · simpa [Post.token] using ih
    · simpa using ih.trans (Multiset.le_cons_self _ _)

end Post

def Party.crew (π : Party) : Multiset Member := Post.crew π.run π.posts

def Runtime.crew (σ : Runtime) : Multiset Member := σ.parties.bind Party.crew

theorem Runtime.crew_empty : Runtime.crew {} = 0 := rfl

namespace Runtime

theorem mem_crew {σ : Runtime} {run : TokenId} {φ : Fiber} :
    (run, φ) ∈ σ.crew ↔ ∃ π ∈ σ.parties, π.run = run ∧ ∃ l, ⟨l, .fiber φ⟩ ∈ π.posts := by
  simp only [crew, Multiset.mem_bind, Party.crew, Post.crew, Multiset.mem_map, Post.mem_fibers]
  constructor
  · rintro ⟨π, mem, χ, inside, same⟩
    cases same
    exact ⟨π, mem, rfl, inside⟩
  · rintro ⟨π, mem, rfl, inside⟩
    exact ⟨π, mem, φ, inside, rfl⟩

/-- The one fiber of a run that has just begun. -/
theorem mem_crew_starting (effect : Effect) (context : Context) :
    (0, ⟨⟨⟨0, context, []⟩, []⟩, .evaluating effect⟩) ∈ (starting effect context).crew := by
  let π := Party.starting ⟨0, context, []⟩ effect
  have mem : π ∈ (starting effect context).parties := by
    rw [starting, parties_begin]
    exact Multiset.mem_cons_self _ _
  exact mem_crew.mpr ⟨π, mem, rfl, .outer, Multiset.mem_singleton_self _⟩

/-- A fiber that has just begun. -/
structure Born (s s' : Store) (φ : Fiber) : Prop where
  loop : ∃ env effect, φ = ⟨⟨env, []⟩, .evaluating effect⟩
  fresh : Within s.size s'.size φ.token

inductive Move (σ σ' : Runtime) : Prop
  | idle (crew : σ'.crew = σ.crew) (log : σ'.log = σ.log)
  /-- A fiber makes a step and may begin others. -/
  | act {run : TokenId} {φ φ' : Fiber} {ms : List Event} {born : Multiset Fiber}
      {rest : Multiset Member} (step : φ.Step σ.store ms φ')
      (fresh : ∀ χ ∈ born, Born σ.store σ'.store χ) (distinct : (born.map Fiber.token).Nodup)
      (numbered : ∀ t b v, Event.acquired t b v ∈ ms → b < σ'.store.brackets)
      (crew : σ.crew = (run, φ) ::ₘ rest)
      (crew' : σ'.crew = (run, φ') ::ₘ (born.map (Prod.mk run) + rest))
      (log : σ'.log = ms.map (.of run σ.store) ++ σ.log)
  /-- A fiber ends. -/
  | leave {run : TokenId} {env : Env} {x : Exit}
      (crew : σ.crew = (run, ⟨⟨env, []⟩, .unwinding x⟩) ::ₘ σ'.crew)
      (log : σ'.log = .of run σ.store (.left env.token x) :: σ.log)
  /-- A strand has failed, and its fibers are gone. -/
  | lose {run : TokenId} {gone : Multiset Member} {ms : List Event}
      (crew : σ.crew = gone + σ'.crew) (same : ∀ m ∈ gone, m.1 = run) (failed : σ'.Failed run)
      (marks : ms = [] ∨ ∃ φ point, (run, φ) ∈ gone ∧ φ.Enters σ.store point ∧
        ms = [.entered φ.token point])
      (log : σ'.log = ms.map (.of run σ.store) ++ σ.log)
  /-- A fiber is gone that was to go on in a closed context. -/
  | refuse {run : TokenId} {loop : Loop} {context : Context} (closed : context.isOpen = false)
      (aborted : ∃ t, σ'.store.joined? t = some .aborted)
      (live : σ.store.isCancelled loop.env.token = false)
      (crew : σ.crew = (run, ⟨loop, .evaluating (.shift context)⟩) ::ₘ σ'.crew)
      (log : σ'.log = .of run σ.store (.entered loop.env.token .shift) :: σ.log)
  /-- A run begins. -/
  | begin {φ : Fiber} (fresh : Born σ.store σ'.store φ)
      (crew : σ'.crew = (φ.token, φ) ::ₘ σ.crew) (log : σ'.log = σ.log)

/-! ## Every step is a move -/

section

variable {σ σ' : Runtime} {run : TokenId} {P P' : Multiset Post} {ms : List Event}
  {new : List Spawn} {rest : Multiset Member}

theorem born_of_newborn {s s' : Store} {of : TokenId} {nested : Multiset Post}
    (newborn : ∀ p ∈ nested, p.Newborn s s' of) : ∀ χ ∈ Post.fibers nested, Born s s' χ := by
  intro χ mem
  obtain ⟨l, mem⟩ := Post.mem_fibers.mp mem
  obtain ⟨⟨env, effect, same⟩, fresh, -⟩ := newborn _ mem
  cases same
  exact ⟨⟨_, _, rfl⟩, fresh⟩

theorem born_of_begun {s s' : Store} {of : TokenId} {group : Group}
    (begun : group.Begun s s' of new) : ∀ χ ∈ Post.fibers (Spawn.offspring new), Born s s' χ := by
  intro χ mem
  obtain ⟨l, mem⟩ := Post.mem_fibers.mp mem
  obtain ⟨x, mem, inside⟩ := Spawn.mem_offspring.mp mem
  obtain ⟨env, effect, segment, fresh, -⟩ := begun.operands x mem
  simp only [Spawn.posts, segment, Segment.posts, Multiset.mem_singleton, Loop.at] at inside
  cases inside
  exact ⟨⟨_, _, rfl⟩, fresh.mono (Nat.le_succ_of_le begun.token.le) (Nat.le_refl _)⟩

theorem move_of_reaction (reaction : Reaction σ.store σ'.store P ms new P')
    (crew : σ.crew = Post.crew run P + rest)
    (crew' : σ'.crew = Post.crew run P' + (Post.crew run (Spawn.offspring new) + rest))
    (numbered : ∀ t b v, Event.acquired t b v ∈ ms → b < σ'.store.brackets)
    (log : σ'.log = ms.map (.of run σ.store) ++ σ.log) : Move σ σ' := by
  cases reaction with
  | idle => exact .idle (by simp [crew, crew']) log
  | act step single newborn distinct quiet =>
    refine .act step (born_of_newborn newborn)
      (Multiset.nodup_of_le Post.tokens_fibers_le distinct) numbered (by simpa using crew) ?_ log
    simp [crew', Spawn.offspring_quiet quiet, Post.crew, add_assoc]
  | @fan l loop n operands group _ P begun =>
    have step : Fiber.Step σ.store ⟨loop, .evaluating (.parallel n operands)⟩ []
        ⟨loop, .gathering group⟩ := .fan
    refine .act step (born_of_begun begun)
      (Multiset.nodup_of_le Post.tokens_fibers_le begun.distinct) numbered (by simpa using crew)
      ?_ log
    simp [crew', Post.crew, add_left_comm]
  | @sent l loop context P live refused =>
    have step : Fiber.Step σ.store ⟨loop, .evaluating (.shift context)⟩
        [.entered loop.env.token .shift]
        ⟨{ loop with env := loop.env.withContext context }, .evaluating Effect.unit⟩ :=
      .shift live
    have gone : σ.crew = {(run, ⟨loop, .evaluating (.shift context)⟩)}
        + (Post.crew run P + rest) := by
      simpa using crew
    cases isOpen : context.isOpen with
    | true =>
      have none : ∀ χ ∈ (0 : Multiset Fiber), Born σ.store σ'.store χ := by simp
      refine .act step none (by simp) numbered gone ?_ log
      simp [crew', isOpen, Spawn.posts, Spawn.segment?, Segment.posts]
    | false =>
      have kept : σ'.crew = Post.crew run P + rest := by simp [crew', isOpen]
      rw [← kept, Multiset.singleton_add] at gone
      exact .refuse isOpen ⟨_, refused isOpen⟩ live gone log
  | back ended => exact .idle (by simp [crew, crew']) log
  | left => exact .leave (by simpa [crew'] using crew) log

theorem crew_ofSpawns (run : TokenId) (new : List Spawn) :
    (Party.ofSpawns run new).bind Party.crew = Post.crew run (Spawn.offspring new) := by
  unfold Party.ofSpawns Strand.ofSpawns
  induction new with
  | nil => simp
  | cons x new ih =>
    rw [Spawn.offspring_cons, Post.crew_add, ← ih, List.filterMap_cons]
    cases segment : x.segment? with
    | none => simp [Strand.ofSpawn?, segment, Spawn.posts]
    | some seg =>
      simp [Strand.ofSpawn?, segment, Spawn.posts, Party.crew, Strand.party, Strand.posts,
        ← Multiset.cons_coe]

theorem Turnover.move (h : Turnover σ σ') : Move σ σ' := by
  cases h with
  | idle parties log => exact .idle (by rw [crew, crew, parties]) log
  | @act run role P P' ms new rest reaction numbered tasks parties parties' log =>
    have crew : σ.crew = Post.crew run P + rest.bind Party.crew := by
      rw [Runtime.crew, parties, Multiset.cons_bind]
      rfl
    have crew' : σ'.crew
        = Post.crew run P' + (Post.crew run (Spawn.offspring new) + rest.bind Party.crew) := by
      rw [Runtime.crew, parties', Multiset.cons_bind, Multiset.add_bind, crew_ofSpawns]
      rfl
    exact move_of_reaction reaction crew crew' numbered log
  | @lose run role P ms rest failed marks parties parties' log =>
    have crew : σ.crew = Post.crew run P + σ'.crew := by
      simp [Runtime.crew, parties, parties', Party.crew]
    refine .lose crew (by simp [Post.crew]) failed (marks.imp_right ?_) log
    rintro ⟨l, φ, point, mem, enters, rfl⟩
    refine ⟨φ, point, ?_, enters, rfl⟩
    simpa [Post.crew] using Post.mem_fibers.mpr ⟨l, mem⟩
  | @begin env effect fresh parties' log =>
    have born : Born σ.store σ'.store ⟨⟨env, []⟩, .evaluating effect⟩ := ⟨⟨_, _, rfl⟩, fresh⟩
    refine .begin born ?_ log
    simp [Runtime.crew, parties', Party.crew, Party.starting, Fiber.token]

theorem Step.move (h : Step σ σ') : Move σ σ' := h.turnover.move

end

/-! ## One token, one fiber -/

def events (σ : Runtime) : List Event := σ.log.map Moment.event

/-- The tokens of the crew. -/
def badges (crew : Multiset Member) : Multiset TokenId := crew.map fun m => m.2.token

/-- Every fiber has a token of its own, and whatever left a mark had one. -/
structure Manned (σ : Runtime) : Prop where
  bound : ∀ t ∈ badges σ.crew, t < σ.store.size
  distinct : (badges σ.crew).Nodup
  marked : ∀ e ∈ σ.events, ∀ t, e.fiber? = some t → t < σ.store.size

section

variable {σ σ' : Runtime}

theorem mem_badges {crew : Multiset Member} {t : TokenId} :
    t ∈ badges crew ↔ ∃ m ∈ crew, m.2.token = t := by
  simp [badges]

@[simp] theorem badges_cons (m : Member) (crew : Multiset Member) :
    badges (m ::ₘ crew) = m.2.token ::ₘ badges crew :=
  Multiset.map_cons _ _ _

@[simp] theorem badges_add (crew crew' : Multiset Member) :
    badges (crew + crew') = badges crew + badges crew' :=
  Multiset.map_add _ _ _

@[simp] theorem badges_map (run : TokenId) (born : Multiset Fiber) :
    badges (born.map (Prod.mk run)) = born.map Fiber.token := by
  simp [badges]

theorem events_append {run : TokenId} {ms : List Event}
    (log : σ'.log = ms.map (.of run σ.store) ++ σ.log) : σ'.events = ms ++ σ.events := by
  simp [events, log, Moment.of, Function.comp_def]

/-- Two members of one token are one. -/
theorem Manned.unique (h : σ.Manned) {m m' : Member} (mem : m ∈ σ.crew) (mem' : m' ∈ σ.crew)
    (token : m.2.token = m'.2.token) : m = m' :=
  Multiset.inj_on_of_nodup_map h.distinct m mem m' mem' token

theorem Manned.move (h : σ.Manned) (ages : σ.store.Ages σ'.store) (move : Move σ σ') :
    σ'.Manned := by
  have marked : ∀ (run : TokenId) (ms : List Event), σ'.log = ms.map (.of run σ.store) ++ σ.log →
      (∀ e ∈ ms, ∀ t, e.fiber? = some t → t ∈ badges σ.crew) →
      ∀ e ∈ σ'.events, ∀ t, e.fiber? = some t → t < σ'.store.size := by
    intro run ms log own e mem t fiber
    rw [events_append log] at mem
    refine Nat.lt_of_lt_of_le ?_ ages.size
    obtain mem | mem := List.mem_append.mp mem
    · exact h.bound t (own e mem t fiber)
    · exact h.marked e mem t fiber
  have silent : σ'.log = σ.log → ∀ e ∈ σ'.events, ∀ t, e.fiber? = some t → t < σ'.store.size :=
    fun log => marked 0 [] log (by simp)
  have fewer : badges σ'.crew ≤ badges σ.crew →
      (∀ t ∈ badges σ'.crew, t < σ'.store.size) ∧ (badges σ'.crew).Nodup := fun le =>
    ⟨fun t mem => Nat.lt_of_lt_of_le (h.bound t (Multiset.mem_of_le le mem)) ages.size,
      Multiset.nodup_of_le le h.distinct⟩
  cases move with
  | idle crew log =>
    obtain ⟨bound, distinct⟩ := fewer (by rw [crew])
    exact ⟨bound, distinct, silent log⟩
  | @act run φ φ' ms born rest step fresh apart numbered crew crew' log =>
    have before : badges σ.crew = φ.token ::ₘ badges rest := by rw [crew, badges_cons]
    have after : badges σ'.crew = born.map Fiber.token + badges σ.crew := by
      rw [crew', badges_cons, badges_add, badges_map, step.token, before, Multiset.add_cons]
    have young : ∀ t ∈ born.map Fiber.token, Within σ.store.size σ'.store.size t := by
      intro t mem
      obtain ⟨χ, inBorn, rfl⟩ := Multiset.mem_map.mp mem
      exact (fresh χ inBorn).fresh
    refine ⟨fun t mem => ?_, ?_, marked run ms log fun e mem t fiber => ?_⟩
    · rw [after] at mem
      obtain mem | mem := Multiset.mem_add.mp mem
      · exact (young t mem).lt
      · exact Nat.lt_of_lt_of_le (h.bound t mem) ages.size
    · rw [after]
      refine Multiset.nodup_add.mpr ⟨apart, h.distinct, Multiset.disjoint_left.mpr ?_⟩
      intro t inBorn inOld
      exact Nat.not_le.mpr (h.bound t inOld) (young t inBorn).le
    · obtain rfl := Option.some.inj ((step.marks e mem).symm.trans fiber)
      simp [before]
  | @leave run env x crew log =>
    obtain ⟨bound, distinct⟩ := fewer (by
      rw [crew, badges_cons]
      exact Multiset.le_cons_self _ _)
    refine ⟨bound, distinct, marked run [.left env.token x] log ?_⟩
    intro e mem t fiber
    obtain rfl := List.mem_singleton.mp mem
    cases fiber
    simp [crew, Fiber.token]
  | @lose run gone ms crew same failed marks log =>
    obtain ⟨bound, distinct⟩ := fewer (by
      rw [crew, badges_add]
      exact Multiset.le_add_left _ _)
    refine ⟨bound, distinct, marked run ms log ?_⟩
    intro e mem t fiber
    obtain rfl | ⟨φ, point, inGone, enters, rfl⟩ := marks
    · cases mem
    · obtain rfl := List.mem_singleton.mp mem
      cases fiber
      rw [crew, badges_add]
      exact Multiset.mem_add.mpr (.inl (mem_badges.mpr ⟨_, inGone, rfl⟩))
  | @refuse run loop context closed aborted live crew log =>
    obtain ⟨bound, distinct⟩ := fewer (by
      rw [crew, badges_cons]
      exact Multiset.le_cons_self _ _)
    refine ⟨bound, distinct, marked run [.entered loop.env.token .shift] log ?_⟩
    intro e mem t fiber
    obtain rfl := List.mem_singleton.mp mem
    cases fiber
    simp [crew, Fiber.token]
  | @begin φ fresh crew log =>
    have after : badges σ'.crew = φ.token ::ₘ badges σ.crew := by rw [crew, badges_cons]
    refine ⟨fun t mem => ?_, ?_, silent log⟩
    · rw [after] at mem
      obtain rfl | mem := Multiset.mem_cons.mp mem
      · exact fresh.fresh.lt
      · exact Nat.lt_of_lt_of_le (h.bound t mem) ages.size
    · rw [after]
      refine Multiset.nodup_cons.mpr ⟨fun mem => ?_, h.distinct⟩
      exact Nat.not_le.mpr (h.bound _ mem) fresh.fresh.le

theorem Step.manned (h : σ.Manned) (step : Step σ σ') : σ'.Manned := h.move step.ages step.move

theorem Reachable.manned (h : Reachable σ) : σ.Manned := by
  induction h with
  | refl => exact ⟨by simp [crew_empty, badges], by simp [crew_empty, badges], by simp [events]⟩
  | tail _ step ih => exact Step.manned ih step

end

end Runtime

end EffectFibers
