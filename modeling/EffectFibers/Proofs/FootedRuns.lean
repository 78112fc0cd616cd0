import EffectFibers.Proofs.Dropping
import EffectFibers.Proofs.Footing

/-!
# Runs with frames at the foot of a loop

Whatever a loop does by itself, with all that it begins and wherever it is shifted to, it does as
well with more frames at its foot, while the rest of the runtime does what it did.  The runtimes
differ in these frames only, until the loop has come to the end of its own.

## Main definitions

* `Runtime.Footed`: the same runtime, with more frames at the foot of one loop.

## Main statements

* `Runtime.Footed.forth`, `Runtime.Footed.back`: a step does not depend on the foot of a loop.
* `Runtime.Footed.steps`, `Runtime.Footed.follows`: nor does a whole run.
-/

namespace EffectFibers

/-! ## Fibers -/

section

variable (k : TokenId) (F : List Frame)

def Fiber.footed (φ : Fiber) : Fiber := ⟨φ.loop.footed k F, φ.doing⟩

def Post.footed (p : Post) : Post :=
  ⟨p.link, match p.piece with
    | .fiber φ => .fiber (φ.footed k F)
    | .away env task => .away env task⟩

end

section

variable {k : TokenId} {F : List Frame}

theorem Segment.posts_footed (g : Segment) (l : Link) :
    (g.footed k F).posts l = (g.posts l).map (Post.footed k F) := by
  induction g generalizing l with
  | start | callback | future | shifted | gathering => rfl
  | acquiring loop use release inner ih | releasing loop b x inner ih =>
    simp only [footed, posts, ih, Multiset.map_cons]
    rfl
  | racing loop tokens left right ih ih' =>
    simp only [footed, posts, ih, ih', Multiset.map_cons, Multiset.map_add]
    rfl
  | settling loop winner x loser ih | remaining loop side operand ih =>
    simp only [footed, posts, ih, Multiset.map_cons]
    rfl

theorem Caller.posts_footed (c : Caller) (l : Link) :
    (c.footed k F).posts l = (c.posts l).map (Post.footed k F) := by
  cases c with
  | acquiring | releasing | settling | remaining => rfl
  | racingLeft loop tokens other | racingRight loop tokens other =>
    simp only [footed, posts, Segment.posts_footed, Multiset.map_cons]
    rfl

theorem Caller.innermost_footed (cs : List Caller) :
    innermost (cs.map (Caller.footed k F)) = innermost cs := by
  cases cs with
  | nil => rfl
  | cons c cs => cases c <;> rfl

theorem Caller.allPosts_footed (cs : List Caller) :
    allPosts (cs.map (Caller.footed k F)) = (allPosts cs).map (Post.footed k F) := by
  induction cs with
  | nil => rfl
  | cons c cs ih =>
    simp only [List.map_cons, allPosts_cons, innermost_footed, posts_footed, ih, Multiset.map_add]

theorem Config.posts_footed (c : Config) :
    (c.footed k F).posts = c.posts.map (Post.footed k F) := by
  obtain ⟨focus, cs⟩ := c
  cases focus with
  | eval | unwind =>
    simp only [footed, Focus.footed, posts_eval, posts_unwind, Caller.innermost_footed,
      Caller.allPosts_footed, Multiset.map_cons]
    rfl
  | leave x => simp only [footed, Focus.footed, posts_leave, Caller.allPosts_footed]
  | resume g | park g =>
    simp only [footed, Focus.footed, posts_resume, posts_park, Caller.innermost_footed,
      Caller.allPosts_footed, Segment.posts_footed, Multiset.map_add]

theorem Strand.posts_footed (τ : Strand) :
    (τ.footed k F).posts = τ.posts.map (Post.footed k F) := by
  obtain ⟨run, role, state⟩ := τ
  cases state with
  | waiting g => exact g.posts_footed .outer
  | running c => exact c.posts_footed
  | ended | faulted | dropped => rfl

theorem Post.owned_footed (p : Post) : (p.footed k F).owned = p.owned := by
  obtain ⟨l, ⟨loop, doing⟩ | ⟨env, task⟩⟩ := p
  · cases doing <;> rfl
  · rfl

theorem Post.fibers_footed (P : Multiset Post) :
    fibers (P.map (Post.footed k F)) = (fibers P).map (Fiber.footed k F) := by
  unfold fibers
  rw [Multiset.map_filterMap, Multiset.filterMap_map]
  congr 1
  funext p
  obtain ⟨l, φ | ⟨env, task⟩⟩ := p <;> rfl

/-! ### Loops with other tokens -/

variable (k) in
/-- None of the loops is the one with the token. -/
def Post.Lacks (P : Multiset Post) : Prop := ∀ φ ∈ fibers P, φ.token ≠ k

theorem Post.lacks_cons {l : Link} {loop : Loop} {doing : Doing} {P : Multiset Post} :
    Lacks k (loop.at l doing ::ₘ P) ↔ loop.env.token ≠ k ∧ Lacks k P := by
  simp [Lacks, Fiber.token]

theorem Post.lacks_singleton {l : Link} {loop : Loop} {doing : Doing} :
    Lacks k {loop.at l doing} ↔ loop.env.token ≠ k := by
  rw [← Multiset.cons_zero, lacks_cons]
  simp [Lacks]

theorem Post.lacks_add {P Q : Multiset Post} : Lacks k (P + Q) ↔ Lacks k P ∧ Lacks k Q := by
  simp [Lacks, or_imp, forall_and]

theorem Segment.footed_of_lacks {g : Segment} {l : Link} (lacks : Post.Lacks k (g.posts l)) :
    g.footed k F = g := by
  induction g generalizing l with
  | shifted => rfl
  | start | callback | future | gathering =>
    have ne := Post.lacks_singleton.mp lacks
    simp only [footed, Loop.footed_of_ne ne]
  | acquiring loop use release inner ih | releasing loop b x inner ih
  | settling loop winner x inner ih | remaining loop side inner ih =>
    obtain ⟨ne, rest⟩ := Post.lacks_cons.mp lacks
    simp only [footed, Loop.footed_of_ne ne, ih rest]
  | racing loop tokens left right ih ih' =>
    obtain ⟨ne, rest⟩ := Post.lacks_cons.mp lacks
    obtain ⟨onLeft, onRight⟩ := Post.lacks_add.mp rest
    simp only [footed, Loop.footed_of_ne ne, ih onLeft, ih' onRight]

theorem Caller.footed_of_lacks {cs : List Caller} (lacks : Post.Lacks k (allPosts cs)) :
    cs.map (Caller.footed k F) = cs := by
  induction cs with
  | nil => rfl
  | cons c cs ih =>
    obtain ⟨first, rest⟩ := Post.lacks_add.mp lacks
    rw [List.map_cons, ih rest]
    congr 1
    cases c with
    | acquiring | releasing | settling | remaining =>
      have ne := Post.lacks_singleton.mp first
      simp only [footed, Loop.footed_of_ne ne]
    | racingLeft loop tokens other | racingRight loop tokens other =>
      obtain ⟨ne, rest⟩ := Post.lacks_cons.mp first
      simp only [footed, Loop.footed_of_ne ne, Segment.footed_of_lacks rest]

theorem Config.footed_of_lacks {c : Config} (lacks : Post.Lacks k c.posts) : c.footed k F = c := by
  obtain ⟨focus, cs⟩ := c
  obtain ⟨first, rest⟩ := Post.lacks_add.mp lacks
  rw [footed, Caller.footed_of_lacks rest]
  congr 1
  cases focus with
  | eval | unwind =>
    have ne := Post.lacks_singleton.mp first
    simp only [Focus.footed, Loop.footed_of_ne ne]
  | leave => rfl
  | resume g | park g => simp only [Focus.footed, Segment.footed_of_lacks first]

theorem Strand.footed_of_lacks {τ : Strand} (lacks : Post.Lacks k τ.posts) : τ.footed k F = τ := by
  obtain ⟨run, role, state⟩ := τ
  cases state with
  | waiting g => simp only [footed, State.footed, Segment.footed_of_lacks lacks]
  | running c => simp only [footed, State.footed, Config.footed_of_lacks lacks]
  | ended | faulted | dropped => rfl

end

/-! ## Steps of the runtime -/

namespace Runtime

variable {k : TokenId} {F : List Frame} {σ σ' υ υ' : Runtime}

/-- The same runtime, with more frames at the foot of the loop with a token. -/
structure Footed (k : TokenId) (F : List Frame) (σ υ : Runtime) : Prop where
  store : υ.store = σ.store.withTasks υ.store.spawned
  strands : υ.strands = σ.strands.map (Strand.footed k F)
  log : υ.log = σ.log

namespace Footed

theorem crew (h : Footed k F σ υ) : υ.crew = σ.crew.map fun n => (n.1, n.2.footed k F) := by
  have party : ∀ τ : Strand, (τ.footed k F).party.crew
      = τ.party.crew.map fun n => (n.1, n.2.footed k F) := fun τ => by
    simp only [Party.crew, Strand.party, Strand.posts_footed, Post.crew, Post.fibers_footed,
      Multiset.map_map, Function.comp_def]
    rfl
  simp only [Runtime.crew, parties, h.strands, Multiset.map_map, Multiset.bind_map,
    Multiset.map_bind, Function.comp_apply, party]

theorem badges (h : Footed k F σ υ) : badges υ.crew = badges σ.crew := by
  rw [Runtime.badges, h.crew, Multiset.map_map]
  rfl

theorem distinct (h : Footed k F σ υ) (reach : Reachable υ) : (Runtime.badges σ.crew).Nodup :=
  h.badges ▸ reach.manned.distinct

variable {k : TokenId} {F : List Frame} {σ σ' υ υ' : Runtime}

/-- A strand that makes a step has the same strand on the other side. -/
theorem strand {s : Store} {τ : Strand} {rest : Multiset Strand} {log : List Moment}
    (h : Footed k F ⟨s, τ ::ₘ rest, log⟩ υ) : ∃ tasks, υ = ⟨s.withTasks tasks,
      τ.footed k F ::ₘ rest.map (Strand.footed k F), log⟩ := by
  obtain ⟨s', strands, log'⟩ := υ
  obtain ⟨store, strands, log⟩ := h
  refine ⟨s'.spawned, ?_⟩
  rw [Multiset.map_cons] at strands
  simp only at store strands log
  rw [store, strands, log]
  rfl

theorem turn {s : Store} {tasks : List Spawn} (known : k < s.size) {c : Config}
    (before : ∀ env x, c.focus = .unwind ⟨env, []⟩ x → env.token ≠ k) (worker : Worker)
    (run : TokenId) (role : Strand.Role) (rest : Multiset Strand) (log : List Moment) :
    Footed k F (turn worker run role c ⟨s, rest, log⟩)
      (turn worker run role (c.footed k F)
        ⟨s.withTasks tasks, rest.map (Strand.footed k F), log⟩) := by
  have begins : s.Footed k F s.spawned tasks (s.withTasks tasks) := ⟨[], rfl, rfl⟩
  obtain ⟨progress, new, spawned, store⟩ := Config.step_footed begins known worker before
  obtain ⟨-, es, -, trace, -, -⟩ := c.step_reacts worker s
  have spawned' : ((c.footed k F).step worker (s.withTasks tasks)).2.spawned
      = new.map (Spawn.footed k F) ++ tasks := by rw [store]; rfl
  have trace' : ((c.footed k F).step worker (s.withTasks tasks)).2.trace
      = es ++ (s.withTasks tasks).trace := by rw [store]; exact trace
  rw [turn_eq trace spawned, turn_eq trace' spawned']
  refine ⟨by rw [store]; rfl, ?_, rfl⟩
  simp only [Multiset.map_cons, Multiset.map_add, Strand.ofSpawns_footed, progress,
    Progress.state_footed]
  rfl

theorem whole (h : Footed k F σ υ) :
    ∃ tasks, υ = ⟨σ.store.withTasks tasks, σ.strands.map (Strand.footed k F), σ.log⟩ := by
  obtain ⟨s', strands, log'⟩ := υ
  obtain ⟨store, strands, log⟩ := h
  refine ⟨s'.spawned, ?_⟩
  simp only at store strands log
  rw [store, strands, log]
  rfl

theorem of_store {tasks : List Spawn} (store : υ.store = σ.store.withTasks tasks)
    (strands : υ.strands = σ.strands.map (Strand.footed k F)) (log : υ.log = σ.log) :
    Footed k F σ υ :=
  ⟨by rw [store]; rfl, strands, log⟩

theorem size (h : Footed k F σ υ) : υ.store.size = σ.store.size := by
  rw [h.store]
  rfl

/-- A run that begins has another token. -/
theorem begin (h : Footed k F σ υ) {new new' : TokenId × Store} (token : new'.1 = new.1)
    (store : ∃ tasks, new'.2 = new.2.withTasks tasks) (fresh : k < new.1) (effect : Effect)
    (kept : List TokenId) (context : Context) :
    Footed k F (σ.begin new effect kept context) (υ.begin new' effect kept context) := by
  obtain ⟨tasks, rfl⟩ := h.whole
  obtain ⟨tasks', store⟩ := store
  obtain ⟨t, s⟩ := new
  obtain ⟨t', s'⟩ := new'
  simp only at token store fresh
  subst token store
  refine ⟨rfl, ?_, rfl⟩
  have ne : t' ≠ k := Nat.ne_of_gt fresh
  simp only [Runtime.begin, Run.new, Strand.ofRun, Multiset.map_cons, Strand.footed,
    Strand.State.footed, Segment.footed]
  rw [Loop.footed_of_ne ne]

theorem report {s : Store} {rest : Multiset Strand} {log : List Moment} {run : TokenId} {t : TaskId}
    {state : Strand.State} {result : Joined} (h : Footed k F ⟨s, ⟨run, .task t, state⟩ ::ₘ rest, log⟩ υ)
    (came : state.joined? = some result) : ∃ υ', Step υ υ' ∧
      Footed k F ⟨s.finish t result, ⟨run, .task t, state⟩ ::ₘ rest, log⟩ υ' := by
  obtain ⟨tasks, rfl⟩ := h.strand
  have came' : (state.footed k F).joined? = some result := state.joined?_footed.trans came
  refine ⟨_, .report _ _ log run t (state.footed k F) result came',
    .of_store (Store.Aloof.finish t result s tasks) ?_ rfl⟩
  rw [Multiset.map_cons]
  rfl

theorem prune (h : Footed k F σ υ) {held : TokenId → Bool} :
    (∀ τ ∈ σ.strands, ∀ p ∈ τ.posts, ∀ t ∈ p.owned, held t = true) ↔
      ∀ τ ∈ υ.strands, ∀ p ∈ τ.posts, ∀ t ∈ p.owned, held t = true := by
  rw [h.strands]
  simp [Strand.posts_footed, Post.owned_footed]

theorem outside (h : Footed k F σ υ) {s : Store} : σ.Outside s ↔ υ.Outside s := by
  obtain ⟨tasks, rfl⟩ := h.whole
  have roles : ∀ t, (∀ τ ∈ σ.strands, τ.role ≠ .task t) ↔
      ∀ τ ∈ σ.strands.map (Strand.footed k F), τ.role ≠ .task t := by
    simp [Strand.footed]
  constructor
  · rintro ⟨tokens, brackets, trace, joins, joined⟩
    refine ⟨tokens, brackets, trace, joins, fun t lt => ?_⟩
    rw [← roles]
    exact joined t lt
  · rintro ⟨tokens, brackets, trace, joins, joined⟩
    refine ⟨tokens, brackets, trace, joins, fun t lt => ?_⟩
    rw [roles]
    exact joined t lt

/-- When the loop leaves, it is gone. -/
theorem gone {s : Store} {rest : Multiset Strand} {log : List Moment} {run : TokenId}
    {role : Strand.Role} {env : Env} {x : Exit} {cs : List Caller} {worker : Worker}
    (distinct : (Runtime.badges (Runtime.crew
      ⟨s, ⟨run, role, .running ⟨.unwind ⟨env, []⟩ x, cs⟩⟩ ::ₘ rest, log⟩)).Nodup) :
    env.token ∉ Runtime.badges
      (Runtime.turn worker run role ⟨.unwind ⟨env, []⟩ x, cs⟩ ⟨s, rest, log⟩).crew := by
  have trace : (Config.step worker ⟨.unwind ⟨env, []⟩ x, cs⟩ s).2.trace
      = [.left env.token x] ++ s.trace := rfl
  have spawned : (Config.step worker ⟨.unwind ⟨env, []⟩ x, cs⟩ s).2.spawned = [] ++ s.spawned := rfl
  have came : (Config.step worker ⟨.unwind ⟨env, []⟩ x, cs⟩ s).1 = .next ⟨.leave x, cs⟩ := rfl
  rw [turn_eq trace spawned, came]
  simp only [Runtime.crew, parties, Multiset.map_cons, Multiset.cons_bind, Party.crew, Strand.party,
    Strand.posts, Config.posts_unwind, Post.crew_cons_at, Multiset.cons_add, badges_cons,
    Multiset.nodup_cons] at distinct
  simpa [Runtime.crew, parties, Party.crew, Strand.party, Strand.posts, Progress.state,
    Strand.ofSpawns, Fiber.token] using distinct.1

/-- The loop of a run that has not begun when it is given up is another one, if the run of the loop
is not cancelled by that. -/
theorem unborn_ne {s : Store} {rest : Multiset Strand} {log : List Moment} {r : Run}
    {run : TokenId} {φ : Fiber} {l : Loop} {effect : Effect}
    (h : Footed k F ⟨s, .ofRun r ::ₘ rest, log⟩ υ) (reach : Reachable υ)
    (mem : (run, φ) ∈ Runtime.crew ⟨s, .ofRun r ::ₘ rest, log⟩) (token : φ.token = k)
    (state : r.state = .live (.start l effect)) (live : (r.giveUp s).isCancelled run = false) :
    l.env.token ≠ k := by
  intro same
  have inParties : (Strand.ofRun r).party ∈ parties ⟨s, .ofRun r ::ₘ rest, log⟩ :=
    Multiset.mem_map_of_mem _ (Multiset.mem_cons_self _ _)
  have here : (r.token, ⟨l, .evaluating effect⟩)
      ∈ Runtime.crew ⟨s, .ofRun r ::ₘ rest, log⟩ := by
    refine mem_crew.mpr ⟨_, inParties, rfl, .outer, ?_⟩
    simp [Strand.party, Strand.posts, Strand.ofRun, state, Segment.posts, Loop.at]
  have one := Multiset.inj_on_of_nodup_map (h.distinct reach) _ mem _ here (token.trans same.symm)
  obtain rfl : run = r.token := congrArg Prod.fst one
  have known : r.token < s.size := by
    obtain ⟨tasks, rfl⟩ := h.strand
    exact reach.kindred.runs _ (Multiset.mem_map_of_mem Strand.party (Multiset.mem_cons_self _ _))
  have unfinished : r.isFinished = false := by simp [Run.isFinished, state]
  rw [Run.isCancelled_giveUp unfinished, Store.isCancelled, Store.tokens_cancel,
    Forest.isCancelled_cancel_self known] at live
  cases live

/-- What the runtime does, it does as well with more frames at the foot of a loop, as long as the
loop is there and its run is not cancelled. -/
theorem forth {run : TokenId} {φ : Fiber} (h : Footed k F σ υ) (reach : Reachable υ)
    (mem : (run, φ) ∈ σ.crew) (token : φ.token = k) (step : Step σ σ')
    (there : k ∈ Runtime.badges σ'.crew) (live : σ'.store.isCancelled run = false) :
    ∃ υ', Step υ υ' ∧ Footed k F σ' υ' := by
  have known : k < σ.store.size := by
    rw [← h.size]
    refine reach.manned.bound k ?_
    rw [h.badges]
    exact mem_badges.mpr ⟨_, mem, token⟩
  cases step with
  | begin _ effect kept context =>
    refine ⟨_, .begin υ effect kept context, h.begin ?_ ?_ known effect kept context⟩
    · rw [h.store]
      rfl
    · exact ⟨υ.store.spawned, by rw [h.store]; rfl⟩
  | beginBelow _ parent lt effect kept context =>
    rw [← h.size] at lt
    refine ⟨_, .beginBelow υ parent lt effect kept context,
      h.begin ?_ ?_ (by simpa using known) effect kept context⟩
    · rw [h.store]
      rfl
    · exact ⟨υ.store.spawned, by rw [h.store]; rfl⟩
  | poll s rest log run role g =>
    obtain ⟨tasks, rfl⟩ := h.strand
    exact ⟨_, .poll _ _ log run role (g.footed k F), rfl, by rw [Multiset.map_cons]; rfl, rfl⟩
  | turn s rest log run role c worker =>
    have distinct := h.distinct reach
    obtain ⟨tasks, rfl⟩ := h.strand
    refine ⟨_, .turn _ _ log run role (c.footed k F) worker, turn known (fun env x focus same => ?_)
      worker run role rest log⟩
    obtain ⟨focus', cs⟩ := c
    cases focus
    exact gone distinct (same ▸ there)
  | report s rest log run t state result came => exact h.report came
  | giveUp s rest log r g state unstarted =>
    -- A run that has not begun yet would be another one with the frames: but then it is the one
    -- that is not cancelled.
    have begun : r.started = false → (g.footed k F).isFresh = true := fun unstarted' => by
      have fresh := unstarted unstarted'
      cases g with
      | start l effect =>
        have ne := h.unborn_ne reach mem token state live
        rwa [Segment.footed, Loop.footed_of_ne ne]
      | _ => cases fresh
    obtain ⟨tasks, rfl⟩ := h.strand
    have live' : (r.footed k F).state = .live (g.footed k F) := by rw [Run.footed, state]
    obtain ⟨tasks', store⟩ := r.giveUp_footed k F s tasks
    rw [Strand.ofRun_footed]
    refine ⟨_, .giveUp _ _ log _ (g.footed k F) live' begun, .of_store store ?_ rfl⟩
    rw [Multiset.map_cons, Strand.remainder_footed]
  | cancel _ t =>
    have store : υ.store.cancel t = (σ.store.cancel t).withTasks υ.store.spawned := by
      rw [h.store]
      exact Store.Aloof.cancel t _ _
    exact ⟨_, .cancel υ t, .of_store store h.strands h.log⟩
  | fresh => exact ⟨_, .fresh υ, .of_store (by rw [h.store]; rfl) h.strands h.log⟩
  | child _ parent lt =>
    rw [← h.size] at lt
    exact ⟨_, .child υ parent lt, .of_store (by rw [h.store]; rfl) h.strands h.log⟩
  | prune _ held owned =>
    exact ⟨_, .prune υ held (h.prune.mp owned), .of_store (by rw [h.store]; rfl) h.strands h.log⟩
  | outside _ s out =>
    exact ⟨_, .outside υ s (h.outside.mp out), .of_store rfl h.strands h.log⟩

/-- A strand on the other side is one with frames at its foot. -/
theorem strand_back {s' : Store} {τ' : Strand} {rest' : Multiset Strand} {log : List Moment}
    (h : Footed k F σ ⟨s', τ' ::ₘ rest', log⟩) : ∃ s τ rest tasks, σ = ⟨s, τ ::ₘ rest, log⟩ ∧
      τ' = τ.footed k F ∧ rest' = rest.map (Strand.footed k F) ∧ s' = s.withTasks tasks := by
  obtain ⟨s, strands, log'⟩ := σ
  obtain ⟨store, same, log⟩ := h
  simp only at store same log
  have mem : τ' ∈ strands.map (Strand.footed k F) := same ▸ Multiset.mem_cons_self _ _
  obtain ⟨τ, inStrands, rfl⟩ := Multiset.mem_map.mp mem
  obtain ⟨rest, rfl⟩ := Multiset.exists_cons_of_mem inStrands
  rw [Multiset.map_cons, Multiset.cons_inj_right] at same
  exact ⟨s, τ, rest, _, log ▸ rfl, rfl, same, store⟩

theorem waiting_back {τ : Strand} {run : TokenId} {role : Strand.Role} {g' : Segment}
    (same : ⟨run, role, .waiting g'⟩ = τ.footed k F) :
    ∃ g, τ = ⟨run, role, .waiting g⟩ ∧ g' = g.footed k F := by
  obtain ⟨run', role', state⟩ := τ
  cases state with
  | waiting g =>
    cases same
    exact ⟨g, rfl, rfl⟩
  | running | ended | faulted | dropped => cases same

theorem running_back {τ : Strand} {run : TokenId} {role : Strand.Role} {c' : Config}
    (same : ⟨run, role, .running c'⟩ = τ.footed k F) :
    ∃ c, τ = ⟨run, role, .running c⟩ ∧ c' = c.footed k F := by
  obtain ⟨run', role', state⟩ := τ
  cases state with
  | running c =>
    cases same
    exact ⟨c, rfl, rfl⟩
  | waiting | ended | faulted | dropped => cases same

/-- What the runtime does with more frames at the foot of a loop, it does as well without them, as
long as the loop has not come to the end of its own. -/
theorem back (h : Footed k F σ υ) (known : k < σ.store.size)
    (busy : ∀ n ∈ σ.crew, n.2.token = k → ¬ n.2.Over) (step : Step υ υ') :
    ∃ σ', Step σ σ' ∧ Footed k F σ' υ' := by
  cases step with
  | begin _ effect kept context =>
    refine ⟨_, .begin σ effect kept context, h.begin ?_ ?_ known effect kept context⟩
    · rw [h.store]
      rfl
    · exact ⟨υ.store.spawned, by rw [h.store]; rfl⟩
  | beginBelow _ parent lt effect kept context =>
    rw [h.size] at lt
    refine ⟨_, .beginBelow σ parent lt effect kept context,
      h.begin ?_ ?_ (by simpa using known) effect kept context⟩
    · rw [h.store]
      rfl
    · exact ⟨υ.store.spawned, by rw [h.store]; rfl⟩
  | poll s rest log run role g =>
    obtain ⟨s, τ, rest, tasks, rfl, same, rfl, rfl⟩ := h.strand_back
    obtain ⟨g, rfl, rfl⟩ := waiting_back same
    exact ⟨_, .poll s rest log run role g, rfl, by rw [Multiset.map_cons]; rfl, rfl⟩
  | turn s rest log run role c worker =>
    obtain ⟨s, τ, rest, tasks, rfl, same, rfl, rfl⟩ := h.strand_back
    obtain ⟨c, rfl, rfl⟩ := running_back same
    refine ⟨_, .turn s rest log run role c worker, turn known (fun env x focus token => ?_) worker
      run role rest log⟩
    obtain ⟨focus', cs⟩ := c
    cases focus
    refine busy (run, ⟨⟨env, []⟩, .unwinding x⟩) ?_ token ⟨rfl, x, rfl⟩
    refine mem_crew.mpr ⟨_, Multiset.mem_map_of_mem Strand.party (Multiset.mem_cons_self _ _), rfl,
      Caller.innermost cs, ?_⟩
    exact Multiset.mem_cons_self _ _
  | report s rest log run t state result came =>
    obtain ⟨s, ⟨run', role, state'⟩, rest, tasks, rfl, same, rfl, rfl⟩ := h.strand_back
    cases same
    have came' : state'.joined? = some result := state'.joined?_footed.symm.trans came
    have store : (s.withTasks tasks).finish t result = (s.finish t result).withTasks tasks :=
      Store.Aloof.finish t result s tasks
    refine ⟨_, .report s rest log run' t state' result came', .of_store store ?_ rfl⟩
    rw [Multiset.map_cons]
    rfl
  | giveUp s rest log r g state unstarted =>
    obtain ⟨s, τ, rest, tasks, rfl, same, rfl, rfl⟩ := h.strand_back
    have strand : Strand.ofRun r = ⟨r.token, .root, .waiting g⟩ := by simp [Strand.ofRun, state]
    rw [strand] at same
    obtain ⟨g, rfl, rfl⟩ := waiting_back same
    let r₀ : Run := { r with state := .live g }
    have footed : r = r₀.footed k F := by
      obtain ⟨token, context, state', started⟩ := r
      cases state
      rfl
    have begun : r₀.started = false → g.isFresh = true := fun unstarted' =>
      Segment.isFresh_of_footed (unstarted unstarted')
    obtain ⟨tasks', store⟩ := r₀.giveUp_footed k F s tasks
    rw [footed]
    refine ⟨_, .giveUp s rest log r₀ g rfl begun, .of_store store ?_ rfl⟩
    rw [Multiset.map_cons, Strand.remainder_footed]
  | cancel _ t =>
    have store : υ.store.cancel t = (σ.store.cancel t).withTasks υ.store.spawned := by
      rw [h.store]
      exact Store.Aloof.cancel t _ _
    exact ⟨_, .cancel σ t, .of_store store h.strands h.log⟩
  | fresh => exact ⟨_, .fresh σ, .of_store (by rw [h.store]; rfl) h.strands h.log⟩
  | child _ parent lt =>
    rw [h.size] at lt
    exact ⟨_, .child σ parent lt, .of_store (by rw [h.store]; rfl) h.strands h.log⟩
  | prune _ held owned =>
    exact ⟨_, .prune σ held (h.prune.mpr owned), .of_store (by rw [h.store]; rfl) h.strands h.log⟩
  | outside _ s out =>
    exact ⟨_, .outside σ s (h.outside.mpr out), .of_store rfl h.strands h.log⟩

/-! ### Whole runs -/

/-- A whole run with more frames at the foot of the loop, as long as the loop is there. -/
theorem steps {run : TokenId} {φ : Fiber} (h : Footed k F σ υ) (reach : Reachable υ)
    (mem : (run, φ) ∈ σ.crew) (token : φ.token = k) (steps : Steps σ σ')
    (there : k ∈ Runtime.badges σ'.crew) (live : σ'.store.isCancelled run = false) :
    ∃ υ', Steps υ υ' ∧ Footed k F σ' υ' := by
  have mem' : (run, φ.footed k F) ∈ υ.crew := by
    rw [h.crew]
    exact Multiset.mem_map_of_mem (fun n : Member => (n.1, n.2.footed k F)) mem
  have known : k < σ.store.size := by
    rw [← h.size, ← token]
    exact reach.manned.bound _ (mem_badges.mpr ⟨_, mem', rfl⟩)
  induction steps with
  | refl => exact ⟨υ, .refl, h⟩
  | @tail σ₁ σ₂ before step ih =>
    have known₁ : k < σ₁.store.size := Nat.lt_of_lt_of_le known (Steps.ages before).size
    have there₁ : k ∈ Runtime.badges σ₁.crew := by
      by_contra gone
      exact ((Step.move step).gone known₁ gone).1 there
    have live₁ : σ₁.store.isCancelled run = false := by
      by_contra cancelled
      rw [step.ages.isCancelled run (Bool.not_eq_false _ ▸ cancelled)] at live
      cases live
    obtain ⟨υ₁, before', h₁⟩ := ih there₁ live₁
    -- The loop is still a part of the run in which it was.
    obtain ⟨φ₁, mem₁, token₁⟩ : ∃ φ₁, (run, φ₁) ∈ σ₁.crew ∧ φ₁.token = k := by
      obtain ⟨new, -, course⟩ := Steps.course reach mem' before'
      cases course with
      | @there χ path inCrew =>
        rw [h₁.crew] at inCrew
        obtain ⟨n, before, same⟩ := Multiset.mem_map.mp inCrew
        cases same
        exact ⟨n.2, before, path.token.trans token⟩
      | parted path parting marks gone =>
        rw [h₁.badges, show (φ.footed k F).token = k from token] at gone
        exact (gone there₁).elim
    obtain ⟨υ₂, step', h₂⟩ := h₁.forth (reach.trans before') mem₁ token₁ step there live
    exact ⟨υ₂, before'.tail step', h₂⟩

/-- A whole run without the frames at the foot of the loop, up to the moment when the loop comes to
the end of its own. -/
theorem follows (h : Footed k F σ υ) (known : k < σ.store.size) (steps : Steps υ υ') :
    ∃ σ₁ υ₁, Steps σ σ₁ ∧ Steps υ υ₁ ∧ Footed k F σ₁ υ₁ ∧ Steps υ₁ υ' ∧
      (υ₁ = υ' ∨ ∃ n ∈ σ₁.crew, n.2.token = k ∧ n.2.Over) := by
  induction steps with
  | refl => exact ⟨σ, υ, .refl, .refl, h, .refl, .inl rfl⟩
  | @tail υ₁ υ₂ before step ih =>
    obtain ⟨σ₁, υ₀, steps, steps', h₁, rest, rfl | spent⟩ := ih
    · by_cases busy : ∀ n ∈ σ₁.crew, n.2.token = k → ¬ n.2.Over
      · have known₁ : k < σ₁.store.size := Nat.lt_of_lt_of_le known (Steps.ages steps).size
        obtain ⟨σ₂, step', h₂⟩ := h₁.back known₁ busy step
        exact ⟨σ₂, υ₂, steps.tail step', before.tail step, h₂, .refl, .inl rfl⟩
      · push Not at busy
        exact ⟨σ₁, υ₀, steps, steps', h₁, .single step, .inr busy⟩
    · exact ⟨σ₁, υ₀, steps, steps', h₁, rest.tail step, .inr spent⟩

/-- A poll is about to evaluate an effect above some frames: without them it is the same poll. -/
theorem bare {s : Store} {rest : Multiset Strand} {log : List Moment} {run : TokenId}
    {role : Strand.Role} {env : Env} {effect : Effect} {cs : List Caller}
    (reach : Reachable ⟨s, ⟨run, role, .running ⟨.eval ⟨env, F⟩ effect, cs⟩⟩ ::ₘ rest, log⟩) :
    Footed env.token F ⟨s, ⟨run, role, .running ⟨.eval ⟨env, []⟩ effect, cs⟩⟩ ::ₘ rest, log⟩
      ⟨s, ⟨run, role, .running ⟨.eval ⟨env, F⟩ effect, cs⟩⟩ ::ₘ rest, log⟩ := by
  have distinct := reach.manned.distinct
  simp only [Runtime.crew, parties, Multiset.map_cons, Multiset.cons_bind, Party.crew, Strand.party,
    Strand.posts, Config.posts_eval, Post.crew_cons_at, Multiset.cons_add, badges_cons, badges_add,
    Multiset.nodup_cons, Multiset.mem_add, not_or] at distinct
  obtain ⟨⟨inside, elsewhere⟩, -⟩ := distinct
  have callers : cs.map (Caller.footed env.token F) = cs := by
    refine Caller.footed_of_lacks fun φ mem same => inside ?_
    exact mem_badges.mpr ⟨(run, φ), Multiset.mem_map_of_mem _ mem, same⟩
  have others : rest.map (Strand.footed env.token F) = rest := by
    rw [Multiset.map_congr rfl fun τ mem => Strand.footed_of_lacks fun φ inPosts same => ?_,
      Multiset.map_id']
    refine elsewhere (mem_badges.mpr ⟨(τ.run, φ), ?_, same⟩)
    rw [Multiset.bind_map, Multiset.mem_bind]
    exact ⟨τ, mem, Multiset.mem_map_of_mem _ inPosts⟩
  refine ⟨rfl, ?_, rfl⟩
  rw [Multiset.map_cons, others]
  simp [Strand.footed, Strand.State.footed, Config.footed, Focus.footed, Loop.footed, callers]

end Footed

/-- A loop does the same with more frames at its foot as without, up to its own exit: what it can
do by itself in a run that is not cancelled it can do above the frames, and what is done above the
frames, it does by itself until it has come to the end of its own. -/
structure Unaffected (k : TokenId) (F : List Frame) (run : TokenId) (σ υ : Runtime) : Prop where
  footed : Footed k F σ υ
  forth : ∀ σ', Steps σ σ' → k ∈ badges σ'.crew → σ'.store.isCancelled run = false →
    ∃ υ', Steps υ υ' ∧ Footed k F σ' υ'
  back : ∀ υ', Steps υ υ' → ∃ σ₁ υ₁, Steps σ σ₁ ∧ Steps υ υ₁ ∧ Footed k F σ₁ υ₁ ∧ Steps υ₁ υ' ∧
    (υ₁ = υ' ∨ ∃ n ∈ σ₁.crew, n.2.token = k ∧ n.2.Over)

/-- A loop that is about to evaluate an effect above some frames. -/
theorem Reachable.unaffected_foot {s : Store} {rest : Multiset Strand} {log : List Moment}
    {run : TokenId} {role : Strand.Role} {env : Env} {effect : Effect} {cs : List Caller}
    (reach : Reachable ⟨s, ⟨run, role, .running ⟨.eval ⟨env, F⟩ effect, cs⟩⟩ ::ₘ rest, log⟩) :
    Unaffected env.token F run
      ⟨s, ⟨run, role, .running ⟨.eval ⟨env, []⟩ effect, cs⟩⟩ ::ₘ rest, log⟩
      ⟨s, ⟨run, role, .running ⟨.eval ⟨env, F⟩ effect, cs⟩⟩ ::ₘ rest, log⟩ := by
  have footed := Footed.bare reach
  have mem : (run, ⟨⟨env, []⟩, .evaluating effect⟩) ∈ Runtime.crew
      ⟨s, ⟨run, role, .running ⟨.eval ⟨env, []⟩ effect, cs⟩⟩ ::ₘ rest, log⟩ :=
    mem_crew.mpr ⟨_, Multiset.mem_map_of_mem Strand.party (Multiset.mem_cons_self _ _), rfl,
      Caller.innermost cs, Multiset.mem_cons_self _ _⟩
  have known : env.token < s.size := by
    refine reach.manned.bound _ ?_
    rw [footed.badges]
    exact mem_badges.mpr ⟨_, mem, rfl⟩
  exact ⟨footed, fun σ' steps there live => footed.steps reach mem rfl steps there live,
    fun υ' steps => footed.follows known steps⟩

end Runtime

end EffectFibers
