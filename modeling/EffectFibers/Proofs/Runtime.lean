import EffectFibers.Effect.Combinators
import EffectFibers.Fiber.World
import EffectFibers.Proofs.MachineStep

/-!
# Runs under every schedule

A `Runtime` is a store with everything that runs on it: a `Strand` for each run and for each task
that is a part of a run, and a log of what the fibers did.  `Runtime.Step` lets any strand make
its next step on any thread, whatever the others are in the middle of, and lets the surroundings
begin, cancel and give up runs and move the clock at any moment.  So every order in which a
scheduler may run the fibers is a run of `Runtime.Step`, also the orders of several threads.

A moment of the log is a mark of a fiber, with the run that the fiber is a part of and whether
its token was cancelled then; the newest moment comes first.

## Main definitions

* `Runtime.Step`, `Runtime.Reachable`: the steps, and what they reach.

## Main statements

* `Runtime.steps_of_poll`: a whole poll is a run of steps.
* `Runtime.Step.ages`: a step uncancels nothing and takes no number back.
-/

namespace EffectFibers

/-! ## Strands -/

inductive Strand.State where
  /-- Between two polls. -/
  | waiting (segment : Segment)
  | running (config : Config)
  | ended (exit : Exit)
  | faulted (fault : Fault)
  /-- Given up before it began, or refused by a closed context. -/
  | dropped

inductive Strand.Role where
  /-- The run itself, driven by its caller, or detached from it. -/
  | root
  /-- A parallel operand or the rest of a loop behind a shift. -/
  | task (id : TaskId)

structure Strand where
  /-- The token of the run. -/
  run : TokenId
  role : Strand.Role
  state : Strand.State

namespace Strand

/-- The loops of a strand that can still act. -/
def posts (τ : Strand) : Multiset Post :=
  match τ.state with
  | .waiting segment => segment.posts .outer
  | .running config => config.posts
  | .ended _ | .faulted _ | .dropped => 0

/-- The run as its caller holds it. -/
def ofRun (r : Run) : Strand where
  run := r.token
  role := .root
  state := match r.state with
    | .live segment => .waiting segment
    | .complete | .broken => .dropped

/-- What is left of a run that is given up: it is unwound by a task if it had begun. -/
def remainder (r : Run) : Strand :=
  if r.started && r.context.isOpen then ofRun r else { ofRun r with state := .dropped }

/-- A task that is a part of a run. -/
def ofSpawn? (run : TokenId) (x : Spawn) : Option Strand :=
  x.segment?.map fun segment => ⟨run, .task x.task, .waiting segment⟩

/-- The tasks of a list that are parts of a run. -/
def ofSpawns (run : TokenId) (new : List Spawn) : Multiset Strand :=
  (new.filterMap (ofSpawn? run) : List Strand)

theorem mem_ofSpawns {run : TokenId} {new : List Spawn} {τ : Strand} :
    τ ∈ ofSpawns run new ↔ ∃ x ∈ new, ∃ segment, x.segment? = some segment ∧
      τ = ⟨run, .task x.task, .waiting segment⟩ := by
  simp [ofSpawns, ofSpawn?, eq_comm]

theorem ofSpawns_append (run : TokenId) (new new' : List Spawn) :
    ofSpawns run (new ++ new') = ofSpawns run new + ofSpawns run new' := by
  simp [ofSpawns]

/-- Whether a panic, or a closed context, has cut the strand off. -/
def failed (τ : Strand) : Prop :=
  match τ.state with
  | .faulted _ | .dropped => True
  | .waiting _ | .running _ | .ended _ => False

end Strand

/-- The tokens that a loop holds on to. -/
def Post.owned (p : Post) : List TokenId :=
  match p.piece with
  | .fiber ⟨loop, .gathering group⟩ => [loop.env.token, group.token]
  | .fiber φ => [φ.token]
  | .away env _ => [env.token]

def Segment.isFresh : Segment → Bool
  | .start loop _ => loop.frames.isEmpty
  | _ => false

/-- What a step of a poll has come to, for the strand that is polled. -/
def Progress.state : Progress → Strand.State
  | .next c => .running c
  | .ended x => .ended x
  | .parked segment => .waiting segment
  | .faulted f => .faulted f

/-- What a whole poll has come to. -/
def Config.Result.state? : Config.Result → Option Strand.State
  | .ended x => some (.ended x)
  | .parked segment => some (.waiting segment)
  | .faulted f => some (.faulted f)
  | .unfinished => none

/-- What whoever waits for the strand receives. -/
def Strand.State.joined? : Strand.State → Option Joined
  | .ended x => some (.ended x)
  | .faulted f => some (.faulted f)
  | .waiting _ | .running _ | .dropped => none

/-! ## What a store has got since -/

namespace Store

def since (s s' : Store) : List Event := s'.trace.take (s'.trace.length - s.trace.length)

def started (s s' : Store) : List Spawn := s'.spawned.take (s'.spawned.length - s.spawned.length)

theorem since_eq {s s' : Store} {es : List Event} (h : s'.trace = es ++ s.trace) :
    s.since s' = es := by
  simp [since, h]

theorem started_eq {s s' : Store} {new : List Spawn} (h : s'.spawned = new ++ s.spawned) :
    s.started s' = new := by
  simp [started, h]

end Store

/-! ## Steps -/

/-- A mark in the log. -/
structure Moment where
  /-- The token of the run. -/
  run : TokenId
  event : Event
  /-- Whether the fiber's token was cancelled. -/
  cancelled : Bool

/-- The moment of an event, seen from the store before it. -/
def Moment.of (run : TokenId) (s : Store) (e : Event) : Moment :=
  ⟨run, e, match e.fiber? with
    | some t => s.isCancelled t
    | none => false⟩

structure Runtime where
  store : Store := {}
  strands : Multiset Strand := 0
  log : List Moment := []

namespace Runtime

/-- The surroundings change the store without touching tokens, or what a strand has come to. -/
structure Outside (σ : Runtime) (s : Store) : Prop where
  tokens : s.tokens = σ.store.tokens
  brackets : s.brackets = σ.store.brackets
  trace : ∃ es, s.trace = es ++ σ.store.trace ∧
    ∀ e ∈ es, e.isMark = false ∧ e.isPlain = true
  joins : σ.store.joins.size ≤ s.joins.size
  joined : ∀ t < σ.store.joins.size, s.joined? t = σ.store.joined? t ∨
    σ.store.joined? t = none ∧ ∀ τ ∈ σ.strands, τ.role ≠ .task t

theorem outside_of_same {σ : Runtime} {s : Store} (same : σ.store.Same s) : σ.Outside s :=
  ⟨same.tokens, same.brackets, ⟨[], same.trace, by simp⟩, same.joins.ge,
    fun t _ => .inl (same.joined t)⟩

/-- A run of an effect begins under a new token. -/
def begin (σ : Runtime) (new : TokenId × Store) (effect : Effect) (kept : List TokenId)
    (context : Context) : Runtime :=
  let r := Run.new effect kept new.1 context new.2
  { σ with store := r.2, strands := .ofRun r.1 ::ₘ σ.strands }

/-- One strand makes a step of its poll. -/
def turn (worker : Worker) (run : TokenId) (role : Strand.Role) (c : Config)
    (σ : Runtime) : Runtime :=
  let r := c.step worker σ.store
  { store := r.2
    strands := ⟨run, role, r.1.state⟩ ::ₘ
      (Strand.ofSpawns run (σ.store.started r.2) + σ.strands)
    log := ((σ.store.since r.2).filter Event.isMark).map (.of run σ.store) ++ σ.log }

theorem turn_eq {worker : Worker} {run : TokenId} {role : Strand.Role} {c : Config} {s : Store}
    {rest : Multiset Strand} {log : List Moment} {es : List Event} {new : List Spawn}
    (trace : (c.step worker s).2.trace = es ++ s.trace)
    (spawned : (c.step worker s).2.spawned = new ++ s.spawned) :
    turn worker run role c ⟨s, rest, log⟩ = ⟨(c.step worker s).2,
      ⟨run, role, (c.step worker s).1.state⟩ ::ₘ (Strand.ofSpawns run new + rest),
      (es.filter Event.isMark).map (.of run s) ++ log⟩ := by
  simp [turn, Store.since_eq trace, Store.started_eq spawned]

/-- A step that leaves the store as it is changes the strand that makes it, and nothing else. -/
theorem turn_still {c : Config} {p : Progress} {worker : Worker} {s : Store}
    (step : c.step worker s = (p, s)) (rest : Multiset Strand) (log : List Moment) (run : TokenId)
    (role : Strand.Role) :
    turn worker run role c ⟨s, rest, log⟩ = ⟨s, ⟨run, role, p.state⟩ ::ₘ rest, log⟩ := by
  have trace : (c.step worker s).2.trace = [] ++ s.trace := by rw [step]; rfl
  have spawned : (c.step worker s).2.spawned = [] ++ s.spawned := by rw [step]; rfl
  rw [turn_eq trace spawned, step]
  simp [Strand.ofSpawns]

inductive Step : Runtime → Runtime → Prop
  | begin (σ : Runtime) (effect : Effect) (kept : List TokenId) (context : Context) :
      Step σ (σ.begin σ.store.freshToken effect kept context)
  | beginBelow (σ : Runtime) (parent : TokenId) (lt : parent < σ.store.size) (effect : Effect)
      (kept : List TokenId) (context : Context) :
      Step σ (σ.begin (σ.store.childToken parent) effect kept context)
  | poll (s : Store) (rest : Multiset Strand) (log : List Moment) (run : TokenId)
      (role : Strand.Role) (segment : Segment) :
      Step ⟨s, ⟨run, role, .waiting segment⟩ ::ₘ rest, log⟩
        ⟨s, ⟨run, role, .running ⟨.resume segment, []⟩⟩ ::ₘ rest, log⟩
  | turn (s : Store) (rest : Multiset Strand) (log : List Moment) (run : TokenId)
      (role : Strand.Role) (c : Config) (worker : Worker) :
      Step ⟨s, ⟨run, role, .running c⟩ ::ₘ rest, log⟩ (turn worker run role c ⟨s, rest, log⟩)
  /-- What a task has come to is told to whoever waits for it. -/
  | report (s : Store) (rest : Multiset Strand) (log : List Moment) (run : TokenId) (t : TaskId)
      (state : Strand.State) (result : Joined) (h : state.joined? = some result) :
      Step ⟨s, ⟨run, .task t, state⟩ ::ₘ rest, log⟩
        ⟨s.finish t result, ⟨run, .task t, state⟩ ::ₘ rest, log⟩
  /-- The caller gives a run up between two polls. -/
  | giveUp (s : Store) (rest : Multiset Strand) (log : List Moment) (r : Run) (segment : Segment)
      (live : r.state = .live segment) (unstarted : r.started = false → segment.isFresh = true) :
      Step ⟨s, .ofRun r ::ₘ rest, log⟩ ⟨r.giveUp s, .remainder r ::ₘ rest, log⟩
  | cancel (σ : Runtime) (t : TokenId) : Step σ { σ with store := σ.store.cancel t }
  | fresh (σ : Runtime) : Step σ { σ with store := σ.store.freshToken.2 }
  | child (σ : Runtime) (parent : TokenId) (lt : parent < σ.store.size) :
      Step σ { σ with store := (σ.store.childToken parent).2 }
  /-- Tokens are cut loose, but none that a loop holds. -/
  | prune (σ : Runtime) (held : TokenId → Bool)
      (h : ∀ τ ∈ σ.strands, ∀ p ∈ τ.posts, ∀ t ∈ p.owned, held t = true) :
      Step σ { σ with store := { σ.store with tokens := σ.store.tokens.prune held } }
  | outside (σ : Runtime) (s : Store) (h : σ.Outside s) : Step σ { σ with store := s }

/-- A turn whose outcome is known. -/
theorem Step.turn_eq {worker : Worker} {run : TokenId} {role : Strand.Role} {c : Config}
    {s s' : Store} {rest : Multiset Strand} {log : List Moment} {progress : Progress}
    {es : List Event} {new : List Spawn} (h : c.step worker s = (progress, s'))
    (trace : s'.trace = es ++ s.trace) (spawned : s'.spawned = new ++ s.spawned) :
    Step ⟨s, ⟨run, role, .running c⟩ ::ₘ rest, log⟩
      ⟨s', ⟨run, role, progress.state⟩ ::ₘ (Strand.ofSpawns run new + rest),
        (es.filter Event.isMark).map (.of run s) ++ log⟩ := by
  have step := Step.turn s rest log run role c worker
  rwa [Runtime.turn_eq (by rwa [h]) (by rwa [h]), h] at step

/-- What any number of steps lead to. -/
abbrev Steps : Runtime → Runtime → Prop := Relation.ReflTransGen Step

/-- The runtimes that come about from an empty one. -/
def Reachable (σ : Runtime) : Prop := Steps {} σ

end Runtime

/-! ## The store over time -/

/-- Time has passed for a store: nothing was uncancelled, and what is new has a new number. -/
structure Store.Ages (s s' : Store) : Prop where
  size : s.size ≤ s'.size
  brackets : s.brackets ≤ s'.brackets
  isCancelled : ∀ t, s.isCancelled t = true → s'.isCancelled t = true
  derived : ∀ p c, s.Derived p c → s'.Derived p c
  young : ∀ p c, s'.Derived p c → s.Derived p c ∨ Within s.size s'.size c

theorem Store.Grows.ages {s s' : Store} (h : s.Grows s') : s.Ages s' := by
  obtain ⟨es, trace, -, derived⟩ := h.trace
  refine ⟨h.size_le, h.brackets_le, fun _ => h.isCancelled, fun p c mem => ?_, fun p c mem => ?_⟩
  · rw [Store.Derived, trace]
    exact List.mem_append_right _ mem
  · rw [Store.Derived, trace] at mem
    exact (List.mem_append.mp mem).symm.imp_right (derived p c)

theorem Store.Ages.trans {s s' s'' : Store} (h : s.Ages s') (h' : s'.Ages s'') : s.Ages s'' where
  size := Nat.le_trans h.size h'.size
  brackets := Nat.le_trans h.brackets h'.brackets
  isCancelled t cancelled := h'.isCancelled t (h.isCancelled t cancelled)
  derived p c derived := h'.derived p c (h.derived p c derived)
  young p c derived := by
    obtain old | new := h'.young p c derived
    · exact (h.young p c old).imp_right fun new => new.mono (Nat.le_refl _) h'.size
    · exact .inr (new.mono h.size (Nat.le_refl _))

namespace Runtime

variable {σ σ' : Runtime}

/-- What a step is for the tokens: growth, no change, or that some are cut loose. -/
inductive Elapse (σ σ' : Runtime) : Prop
  | grows (h : σ.store.Grows σ'.store)
  | still (tokens : σ'.store.tokens = σ.store.tokens)
      (brackets : σ'.store.brackets = σ.store.brackets)
      (derived : ∀ p c, σ'.store.Derived p c ↔ σ.store.Derived p c)
  | prune {held : TokenId → Bool}
      (owned : ∀ τ ∈ σ.strands, ∀ p ∈ τ.posts, ∀ t ∈ p.owned, held t = true)
      (tokens : σ'.store.tokens = σ.store.tokens.prune held)
      (brackets : σ'.store.brackets = σ.store.brackets) (trace : σ'.store.trace = σ.store.trace)

theorem giveUp_grows (r : Run) (s : Store) : s.Grows (r.giveUp s) := by
  unfold Run.giveUp
  split
  · exact .refl
  · exact .tail (.single (.cancel s _)) (.emit _ _ rfl)
  · split
    · exact .tail (.tail (.single (.cancel s _)) (.emit _ _ rfl)) (.spawn _ _ _)
    · exact .single (.cancel s _)

theorem same_finish (s : Store) (t : TaskId) (result : Joined) : Store.Same
    { s with
      joins := s.joins.setIfInBounds t { result := some result, order := s.ended }
      ended := s.ended + 1 } (s.finish t result) :=
  Store.same_wakeAll _ _

theorem Step.elapse (h : Step σ σ') : Elapse σ σ' := by
  cases h with
  | begin _ effect kept context => exact .grows (.tail (.single (.fresh _)) (.emit _ _ rfl))
  | beginBelow _ parent lt effect kept context =>
    exact .grows (.tail (.single (.child _ parent)) (.emit _ _ rfl))
  | poll s rest log run role segment => exact .grows .refl
  | turn s rest log run role c worker => exact .grows (c.step_reacts worker s).1
  | report s rest log run t state result h =>
    have same := same_finish s t result
    exact .still same.tokens same.brackets fun p c => by rw [Store.Derived, same.trace]; rfl
  | giveUp s rest log r segment live unstarted => exact .grows (giveUp_grows r s)
  | cancel _ t => exact .grows (.single (.cancel _ t))
  | fresh => exact .grows (.single (.fresh _))
  | child _ parent lt => exact .grows (.single (.child _ parent))
  | prune _ held owned => exact .prune owned rfl rfl rfl
  | outside _ s h =>
    obtain ⟨es, trace, plain⟩ := h.trace
    refine .still h.tokens h.brackets fun p c => ?_
    rw [Store.Derived, trace, List.mem_append]
    refine or_iff_right fun mem => ?_
    have plainness := (plain _ mem).2
    cases plainness

theorem Elapse.ages (h : Elapse σ σ') : σ.store.Ages σ'.store := by
  cases h with
  | grows h => exact h.ages
  | still tokens brackets derived =>
    refine ⟨by simp [Store.size, tokens], Nat.le_of_eq brackets.symm, fun t => ?_,
      fun p c => (derived p c).mpr, fun p c young => .inl ((derived p c).mp young)⟩
    simp [Store.isCancelled, tokens]
  | @prune held owned tokens brackets trace =>
    refine ⟨by simp [Store.size, tokens, Forest.prune], Nat.le_of_eq brackets.symm, fun t => ?_,
      fun p c => ?_, fun p c young => .inl ?_⟩
    · simp [Store.isCancelled, tokens, Forest.isCancelled_prune]
    · simp [Store.Derived, trace]
    · simpa [Store.Derived, trace] using young

/-- A step uncancels nothing and takes no number back. -/
theorem Step.ages (h : Step σ σ') : σ.store.Ages σ'.store := h.elapse.ages

theorem Steps.ages (h : Steps σ σ') : σ.store.Ages σ'.store := by
  induction h with
  | refl => exact Store.Grows.ages .refl
  | tail _ step ih => exact ih.trans step.ages

/-! ## Whole polls -/

/-- The moments are what a run did while the events came about. -/
structure Logged (run : TokenId) (es : List Event) (marks : List Moment) : Prop where
  events : marks.map Moment.event = es.filter Event.isMark
  run : ∀ m ∈ marks, m.run = run

theorem logged_of (run : TokenId) (s : Store) (es : List Event) :
    Logged run es ((es.filter Event.isMark).map (.of run s)) := by
  refine ⟨by simp [Moment.of, Function.comp_def], fun m mem => ?_⟩
  obtain ⟨e, -, rfl⟩ := List.mem_map.mp mem
  rfl

theorem Logged.append {run : TokenId} {es es' : List Event} {marks marks' : List Moment}
    (h : Logged run es marks) (h' : Logged run es' marks') :
    Logged run (es ++ es') (marks ++ marks') where
  events := by rw [List.map_append, List.filter_append, h.events, h'.events]
  run m mem := (List.mem_append.mp mem).elim (h.run m) (h'.run m)

/-- A poll that comes to something is a run of steps. -/
theorem steps_of_poll {worker : Worker} {bound : Nat} {c : Config} {s s' : Store}
    (run : TokenId) (role : Strand.Role) (rest : Multiset Strand) (log : List Moment)
    {result : Config.Result} {state : Strand.State} (came : result.state? = some state)
    (poll : c.run worker bound s = (result, s')) :
    ∃ new es marks, s'.spawned = new ++ s.spawned ∧ s'.trace = es ++ s.trace ∧
      Logged run es marks ∧ Steps ⟨s, ⟨run, role, .running c⟩ ::ₘ rest, log⟩
        ⟨s', ⟨run, role, state⟩ ::ₘ (Strand.ofSpawns run new + rest), marks ++ log⟩ := by
  induction bound generalizing c s rest log with
  | zero =>
    cases poll
    cases came
  | succ bound ih =>
    obtain ⟨-, es, new, trace, spawned, -⟩ := c.step_reacts worker s
    have logged := logged_of run s es
    rw [Config.run] at poll
    split at poll
    · next c₁ s₁ found =>
      rw [found] at spawned trace
      have step : Step ⟨s, ⟨run, role, .running c⟩ ::ₘ rest, log⟩ _ :=
        .turn_eq found trace spawned
      obtain ⟨new', es', marks, spawned', trace', logged', steps⟩ :=
        ih (Strand.ofSpawns run new + rest) ((es.filter Event.isMark).map (.of run s) ++ log) poll
      refine ⟨new' ++ new, es' ++ es, _, ?_, ?_, logged'.append logged, ?_⟩
      · rw [spawned', spawned, List.append_assoc]
      · rw [trace', trace, List.append_assoc]
      · rw [Strand.ofSpawns_append, add_assoc, List.append_assoc]
        exact .head step steps
    all_goals
      next found =>
      rw [found] at spawned trace
      cases poll
      cases came
      exact ⟨new, es, _, spawned, trace, logged, .single (.turn_eq found trace spawned)⟩

/-- A runtime in which a run of an effect has just begun, and nothing else has. -/
def starting (effect : Effect) (context : Context) : Runtime :=
  begin {} ({} : Store).freshToken effect [] context

theorem reachable_starting (effect : Effect) (context : Context) :
    Reachable (starting effect context) :=
  .single (.begin {} effect [] context)

/-- A runtime of one run, which is in the middle of a poll. -/
def lone (s : Store) (c : Config) (log : List Moment) : Runtime :=
  ⟨s, ⟨0, .root, .running c⟩ ::ₘ 0, log⟩

theorem step_lone {worker : Worker} {s s' : Store} {c c' : Config} {log : List Moment}
    {es : List Event} (h : c.step worker s = (.next c', s')) (trace : s'.trace = es ++ s.trace)
    (spawned : s'.spawned = s.spawned) :
    Step (lone s c log) (lone s' c' ((es.filter Event.isMark).map (.of 0 s) ++ log)) := by
  have none : s'.spawned = [] ++ s.spawned := spawned
  exact .turn_eq h trace none

theorem reachable_lone (effect : Effect) (context : Context) :
    Reachable (lone (starting effect context).store
      ⟨.resume (.start ⟨⟨0, context, []⟩, []⟩ effect), []⟩ []) :=
  .tail (reachable_starting effect context) (.poll _ 0 [] 0 .root _)

/-- The outermost loop of a run, with nothing left to come back to. -/
def outermost : Loop := ⟨⟨0, Context.home, []⟩, []⟩

/-- An operand of the outermost loop, under a token of its own. -/
def operandLoop (t : TokenId) : Loop := ⟨outermost.env.withToken t, []⟩

/-- A run that is a race begins it with the left operand. -/
theorem race_begins (left right : Effect) : ∃ s s' log,
    Reachable (lone s ⟨.eval outermost (.race left right), []⟩ []) ∧
      Step (lone s ⟨.eval outermost (.race left right), []⟩ [])
        (lone s' ⟨.eval (operandLoop 1) left,
          [.racingLeft outermost ⟨1, 2⟩ (.start (operandLoop 2) right)]⟩ log) := by
  let worker : Worker := ⟨1, "main"⟩
  let s := (starting (.race left right) Context.home).store
  let s₁ := (s.childToken 0).2
  let s₂ := (s₁.childToken 0).2
  have size₁ : s₁.size = 2 := s.size_childToken 0
  have resumed : Config.step worker ⟨.resume (.start outermost (.race left right)), []⟩ s
      = (.next ⟨.eval outermost (.race left right), []⟩, s) := rfl
  have none : s.trace = [] ++ s.trace := rfl
  have began : Config.step worker ⟨.eval outermost (.race left right), []⟩ s
      = (.next ⟨.eval (operandLoop 1) left,
          [.racingLeft outermost ⟨1, 2⟩ (.start (operandLoop 2) right)]⟩, s₂) := by
    simp only [Config.step, Machine.evalStep, Store.childToken_fst]
    rw [show (s.childToken outermost.env.token).2.size = 2 from size₁]
    rfl
  have trace₂ : s₂.trace = [.derived 0 2, .derived 0 1] ++ s.trace := by
    simp only [s₂, Store.trace_childToken, size₁]
    rfl
  exact ⟨s, s₂, _, .tail (reachable_lone (.race left right) Context.home)
    (step_lone resumed none rfl), step_lone began trace₂ rfl⟩

/-- A run is polled once, until it ends or can only wait. -/
theorem steps_of_starting {worker : Worker} {bound : Nat} {effect : Effect} {context : Context}
    {s : Store} {result : Config.Result} {state : Strand.State}
    (came : result.state? = some state)
    (poll : Segment.poll worker bound (.start ⟨⟨0, context, []⟩, []⟩ effect)
      (starting effect context).store = (result, s)) :
    ∃ marks, Logged 0 s.trace marks ∧ Steps (starting effect context)
      ⟨s, ⟨0, .root, state⟩ ::ₘ Strand.ofSpawns 0 s.spawned, marks⟩ := by
  let start : Segment := .start ⟨⟨0, context, []⟩, []⟩ effect
  let s₀ := (starting effect context).store
  have polled : Step (starting effect context)
      ⟨s₀, ⟨0, .root, .running ⟨.resume start, []⟩⟩ ::ₘ 0, []⟩ := .poll s₀ 0 [] 0 .root start
  obtain ⟨new, es, marks, spawned, trace, logged, steps⟩ :=
    steps_of_poll 0 .root 0 [] came poll
  obtain rfl : s.spawned = new := by simpa [starting, begin, Run.new] using spawned
  have started : Logged 0 [.fiberStarted context.name] [] := ⟨rfl, by simp⟩
  refine ⟨marks, ?_, ?_⟩
  · rw [trace]
    have whole := logged.append started
    rwa [List.append_nil] at whole
  · rw [add_zero, List.append_nil] at steps
    exact .head polled steps

/-- The loop of a guarded wait, with the finalizer to come. -/
def guardedLoop (finalizer : Effect) : Loop :=
  ⟨⟨0, Context.home, []⟩, [.release 0 fun _ => finalizer]⟩

/-- A guarded wait has been cancelled, and its fiber unwinds. -/
theorem reachable_of_cancelled_wait (finalizer : Effect) :
    ∃ s marks, s.isCancelled 0 = true ∧ s.size = 2 ∧
      Reachable ⟨s, ⟨0, .root, .running ⟨.unwind (guardedLoop finalizer) .canceled, []⟩⟩ ::ₘ 0,
        marks⟩ := by
  let effect := Effect.never.guarantee finalizer
  let waiting : Segment := .future (guardedLoop finalizer) .never
  let poll := Segment.poll ⟨1, "main"⟩ 20 (.start ⟨⟨0, Context.home, []⟩, []⟩ effect)
    (starting effect Context.home).store
  have came : poll = (.parked waiting, poll.2) := rfl
  obtain ⟨marks, logged, steps⟩ := steps_of_starting rfl came
  have spawned : poll.2.spawned = [] := rfl
  rw [spawned] at steps
  have reach := Relation.ReflTransGen.trans (reachable_starting effect Context.home) steps
  let s := poll.2.cancel 0
  have known : 0 < poll.2.tokens.nodes.size := Nat.zero_lt_succ 1
  have cancelled : s.isCancelled 0 = true := by
    unfold Store.isCancelled
    rw [Store.tokens_cancel]
    exact Forest.isCancelled_cancel_self known
  have size : s.size = 2 := by simp [s, Store.size_cancel]; rfl
  have polled := Step.poll s 0 marks 0 .root waiting
  have step : Config.step ⟨1, "main"⟩ ⟨.resume waiting, []⟩ s
      = (.next ⟨.unwind (guardedLoop finalizer) .canceled, []⟩, s.emit .futureAbandoned) := by
    simp [Config.step, Machine.resumeStep, Machine.Wait.result?, cancelled, waiting, guardedLoop,
      Machine.unwind]
  have trace : (s.emit .futureAbandoned).trace = [.futureAbandoned] ++ s.trace := rfl
  have quiet : (s.emit .futureAbandoned).spawned = [] ++ s.spawned := rfl
  have turned : Step ⟨s, ⟨0, .root, .running ⟨.resume waiting, []⟩⟩ ::ₘ 0, marks⟩ _ :=
    .turn_eq step trace quiet
  exact ⟨s.emit .futureAbandoned, marks, cancelled, size,
    ((Relation.ReflTransGen.tail reach (.cancel _ 0)).tail polled).tail turned⟩

end Runtime

end EffectFibers
