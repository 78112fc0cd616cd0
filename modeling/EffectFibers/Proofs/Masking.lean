import EffectFibers.Proofs.Shelter
import EffectFibers.Proofs.Unwinding

/-!
# Acquisitions and releases are masked

An acquisition and a release run under a token without a parent: a cancellation of the fiber does
not reach them.  So the masked part of a fiber goes its way whatever is cancelled around it, at any
moment, as long as it looks at none of that.  What it does, the same effect does alone where
nothing of that is cancelled: it leaves the same marks, begins the same tasks, writes the same and
comes to the same exit, whichever races, groups, shifts and brackets it consists of.

The tokens whose cancellation is compared are a veil: a set of tokens with all that hangs below
them.  It may be what hangs below the token of the fiber; if the cancellation comes from further
out, it is what hangs below a token there.

## Main definitions

* `Runtime.Follows`: what the runtime around a masked part comes to, and the masked part.
* `Runtime.Undisturbed`: the strands go on, and nothing of the veil is cancelled around them.

## Main statements

* `Runtime.Reachable.forgoes`: what is acquired after a cancellation is not used, but released.
* `Runtime.Reachable.masking`: acquisitions and releases are masked.
-/

namespace EffectFibers

/-! ## Forests in which some tokens are not cancelled -/

namespace Forest

variable (veil : TokenId → Prop) [DecidablePred veil] (f : Forest)

/-- The forest as it would be if no token of a set had been cancelled. -/
def spare : Forest :=
  ⟨f.nodes.mapIdx fun t node => if veil t then { node with cancelled := false } else node⟩

variable {veil f} {t p : TokenId}

theorem spare_getElem? : (f.spare veil).nodes[t]? =
    f.nodes[t]?.map fun node => if veil t then { node with cancelled := false } else node := by
  simp [spare]

theorem isCancelled_spare (inside : veil t) : (f.spare veil).isCancelled t = false := by
  unfold isCancelled
  rw [spare_getElem?]
  cases f.nodes[t]? <;> simp [inside]

theorem children_spare : (f.spare veil).children p = f.children p := by
  unfold children
  rw [spare_getElem?]
  cases f.nodes[p]? with
  | none => rfl
  | some node =>
    simp only [Option.map_some]
    split <;> rfl

theorem agree_spare (known : ∀ t, veil t → t < f.nodes.size)
    (below : ∀ p c, veil p → c ∈ f.children p → veil c) : Agree veil f (f.spare veil) where
  size := by simp [spare]
  nodes u shown := by
    rw [spare_getElem?]
    cases f.nodes[u]? <;> simp [shown]
  closed p c inside mem := by
    rw [children_spare, or_self] at mem
    exact below p c inside mem
  known := known

end Forest

/-! ## Where a masked part begins -/

/-- A poll is about to begin a masked part: an acquisition, unless the loop is cancelled, or a
release, with the exit that it is given. -/
inductive Mask.Opens (s : Store) : Config → Mask → Effect → Prop
  | acquisition {loop : Loop} {acquire : Effect} {use : Value → Effect}
      {release : Value → ExitCase Value → Effect} {callers : List Caller}
      (live : s.isCancelled loop.env.token = false) :
      Opens s ⟨.eval loop (.bracket acquire use release), callers⟩
        (.acquiring loop use release) acquire
  | release {env : Env} {b : BracketId} {finalizer : ExitCase Value → Effect} {frames : List Frame}
      {x outcome : Exit} {callers : List Caller}
      (given : outcome = if s.isCancelled env.token then .canceled else x)
      (sound : (finalizer outcome.exitCase).fault? = none) :
      Opens s ⟨.unwind ⟨env, .release b finalizer :: frames⟩ x, callers⟩
        (.releasing ⟨env, frames⟩ b outcome) (finalizer outcome.exitCase)

/-- The loop of a masked part begins under a new token, which was derived from none. -/
theorem Mask.Opens.step {s : Store} {c : Config} {m : Mask} {effect : Effect}
    (opens : m.Opens s c effect) (worker : Worker) : ∃ s' e,
      c.step worker s
        = (.next ⟨.eval ⟨m.loop.env.withToken s.size, []⟩ effect, m.caller :: c.callers⟩, s') ∧
      s'.trace = [e] ++ s.trace ∧ s'.tokens = s.tokens.fresh.2 ∧ s'.spawned = s.spawned := by
  cases opens with
  | @acquisition loop acquire use release callers live =>
    refine ⟨(s.emit (.entered loop.env.token .acquisition)).freshToken.2, _, ?_, rfl, rfl, rfl⟩
    simp only [Config.step, Machine.evalStep, Machine.atPoint, live]
    rfl
  | @release env b finalizer frames x outcome callers given sound =>
    refine ⟨(s.emit (.releaseStarted env.token b outcome)).freshToken.2, _, ?_, rfl, rfl, rfl⟩
    simp only [Config.step, Machine.unwindStep, Machine.frameStep, ← given, sound]
    rfl

/-- A set of tokens with all that hangs below them, out of view. -/
structure Store.Veil (s : Store) (V : View) (veil : TokenId → Prop) : Prop where
  known : ∀ t, veil t → t < s.size
  below : ∀ p c, veil p → c ∈ s.tokens.children p → veil c
  named : ∀ t, V.named t → t < s.size ∧ ¬ veil t

namespace Store

variable {s s' u : Store} {V : View} {veil : TokenId → Prop}

/-- A new token, which was derived from none, is not in the veil. -/
theorem Veil.fresh (h : s.Veil V veil) (fresh : s'.tokens = s.tokens.fresh.2) : s'.Veil V veil := by
  have size : s.size ≤ s'.size := by simp [size, fresh, Forest.fresh]
  refine ⟨fun t inside => Nat.lt_of_lt_of_le (h.known t inside) size, fun p c inside mem => ?_,
    fun t named => (h.named t named).imp_left fun known => Nat.lt_of_lt_of_le known size⟩
  rw [fresh, Forest.children_fresh] at mem
  exact h.below p c inside mem

/-- There is a store in which nothing of a veil is cancelled, and no other difference. -/
theorem Veil.spared (h : s.Veil V veil) :
    ∃ u, s.Agree V.lens veil u ∧ ∀ t, veil t → u.isCancelled t = false := by
  classical
  refine ⟨{ s with tokens := s.tokens.spare veil }, ?_, fun t inside =>
    Forest.isCancelled_spare inside⟩
  exact {
    tokens := Forest.agree_spare h.known h.below
    clear := fun t known inside => (h.named t known).2 inside
    memory := V.equivalence.refl _
    now := rfl, timed := rfl, ended := rfl, slots := rfl
    join := fun t t' same => by
      cases same
      exact ⟨rfl, rfl⟩
    tasks := fun i => rfl
    brackets := fun i => rfl }

theorem Clan.of_agree (h : s.Clan veil) (agree : s.Agree V.lens veil u) : u.Clan veil := by
  refine ⟨fun t inside => agree.size ▸ h.known t inside, fun p c mem below => ?_⟩
  by_contra shown
  have same := agree.tokens.nodes p shown
  refine shown (h.above p c ?_ below)
  simpa only [Forest.children, same] using mem

end Store

namespace Runtime

variable {σ σ' τ υ σ₀ τ₀ : Runtime} {V : View} {veil : TokenId → Prop} {m : Mask}
  {run : TokenId} {role : Strand.Role}

/-! ## Masked parts alone -/

/-- A loop that evaluates an effect in the middle of a poll, and nothing else. -/
def alone (s : Store) (run : TokenId) (role : Strand.Role) (env : Env) (effect : Effect) :
    Runtime :=
  ⟨s, ⟨run, role, .running ⟨.eval ⟨env, []⟩ effect, []⟩⟩ ::ₘ 0, []⟩

variable (veil) in
/-- The strands go on, and the surroundings cancel no token of the veil and write nothing. -/
abbrev Undisturbed : Runtime → Runtime → Prop :=
  Relation.ReflTransGen fun υ υ' => Act υ υ' ∨ Stir veil υ υ'

theorem Undisturbed.clan (h : Undisturbed veil σ σ') (clan : σ.store.Clan veil) :
    σ'.store.Clan veil := by
  induction h with
  | refl => exact clan
  | tail _ one ih => exact one.elim (·.clan ih) (·.clan ih)

variable (V) in
/-- The strands have done the same and stand at the same point. -/
structure Akin (τ υ : Runtime) : Prop where
  strands : υ.strands = τ.strands
  log : υ.log = τ.log
  memory : V.memory τ.store.memory υ.store.memory

theorem Veiled.akin (h : Veiled V veil τ υ) : Akin V τ υ := ⟨h.strands, h.log, h.looks⟩

/-- A runtime in which one loop is about to evaluate an effect, in two stores. -/
theorem veiled_alone {s u : Store} {env : Env} {effect : Effect} (reads : effect.Reads V)
    (own : env.token < s.size) (shown : ¬ veil env.token) (named : ∀ t, V.named t → t < s.size)
    (agree : s.Agree V.lens veil u) (run : TokenId) (role : Strand.Role) :
    Veiled V veil (alone s run role env effect) (alone u run role env effect) := by
  have crew : (alone s run role env effect).crew = {(run, ⟨⟨env, []⟩, .evaluating effect⟩)} := by
    simp [Runtime.crew, alone, parties, Party.crew, Strand.party, Strand.posts]
  have badge : badges (alone s run role env effect).crew = {env.token} := by
    simp [crew, badges, Fiber.token]
  refine ⟨rfl, rfl, fun μ mem => ?_, ⟨?_, ?_, fun e mem => ?_⟩, named, veil, agree, fun _ => id, ?_⟩
  · obtain rfl := Multiset.mem_singleton.mp mem
    exact .running (.eval (.mk env .nil) reads .nil)
  · intro t mem
    obtain rfl := Multiset.mem_singleton.mp (badge ▸ mem)
    exact own
  · simp [badge]
  · cases mem
  · simpa [badge] using shown

/-! ## What the runtime around a masked part does -/

/-- From `σ₀`, where the part `τ₀` begins, the runtime has come to `σ` and the masked part to `τ`,
by any steps of which those that happen elsewhere leave the memory in view as it is. -/
inductive Follows (m : Mask) (V : View) (run : TokenId) (role : Strand.Role) (σ₀ τ₀ : Runtime) :
    Runtime → Runtime → Prop
  | begins : Follows m V run role σ₀ τ₀ σ₀ τ₀
  | own {σ σ' τ τ' : Runtime} (before : Follows m V run role σ₀ τ₀ σ τ) (step : Step σ σ')
      (act : Act τ τ') (houses : m.Houses run role σ' τ')
      (marks : ∃ new, σ'.log = new ++ σ.log ∧ τ'.log = new ++ τ.log) :
      Follows m V run role σ₀ τ₀ σ' τ'
  | other {σ σ' τ : Runtime} (before : Follows m V run role σ₀ τ₀ σ τ) (step : Step σ σ')
      (h : Elsewhere τ.strands τ.store σ'.store)
      (houses : m.Houses run role σ' { τ with store := σ'.store })
      (looks : V.memory σ.store.memory σ'.store.memory) :
      Follows m V run role σ₀ τ₀ σ' { τ with store := σ'.store }

namespace Follows

variable {υ₀ : Runtime}

theorem steps (h : Follows m V run role σ₀ τ₀ σ τ) : Steps σ₀ σ := by
  induction h with
  | begins => exact .refl
  | own before step act houses marks ih => exact ih.tail step
  | other before step h houses looks ih => exact ih.tail step

theorem houses (h : Follows m V run role σ₀ τ₀ σ τ) (begins : m.Houses run role σ₀ τ₀) :
    m.Houses run role σ τ := by
  cases h with
  | begins => exact begins
  | own before step act houses marks => exact houses
  | other before step h houses looks => exact houses

/-- What the masked part does, it also does where nothing of the veil is cancelled. -/
theorem veiled (h : Follows m V run role σ₀ τ₀ σ τ) (begins : m.Houses run role σ₀ τ₀)
    (veiled : Veiled V veil τ₀ υ₀) : ∃ υ, Undisturbed veil υ₀ υ ∧ Veiled V veil τ υ := by
  induction h with
  | begins => exact ⟨υ₀, .refl, veiled⟩
  | own before step act houses marks ih =>
    obtain ⟨υ, undisturbed, veiled⟩ := ih
    obtain ⟨υ', act', veiled'⟩ := veiled.act act
    exact ⟨υ', undisturbed.tail (.inl act'), veiled'⟩
  | @other σ σ' τ before step h houses looks ih =>
    obtain ⟨υ, undisturbed, veiled⟩ := ih
    have store : τ.store = σ.store := (before.houses begins).store
    obtain ⟨υ', stirs, veiled'⟩ := veiled.elsewhere h (store ▸ looks)
    exact ⟨υ', undisturbed.trans (stirs.lift id fun _ _ => .inr), veiled'⟩

/-- A token is cancelled around a masked part, which is not aware of it. -/
theorem cancel (h : Follows m V run role σ₀ τ₀ σ τ) (begins : m.Houses run role σ₀ τ₀)
    (t : TokenId) : Follows m V run role σ₀ τ₀ { σ with store := σ.store.cancel t }
      { τ with store := σ.store.cancel t } := by
  refine .other h (.cancel σ t) (elsewhere_of_grows ?_) ?_ ?_
  · rw [(h.houses begins).store]
    exact .single (.cancel _ t)
  · cases h.houses begins with
    | mk seen below rest s log log' => exact .mk seen below rest _ log log'
  · show V.memory σ.store.memory (σ.store.cancel t).memory
    rw [memory_cancel]
    exact V.equivalence.refl _

end Follows

end Runtime

/-! ## What an acquisition comes to -/

/-- Unwinding, a fiber uses nothing. -/
theorem Fiber.Unwinds.unused {φ φ' : Fiber} {es : List Event} (h : φ.Unwinds es φ') (t : TokenId)
    (b : BracketId) : .useStarted t b ∉ es := by
  induction h with
  | refl => exact List.not_mem_nil
  | drop unwinds plain ih => exact ih
  | release unwinds ih | released y unwinds ih =>
    intro mem
    obtain _ | ⟨_, mem⟩ := mem
    exact ih mem

namespace Runtime

variable {σ σ' : Runtime} {V : View} {veil : TokenId → Prop} {m : Mask} {run : TokenId}
  {role : Strand.Role} {x : Exit} {loop : Loop} {use : Value → Effect}
  {release : Value → ExitCase Value → Effect} {v : Value}

/-- The releases that have begun since a fiber was doomed are the first of those that it had to
come, and it has used nothing. -/
theorem Unwinding.releases {φ : Fiber} {marks : List Event} (h : Unwinding σ run φ marks) :
    marks.reverse.filterMap Event.started? <+: φ.opened.map (·, .canceled) ∧
      ∀ t b, .useStarted t b ∉ marks := by
  cases h with
  | there unwinds | failed unwinds => exact ⟨⟨_, unwinds.releases⟩, unwinds.unused⟩
  | @ended env es unwinds last released =>
    subst last
    refine ⟨⟨[], ?_⟩, fun t b mem => ?_⟩
    · rw [List.append_nil, List.reverse_cons, List.filterMap_append, released]
      exact List.append_nil _
    · obtain _ | ⟨_, mem⟩ := mem
      exact unwinds.unused t b mem

/-- What the loop of a bracket has done, with these marks, since it gave up the use of what it had
acquired. -/
structure Renounced (σ : Runtime) (run : TokenId) (loop : Loop) (b : BracketId)
    (release : ExitCase Value → Effect) (marks : List Event) : Prop where
  unwinding : Unwinding σ run ⟨loop.push (.release b release), .unwinding .canceled⟩ marks
  unused : ∀ t b, .useStarted t b ∉ marks
  /-- The releases begin one after the other, that of the bracket first, each with `canceled`. -/
  releases : marks.reverse.filterMap Event.started?
    <+: (b, .canceled) :: (loop.frames.filterMap Frame.bracket?).map (·, .canceled)
  once : b ∉ loop.frames.filterMap Frame.bracket?

/-- A loop that was cancelled in the meantime is handed what it has acquired. -/
structure Forgoes (σ σ' : Runtime) (run : TokenId) (role : Strand.Role) (loop : Loop) (v : Value)
    (release : ExitCase Value → Effect) : Prop where
  /-- It unwinds, with the release to come first. -/
  next : ∃ callers, ⟨run, role, .running ⟨.unwind
    (loop.push (.release σ.store.brackets release)) .canceled, callers⟩⟩ ∈ σ'.strands
  log : σ'.log = .of run σ.store (.acquired loop.env.token σ.store.brackets v) :: σ.log
  later : ∀ σ'', Steps σ' σ'' → ∃ new, σ''.log = new ++ σ'.log ∧
    Renounced σ'' run loop σ.store.brackets release
      ((ownOf loop.env.token new).map Moment.event)

/-- A loop is handed the exit of an acquisition that has failed. -/
structure Fails (σ σ' : Runtime) (run : TokenId) (role : Strand.Role) (loop : Loop) (x : Exit) :
    Prop where
  /-- The bracket comes to that exit, and there is no release to come. -/
  next : ∃ callers, ⟨run, role, .running ⟨.unwind loop x, callers⟩⟩ ∈ σ'.strands
  log : σ'.log = .of run σ.store (.notAcquired loop.env.token x) :: σ.log
  brackets : σ'.store.brackets = σ.store.brackets

/-- A turn that begins no task. -/
theorem turn_single {worker : Worker} {c : Config} {s s' : Store} {rest : Multiset Strand}
    {log : List Moment} {progress : Progress} {es : List Event}
    (came : c.step worker s = (progress, s')) (trace : s'.trace = es ++ s.trace)
    (spawned : s'.spawned = s.spawned) : turn worker run role c ⟨s, rest, log⟩
      = ⟨s', ⟨run, role, progress.state⟩ ::ₘ rest, (es.filter Event.isMark).map (.of run s) ++ log⟩
    := by
  have none : s'.spawned = [] ++ s.spawned := spawned
  rw [Runtime.turn_eq (by rwa [came]) (by rwa [came]), came]
  congr 2
  exact zero_add rest

theorem Reachable.forgoes (h : Reachable σ)
    (hands : Mask.Hands (.acquiring loop use release) run role (.succeeded v) σ σ')
    (cancelled : σ.store.isCancelled loop.env.token = true) :
    Forgoes σ σ' run role loop v (release v) := by
  have reach : Reachable σ' := .tail h hands.step
  obtain ⟨worker, callers, s, rest, log⟩ := hands
  let b := s.brackets
  let φ : Fiber := ⟨loop.push (.release b (release v)), .unwinding .canceled⟩
  let strand : Strand := ⟨run, role, .running ⟨.unwind φ.loop .canceled, callers⟩⟩
  let s' := { s with brackets := b + 1 }.emit (.acquired loop.env.token b v)
  have came : Config.step worker ⟨.leave (.succeeded v), .acquiring loop use release :: callers⟩ s
      = (.next ⟨.unwind φ.loop .canceled, callers⟩, s') := if_pos cancelled
  have trace : s'.trace = [.acquired loop.env.token b v] ++ s.trace := rfl
  have turned : turn worker run role ⟨.leave (.succeeded v), .acquiring loop use release :: callers⟩
      ⟨s, rest, log⟩ = ⟨s', strand ::ₘ rest, .of run s (.acquired loop.env.token b v) :: log⟩ :=
    turn_single came trace rfl
  rw [Mask.caller, turned] at reach ⊢
  refine ⟨⟨callers, Multiset.mem_cons_self _ _⟩, rfl, fun σ'' steps => ?_⟩
  have inside : φ ∈ Post.fibers strand.posts :=
    Post.mem_fibers.mpr ⟨_, Multiset.mem_cons_self _ _⟩
  have mem : (strand.run, φ) ∈ crew
      ⟨s', strand ::ₘ rest, .of run s (.acquired loop.env.token b v) :: log⟩ :=
    mem_crew_of_strand (Multiset.mem_cons_self strand rest) inside
  obtain ⟨new, log', unwinding⟩ := reach.unwinds mem (.inl rfl) steps
  obtain ⟨releases, unused⟩ := unwinding.releases
  have sorted := (reach.accounted.kept _ mem).sorted
  refine ⟨new, log', unwinding, unused, releases, fun inside => ?_⟩
  exact Nat.lt_irrefl b ((List.pairwise_cons.mp sorted).1 b inside)

theorem fails_of_hands
    (hands : Mask.Hands (.acquiring loop use release) run role x σ σ')
    (failed : x.isSucceeded = false) : Fails σ σ' run role loop x := by
  obtain ⟨worker, callers, s, rest, log⟩ := hands
  let s' := s.emit (.notAcquired loop.env.token x)
  have came : Config.step worker ⟨.leave x, .acquiring loop use release :: callers⟩ s
      = (.next ⟨.unwind loop x, callers⟩, s') := by
    cases x with
    | succeeded v => cases failed
    | errored | canceled => rfl
  have trace : s'.trace = [.notAcquired loop.env.token x] ++ s.trace := rfl
  rw [Mask.caller, turn_single came trace rfl]
  exact ⟨⟨callers, Multiset.mem_cons_self _ _⟩, rfl, rfl⟩

/-! ## Nothing is seen of a cancellation -/

/-- The part of a fiber that evaluates an effect from `σ₀` on is masked from a set of tokens. -/
structure Masked (V : View) (veil : TokenId → Prop) (m : Mask) (run : TokenId)
    (role : Strand.Role) (env : Env) (effect : Effect) (σ₀ : Runtime) : Prop where
  /-- Each step is one of the masked part or happens elsewhere, until the masked part has ended or
  its strand is cut off. -/
  onward : ∀ σ τ σ', Follows m V run role σ₀ (alone σ₀.store run role env effect) σ τ →
    Step σ σ' → m.Onward run role σ τ σ'
  /-- A cancellation may come at any moment. -/
  anytime : ∀ σ τ t, Follows m V run role σ₀ (alone σ₀.store run role env effect) σ τ →
    Follows m V run role σ₀ (alone σ₀.store run role env effect)
      { σ with store := σ.store.cancel t } { τ with store := σ.store.cancel t }
  /-- There is a store in which nothing of the veil is cancelled, and no other difference. -/
  spared : ∃ u, σ₀.store.Agree V.lens veil u ∧ ∀ t, veil t → u.isCancelled t = false
  /-- From any such store on, and with nothing of the veil cancelled around it, the effect does
  alone what the masked part has done, and can go on by what the masked part can go on by. -/
  alike : ∀ u, σ₀.store.Agree V.lens veil u →
    ∀ σ τ, Follows m V run role σ₀ (alone σ₀.store run role env effect) σ τ →
      ∃ υ, Undisturbed veil (alone u run role env effect) υ ∧ Akin V τ υ ∧
        (∀ τ', Act τ τ' → ∃ υ', Act υ υ' ∧ Akin V τ' υ') ∧
        ∀ υ', Act υ υ' → ∃ τ', Act τ τ' ∧ Akin V τ' υ'
  /-- If the veil hangs below no other token, nothing of it is cancelled around the effect. -/
  spares : σ₀.store.Clan veil → ∀ u, σ₀.store.Agree V.lens veil u →
    ∀ υ υ', Undisturbed veil (alone u run role env effect) υ → Stir veil υ υ' →
      ∀ t, veil t → υ'.store.isCancelled t = υ.store.isCancelled t
  /-- What was acquired after a cancellation is not used, and released at once. -/
  forgoes : ∀ loop use release, m = .acquiring loop use release →
    ∀ σ τ σ' v, Follows m V run role σ₀ (alone σ₀.store run role env effect) σ τ →
      m.Hands run role (.succeeded v) σ σ' → σ.store.isCancelled loop.env.token = true →
        Forgoes σ σ' run role loop v (release v)
  /-- If the acquisition fails, the bracket comes to its exit. -/
  fails : ∀ loop use release, m = .acquiring loop use release →
    ∀ σ τ σ' x, Follows m V run role σ₀ (alone σ₀.store run role env effect) σ τ →
      m.Hands run role x σ σ' → x.isSucceeded = false → Fails σ σ' run role loop x

section

variable {s : Store} {rest : Multiset Strand} {log : List Moment} {c : Config} {effect : Effect}

/-- The masked part begins, in a store that has one token more. -/
theorem houses_of_opens (opens : m.Opens s c effect) (worker : Worker) (run : TokenId)
    (role : Strand.Role) (rest : Multiset Strand) (log : List Moment) :
    m.Houses run role (turn worker run role c ⟨s, rest, log⟩)
        (alone (turn worker run role c ⟨s, rest, log⟩).store run role
          (m.loop.env.withToken s.size) effect) ∧
      (turn worker run role c ⟨s, rest, log⟩).store.tokens = s.tokens.fresh.2 := by
  obtain ⟨s', e, came, trace, tokens, spawned⟩ := opens.step worker
  let core : Config := ⟨.eval ⟨m.loop.env.withToken s.size, []⟩ effect, []⟩
  let log' := ([e].filter Event.isMark).map (.of run s) ++ log
  have turned : turn worker run role c ⟨s, rest, log⟩
      = ⟨s', ⟨run, role, .running (core.onto (m.caller :: c.callers))⟩ ::ₘ rest, log'⟩ :=
    turn_single came trace spawned
  have houses : m.Houses run role
      ⟨s', ⟨run, role, .running (core.onto (m.caller :: c.callers))⟩ ::ₘ (0 + rest), log'⟩
      ⟨s', ⟨run, role, .running core⟩ ::ₘ 0, []⟩ :=
    .mk (.inside core c.callers) (by simp) rest s' log' []
  rw [turned]
  rw [zero_add] at houses
  exact ⟨houses, tokens⟩

/-- An acquisition or a release that looks at nothing of a veil, and at nothing that others write,
is masked from it. -/
theorem Reachable.masking (h : Reachable ⟨s, ⟨run, role, .running c⟩ ::ₘ rest, log⟩)
    (opens : m.Opens s c effect) (worker : Worker) (veiled : s.Veil V veil)
    (reads : effect.Reads V) : Masked V veil m run role (m.loop.env.withToken s.size) effect
      (turn worker run role c ⟨s, rest, log⟩) := by
  have reach := Relation.ReflTransGen.tail h (.turn s rest log run role c worker)
  obtain ⟨houses, tokens⟩ := houses_of_opens opens worker run role rest log
  let env := m.loop.env.withToken s.size
  generalize turn worker run role c ⟨s, rest, log⟩ = σ₀ at reach houses tokens ⊢
  have size : σ₀.store.size = s.size + 1 := by
    simp [Store.size, tokens, Forest.fresh]
  have veiled' : σ₀.store.Veil V veil := veiled.fresh tokens
  refine ⟨fun σ τ σ' follows step => ?_, fun σ τ t follows => follows.cancel houses t,
    veiled'.spared, fun u agree σ τ follows => ?_, ?_, ?_, ?_⟩
  · have reach' : Reachable σ := Relation.ReflTransGen.trans reach follows.steps
    exact (follows.houses houses).step reach'.booked step
  · have own : env.token < σ₀.store.size := size ▸ Nat.lt_succ_self s.size
    have shown : ¬ veil env.token := fun inside => Nat.lt_irrefl _ (veiled.known _ inside)
    have begins : Veiled V veil (alone σ₀.store run role env effect)
        (alone u run role env effect) :=
      veiled_alone reads own shown (fun t named => (veiled'.named t named).1) agree run role
    obtain ⟨υ, undisturbed, same⟩ := follows.veiled houses begins
    refine ⟨υ, undisturbed, same.akin, fun τ' act => ?_, fun υ' act => ?_⟩
    · obtain ⟨υ', act', same'⟩ := same.act act
      exact ⟨υ', act', same'.akin⟩
    · obtain ⟨τ', act', same'⟩ := same.symm.act act
      exact ⟨τ', act', same'.symm.akin⟩
  · intro clan u agree υ υ' undisturbed stir t inside
    exact stir.spares (undisturbed.clan (clan.of_agree agree)) inside
  · rintro loop use release rfl σ τ σ' v follows hands cancelled
    exact Reachable.forgoes (Relation.ReflTransGen.trans reach follows.steps) hands cancelled
  · rintro loop use release rfl σ τ σ' x follows hands failed
    exact fails_of_hands hands failed

/-- A bracket acquires by a race behind a shift, and its fiber is cancelled in the meantime. -/
theorem masking_acquisition : ∃ (V : View) (m : Mask) (acquire : Effect) (σ₀ σ τ : Runtime),
    m.loop = outermost ∧ Masked V (· = 0) m 0 .root (outermost.env.withToken 1) acquire σ₀ ∧
      Follows m V 0 .root σ₀ (alone σ₀.store 0 .root (outermost.env.withToken 1) acquire) σ τ ∧
      σ.store.isCancelled outermost.env.token = true := by
  let V : View := {
    named := fun _ => False, memory := (· = ·), equivalence := eq_equivalence
    write := fun entry same => by rw [same] }
  let acquire : Effect := (Effect.shift Context.home).flatMap fun _ => .race .never (.pure .null)
  let bracket : Effect := .bracket acquire (fun _ => .unit) fun _ _ => .unit
  let s := (starting bracket Context.home).store
  let worker : Worker := ⟨1, "main"⟩
  have resumed : Config.step worker ⟨.resume (.start outermost bracket), []⟩ s
      = (.next ⟨.eval outermost bracket, []⟩, s) := rfl
  have none : s.trace = [] ++ s.trace := rfl
  have reach : Reachable (lone s ⟨.eval outermost bracket, []⟩ []) :=
    .tail (reachable_lone bracket Context.home) (step_lone resumed none rfl)
  have opens : Mask.Opens s ⟨.eval outermost bracket, []⟩
      (.acquiring outermost (fun _ => .unit) fun _ _ => .unit) acquire := .acquisition rfl
  have veiled : s.Veil V (· = 0) := by
    refine ⟨fun t zero => ?_, fun p c zero mem => ?_, nofun⟩
    · subst zero
      exact Nat.zero_lt_one
    · subst zero
      cases mem
  have reads : acquire.Reads V := ⟨trivial, fun _ => ⟨trivial, trivial⟩⟩
  have masked := reach.masking opens worker veiled reads
  obtain ⟨houses, tokens⟩ := houses_of_opens opens worker 0 .root 0 []
  refine ⟨V, _, acquire, _, _, _, rfl, masked, masked.anytime _ _ 0 .begins, ?_⟩
  unfold Store.isCancelled
  rw [Store.tokens_cancel]
  exact Forest.isCancelled_cancel_self (by rw [tokens]; exact Nat.zero_lt_succ 1)

end

end Runtime

end EffectFibers
