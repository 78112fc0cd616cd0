import EffectFibers.Proofs.Motion

/-!
# What the machine can do

Every step of a poll is a `Motion`: one loop makes one of the steps that `Fiber.Step` allows it,
or nothing changes but the grip on the nest.

## Main statements

* `Config.step_moves`: the step of a poll, by one lemma for each function of the machine.
* `Config.step_reacts`: the same without the rooms.
-/

namespace EffectFibers

variable {s s' : Store} {l : Room} {φ φ' : Fiber} {B : Multiset Berth} {c : Config}

/-! ## New loops -/

namespace Berth.Newborn

variable {loop : Loop} {doing : Doing} {effect : Effect} {t : TokenId}

theorem operand {tokens : RaceTokens} (side : Side)
    (within : Within s.size s'.size (tokens.of side))
    (derived : s'.Derived loop.env.token (tokens.of side)) :
    Berth.Newborn s s' ⟨loop, .racing tokens⟩
      (Loop.berth ⟨loop.env.withToken (tokens.of side), []⟩ (loop.side side)
        (.evaluating effect)) :=
  ⟨⟨_, _, rfl⟩, within, rfl, derived, tokens, rfl, rfl⟩

theorem apart (within : Within s.size s'.size t)
    (derived : ∀ q, s'.Derived q t → s.Derived q t) :
    Berth.Newborn s s' ⟨loop, doing⟩
      (Loop.berth ⟨loop.env.withToken t, []⟩ loop.inside (.evaluating effect)) :=
  ⟨⟨_, _, rfl⟩, within, rfl, derived⟩

end Berth.Newborn

/-! ## The usual motions -/

namespace Moves

theorem idle (same : s.Same s') (berths : c.berths = B) : Moves s B (.next c, s') :=
  ⟨same.grows, [], [], same.trace, same.spawned, .next (berths ▸ .idle)⟩

theorem act (es : List Event) (nested : Multiset Berth) (grows : s.Grows s')
    (trace : s'.trace = es ++ s.trace)
    (spawned : ∃ new, s'.spawned = new ++ s.spawned ∧ ∀ x ∈ new, x.segment? = none)
    (step : φ.Step s (es.filter Event.isMark) φ') (deed : Deed s s' φ φ')
    (berths : c.berths = ⟨l, .fiber φ'⟩ ::ₘ (nested + B))
    (newborn : ∀ b ∈ nested, b.Newborn s s' φ') (distinct : (nested.map Berth.token).Nodup)
    (fields : φ'.Fields nested) : Moves s (⟨l, .fiber φ⟩ ::ₘ B) (.next c, s') := by
  obtain ⟨new, spawned, quiet⟩ := spawned
  exact ⟨grows, es, new, trace, spawned,
    .next (berths ▸ .act step deed newborn distinct quiet fields)⟩

/-- One loop acts and begins none inside it. -/
theorem alone (es : List Event) (grows : s.Grows s') (trace : s'.trace = es ++ s.trace)
    (spawned : ∃ new, s'.spawned = new ++ s.spawned ∧ ∀ x ∈ new, x.segment? = none)
    (step : φ.Step s (es.filter Event.isMark) φ') (deed : Deed s s' φ φ')
    (berths : c.berths = ⟨l, .fiber φ'⟩ ::ₘ B) (calm : ∀ tokens, φ'.doing ≠ .racing tokens) :
    Moves s (⟨l, .fiber φ⟩ ::ₘ B) (.next c, s') :=
  .act es 0 grows trace spawned step deed (by rw [zero_add, berths]) (by simp) (by simp)
    fun tokens racing => (calm tokens racing).elim

/-- One loop acts alone and changes nothing that others see. -/
theorem move (same : s.Same s') (step : φ.Step s [] φ') (plain : φ.plain φ' = true)
    (berths : c.berths = ⟨l, .fiber φ'⟩ ::ₘ B) : Moves s (⟨l, .fiber φ⟩ ::ₘ B) (.next c, s') :=
  .alone [] same.grows same.trace ⟨[], same.spawned, by simp⟩ step (.plain plain) berths
    fun tokens racing => by
      rw [Fiber.plain, racing, Doing.plain_racing] at plain
      cases plain

theorem fault {f : Fault} (same : s.Same s') : Moves s B (.faulted f, s') :=
  ⟨same.grows, [], [], same.trace, same.spawned, .faulted (by simp) (.inl rfl)⟩

end Moves

namespace Machine

/-! ## Suspension points -/

theorem same_completeAll (slot : Nat) (completions : List Completion) (s : Store) :
    s.Same (completeAll slot completions s).2 := by
  induction completions generalizing s with
  | nil => exact .rfl' s
  | cons completion rest ih =>
    unfold completeAll
    cases completion with
    | error f => exact .rfl' s
    | ok result =>
      cases completed : s.completeCallback slot result with
      | error f => simpa [completed] using Store.Same.rfl' s
      | ok s' => simpa [completed] using (s.same_completeCallback completed).trans (ih s')

theorem same_showCallback (shown : Option Lane) (slot : Nat) (s : Store) :
    s.Same (showCallback shown slot s) := by
  unfold showCallback
  split
  · exact s.same_write _ _
  · exact .rfl' s

/-- A growth that leaves no event and starts no part of a run. -/
structure Quiet (s s' : Store) : Prop where
  grows : s.Grows s'
  tokens : s'.tokens = s.tokens
  trace : s'.trace = s.trace
  spawned : ∃ new, s'.spawned = new ++ s.spawned ∧ ∀ x ∈ new, x.segment? = none

theorem quiet_of_same (same : s.Same s') : Quiet s s' :=
  ⟨same.grows, same.tokens, same.trace, [], same.spawned, by simp⟩

/-- A registration changes callbacks, and may start a task that completes one. -/
theorem register_quiet (worker : Worker) (r : Registration) (s : Store) :
    Quiet s (register worker r s).2 := by
  simp only [register]
  have completed := (s.same_openCallback.trans (same_showCallback r.shown s.openCallback.1 _)).trans
    (same_completeAll s.openCallback.1 r.immediate _)
  split
  · next f s' found => exact quiet_of_same (by simpa only [found] using completed)
  · next s' found =>
    have shown := (show s.Same s' by simpa only [found] using completed).trans
      (same_showCallback r.shown s.openCallback.1 s')
    have held : s.Same (if r.held then
        (showCallback r.shown s.openCallback.1 s').holdCallback s.openCallback.1
        else showCallback r.shown s.openCallback.1 s') := by
      split
      · exact shown.trans (Store.same_holdCallback _ _)
      · exact shown
    split
    · exact quiet_of_same (held.trans (Store.same_dropCallback _ _))
    · refine ⟨held.grows.tail (.spawn _ _ _), (Store.tokens_spawn _ _ _).trans held.tokens,
        (Store.trace_spawn _ _ _).trans held.trace, ?_⟩
      refine ⟨_, by rw [Store.spawned_spawn, held.spawned], fun x mem => ?_⟩
      split at mem
      · obtain rfl := List.mem_singleton.mp mem
        rfl
      · cases mem

theorem same_watch (worker : Worker) (s : Store) (wait : Wait) : s.Same (watch worker s wait) := by
  cases wait with
  | never => exact .rfl' s
  | deadline time result => exact s.same_watchTime _ _
  | cancellation t => exact s.same_watchToken _ _

variable {loop : Loop} {callers : List Caller}

/-- The berths of a poll whose loop in control is about something. -/
abbrev control (loop : Loop) (callers : List Caller) (doing : Doing) : Multiset Berth :=
  loop.berth (Caller.innerRoom callers) doing ::ₘ Caller.allBerths callers

theorem atPoint_moves {effect : Effect} {point : Point} {go : Store → Progress × Store}
    (at_point : effect.point? = some point)
    (live : s.isCancelled loop.env.token = false →
      Moves s (control loop callers (.evaluating effect))
        (go (s.emit (.entered loop.env.token point)))) :
    Moves s (control loop callers (.evaluating effect)) (atPoint s loop callers point go) := by
  unfold atPoint
  split
  · next cancelled => exact .move (.rfl' s) (.refused at_point cancelled) rfl rfl
  · next notCancelled => exact live (by simpa using notCancelled)

theorem async_moves (worker : Worker) (r : Registration)
    (live : s.isCancelled loop.env.token = false) :
    Moves s (control loop callers (.evaluating (.async r)))
      (match register worker r (s.emit (.entered loop.env.token .registration)) with
      | (.ok slot, s) => (resume (.callback loop slot) callers, s)
      | (.error f, s) => (.faulted f, s)) := by
  have quiet := register_quiet worker r (s.emit (.entered loop.env.token .registration))
  have grows := (Relation.ReflTransGen.single (Store.Change.emit s _ rfl)).trans quiet.grows
  split
  · next slot s' found =>
    rw [found] at quiet grows
    exact .alone [_] grows quiet.trace quiet.spawned (.register live) (.plain rfl) rfl nofun
  · next f s' found =>
    rw [found] at quiet grows
    obtain ⟨new, spawned, silent⟩ := quiet.spawned
    exact ⟨grows, [_], new, quiet.trace, spawned, .faulted silent
      (.inr ⟨_, _, _, Multiset.mem_cons_self _ _, ⟨live, _, rfl, rfl⟩, rfl⟩)⟩

theorem await_moves (worker : Worker) (future : Future)
    (live : s.isCancelled loop.env.token = false) :
    Moves s (control loop callers (.evaluating (.await future)))
      (match start worker (s.emit (.entered loop.env.token .future)) future with
      | .ok wait => (resume (.future loop wait) callers, s.emit (.entered loop.env.token .future))
      | .error f => (.faulted f, s.emit (.entered loop.env.token .future))) := by
  have grows := Relation.ReflTransGen.single
    (Store.Change.emit s (.entered loop.env.token .future) rfl)
  split
  · next wait started =>
    exact .alone [_] grows rfl ⟨[], rfl, by simp⟩ (.await live) (.plain rfl) rfl nofun
  · next f failed =>
    exact ⟨grows, [_], [], rfl, rfl, .faulted (by simp)
      (.inr ⟨_, _, _, Multiset.mem_cons_self _ _, ⟨live, _, rfl, rfl⟩, rfl⟩)⟩

theorem shift_moves (context : Context) (live : s.isCancelled loop.env.token = false) :
    Moves s (control loop callers (.evaluating (.shift context)))
      (let spawned :=
        ((s.emit (.entered loop.env.token .shift)).emit (.shifting context.name)).spawn context
          (.segment (.start { loop with env := loop.env.withContext context } Effect.unit))
      (resume (.shifted loop.env spawned.1) callers, spawned.2)) := by
  let job : Job := .segment (.start { loop with env := loop.env.withContext context } Effect.unit)
  let s₁ := (s.emit (.entered loop.env.token .shift)).emit (.shifting context.name)
  have grows : s.Grows (s₁.spawn context job).2 :=
    ((Relation.ReflTransGen.single (.emit s _ rfl)).tail (.emit _ _ rfl)).tail (.spawn s₁ _ _)
  have refused : context.isOpen = false →
      (s₁.spawn context job).2.joined? s.joins.size = some .aborted := fun closed => by
    have spawned := s₁.joined?_spawn_self context job
    rw [if_neg (by simp [closed])] at spawned
    exact spawned
  refine ⟨grows, [_, _], _, s₁.trace_spawn context job, s₁.spawned_spawn context job, ?_⟩
  simp only [Store.spawn_fst]
  exact .next (.sent live refused)

theorem bracket_moves (acquire : Effect) (use : Value → Effect)
    (release : Value → ExitCase Value → Effect) (live : s.isCancelled loop.env.token = false) :
    Moves s (control loop callers (.evaluating (.bracket acquire use release)))
      (let fresh := (s.emit (.entered loop.env.token .acquisition)).freshToken
      (eval ⟨loop.env.withToken fresh.1, []⟩ acquire (.acquiring loop use release :: callers),
        fresh.2)) := by
  have grows := (Relation.ReflTransGen.single
    (Store.Change.emit s (.entered loop.env.token .acquisition) rfl)).tail (.fresh _)
  refine .act [_] {_} grows rfl ⟨[], rfl, by simp⟩ (.bracket live) (.plain rfl)
    (Multiset.cons_swap _ _ _) (fun p mem => ?_) (by simp) nofun
  obtain rfl := Multiset.mem_singleton.mp mem
  exact .apart ⟨Nat.le_refl _, by simp⟩ fun q => by simp [Store.Derived]

theorem race_moves (left right : Effect) :
    Moves s (control loop callers (.evaluating (.race left right)))
      (let l := s.childToken loop.env.token
      let r := l.2.childToken loop.env.token
      (eval ⟨loop.env.withToken l.1, []⟩ left
        (.racingLeft loop ⟨l.1, r.1⟩ (.start ⟨loop.env.withToken r.1, []⟩ right) :: callers),
        r.2)) := by
  let s₁ := (s.childToken loop.env.token).2
  let s₂ := (s₁.childToken loop.env.token).2
  have size₁ : s₁.size = s.size + 1 := s.size_childToken _
  have size₂ : s₂.size = s.size + 2 := by
    rw [s₁.size_childToken, size₁]
  have trace : s₂.trace = [.derived loop.env.token (s.size + 1),
      .derived loop.env.token s.size] ++ s.trace := by
    rw [s₁.trace_childToken, size₁, s.trace_childToken]
    rfl
  let tokens : RaceTokens := ⟨s.size, s₁.size⟩
  let operand (side : Side) (effect : Effect) : Berth :=
    Loop.berth ⟨loop.env.withToken (tokens.of side), []⟩ (loop.side side) (.evaluating effect)
  simp only [Store.childToken_fst]
  have step : Fiber.Step s ⟨loop, .evaluating (.race left right)⟩ [] ⟨loop, .racing tokens⟩ :=
    .race
  have fresh : ∀ side, Within s.size s₂.size (tokens.of side) := fun side => by
    cases side
    · exact ⟨Nat.le_refl _, show s.size < s₂.size by omega⟩
    · exact ⟨show s.size ≤ s₁.size by omega, show s₁.size < s₂.size by omega⟩
  have derived : ∀ side, s₂.Derived loop.env.token (tokens.of side) := fun side => by
    cases side <;> simp [Store.Derived, trace, tokens, RaceTokens.of, size₁]
  have distinct : tokens.left ≠ tokens.right := show s.size ≠ s₁.size by omega
  refine .act _ {operand .left left, operand .right right}
    (.tail (.single (.child _ _)) (.child _ _)) trace ⟨[], rfl, by simp⟩ step
    (.race fresh derived distinct) ?_ (fun b mem => ?_) ?_ fun tokens' same side => ?_
  · simp only [Config.berths_eval, Caller.allBerths_cons, Caller.innerRoom_cons, Caller.room,
      Caller.berths, Segment.berths, Loop.berth, Multiset.insert_eq_cons, Multiset.cons_add,
      Multiset.singleton_add, operand]
    exact Multiset.cons_swap _ _ _
  · change b.Newborn s s₂ ⟨loop, .racing tokens⟩
    simp only [Multiset.insert_eq_cons, Multiset.mem_cons, Multiset.mem_singleton] at mem
    obtain rfl | rfl := mem
    · exact .operand .left (fresh .left) (derived .left)
    · exact .operand .right (fresh .right) (derived .right)
  · simpa [operand, Env.withToken, RaceTokens.of] using distinct
  · cases same
    cases side
    · exact ⟨operand .left left, by simp, rfl, rfl⟩
    · exact ⟨operand .right right, by simp, rfl, rfl⟩

/-! ## Groups -/

/-- The tasks that were started for the operands of the group with a token. -/
structure Operands (s s' : Store) (env : Env) (group : TokenId) (operands : Nat → Effect)
    (indices : List Nat) (pending : List (Nat × TaskId)) : Prop where
  grows : s.Grows s'
  indices : pending.map Prod.fst = indices
  trace : ∃ es, s'.trace = es ++ s.trace ∧ es.filter Event.isMark = []
  tasks : ∀ x ∈ pending, Within s.joins.size s'.joins.size x.2
  spawned : ∃ new, s'.spawned = new ++ s.spawned ∧
    (∀ x ∈ new, ∃ env effect, x.segment? = some (.start ⟨env, []⟩ effect) ∧
      Within s.size s'.size env.token ∧ s'.Derived group env.token ∧
      ∃ i, (i, x.task) ∈ pending) ∧
    ((Spawn.offspring new).map Post.token).Nodup ∧
    ∀ x ∈ pending, s'.joined? x.2 = some .aborted ∨ ∃ t, s'.Derived group t ∧
      ⟨x.2, env.context, .segment (.start ⟨env.withToken t, []⟩ (operands x.1))⟩ ∈ new

theorem operands_spawnOperands (env : Env) (group : TokenId) (operands : Nat → Effect)
    (indices : List Nat) (s : Store) :
    Operands s (spawnOperands env group operands indices s).2 env group operands indices
      (spawnOperands env group operands indices s).1 := by
  induction indices generalizing s with
  | nil =>
    exact ⟨.refl, rfl, ⟨[], rfl, rfl⟩, by simp [spawnOperands], [], rfl, by simp, by simp,
      by simp [spawnOperands]⟩
  | cons i rest ih =>
    let s₁ := (s.childToken group).2
    let job : Job := .segment (.start ⟨env.withToken s.size, []⟩ (operands i))
    let s₂ := (s₁.spawn env.context job).2
    let first : List Spawn := if env.context.isOpen then [⟨s.joins.size, env.context, job⟩] else []
    have size₂ : s₂.size = s.size + 1 := by rw [Store.size_spawn, Store.size_childToken]
    have joins₂ : s₂.joins.size = s.joins.size + 1 := Store.size_joins_spawn _ _ _
    have trace₂ : s₂.trace = .derived group s.size :: s.trace := by
      rw [Store.trace_spawn, Store.trace_childToken]
    have spawned₂ : s₂.spawned = first ++ s.spawned := Store.spawned_spawn _ _ _
    let r := spawnOperands env group operands rest s₂
    obtain ⟨grows, same, ⟨es, trace, quiet⟩, tasks, new, spawned, started, distinct, carried⟩ :
      Operands s₂ r.2 env group operands rest r.1 := ih s₂
    have size_le := grows.size_le
    have joins_le := grows.joins_le
    simp only [spawnOperands, Store.childToken_fst, Store.spawn_fst]
    change Operands s r.2 env group operands (i :: rest) ((i, s.joins.size) :: r.1)
    have derived : r.2.Derived group s.size := by simp [Store.Derived, trace, trace₂]
    refine ⟨.trans (.tail (.single (.child s group)) (.spawn _ _ _)) grows, by simp [same],
      ⟨es ++ [.derived group s.size], by rw [trace, trace₂]; simp, ?_⟩, fun x mem => ?_,
      new ++ first, by rw [spawned, spawned₂, List.append_assoc], fun x mem => ?_, ?_,
      fun x mem => ?_⟩
    · simp [quiet, Event.isMark, Event.fiber?]
    · obtain rfl | mem := List.mem_cons.mp mem
      · exact ⟨Nat.le_refl _, by omega⟩
      · exact (tasks x mem).mono (by omega) (Nat.le_refl _)
    · obtain mem | mem := List.mem_append.mp mem
      · obtain ⟨env', effect, segment, within, derived, j, mem⟩ := started x mem
        exact ⟨env', effect, segment, within.mono (by omega) (Nat.le_refl _), derived, j,
          List.mem_cons_of_mem _ mem⟩
      · simp only [first] at mem
        split at mem
        · obtain rfl := List.mem_singleton.mp mem
          exact ⟨_, _, rfl, ⟨Nat.le_refl _, by simp only [Env.withToken]; omega⟩, derived, i,
            List.mem_cons_self ..⟩
        · cases mem
    · have tokens : (Spawn.offspring first).map Post.token ≤ {s.size} := by
        simp only [first]
        split
        · simp [Spawn.posts, Spawn.segment?, job, Segment.posts, Loop.at, Post.token, Fiber.token,
            Env.withToken]
        · simp
      rw [Spawn.offspring_append, Multiset.map_add, Multiset.nodup_add]
      refine ⟨distinct, Multiset.nodup_of_le tokens (Multiset.nodup_singleton _),
        Multiset.disjoint_left.mpr fun {t} later now => ?_⟩
      obtain ⟨p, mem, rfl⟩ := Multiset.mem_map.mp later
      obtain ⟨x, mem, inside⟩ := Spawn.mem_offspring.mp mem
      obtain ⟨env', effect, segment, within, -⟩ := started x mem
      have lower := within.le
      simp only [Spawn.posts, segment, Segment.posts, Multiset.mem_singleton] at inside
      have same := Multiset.mem_singleton.mp (Multiset.mem_of_le tokens now)
      simp only [inside, Loop.at, Post.token, Fiber.token] at same
      rw [same] at lower
      omega
    · obtain rfl | mem := List.mem_cons.mp mem
      · cases isOpen : env.context.isOpen with
        | true =>
          exact .inr ⟨s.size, derived, List.mem_append_right _ (by simp [first, isOpen, job])⟩
        | false =>
          have refused := s₁.joined?_spawn_self env.context job
          rw [if_neg (by simp [isOpen])] at refused
          exact .inl ((grows.joined? (show s.joins.size < s₂.joins.size by omega)).trans refused)
      · refine (carried x mem).imp_right ?_
        rintro ⟨t, derived, mem⟩
        exact ⟨t, derived, List.mem_append_left _ mem⟩

theorem parallel_moves (n : Nat) (operands : Fin n → Effect) :
    Moves s (control loop callers (.evaluating (.parallel n operands)))
      (let child := s.childToken loop.env.token
      let tasks := spawnOperands loop.env child.1 (operandAt operands) (List.range n) child.2
      (resume (.gathering loop { token := child.1, pending := tasks.1 }) callers, tasks.2)) := by
  let s₁ := (s.childToken loop.env.token).2
  have size₁ : s₁.size = s.size + 1 := s.size_childToken _
  have trace₁ : s₁.trace = .derived loop.env.token s.size :: s.trace := s.trace_childToken _
  let r := spawnOperands loop.env s.size (operandAt operands) (List.range n) s₁
  obtain ⟨grows, indices, ⟨es, trace, quiet⟩, tasks, new, spawned, started, distinct, carried⟩ :
    Operands s₁ r.2 loop.env s.size (operandAt operands) (List.range n) r.1 :=
      operands_spawnOperands loop.env s.size (operandAt operands) (List.range n) s₁
  have size_le := grows.size_le
  simp only [Store.childToken_fst]
  have begun : Group.Begun s r.2 loop.env.token { token := s.size, pending := r.1 } new :=
    { token := ⟨Nat.le_refl _, show s.size < r.2.size by omega⟩
      derived := by simp [Store.Derived, trace, trace₁]
      indices := by simpa only [indices] using List.nodup_range
      tasks := tasks
      operands := fun x mem => by
        obtain ⟨env, effect, segment, within, derived, i, mem⟩ := started x mem
        exact ⟨env, effect, segment, within.mono (Nat.le_of_eq size₁.symm) (Nat.le_refl _),
          derived, i, mem⟩
      distinct := distinct }
  refine ⟨.trans (.single (.child s _)) grows, es ++ [.derived loop.env.token s.size], new,
    by rw [trace, trace₁]; simp, spawned, ?_⟩
  have quiet' : (es ++ [Event.derived loop.env.token s.size]).filter Event.isMark = [] := by
    simp [quiet, Event.isMark, Event.fiber?]
  rw [quiet']
  exact .next (.fan ⟨begun, rfl, indices, carried⟩)

/-! ## Evaluation -/

theorem evalStep_moves (worker : Worker) (effect : Effect) :
    Moves s (control loop callers (.evaluating effect))
      (evalStep worker loop callers s effect) := by
  cases effect with
  | pure v => exact .move (.rfl' s) .pure rfl rfl
  | fail e => exact .move (.rfl' s) .fail rfl rfl
  | fault f => exact .fault (.rfl' s)
  | perform act next =>
    simp only [evalStep]
    split
    · next reply memory done =>
      exact .move (s.same_memory memory) (.perform (by rw [done])) rfl rfl
    · next f memory done => exact .fault (s.same_memory memory)
  | cancel t =>
    exact .alone [] (.single (.cancel s t)) (s.trace_cancel t) ⟨[], s.spawned_cancel t, by simp⟩
      .cancel (.plain rfl) rfl nofun
  | isCancelled t => exact .move (.rfl' s) .isCancelled rfl rfl
  | map source f => exact .move (.rfl' s) .map rfl rfl
  | flatMap source f => exact .move (.rfl' s) .bind rfl rfl
  | handleErrorWith source handler => exact .move (.rfl' s) .handle rfl rfl
  | loop again body v =>
    simp only [evalStep]
    split
    · next go => exact .move (.rfl' s) (.again go) rfl rfl
    · next stop => exact .move (.rfl' s) (.done stop) rfl rfl
    · exact .fault (.rfl' s)
  | async r => exact atPoint_moves rfl (async_moves worker r)
  | await future => exact atPoint_moves rfl (await_moves worker future)
  | shift context => exact atPoint_moves rfl (shift_moves context)
  | bracket acquire use release => exact atPoint_moves rfl (bracket_moves acquire use release)
  | race left right => exact race_moves left right
  | parallel n operands => exact parallel_moves n operands

/-! ## Unwinding -/

variable {env : Env} {frames : List Frame}

theorem release_moves (bracket : BracketId) (finalizer : ExitCase Value → Effect) (x : Exit) :
    Moves s (control ⟨env, .release bracket finalizer :: frames⟩ callers (.unwinding x))
      (frameStep ⟨env, frames⟩ callers s (.release bracket finalizer) x) := by
  let outcome : Exit := if s.isCancelled env.token then .canceled else x
  simp only [frameStep]
  split
  · exact .fault (.rfl' s)
  · refine .act [_] {_} (.tail (.single (.emit s (.releaseStarted env.token bracket outcome) rfl))
      (.fresh _)) rfl ⟨[], rfl, by simp⟩ (.release rfl) (.plain rfl) (Multiset.cons_swap _ _ _)
      (fun p mem => ?_) (by simp) nofun
    obtain rfl := Multiset.mem_singleton.mp mem
    exact .apart ⟨Nat.le_refl _, by simp⟩ fun q => by simp [Store.Derived]

theorem unwindStep_moves (loop : Loop) (x : Exit) :
    Moves s (control loop callers (.unwinding x)) (unwindStep loop x callers s) := by
  obtain ⟨env, frames⟩ := loop
  cases frames with
  | nil =>
    refine ⟨.single (.emit s (.left env.token x) rfl), [_], [], rfl, rfl, .next ?_⟩
    rw [Config.berths_leave]
    exact .left
  | cons frame frames =>
    have skipped : frame.skips x = true → Moves s
        (control ⟨env, frame :: frames⟩ callers (.unwinding x))
        (unwind ⟨env, frames⟩ x callers, s) :=
      fun skips => .move (.rfl' s) (.skipped skips) rfl rfl
    simp only [unwindStep]
    cases frame with
    | map f =>
      cases x with
      | succeeded v =>
        simp only [frameStep]
        split
        · next w computed => exact .move (.rfl' s) (.mapped computed) rfl rfl
        · exact .fault (.rfl' s)
      | errored | canceled => exact skipped rfl
    | bind f =>
      cases x with
      | succeeded v => exact .move (.rfl' s) .bound rfl rfl
      | errored | canceled => exact skipped rfl
    | handle handler =>
      cases x with
      | errored e => exact .move (.rfl' s) .handled rfl rfl
      | succeeded | canceled => exact skipped rfl
    | again again body =>
      cases x with
      | succeeded v => exact .move (.rfl' s) .repeated rfl rfl
      | errored | canceled => exact skipped rfl
    | release bracket finalizer => exact release_moves bracket finalizer x

/-! ## The end of a nested loop -/

theorem settle_moves {tokens : RaceTokens} (side : Side) (x : Exit) (other : Segment) :
    Moves s (loop.berth (Caller.innerRoom callers) (.racing tokens)
        ::ₘ other.berths (loop.side side.other) + Caller.allBerths callers)
      (settle loop tokens side x other callers s) := by
  unfold settle
  rw [Multiset.cons_add]
  split
  · next withdrawn =>
    simp only [Bool.and_eq_true, Bool.not_eq_true'] at withdrawn
    have step : Fiber.Step s ⟨loop, .racing tokens⟩ [] ⟨loop, .remaining side.other⟩ :=
      .withdrawn withdrawn.2
    exact .move (.rfl' s) step rfl (by simp [Caller.berths, Caller.room, Loop.berth])
  · have step : Fiber.Step s ⟨loop, .racing tokens⟩ [] ⟨loop, .settling side x⟩ := .settle
    exact .alone [] (.single (.cancel s _)) (s.trace_cancel _) ⟨[], s.spawned_cancel _, by simp⟩
      step (.settle (s.tokens_cancel _)) (by simp [Caller.berths, Caller.room, Loop.berth])
      (by simp)

theorem acquiring_moves (use : Value → Effect) (release : Value → ExitCase Value → Effect)
    (x : Exit) :
    Moves s (control loop callers (.acquiring use release))
      (returnStep x callers s (.acquiring loop use release)) := by
  have failed : x.isSucceeded = false → Moves s (control loop callers (.acquiring use release))
      (unwind loop x callers, s.emit (.notAcquired loop.env.token x)) := fun h =>
    .alone [_] (.single (.emit s _ rfl)) rfl ⟨[], rfl, by simp⟩ (.notAcquired h) (.plain rfl) rfl
      nofun
  cases x with
  | errored | canceled => exact failed rfl
  | succeeded v =>
    have grows : s.Grows ({ s with brackets := s.brackets + 1 }.emit
        (.acquired loop.env.token s.brackets v)) :=
      .single (.acquire s _ v)
    simp only [returnStep]
    split
    · next cancelled =>
      exact .alone [_] grows rfl ⟨[], rfl, by simp⟩ (.acquiredLate cancelled) (.plain rfl) rfl
        nofun
    · next notCancelled =>
      exact .alone [_, _] (grows.tail (.emit _ _ rfl)) rfl ⟨[], rfl, by simp⟩
        (.acquired (Bool.eq_false_of_not_eq_true notCancelled)) (.plain rfl) rfl nofun

theorem releasing_moves (bracket : BracketId) (outcome x : Exit) :
    Moves s (control loop callers (.releasing bracket outcome))
      (returnStep x callers s (.releasing loop bracket outcome)) := by
  have finished := Relation.ReflTransGen.single
    (Store.Change.emit s (.releaseFinished loop.env.token bracket x) rfl)
  have step : Fiber.Step s ⟨loop, .releasing bracket outcome⟩
      [.releaseFinished loop.env.token bracket x] ⟨loop, .unwinding (Exit.behind outcome x)⟩ :=
    .released
  have kept : Exit.behind outcome x = outcome → Moves s
      (control loop callers (.releasing bracket outcome))
      (unwind loop outcome callers, s.emit (.releaseFinished loop.env.token bracket x)) :=
    fun same => by
      rw [same] at step
      exact .alone [_] finished rfl ⟨[], rfl, by simp⟩ step (.plain rfl) rfl nofun
  have warned : Exit.behind outcome x = outcome → Moves s
      (control loop callers (.releasing bracket outcome))
      (unwind loop outcome callers, (s.emit (.releaseFinished loop.env.token bracket x)).emit
        (.releaseFailed bracket outcome)) :=
    fun same => by
      rw [same] at step
      exact .alone [_, _] (finished.tail (.emit _ _ rfl)) rfl ⟨[], rfl, by simp⟩ step (.plain rfl)
        rfl nofun
  cases x with
  | succeeded | canceled => exact kept rfl
  | errored e =>
    cases outcome with
    | succeeded v => exact .alone [_] finished rfl ⟨[], rfl, by simp⟩ step (.plain rfl) rfl nofun
    | errored | canceled => exact warned rfl

theorem leaveStep_moves (x : Exit) :
    Moves s (Caller.allBerths callers) (leaveStep x callers s) := by
  cases callers with
  | nil => exact ⟨.refl, [], [], rfl, rfl, .ended rfl⟩
  | cons caller callers =>
    simp only [leaveStep, Caller.allBerths_cons]
    cases caller with
    | acquiring loop use release => exact acquiring_moves use release x
    | releasing loop bracket outcome => exact releasing_moves bracket outcome x
    | racingLeft loop tokens right => exact settle_moves .left x right
    | racingRight loop tokens left => exact settle_moves .right x left
    | settling loop winner winnerExit =>
      have step : Fiber.Step s ⟨loop, .settling winner winnerExit⟩ []
          ⟨loop, .unwinding (winner.tag winnerExit)⟩ := .settled
      exact .alone [_] (.single (.emit s (.raceSettled winner winnerExit) rfl)) rfl
        ⟨[], rfl, by simp⟩ step (.plain rfl) rfl nofun
    | remaining loop side => exact .move (.rfl' s) .remained rfl rfl

/-! ## Resuming -/

theorem absorb_fields (g : Group) (i : Nat) (x : Exit) :
    (g.absorb i x).token = g.token ∧ (g.absorb i x).pending = g.pending := by
  cases x with
  | succeeded v | canceled => exact ⟨rfl, rfl⟩
  | errored e =>
    simp only [Group.absorb]
    split
    · exact ⟨rfl, rfl⟩
    · split <;> exact ⟨rfl, rfl⟩

/-- A growth that leaves no mark and starts no task. -/
structure Unmarked (s s' : Store) : Prop where
  grows : s.Grows s'
  spawned : s'.spawned = s.spawned
  trace : ∃ es, s'.trace = es ++ s.trace ∧ es.filter Event.isMark = []

/-- Taking ended operands into account reports failures and cancels, no more. -/
theorem gather_unmarked (g : Group) (ended : List (Nat × Joined)) (s : Store) :
    Unmarked s (gather g ended s).2 := by
  induction ended generalizing g s with
  | nil => exact ⟨.refl, rfl, [], rfl, rfl⟩
  | cons x rest ih =>
    obtain ⟨i, joined⟩ := x
    unfold gather
    split
    · exact ⟨.single (.cancel s _), s.spawned_cancel _, [], s.trace_cancel _, rfl⟩
    · next exit _ =>
      have taken : ∀ first : Bool, Unmarked s (gather ((g.drop i).absorb i exit) rest
          (if first then (s.emit (.operandFailed i)).cancel g.token else s)).2 := fun first => by
        obtain ⟨grows, spawned, es, trace, quiet⟩ := ih ((g.drop i).absorb i exit)
          (if first then (s.emit (.operandFailed i)).cancel g.token else s)
        cases first with
        | false => exact ⟨grows, spawned, es, trace, quiet⟩
        | true =>
          have reported : s.Grows ((s.emit (.operandFailed i)).cancel g.token) :=
            .tail (.single (.emit s _ rfl)) (.cancel _ _)
          refine ⟨reported.trans grows, spawned.trans (by simp), es ++ [.operandFailed i],
            trace.trans (by simp), ?_⟩
          simp [quiet, Event.isMark, Event.fiber?]
      exact taken _

theorem gather_advances {g g' : Group} {ended : List (Nat × Joined)} {s : Store}
    (ok : (gather g ended s).1 = .ok g') : g'.token = g.token ∧ g'.pending.Sublist g.pending ∧
      ∀ x ∈ g.pending, x ∈ g'.pending ∨ ∃ y ∈ ended, y.1 = x.1 := by
  induction ended generalizing g s with
  | nil =>
    cases ok
    exact ⟨rfl, .refl _, fun x mem => .inl mem⟩
  | cons y rest ih =>
    obtain ⟨i, joined⟩ := y
    unfold gather at ok
    split at ok
    · cases ok
    · next exit _ =>
      obtain ⟨token, pending⟩ := absorb_fields (g.drop i) i exit
      obtain ⟨token', sub, others⟩ := ih ok
      rw [token] at token'
      rw [pending] at sub others
      refine ⟨token', sub.trans List.filter_sublist, fun x mem => ?_⟩
      by_cases same : i = x.1
      · exact .inr ⟨(i, joined), List.mem_cons_self .., same⟩
      · have kept : x ∈ (g.drop i).pending :=
          List.mem_filter.mpr ⟨mem, by simpa using fun h => same h.symm⟩
        exact (others x kept).imp_right fun ⟨y, mem, eq⟩ => ⟨y, List.mem_cons_of_mem _ mem, eq⟩

theorem mem_endedOperands {g : Group} {x : Nat × Joined} (mem : x ∈ endedOperands g s) :
    ∃ t, (x.1, t) ∈ g.pending ∧ s.joined? t = some x.2 := by
  simp only [endedOperands, List.mem_map, List.mem_mergeSort, List.mem_filterMap] at mem
  obtain ⟨y, ⟨⟨i, t⟩, pending, found⟩, rfl⟩ := mem
  obtain ⟨joined, result, rfl⟩ := Option.map_eq_some_iff.mp found
  exact ⟨t, pending, result⟩

theorem advances_of_gather {g g' : Group}
    (found : gather g (endedOperands g s) s = (.ok g', s')) : g.Advances s g' := by
  obtain ⟨token, sub, others⟩ := gather_advances (congrArg Prod.fst found)
  refine ⟨token, sub, fun x mem => (others x mem).imp_right fun ⟨y, ended, same⟩ => ?_⟩
  obtain ⟨t, pending, result⟩ := mem_endedOperands ended
  exact ⟨(y.1, t), pending, same, by simp [result]⟩

theorem gathering_moves (worker : Worker) (group : Group) :
    Moves s (control loop callers (.gathering group))
      (resumeStep worker callers s (.gathering loop group)) := by
  obtain ⟨grows, spawned, es, trace, quiet⟩ := gather_unmarked group (endedOperands group s) s
  simp only [resumeStep]
  split
  · next f s' found =>
    rw [found] at grows spawned trace
    exact ⟨grows, es, [], trace, spawned, .faulted (by simp) (.inl quiet)⟩
  · next group' s' found =>
    rw [found] at grows spawned trace
    have advances := advances_of_gather found
    split
    · next none =>
      have step : Fiber.Step s ⟨loop, .gathering group⟩ (es.filter Event.isMark)
          ⟨loop, .unwinding group'.exit⟩ := by
        rw [quiet]
        exact .gathered advances (List.isEmpty_iff.mp none)
      have deed : Deed s s' ⟨loop, .gathering group⟩ ⟨loop, .unwinding group'.exit⟩ :=
        .gathered found rfl (List.isEmpty_iff.mp none)
      exact .alone es grows trace ⟨[], spawned, by simp⟩ step deed rfl nofun
    · next some =>
      have step : Fiber.Step s ⟨loop, .gathering group⟩ (es.filter Event.isMark)
          ⟨loop, .gathering group'⟩ := by
        rw [quiet]
        exact .gather advances
      have watched := s'.same_watchTasks group'.pending worker.task
      exact .alone es (grows.tail (.same watched)) (watched.trace.trans trace)
        ⟨[], watched.spawned.trans spawned, by simp⟩ step
        (.gather found watched.tokens (by simpa using some)) rfl nofun

theorem callback_moves (worker : Worker) (slot : Nat) :
    Moves s (control loop callers (.callback slot))
      (resumeStep worker callers s (.callback loop slot)) := by
  simp only [resumeStep]
  split
  · exact .move (.rfl' s) .delivered rfl rfl
  · exact .fault (.rfl' s)
  · split
    · next cancelled =>
      exact .alone [_] (.single (.emit s .callbackAbandoned rfl)) rfl ⟨[], rfl, by simp⟩
        (.abandoned cancelled) (.plain rfl) rfl nofun
    · exact .idle ((s.same_watchCallback _ _).trans (Store.same_watchToken _ _ _)) rfl

theorem future_moves (worker : Worker) (wait : Wait) :
    Moves s (control loop callers (.future wait))
      (resumeStep worker callers s (.future loop wait)) := by
  simp only [resumeStep]
  split
  · next result ready => exact .move (.rfl' s) (.due ready) rfl rfl
  · split
    · next cancelled =>
      exact .alone [_] (.single (.emit s .futureAbandoned rfl)) rfl ⟨[], rfl, by simp⟩
        (.forgone cancelled) (.plain rfl) rfl nofun
    · exact .idle ((same_watch worker s wait).trans (Store.same_watchToken _ _ _)) rfl

theorem shifted_moves (worker : Worker) (env : Env) (task : TaskId) :
    Moves s (⟨Caller.innerRoom callers, .away env task⟩ ::ₘ Caller.allBerths callers)
      (resumeStep worker callers s (.shifted env task)) := by
  simp only [resumeStep]
  split
  · next joined result =>
    split
    · next x exit =>
      refine ⟨.refl, [], [], rfl, rfl, .next ?_⟩
      rw [Config.berths_leave]
      exact .back ⟨joined, x, result, exit⟩
    · exact .fault (.rfl' s)
  · exact .idle (s.same_watchTask _ _) rfl

theorem resumeStep_moves (worker : Worker) (segment : Segment) :
    Moves s (segment.berths (Caller.innerRoom callers) + Caller.allBerths callers)
      (resumeStep worker callers s segment) := by
  -- Around a nested loop the grip only moves inwards: the same berths, summed in another order.
  cases segment with
  | start loop effect => exact .idle (.rfl' s) rfl
  | callback loop slot => exact callback_moves worker slot
  | future loop wait => exact future_moves worker wait
  | shifted env task => exact shifted_moves worker env task
  | acquiring loop use release inner | releasing loop bracket outcome inner
  | racing loop tokens left right | settling loop winner exit loser
  | remaining loop side operand =>
    refine .idle (.rfl' s) ?_
    simp [Segment.berths, Caller.berths, Caller.room, Loop.side, Loop.inside, add_assoc]
  | gathering loop group => exact gathering_moves worker group

/-! ## Parking -/

theorem parkStep_moves (segment : Segment) :
    Moves s (segment.berths (Caller.innerRoom callers) + Caller.allBerths callers)
      (parkStep segment callers, s) := by
  cases callers with
  | nil => exact ⟨.refl, [], [], rfl, rfl, .parked (by simp)⟩
  | cons caller callers =>
    cases caller with
    | acquiring | releasing | racingLeft | racingRight | settling | remaining =>
      refine .idle (.rfl' s) ?_
      simp [Segment.berths, Caller.berths, Caller.room, Loop.side, Loop.inside, add_assoc,
        add_left_comm]

end Machine

/-- A step of a poll is a motion of its loops. -/
theorem Config.step_moves (worker : Worker) (c : Config) (s : Store) :
    Moves s c.berths (c.step worker s) := by
  obtain ⟨focus, callers⟩ := c
  cases focus with
  | eval loop effect => exact Machine.evalStep_moves worker effect
  | unwind loop exit => exact Machine.unwindStep_moves loop exit
  | leave exit =>
    rw [Config.berths_leave]
    exact Machine.leaveStep_moves exit
  | resume segment => exact Machine.resumeStep_moves worker segment
  | park segment => exact Machine.parkStep_moves segment

/-- Without the rooms a step of a poll is a reaction of its posts. -/
theorem Config.step_reacts (worker : Worker) (c : Config) (s : Store) :
    Reacts s c.posts (c.step worker s) :=
  c.map_berths ▸ (c.step_moves worker s).reacts

end EffectFibers
