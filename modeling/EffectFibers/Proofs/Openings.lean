import EffectFibers.Proofs.Observation
import EffectFibers.Proofs.Succession
import Mathlib.Data.Fintype.Basic

/-!
# Groups that have just begun

A loop that evaluates a group derives a token for it, and begins a task under a token of its own
for each operand (`Strand.Goes.fanned`).  From then on the loop does nothing that anybody sees, but
for a cancellation of the group (`AtGroup.goes`), until it delivers what the exits make of it with
which the operands have left (`Opening.result`).

## Main definitions

* `Group.Fanned`, `Opening`: a loop has begun a group.
* `AtGroup`: the strand of a loop that waits for a group.

## Main statements

* `Opening.left`, `Opening.result`: the exits of the operands, and that of the group.
* `Opening.clear`: operands are not cancelled while nothing fails.
-/

namespace EffectFibers

/-! ## What is seen of a store -/

namespace Store

variable (s : Store)

theorem face_wakeAll (ts : List TaskId) : (s.wakeAll ts).face = s.face := by
  obtain ⟨ready, woken, same⟩ := s.wakeAll_eq ts
  rw [same]
  rfl

theorem face_cancel (t : TokenId) : (s.cancel t).face = s.face := face_wakeAll _ _

theorem face_spawn (context : Context) (job : Job) : (s.spawn context job).2.face = s.face := by
  unfold spawn
  split <;> rfl

theorem face_watchTasks (ts : List (Nat × TaskId)) (task : TaskId) :
    (ts.foldl (fun s (_, t) => s.watchTask t task) s).face = s.face := by
  induction ts generalizing s with
  | nil => rfl
  | cons t ts ih => exact ih _

variable {s}

/-- A cancellation does not come to older tokens. -/
theorem isCancelled_cancel_of_lt (listed : s.Listed) {t k : TokenId} (lt : t < k) :
    (s.cancel k).isCancelled t = s.isCancelled t := by
  rw [Bool.eq_iff_iff, Store.isCancelled, tokens_cancel]
  refine ⟨fun cancelled => (listed.below cancelled).resolve_right fun below => ?_,
    Forest.isCancelled_cancelAll⟩
  exact Nat.not_lt.mpr (below_le below) lt

end Store

namespace Machine

variable {s s' : Store} {g g' : Group} {ended : List (Nat × Joined)}

theorem face_gather (g : Group) (ended : List (Nat × Joined)) (s : Store) :
    (gather g ended s).2.face = s.face := by
  induction ended generalizing g s with
  | nil => rfl
  | cons x rest ih =>
    obtain ⟨i, joined⟩ := x
    unfold gather
    split
    · exact s.face_cancel _
    · next exit _ =>
      have taken : ∀ first : Bool, (gather ((g.drop i).absorb i exit) rest
          (if first then (s.emit (.operandFailed i)).cancel g.token else s)).2.face = s.face := by
        intro first
        cases first with
        | false => exact ih _ _
        | true => exact (ih _ _).trans (Store.face_cancel _ _)
      exact taken _

theorem isCancelled_gather_of_lt (g : Group) (ended : List (Nat × Joined)) {s : Store}
    (listed : s.Listed) {t : TokenId} (lt : t < g.token) :
    (gather g ended s).2.isCancelled t = s.isCancelled t := by
  induction ended generalizing g s with
  | nil => rfl
  | cons x rest ih =>
    obtain ⟨i, joined⟩ := x
    unfold gather
    split
    · exact Store.isCancelled_cancel_of_lt listed lt
    · next exit _ =>
      have token : t < ((g.drop i).absorb i exit).token := by
        rw [(absorb_fields _ i exit).1]
        exact lt
      have taken : ∀ first : Bool, (gather ((g.drop i).absorb i exit) rest
          (if first then (s.emit (.operandFailed i)).cancel g.token else s)).2.isCancelled t
            = s.isCancelled t := by
        intro first
        cases first with
        | false => exact ih _ listed token
        | true =>
          have reported : (s.emit (.operandFailed i)).Listed :=
            Store.Grows.listed (.single (.emit s _ rfl)) listed
          refine (ih _ (Store.Grows.listed (.single (.cancel _ _)) reported) token).trans ?_
          exact Store.isCancelled_cancel_of_lt reported lt
      exact taken _

/-- What a group has begun for the operands of some indices: each is in a task and under a token of
its own. -/
structure Fans (env : Env) (group : TokenId) (operands : Nat → Effect) (K J : Nat)
    (indices : List Nat) (s s' : Store) (pending : List (Nat × TaskId)) : Prop where
  pending : pending = indices.map fun i => (i, J + i)
  spawned : s'.spawned = (indices.map fun i => (⟨J + i, env.context,
    .segment (.start ⟨env.withToken (K + i), []⟩ (operands i))⟩ : Spawn)).reverse ++ s.spawned
  face : s'.face = s.face
  older : ∀ t < s.size, s'.isCancelled t = s.isCancelled t
  derived : ∀ i ∈ indices, s'.Derived group (K + i)

/-- The operands with the indices from `a` on are begun one after the other, if no task is
refused. -/
theorem spawnOperands_fans {env : Env} (group : TokenId) (operands : Nat → Effect) (K J m a : Nat)
    (s : Store) (size : s.size = K + a) (joins : s.joins.size = J + a)
    (unrefused : ∀ t, (spawnOperands env group operands (List.range' a m) s).2.joined? t
      ≠ some .aborted) :
    Fans env group operands K J (List.range' a m) s
      (spawnOperands env group operands (List.range' a m) s).2
      (spawnOperands env group operands (List.range' a m) s).1 := by
  induction m generalizing a s with
  | zero => exact ⟨rfl, rfl, rfl, fun _ _ => rfl, by simp⟩
  | succ m ih =>
    simp only [List.range'_succ, spawnOperands, Store.childToken_fst, Store.spawn_fst]
      at unrefused ⊢
    let job : Job := .segment (.start ⟨env.withToken s.size, []⟩ (operands a))
    let s₁ := (s.childToken group).2
    let s₂ := (s₁.spawn env.context job).2
    have size₂ : s₂.size = K + (a + 1) := by
      rw [Store.size_spawn, Store.size_childToken, size]
      rfl
    have joins₂ : s₂.joins.size = J + (a + 1) := by
      rw [Store.size_joins_spawn]
      show s.joins.size + 1 = _
      rw [joins]
      rfl
    have rest := operands_spawnOperands env group operands (List.range' (a + 1) m) s₂
    have isOpen : env.context.isOpen = true := by
      by_contra closed
      have refused := s₁.joined?_spawn_self env.context job
      rw [if_neg closed] at refused
      refine unrefused s₁.joins.size ?_
      exact (rest.grows.joined? (by rw [joins₂]; exact joins ▸ Nat.lt_succ_self _)).trans refused
    obtain ⟨pending, spawned, face, older, derived⟩ := ih (a + 1) s₂ size₂ joins₂ unrefused
    have first : s₂.spawned = ⟨s.joins.size, env.context, job⟩ :: s.spawned := by
      rw [Store.spawned_spawn, isOpen]
      rfl
    refine ⟨?_, ?_, face.trans (s₁.face_spawn _ _), fun t lt => ?_, fun i mem => ?_⟩
    · rw [List.map_cons]
      exact congrArg₂ List.cons (Prod.ext rfl joins) pending
    · rw [List.map_cons, List.reverse_cons, List.append_assoc]
      refine spawned.trans ?_
      simp only [first, joins, job, size]
      rfl
    · refine (older t (by omega)).trans ?_
      rw [Store.isCancelled, Store.tokens_spawn]
      show (s.tokens.child group).2.isCancelled t = s.tokens.isCancelled t
      have old : t ≠ s.tokens.nodes.size := Nat.ne_of_lt lt
      simp [Forest.isCancelled_child, old]
    · obtain rfl | mem := List.mem_cons.mp mem
      · obtain ⟨es, trace, -⟩ := rest.trace
        have here : s₂.trace = .derived group s.size :: s.trace := by
          rw [Store.trace_spawn, Store.trace_childToken]
        rw [Store.Derived, trace, here, ← size]
        simp
      · exact derived i mem

end Machine

/-! ## How a group begins -/

/-- The strand of an operand that is about to begin. -/
def Strand.ofOperand (run : TokenId) (env : Env) (t : TaskId) (c : TokenId) (effect : Effect) :
    Strand :=
  ⟨run, .task t, .waiting (.start ⟨env.withToken c, []⟩ effect)⟩

/-- A loop has begun a group, and its operands are tasks with tokens of their own. -/
structure Group.Fanned (s s' : Store) (run : TokenId) (role : Strand.Role) (loop : Loop) {n : Nat}
    (operands : Fin n → Effect) (g : Group) (tasks : Fin n → TaskId) (tokens : Fin n → TokenId)
    (μ' : Strand) (begun : Multiset Strand) : Prop where
  strand : μ' = ⟨run, role, .running ⟨.resume (.gathering loop g), []⟩⟩
  begun : begun = Finset.univ.val.map fun i =>
    Strand.ofOperand run loop.env (tasks i) (tokens i) (operands i)
  face : s'.face = s.face
  older : ∀ t < s.size, s'.isCancelled t = s.isCancelled t
  token : g.token = s.size
  pending : g.pending = Runtime.roster tasks
  parent : ∀ i, s'.Parent g.token (tokens i)
  distinct : Function.Injective tokens

theorem Strand.Goes.fanned {s s' : Store} {run : TokenId} {role : Strand.Role} {loop : Loop}
    {n : Nat} {operands : Fin n → Effect} {μ' : Strand} {begun : Multiset Strand}
    {marks : List Moment}
    (goes : Strand.Goes s ⟨run, role, .running ⟨.eval loop (.parallel n operands), []⟩⟩ s' μ' begun
      marks) (unrefused : ∀ t, s'.joined? t ≠ some .aborted) :
    ∃ g tasks tokens, Group.Fanned s s' run role loop operands g tasks tokens μ' begun := by
  cases goes with
  | report run t result came h => cases h
  | @turn _ _ _ worker es new trace spawned =>
    let s₁ := (s.childToken loop.env.token).2
    let r := Machine.spawnOperands loop.env s.size (Machine.operandAt operands) (List.range' 0 n) s₁
    let g : Group := { token := s.size, pending := r.1 }
    have stepped : Config.step worker ⟨.eval loop (.parallel n operands), []⟩ s
        = (.next ⟨.resume (.gathering loop g), []⟩, r.2) := by
      simp only [Config.step, Machine.evalStep, Store.childToken_fst, List.range_eq_range']
      rfl
    rw [stepped] at spawned unrefused ⊢
    obtain ⟨pending, spawned', face, older, derived⟩ :
        Machine.Fans loop.env s.size (Machine.operandAt operands) (s.size + 1) s.joins.size
          (List.range' 0 n) s₁ r.2 r.1 :=
      Machine.spawnOperands_fans _ _ _ _ n 0 s₁ (Store.size_childToken ..) rfl unrefused
    rw [← List.range_eq_range'] at pending spawned' derived
    refine ⟨g, fun i => s.joins.size + i, fun i => s.size + 1 + i, rfl, ?_, face,
      fun t lt => ?_, rfl, pending.trans ?_, fun i => ⟨derived i (List.mem_range.mpr i.isLt), ?_⟩,
      fun i j same => ?_⟩
    · have new' : new = _ := List.append_cancel_right (spawned.symm.trans spawned')
      have ordered : (List.range n).map (fun i => Strand.ofOperand run loop.env
          (s.joins.size + i) (s.size + 1 + i) (Machine.operandAt operands i))
          = List.ofFn fun i : Fin n => Strand.ofOperand run loop.env (s.joins.size + i)
            (s.size + 1 + i) (operands i) := by
        refine List.ext_getElem (by simp) fun i lt lt' => ?_
        have bound : i < n := by simpa using lt
        simp [Machine.operandAt, bound]
      rw [Fin.univ_val_map, ← ordered, Strand.ofSpawns, new', List.filterMap_reverse,
        Multiset.coe_reverse, List.filterMap_map]
      exact congrArg _ (congrFun List.filterMap_eq_map _)
    · refine (older t (Nat.lt_succ_of_lt lt |>.trans_eq (Store.size_childToken ..).symm)).trans ?_
      have old : t ≠ s.tokens.nodes.size := Nat.ne_of_lt lt
      show (s.tokens.child loop.env.token).2.isCancelled t = s.tokens.isCancelled t
      simp [Forest.isCancelled_child, old]
    · refine List.ext_getElem (by simp [Runtime.roster]) fun i lt lt' => ?_
      simp [Runtime.roster]
    · show s.size < s.size + 1 + i
      omega
    · exact Fin.ext (Nat.add_left_cancel same)

/-- A group has just begun with the tasks, whose outermost loops have the tokens. -/
structure Opening (σ₁ : Runtime) (group : TokenId) {n : Nat} (tasks : Fin n → TaskId)
    (tokens : Fin n → TokenId) : Prop where
  reached : σ₁.Reachable
  known : group < σ₁.store.size
  tallied : σ₁.Tallied group (Runtime.roster tasks)
  parent : ∀ i, σ₁.store.Parent group (tokens i)
  distinct : Function.Injective tokens
  leads : ∀ i, σ₁.Leads (tasks i) (tokens i)
  strand : ∀ i, ∃ τ ∈ σ₁.strands, τ.task? = some (tasks i) ∧ τ.berths ≠ 0

theorem Group.Fanned.opening {σ σ' : Runtime} {run : TokenId} {role : Strand.Role} {loop : Loop}
    {n : Nat} {operands : Fin n → Effect} {g : Group} {tasks : Fin n → TaskId}
    {tokens : Fin n → TokenId} {μ' : Strand} {begun : Multiset Strand}
    (h : g.Fanned σ.store σ'.store run role loop operands tasks tokens μ' begun)
    (reach : σ.Reachable) (step : σ.Step σ')
    (before : ⟨run, role, .running ⟨.eval loop (.parallel n operands), []⟩⟩ ∈ σ.strands)
    (after : μ' ::ₘ begun ⊆ σ'.strands) : Opening σ' g.token tasks tokens := by
  obtain ⟨rfl, rfl, -, -, -, pending, parent, distinct⟩ := h
  have reach' : σ'.Reachable := .tail reach step
  have before' : (run, ⟨loop, .evaluating (.parallel n operands)⟩) ∈ σ.crew :=
    Runtime.mem_crew_of_running before (Multiset.mem_singleton_self _)
  have after' : (run, ⟨loop, .gathering g⟩) ∈ σ'.crew :=
    Runtime.mem_crew_of_running (after (Multiset.mem_cons_self _ _)) (Multiset.mem_singleton_self _)
  obtain ⟨new, opened, -⟩ := step.group_opened reach before' after'
  have started (i : Fin n) := Runtime.leads_of_started reach'.booked
    (Multiset.mem_map_of_mem Strand.company (after (Multiset.mem_cons_of_mem
      (Multiset.mem_map_of_mem (fun i => Strand.ofOperand run loop.env (tasks i) (tokens i)
        (operands i)) (Finset.mem_univ_val i)))))
  exact ⟨reach', opened.begun.token.lt, pending ▸ Runtime.tallied_of_opened reach' opened after',
    parent, distinct, fun i => (started i).1, fun i => (started i).2⟩

namespace Opening

variable {σ₁ σ : Runtime} {group : TokenId} {n : Nat} {tasks : Fin n → TaskId}
  {tokens : Fin n → TokenId} {i : Fin n} {x : Exit}

/-- A task of the group ends with the exit of its outermost loop. -/
theorem left (h : Opening σ₁ group tasks tokens) (steps : Runtime.Steps σ₁ σ)
    (unrefused : ∀ t, σ.store.joined? t ≠ some .aborted)
    (ended : σ.store.exit? (tasks i) = some x) : .left (tokens i) x ∈ σ.events := by
  obtain ⟨τ, mem, task, early⟩ := h.strand i
  obtain ⟨⟨run, role, state⟩, mem', -, same⟩ := steps.strand mem
  have task' : Strand.task? ⟨run, role, state⟩ = some (tasks i) := by
    rw [Strand.task?, same]
    exact task
  obtain rfl : role = .task (tasks i) := by
    cases role with
    | root => cases task'
    | task t =>
      cases task'
      rfl
  have booked := Runtime.Reachable.booked (.trans h.reached steps)
  obtain inStrands | ⟨aborted, -⟩ := booked.came mem' ended
  · obtain left | ⟨-, t, aborted⟩ :=
      steps.task_left h.reached (h.leads i) mem task early inStrands rfl rfl
    · exact left
    · exact (unrefused t aborted).elim
  · exact (unrefused _ aborted).elim

variable {run : TokenId} {loop : Loop} {g : Group}

/-- The loop that waits for the group has a right account of it. -/
theorem tally (h : Opening σ₁ group tasks tokens) (steps : Runtime.Steps σ₁ σ)
    (mem : (run, ⟨loop, .gathering g⟩) ∈ σ.crew) (token : g.token = group) :
    g.Tally σ.store (Runtime.roster tasks) :=
  steps.tallied h.tallied h.reached h.known (Runtime.map_roster ▸ List.nodup_range) run loop g mem
    token

/-- What the group delivers is made of the exits with which its operands have left. -/
theorem result {σ' : Runtime} {loop' : Loop} (h : Opening σ₁ group tasks tokens)
    (steps : Runtime.Steps σ₁ σ) (step : Runtime.Step σ σ')
    (unrefused : ∀ t, σ.store.joined? t ≠ some .aborted)
    (mem : (run, ⟨loop, .gathering g⟩) ∈ σ.crew) (token : g.token = group)
    (mem' : (run, ⟨loop', .unwinding x⟩) ∈ σ'.crew) (same : loop'.env.token = loop.env.token) :
    ∃ xs : Fin n → Exit, (∀ i, .left (tokens i) (xs i) ∈ σ.events) ∧
      Exit.Together (List.ofFn xs) x := by
  have reach : σ.Reachable := .trans h.reached steps
  obtain same | acts | ⟨effect, other, -⟩ := step.deed reach mem mem' same
  · cases same
  · cases acts.deed with
    | plain plain => cases plain
    | gathered ok tokens ended =>
      have tallied := steps.tallied h.tallied h.reached h.known
        (Runtime.map_roster ▸ List.nodup_range)
      have tally :=
        tallied.gather reach.kindred (Runtime.map_roster ▸ List.nodup_range) mem ok token
      obtain ⟨xs, exits, together⟩ := Runtime.result_of_tally tally ended
      exact ⟨xs, fun i => h.left steps unrefused (exits i), together⟩
  · cases other

/-- A group whose operands leave with no failure has none. -/
theorem failure (h : Opening σ₁ group tasks tokens) (steps : Runtime.Steps σ₁ σ)
    (unrefused : ∀ t, σ.store.joined? t ≠ some .aborted)
    (mem : (run, ⟨loop, .gathering g⟩) ∈ σ.crew) (token : g.token = group)
    (whole : ∀ i e, .left (tokens i) (.errored e) ∉ σ.events) : g.failure = none := by
  by_contra failed
  obtain ⟨⟨i, e⟩, found⟩ := Option.ne_none_iff_exists'.mp failed
  obtain ⟨⟨t, inside, -, ended⟩, -⟩ := (h.tally steps mem token).reflects.failed i e found
  obtain ⟨j, same⟩ := Runtime.mem_roster.mp inside
  cases same
  exact whole j e (h.left steps unrefused ended)

/-- The operands of a group are not cancelled while its loop is not, if none of them fails. -/
theorem clear (h : Opening σ₁ group tasks tokens) (steps : Runtime.Steps σ₁ σ)
    (discreet : Runtime.Discreetly {} σ) (whole : ¬ σ.Failed run)
    (unrefused : ∀ t, σ.store.joined? t ≠ some .aborted)
    (mem : (run, ⟨loop, .gathering g⟩) ∈ σ.crew) (token : g.token = group)
    (succeed : ∀ i e, .left (tokens i) (.errored e) ∉ σ.events)
    (clear : σ.store.isCancelled loop.env.token = false) (held : σ.Holds run (tokens i)) :
    σ.store.isCancelled (tokens i) = false := by
  have traced := (discreet.caused whole unrefused).traced
  have failure := h.failure steps unrefused mem token succeed
  have parent : σ.store.Parent g.token (tokens i) := token ▸ (h.parent i).mono steps.ages
  refine Bool.eq_false_iff.mpr fun cancelled => ?_
  have above := traced.group discreet.steps mem failure
    (traced.task discreet.steps whole mem held parent cancelled)
  exact Bool.false_ne_true (clear.symm.trans above)

end Opening

/-! ## The loop that waits for a group -/

/-- The strand of a loop that waits for a group. -/
inductive AtGroup (loop : Loop) (g : Group) : Strand.State → Prop
  | waiting : AtGroup loop g (.waiting (.gathering loop g))
  | resumed : AtGroup loop g (.running ⟨.resume (.gathering loop g), []⟩)
  | parks : AtGroup loop g (.running ⟨.park (.gathering loop g), []⟩)

namespace AtGroup

variable {s s' : Store} {loop : Loop} {g : Group} {state : Strand.State} {run : TokenId}
  {role : Strand.Role} {μ' : Strand} {begun : Multiset Strand} {marks : List Moment}

theorem posts (h : AtGroup loop g state) :
    (⟨run, role, state⟩ : Strand).posts = {loop.at .outer (.gathering g)} := by
  cases h <;> simp [Strand.posts, Segment.posts]

theorem owned (h : AtGroup loop g state) {t : TokenId}
    (owns : Strand.Owns {⟨run, role, state⟩} t) : t = loop.env.token ∨ t = g.token := by
  obtain ⟨ν, mem, p, inside, own⟩ := owns
  obtain rfl := Multiset.mem_singleton.mp mem
  rw [h.posts] at inside
  obtain rfl := Multiset.mem_singleton.mp inside
  simpa [Post.owned, Loop.at, Post.token, Fiber.token] using own

theorem mem_fibers (h : AtGroup loop g state) :
    ⟨loop, .gathering g⟩ ∈ Post.fibers (⟨run, role, state⟩ : Strand).posts :=
  Post.mem_fibers.mpr ⟨.outer, h.posts.symm ▸ Multiset.mem_singleton_self _⟩

/-- A loop that waits for a group cancels the group at most, and begins nothing. -/
theorem goes (h : AtGroup loop g state) (goes : Strand.Goes s ⟨run, role, state⟩ s' μ' begun marks)
    (listed : s.Listed) : begun = 0 ∧ s'.face = s.face ∧
      (∀ t < g.token, s'.isCancelled t = s.isCancelled t) ∧
      ((∃ g' state', μ' = ⟨run, role, state'⟩ ∧ AtGroup loop g' state' ∧ g'.token = g.token) ∨
        (∃ x, μ' = ⟨run, role, .running ⟨.unwind loop x, []⟩⟩) ∨
        ∃ f, μ' = ⟨run, role, .faulted f⟩) := by
  cases h with
  | waiting =>
    cases goes with
    | report run t result came h => cases h
    | poll => exact ⟨rfl, rfl, fun _ _ => rfl, .inl ⟨g, _, rfl, .resumed, rfl⟩⟩
  | parks =>
    cases goes with
    | report run t result came h => cases h
    | @turn _ _ _ worker es new trace spawned =>
      have none : s.spawned = new ++ s.spawned := spawned
      obtain rfl : new = [] := List.self_eq_append_left.mp none
      exact ⟨rfl, rfl, fun _ _ => rfl, .inl ⟨g, _, rfl, .waiting, rfl⟩⟩
  | resumed =>
    cases goes with
    | report run t result came h => cases h
    | @turn _ _ _ worker es new trace spawned =>
      have unmarked := Machine.gather_unmarked g (Machine.endedOperands g s) s
      have face := Machine.face_gather g (Machine.endedOperands g s) s
      have older := fun t (lt : t < g.token) =>
        Machine.isCancelled_gather_of_lt g (Machine.endedOperands g s) listed lt
      simp only [Config.step, Machine.resumeStep] at spawned ⊢
      generalize found : Machine.gather g (Machine.endedOperands g s) s = r
        at spawned unmarked face older ⊢
      obtain ⟨f | g', s₁⟩ := r
      · have none : s.spawned = new ++ s.spawned := unmarked.spawned.symm.trans spawned
        obtain rfl : new = [] := List.self_eq_append_left.mp none
        exact ⟨rfl, face, older, .inr (.inr ⟨f, rfl⟩)⟩
      · have token := (Machine.gather_advances (congrArg Prod.fst found)).1
        dsimp only at spawned ⊢
        cases empty : g'.pending.isEmpty with
        | true =>
          rw [empty] at spawned
          have none : s.spawned = new ++ s.spawned := unmarked.spawned.symm.trans spawned
          obtain rfl : new = [] := List.self_eq_append_left.mp none
          rw [if_pos rfl]
          exact ⟨rfl, face, older, .inr (.inl ⟨g'.exit, rfl⟩)⟩
        | false =>
          rw [empty] at spawned
          have watched := s₁.same_watchTasks g'.pending worker.task
          have none : s.spawned = new ++ s.spawned :=
            unmarked.spawned.symm.trans (watched.spawned.symm.trans spawned)
          obtain rfl : new = [] := List.self_eq_append_left.mp none
          rw [if_neg Bool.false_ne_true]
          refine ⟨rfl, (s₁.face_watchTasks _ _).trans face, fun t lt => ?_,
            .inl ⟨g', _, rfl, .parks, token⟩⟩
          refine Eq.trans ?_ (older t lt)
          exact congrArg (Forest.isCancelled · t) watched.tokens

end AtGroup

end EffectFibers
