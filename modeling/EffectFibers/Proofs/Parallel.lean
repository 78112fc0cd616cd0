import EffectFibers.Proofs.Reach

/-!
# The result of a parallel group

From the moment at which a loop begins a group, the loop that waits for the group has a right
account of it (`Group.Tally`): it is the one kept by the steps in which the loop gathers what has
ended, and the exits of tasks stay what they are.  So the exit of the group is what the exits of
its operands make of it, in whatever order the operands have ended.

## Main statements

* `Runtime.Step.group_origin`: where a loop that waits for a group comes from.
* `Runtime.Steps.tallied`: the account of a group is right at any time.
* `Runtime.Reachable.parallel_law`: the result of a group, and when it cancels its operands.
-/

namespace EffectFibers.Runtime

variable {σ σ' σ₁ σ₂ σ₃ : Runtime} {run k : TokenId} {loop : Loop} {g g' g₀ : Group} {t : TaskId}
  {x : Exit} {operands : List (Nat × TaskId)}

/-! ## Where groups come from -/

/-- Where a loop that waits for a group comes from: it has waited before, it has gathered what
had ended, or it has begun the group. -/
inductive GroupOrigin (σ σ' : Runtime) (run : TokenId) (loop : Loop) (g' : Group) : Prop
  | old (mem : (run, ⟨loop, .gathering g'⟩) ∈ σ.crew)
  | gathered {g : Group} {s₁ : Store} (mem : (run, ⟨loop, .gathering g⟩) ∈ σ.crew)
      (ok : Machine.gather g (Machine.endedOperands g σ.store) σ.store = (.ok g', s₁))
  | opened {n : Nat} {operands : Fin n → Effect} {new : List Spawn}
      (mem : (run, ⟨loop, .evaluating (.parallel n operands)⟩) ∈ σ.crew)
      (opened : g'.Opened σ.store σ'.store loop.env operands new)
      (tasks : Company.ofSpawns run new ⊆ σ'.companies)

theorem Step.group_origin (step : Step σ σ') (mem : (run, ⟨loop, .gathering g'⟩) ∈ σ'.crew) :
    GroupOrigin σ σ' run loop g' := by
  obtain ⟨κ, inCompanies, rfl, l, inside⟩ := mem_crew_iff.mp mem
  obtain ⟨loop₀, effect, same⟩ | ⟨B, ms, new, acting, motion, tasks⟩ :=
    step.advance.berth inCompanies inside
  · cases same
  have crew : ∀ {l : Room} {φ : Fiber}, ⟨l, .fiber φ⟩ ∈ B → (κ.run, φ) ∈ σ.crew := fun inside =>
    mem_crew_iff.mpr ⟨_, acting, rfl, _, inside⟩
  generalize κ.berths = B' at motion inside
  cases motion with
  | idle => exact .old (crew inside)
  | @act _ φ _ _ nested _ _ step deed newborn =>
    obtain same | inside := Multiset.mem_cons.mp inside
    · cases same
      cases deed with
      | plain plain =>
        obtain ⟨loop₀, doing⟩ := φ
        cases doing <;> cases plain
      | gather ok => exact .gathered (crew (Multiset.mem_cons_self _ _)) ok
    · obtain inside | inside := Multiset.mem_add.mp inside
      · obtain ⟨env, effect, piece⟩ := (newborn _ inside).loop
        cases piece
      · exact .old (crew (Multiset.mem_cons_of_mem inside))
  | fan opened =>
    obtain same | inside := Multiset.mem_cons.mp inside
    · cases same
      exact .opened (crew (Multiset.mem_cons_self _ _)) opened tasks
    · exact .old (crew (Multiset.mem_cons_of_mem inside))
  | sent =>
    obtain same | inside := Multiset.mem_cons.mp inside
    · cases same
    · exact .old (crew (Multiset.mem_cons_of_mem inside))
  | back | left => exact .old (crew (Multiset.mem_cons_of_mem inside))

/-! ## The account over time -/

theorem Step.exit? (h : σ.Booked) (step : Step σ σ') (ended : σ.store.exit? t = some x) :
    σ'.store.exit? t = some x := by
  obtain ⟨joined, found, exit⟩ := Option.bind_eq_some_iff.mp ended
  rw [Store.exit?, step.joined? h found]
  exact exit

theorem Steps.joined? (h : Reachable σ) (steps : Steps σ σ') {result : Joined}
    (found : σ.store.joined? t = some result) : σ'.store.joined? t = some result := by
  induction steps with
  | refl => exact found
  | tail steps step ih => exact Step.joined? (Reachable.booked (.trans h steps)) step ih

/-- Whoever waits for the group of a token has a right account of it. -/
def Tallied (σ : Runtime) (token : TokenId) (operands : List (Nat × TaskId)) : Prop :=
  ∀ run loop g, (run, ⟨loop, .gathering g⟩) ∈ σ.crew → g.token = token →
    g.Tally σ.store operands

theorem linked_group (h : σ.Kindred) (mem : (run, ⟨loop, .gathering g⟩) ∈ σ.crew) :
    σ.store.Parent loop.env.token g.token ∧ (g.pending.map Prod.fst).Nodup := by
  obtain ⟨π, inParties, -, l, inside⟩ := mem_crew.mp mem
  exact (h.linked π inParties _ inside).group loop g rfl

/-- Gathering what has ended keeps the account of a group right. -/
theorem Tallied.gather {s₁ : Store} (h : σ.Tallied k operands) (kindred : σ.Kindred)
    (distinct : (operands.map Prod.fst).Nodup) (mem : (run, ⟨loop, .gathering g⟩) ∈ σ.crew)
    (ok : Machine.gather g (Machine.endedOperands g σ.store) σ.store = (.ok g', s₁))
    (token : g.token = k) : g'.Tally σ.store operands :=
  Machine.gather_tally ok (h run loop g mem token) distinct
    (Machine.nodup_endedOperands (linked_group kindred mem).2) fun _ ended =>
      Machine.mem_endedOperands ended

theorem Step.tallied (h : σ.Tallied k operands) (reach : Reachable σ)
    (known : k < σ.store.size) (distinct : (operands.map Prod.fst).Nodup) (step : Step σ σ') :
    σ'.Tallied k operands := by
  intro run loop g' mem token
  have kept : ∀ t x, σ.store.exit? t = some x → σ'.store.exit? t = some x := fun _ _ =>
    step.exit? reach.booked
  cases step.group_origin mem with
  | old mem => exact (h run loop g' mem token).later kept
  | gathered mem ok =>
    have same := (Machine.gather_advances (congrArg Prod.fst ok)).1
    exact (h.gather reach.kindred distinct mem ok (same.symm.trans token)).later kept
  | opened mem opened =>
    exact (Nat.not_lt.mpr opened.begun.token.le (token ▸ known)).elim

theorem Steps.tallied (h : σ.Tallied k operands) (reach : Reachable σ)
    (known : k < σ.store.size) (distinct : (operands.map Prod.fst).Nodup) (steps : Steps σ σ') :
    σ'.Tallied k operands := by
  induction steps with
  | refl => exact h
  | tail steps step ih =>
    exact Step.tallied ih (.trans reach steps) (Nat.lt_of_lt_of_le known (Steps.ages steps).size)
      distinct step

/-! ## Operands -/

/-- A strand stays a strand of its run and its task. -/
theorem Step.strand (step : Step σ σ') {τ : Strand} (mem : τ ∈ σ.strands) :
    ∃ τ' ∈ σ'.strands, τ'.run = τ.run ∧ τ'.role = τ.role := by
  have head : ∀ {run : TokenId} {role : Strand.Role} {state state' : Strand.State}
      {new rest : Multiset Strand}, τ ∈ (⟨run, role, state⟩ ::ₘ rest : Multiset Strand) →
      ∃ τ' ∈ (⟨run, role, state'⟩ ::ₘ (new + rest) : Multiset Strand),
        τ'.run = τ.run ∧ τ'.role = τ.role := fun mem => by
    obtain rfl | mem := Multiset.mem_cons.mp mem
    · exact ⟨_, Multiset.mem_cons_self _ _, rfl, rfl⟩
    · exact ⟨τ, by simp [mem], rfl, rfl⟩
  cases step with
  | begin | beginBelow => exact ⟨τ, Multiset.mem_cons_of_mem mem, rfl, rfl⟩
  | poll s rest log run role segment => exact zero_add rest ▸ head mem
  | turn s rest log run role c worker => exact head mem
  | giveUp s rest log r segment live unstarted =>
    obtain rfl | mem := Multiset.mem_cons.mp mem
    · refine ⟨_, Multiset.mem_cons_self _ _, ?_⟩
      unfold Strand.remainder
      split <;> exact ⟨rfl, rfl⟩
    · exact ⟨τ, Multiset.mem_cons_of_mem mem, rfl, rfl⟩
  | report | cancel | fresh | child | prune | outside => exact ⟨τ, mem, rfl, rfl⟩

theorem Steps.strand (steps : Steps σ σ') {τ : Strand} (mem : τ ∈ σ.strands) :
    ∃ τ' ∈ σ'.strands, τ'.run = τ.run ∧ τ'.role = τ.role := by
  induction steps with
  | refl => exact ⟨τ, mem, rfl, rfl⟩
  | tail steps step ih =>
    obtain ⟨τ', mem', run, role⟩ := ih
    obtain ⟨τ'', mem'', run', role'⟩ := Step.strand step mem'
    exact ⟨τ'', mem'', run'.trans run, role'.trans role⟩

/-- An operand has ended: its task has, or the task was refused by a closed context. -/
def Came (σ : Runtime) (run : TokenId) (t : TaskId) (x : Exit) : Prop :=
  ⟨run, .task t, .ended x⟩ ∈ σ.strands ∨ σ.store.joined? t = some .aborted ∧ x = .canceled

/-- The exit that is joined is that with which the strand of the task has ended. -/
theorem Booked.came (h : σ.Booked) {state : Strand.State}
    (mem : ⟨run, .task t, state⟩ ∈ σ.strands) (ended : σ.store.exit? t = some x) :
    σ.Came run t x := by
  obtain ⟨joined, found, exit⟩ := Option.bind_eq_some_iff.mp ended
  have came := h.results _ mem t rfl joined found
  cases state with
  | waiting | running | dropped => cases came
  | ended y =>
    cases came
    cases exit
    exact .inl mem
  | faulted f =>
    cases came
    cases exit

/-- An operand of a group begins as a task, under a token derived from that of the group, unless
the context is closed. -/
def Began (σ : Runtime) (run : TokenId) (env : Env) (group : TokenId) (effect : Effect)
    (t : TaskId) : Prop :=
  σ.store.joined? t = some .aborted ∨ ∃ token, σ.store.Parent group token ∧
    ⟨run, .task t, {Loop.berth ⟨env.withToken token, []⟩ .outer (.evaluating effect)}⟩
      ∈ σ.companies

theorem Step.group_opened (h : Reachable σ) (step : Step σ σ₁) {n : Nat}
    {operands : Fin n → Effect} (mem : (run, ⟨loop, .evaluating (.parallel n operands)⟩) ∈ σ.crew)
    (mem₁ : (run, ⟨loop, .gathering g₀⟩) ∈ σ₁.crew) :
    ∃ new, g₀.Opened σ.store σ₁.store loop.env operands new ∧
      Company.ofSpawns run new ⊆ σ₁.companies := by
  have unique : ∀ {φ : Fiber}, (run, φ) ∈ σ.crew → φ.token = loop.env.token →
      ⟨loop, .evaluating (.parallel n operands)⟩ = φ := fun other token =>
    congrArg Prod.snd (h.manned.unique mem other token.symm)
  cases step.group_origin mem₁ with
  | old other | gathered other => cases unique other rfl
  | @opened n' operands' new other opened tasks =>
    cases unique other rfl
    exact ⟨new, opened, tasks⟩

theorem began_of_opened {n : Nat} {operands : Fin n → Effect} {new : List Spawn}
    (h : g₀.Opened σ.store σ₁.store loop.env operands new)
    (tasks : Company.ofSpawns run new ⊆ σ₁.companies) {i : Nat} (mem : (i, t) ∈ g₀.pending) :
    σ₁.Began run loop.env g₀.token (Machine.operandAt operands i) t := by
  refine (h.tasks _ mem).imp_right fun ⟨token, derived, started⟩ => ?_
  obtain ⟨env, effect, segment, within, -⟩ := h.begun.operands _ started
  cases segment
  refine ⟨token, ⟨derived, within.le⟩, tasks (Company.mem_ofSpawns.mpr ⟨_, started, nofun, ?_⟩)⟩
  rw [Spawn.berths_of_segment? rfl]

/-- The outermost loop of a task has the token `c`. -/
def Leads (σ : Runtime) (t : TaskId) (c : TokenId) : Prop :=
  ∀ π ∈ σ.parties, π.role = .task t → ∀ p ∈ π.posts, p.link = .outer → p.token = c

theorem Step.leads {c : TokenId} (h : σ.Leads t c) (known : t < σ.store.joins.size)
    (step : Step σ σ') : σ'.Leads t c := by
  intro π mem role p inside link
  cases step.turnover with
  | idle parties => exact h π (parties ▸ mem) role p inside link
  | @act run role' P P' ms new rest reaction numbered tasks parties parties' =>
    have acting : ⟨run, role', P⟩ ∈ σ.parties := parties ▸ Multiset.mem_cons_self _ _
    rw [parties'] at mem
    obtain rfl | mem := Multiset.mem_cons.mp mem
    · obtain ⟨p₀, inside₀, link₀, same⟩ := reaction.outer inside link
      exact same.symm.trans (h _ acting role p₀ inside₀ link₀)
    · obtain mem | mem := Multiset.mem_add.mp mem
      · obtain ⟨x, started, -, rfl⟩ := mem_ofSpawns.mp mem
        cases role
        exact (Nat.not_lt.mpr (tasks x started).le known).elim
      · exact h π (parties ▸ Multiset.mem_cons_of_mem mem) role p inside link
  | lose failed marks parties parties' =>
    rw [parties'] at mem
    obtain rfl | mem := Multiset.mem_cons.mp mem
    · cases inside
    · exact h π (parties ▸ Multiset.mem_cons_of_mem mem) role p inside link
  | begin fresh parties' =>
    rw [parties'] at mem
    obtain rfl | mem := Multiset.mem_cons.mp mem
    · cases role
    · exact h π mem role p inside link

theorem Steps.leads {c : TokenId} (h : σ.Leads t c) (reach : Reachable σ) {τ : Strand}
    (mem : τ ∈ σ.strands) (task : τ.task? = some t) (steps : Steps σ σ') : σ'.Leads t c := by
  induction steps with
  | refl => exact h
  | tail steps step ih =>
    obtain ⟨τ', mem', -, role⟩ := Steps.strand steps mem
    have task' : τ'.task? = some t := by rw [Strand.task?, role]; exact task
    exact Step.leads ih ((Reachable.booked (.trans reach steps)).known τ' mem' t task') step

/-- A task that begins with one loop is led by that loop. -/
theorem leads_of_started (h : σ.Booked) {env : Env} {effect : Effect}
    (started : ⟨run, .task t, {Loop.berth ⟨env, []⟩ .outer (.evaluating effect)}⟩ ∈ σ.companies) :
    σ.Leads t env.token ∧ ∃ τ ∈ σ.strands, τ.task? = some t ∧ τ.berths ≠ 0 := by
  obtain ⟨τ, inStrands, same⟩ := Multiset.mem_map.mp started
  have task : τ.task? = some t := by
    simp [Strand.task?, show τ.role = .task t from congrArg Company.role same]
  have berths : τ.berths = {Loop.berth ⟨env, []⟩ .outer (.evaluating effect)} :=
    congrArg Company.berths same
  refine ⟨fun π mem role p inside link => ?_, τ, inStrands, task, by simp [berths]⟩
  obtain ⟨τ', inStrands', rfl⟩ := Multiset.mem_map.mp mem
  have task' : τ'.task? = some t := by simp [Strand.task?, show τ'.role = .task t from role]
  obtain rfl := h.unique inStrands inStrands' task task'
  rw [← Strand.party_company, same] at inside
  obtain rfl := Multiset.mem_singleton.mp inside
  rfl

/-- The outermost loop of an operand has a token below that of the group. -/
theorem Began.leads {env : Env} {effect : Effect} (h : σ.Began run env k effect t)
    (reach : Reachable σ) (steps : Steps σ σ') {κ : Company} (mem : κ ∈ σ'.companies)
    (role : κ.role = .task t) {b : Berth} (inside : b ∈ κ.berths) (outer : b.room = .outer) :
    σ'.store.Below k b.token := by
  have inParties : κ.party ∈ σ'.parties := mem_parties.mpr ⟨κ, mem, rfl⟩
  have post : b.post ∈ κ.party.posts := Multiset.mem_map_of_mem Berth.post inside
  obtain aborted | ⟨c, parent, started⟩ := h
  · have alive : κ.party.posts ≠ 0 := fun none => by simp [none] at post
    have none := ((Reachable.booked (.trans reach steps)).party inParties role).2 alive
    simp [steps.joined? reach aborted] at none
  · obtain ⟨leads, τ, inStrands, task, -⟩ := leads_of_started reach.booked started
    have link : b.post.link = .outer := by rw [Berth.post, outer]; rfl
    have token : b.token = c :=
      Steps.leads leads reach inStrands task steps _ inParties role _ post link
    exact token ▸ .single (parent.mono steps.ages)

/-- An operand that has ended for whoever joins it has come to that exit. -/
theorem Began.came {env : Env} {effect : Effect} (h : σ.Began run env k effect t)
    (reach : Reachable σ) (steps : Steps σ σ') (ended : σ'.store.exit? t = some x) :
    σ'.Came run t x := by
  obtain aborted | ⟨c, parent, started⟩ := h
  · have aborted' := steps.joined? reach aborted
    refine .inr ⟨aborted', ?_⟩
    exact Option.some.inj (ended.symm.trans (Store.exit?_of_joined aborted' rfl))
  · obtain ⟨τ, inStrands, same⟩ := Multiset.mem_map.mp started
    obtain ⟨⟨run', role', state⟩, inStrands', run, role⟩ := steps.strand inStrands
    obtain rfl : run' = _ := run.trans (congrArg Company.run same)
    obtain rfl : role' = .task t := role.trans (congrArg Company.role same)
    exact (Reachable.booked (.trans reach steps)).came inStrands' ended

/-- Whoever joins an operand that has ended gets its exit. -/
theorem Came.joined {y : Exit} (came : σ.Came run t x) (booked : σ.Booked)
    (ended : σ.store.exit? t = some y) : x = y := by
  obtain ⟨joined, found, exit⟩ := Option.bind_eq_some_iff.mp ended
  obtain inStrands | ⟨aborted, rfl⟩ := came
  · have came := booked.results _ inStrands t rfl joined found
    cases came
    exact Option.some.inj exit
  · cases aborted.symm.trans found
    exact Option.some.inj exit

/-! ## The law -/

/-- What a step means for a group with the given tasks in which the loop that waits for it goes on
from the group `g` to the fiber `φ`. -/
structure Collects (σ σ' : Runtime) (run : TokenId) {n : Nat} (tasks : Fin n → TaskId)
    (loop : Loop) (g : Group) (φ : Fiber) : Prop where
  /-- The group has failed once it has taken the failure of an operand into account. -/
  account : g.failure = none ↔
    ∀ i e, σ.Came run (tasks i) (.errored e) → (i.val, tasks i) ∈ g.pending
  /-- Every operand has ended when the group delivers, and their exits determine that of the
  group, whatever the order in which they have ended. -/
  result : ∀ x, φ.doing = .unwinding x → ∃ xs : Fin n → Exit,
    (∀ i, σ.Came run (tasks i) (xs i)) ∧ Exit.Together (List.ofFn xs) x ∧
      ∀ y, Exit.Together (List.ofFn xs) y → y = x
  /-- The group delivers as soon as it is polled after every operand has ended. -/
  delivers : (∀ i, ∃ x, σ.store.exit? (tasks i) = some x) → ∀ worker callers, ∃ x s,
    Machine.resumeStep worker callers σ.store (.gathering loop g)
      = (Machine.unwind loop x callers, s)
  /-- The first failure cancels the group, with every operand that still runs. -/
  first : g.Fails φ → ¬ σ.Failed run → Strikes σ σ' run g.token ∧
    ∀ i, ∀ κ ∈ σ.companies, κ.run = run → κ.role = .task (tasks i) →
      ∀ b ∈ κ.berths, b.room = .outer → σ'.store.isCancelled b.token = true
  /-- Nothing else is cancelled. -/
  calm : ¬ g.Fails φ → φ.doing ≠ .gathering g → σ'.store.tokens = σ.store.tokens

section

variable {n : Nat} {tasks : Fin n → TaskId}

/-- The tasks of a group, each with the index of its operand. -/
def roster (tasks : Fin n → TaskId) : List (Nat × TaskId) := List.ofFn fun i => (i.val, tasks i)

theorem mem_roster {y : Nat × TaskId} : y ∈ roster tasks ↔ ∃ i : Fin n, (i.val, tasks i) = y :=
  List.mem_ofFn

theorem map_roster : (roster tasks).map Prod.fst = List.range (roster tasks).length := by
  refine List.ext_getElem (by simp) fun i lt lt' => ?_
  simp [roster]

theorem exists_roster {s s' : Store} {env : Env} {operands : Fin n → Effect} {new : List Spawn}
    (h : g₀.Opened s s' env operands new) :
    ∃ tasks : Fin n → TaskId, g₀.pending = roster tasks := by
  have length : g₀.pending.length = n := by
    have same := congrArg List.length h.indices
    simpa using same
  refine ⟨fun i => g₀.pending[i].2, ?_⟩
  refine List.ext_getElem (by simp [roster, length]) fun i lt lt' => ?_
  have index : (g₀.pending.map Prod.fst)[i]? = some i := by
    rw [h.indices]
    exact List.getElem?_range (length ▸ lt)
  have first : g₀.pending[i].1 = i := by simpa [lt] using index
  simp only [roster, List.getElem_ofFn]
  exact Prod.ext first rfl

/-- The loop that begins a group has a right account of it. -/
theorem tallied_of_opened {s : Store} {operands : Fin n → Effect} {new : List Spawn}
    (h : Reachable σ) (opened : g₀.Opened s σ.store loop.env operands new)
    (mem : (run, ⟨loop, .gathering g₀⟩) ∈ σ.crew) : σ.Tallied g₀.token g₀.pending := by
  intro run' loop' g other token
  obtain ⟨parent', -⟩ := linked_group h.kindred other
  obtain ⟨parent, -⟩ := linked_group h.kindred mem
  have owner := h.kindred.family.unique _ _ _ parent'.derived (token ▸ parent.derived)
  cases h.manned.unique other mem owner
  have blank : Group.Tally σ.store g₀.pending { token := g₀.token, pending := g₀.pending } := .blank
  rwa [← opened.blank] at blank

/-- The exit of a group that waits for no operand. -/
theorem result_of_tally {s : Store} (tally : g.Tally s (roster tasks)) (none : g.pending = []) :
    ∃ xs : Fin n → Exit, (∀ i, s.exit? (tasks i) = some (xs i)) ∧
      Exit.Together (List.ofFn xs) g.exit := by
  obtain ⟨xs, exits, together⟩ := tally.together map_roster none
  have length : xs.length = n := by
    have same := congrArg List.length exits
    simpa [roster] using same.symm
  obtain ⟨ys, rfl⟩ : ∃ ys : Fin n → Exit, List.ofFn ys = xs := by
    subst length
    exact ⟨xs.get, List.ofFn_get xs⟩
  rw [roster, List.map_ofFn, List.map_ofFn] at exits
  exact ⟨ys, congrFun (List.ofFn_injective exits), together⟩

end

/-- A group begins one task for each operand, and the loop that begins it has a right account of
them. -/
theorem Step.group_begins (h : Reachable σ) (begins : Step σ σ₁) {n : Nat}
    {operands : Fin n → Effect} (mem : (run, ⟨loop, .evaluating (.parallel n operands)⟩) ∈ σ.crew)
    (mem₁ : (run, ⟨loop, .gathering g₀⟩) ∈ σ₁.crew) : ∃ tasks : Fin n → TaskId,
      (∀ i, σ₁.Began run loop.env g₀.token (operands i) (tasks i)) ∧
      ((roster tasks).map Prod.fst).Nodup ∧ g₀.token < σ₁.store.size ∧
      σ₁.Tallied g₀.token (roster tasks) := by
  obtain ⟨new, opened, started⟩ := begins.group_opened h mem mem₁
  obtain ⟨tasks, pending⟩ := exists_roster opened
  refine ⟨tasks, fun i => ?_, pending ▸ opened.begun.indices, opened.begun.token.lt,
    pending ▸ tallied_of_opened (.tail h begins) opened mem₁⟩
  have inside : (i.val, tasks i) ∈ g₀.pending := pending ▸ mem_roster.mpr ⟨i, rfl⟩
  have began := began_of_opened opened started inside
  rwa [Machine.operandAt, dif_pos i.isLt] at began

end EffectFibers.Runtime
