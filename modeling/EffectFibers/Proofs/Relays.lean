import EffectFibers.Proofs.Ledger
import EffectFibers.Proofs.Solitude

/-!
# Runs that shift are relays

A run that shifts is a row of strands: each waits for the next one, and only the last one acts.
Together they stand where one loop would stand that never shifts (`Relay`), with the callers of all
of them.  A step of the row is a stride of that loop, or nothing that can be seen; and the row can
always make the next stride.

## Main definitions

* `Relay`: the row of strands stands where one loop would.

## Main statements

* `Relay.step`, `Relay.next`: the row does what the loop does.
* `Relay.resolves`, `Relay.resolved`: the row comes to what the loop comes to.
-/

namespace EffectFibers

/-! ## Rows of strands -/

/-- What whoever waits for a strand is told. -/
def Standing.joined? : Standing → Option Joined
  | .stands ⟨.leave x, []⟩ => some (.ended x)
  | .faulted f => some (.faulted f)
  | _ => none

/-- A strand as the row sees it. -/
def Strand.place (τ : Strand) : Strand.Role × Standing := (τ.role, τ.state.standing)

namespace Relay

/-- The strands that wait, one for the next, the last of them first, with all their callers and
with the tasks that they wait for. -/
inductive Path : List (Strand.Role × Standing) → Strand.Role → List Caller → List TaskId → Prop
  | root : Path [] .root [] []
  | away {behind : List (Strand.Role × Standing)} {role : Strand.Role} {own callers : List Caller}
      {tasks : List TaskId} (env : Env) (t : TaskId) (single : ∀ k ∈ own, k.Single)
      (before : Path behind role callers tasks) (distinct : t ∉ tasks) :
      Path ((role, .stands ⟨.resume (.shifted env t), own⟩) :: behind) (.task t) (own ++ callers)
        (t :: tasks)

variable {behind : List (Strand.Role × Standing)} {role : Strand.Role} {callers : List Caller}
  {tasks : List TaskId} {t : TaskId}

theorem Path.waits (h : Path behind role callers tasks) {p : Strand.Role × Standing}
    (mem : p ∈ behind) : ∃ env, ∃ t ∈ tasks, ∃ own, p.2 = .stands ⟨.resume (.shifted env t), own⟩ ∧
      ∀ k ∈ own, k.Single := by
  induction h with
  | root => cases mem
  | away env t single before distinct ih =>
    obtain rfl | mem := List.mem_cons.mp mem
    · exact ⟨env, t, List.mem_cons_self .., _, rfl, single⟩
    · obtain ⟨env, t, there, rest⟩ := ih mem
      exact ⟨env, t, List.mem_cons_of_mem _ there, rest⟩

theorem Path.mem (h : Path behind (.task t) callers tasks) : t ∈ tasks := by
  cases h with
  | away => exact List.mem_cons_self ..

/-- A task that is waited for is one of the strands. -/
theorem Path.carried (h : Path behind role callers tasks) (mem : t ∈ tasks) :
    role = .task t ∨ ∃ p ∈ behind, p.1 = .task t := by
  induction h with
  | root => cases mem
  | away env u single before distinct ih =>
    obtain rfl | mem := List.mem_cons.mp mem
    · exact .inl rfl
    · obtain same | ⟨p, there, same⟩ := ih mem
      · exact .inr ⟨_, List.mem_cons_self .., same⟩
      · exact .inr ⟨p, List.mem_cons_of_mem _ there, same⟩

/-- What is there beside the strand that acts: the ones that wait, and what is left of the ones that
are through. -/
structure Behind (s : Store) (rest : Multiset Strand) (role : Strand.Role) (callers : List Caller)
    (own : Standing) (behind : List (Strand.Role × Standing)) (tasks : List TaskId)
    (through : Multiset (Strand.Role × Standing)) : Prop where
  path : Path behind role callers tasks
  others : rest.map Strand.place = behind + through
  awaited : ∀ t ∈ tasks, t < s.joins.size ∧
    (s.joined? t = none ∨ role = .task t ∧ s.joined? t = own.joined?)
  through : ∀ p ∈ through, p.2.joined? ≠ none ∧ ∃ t < s.joins.size, p.1 = .task t ∧ t ∉ tasks

end Relay

open Relay

/-- The strands stand where one loop would stand that never shifts. -/
inductive Relay (σ : Runtime) (st : Standing) : Prop
  | mk (τ : Strand) (rest : Multiset Strand) (callers : List Caller)
      (behind : List (Strand.Role × Standing)) (tasks : List TaskId)
      (through : Multiset (Strand.Role × Standing)) (strands : σ.strands = τ ::ₘ rest)
      (h : Behind σ.store rest τ.role callers τ.state.standing behind tasks through)
      (same : st = τ.state.standing.below callers)

namespace Relay

variable {s s' : Store} {rest : Multiset Strand} {role : Strand.Role} {callers : List Caller}
  {own own' : Standing} {behind : List (Strand.Role × Standing)} {tasks : List TaskId}
  {through : Multiset (Strand.Role × Standing)} {τ τ' : Strand} {st : Standing} {σ σ' : Runtime}
  {log log' : List Moment} {t : TaskId}

theorem Behind.mono (h : Behind s rest role callers own behind tasks through)
    (size : s.joins.size ≤ s'.joins.size) (joined : ∀ t ∈ tasks, s'.joined? t = s.joined? t)
    (still : own.joined? = none ∨ own' = own) :
    Behind s' rest role callers own' behind tasks through where
  path := h.path
  others := h.others
  awaited t mem := by
    obtain ⟨lt, waits⟩ := h.awaited t mem
    refine ⟨Nat.lt_of_lt_of_le lt size, ?_⟩
    rw [joined t mem]
    obtain none | ⟨same, some⟩ := waits
    · exact .inl none
    · obtain none | rfl := still
      · exact .inl (some.trans none)
      · exact .inr ⟨same, some⟩
  through p mem := by
    obtain ⟨ended, t, lt, rest⟩ := h.through p mem
    exact ⟨ended, t, Nat.lt_of_lt_of_le lt size, rest⟩

theorem Behind.swap (h : Behind s (τ ::ₘ rest) role callers own behind tasks through)
    (place : τ'.place = τ.place) :
    Behind s (τ' ::ₘ rest) role callers own behind tasks through where
  path := h.path
  others := by rw [Multiset.map_cons, place, ← Multiset.map_cons, h.others]
  awaited := h.awaited
  through := h.through

/-- One strand of the row is the one that acts, or it waits, or is through. -/
theorem locate (h : Relay σ st) (strands : σ.strands = τ ::ₘ rest) :
    (∃ callers behind tasks through,
      Behind σ.store rest τ.role callers τ.state.standing behind tasks through ∧
        st = τ.state.standing.below callers) ∨
    ∃ τ₀ rest₀ callers behind tasks through, rest = τ₀ ::ₘ rest₀ ∧
      Behind σ.store (τ ::ₘ rest₀) τ₀.role callers τ₀.state.standing behind tasks through ∧
        st = τ₀.state.standing.below callers := by
  obtain ⟨τ₀, rest₀, callers, behind, tasks, through, strands₀, row, same⟩ := h
  obtain ⟨rfl, rfl⟩ | ⟨-, others, rfl, rfl⟩ := Multiset.cons_eq_cons.mp (strands.symm.trans strands₀)
  · exact .inl ⟨callers, behind, tasks, through, row, same⟩
  · exact .inr ⟨τ₀, others, callers, behind, tasks, through, rfl, row, same⟩

/-- The strands beside the one that acts wait for others, or are through. -/
theorem Behind.beside (h : Behind s (τ ::ₘ rest) role callers own behind tasks through) :
    (∃ env, ∃ t ∈ tasks, ∃ own, τ.state.standing = .stands ⟨.resume (.shifted env t), own⟩ ∧
      (∀ k ∈ own, k.Single) ∧ τ.place ∈ behind) ∨
    τ.state.standing.joined? ≠ none ∧ ∃ t < s.joins.size, τ.role = .task t ∧ t ∉ tasks := by
  have mem : τ.place ∈ (behind : Multiset (Strand.Role × Standing)) + through := by
    rw [← h.others, Multiset.map_cons]
    exact Multiset.mem_cons_self _ _
  obtain mem | mem := Multiset.mem_add.mp mem
  · obtain ⟨env, t, there, own, same, single⟩ := h.path.waits mem
    exact .inl ⟨env, t, there, own, same, single, mem⟩
  · exact .inr (h.through _ mem)

/-- A strand may be put for another one in the same place, and tasks may begin. -/
theorem regrip (h : Relay ⟨s, τ ::ₘ rest, log⟩ st) (place : τ'.place = τ.place)
    (size : s.joins.size ≤ s'.joins.size) (joined : ∀ t < s.joins.size, s'.joined? t = s.joined? t) :
    Relay ⟨s', τ' ::ₘ rest, log'⟩ st := by
  have role : τ'.role = τ.role := congrArg Prod.fst place
  have standing : τ'.state.standing = τ.state.standing := congrArg Prod.snd place
  obtain ⟨callers, behind, tasks, through, row, same⟩ |
    ⟨τ₀, rest₀, callers, behind, tasks, through, rfl, row, same⟩ := h.locate rfl
  · refine ⟨τ', rest, callers, behind, tasks, through, rfl, ?_, standing ▸ same⟩
    rw [role, standing]
    exact row.mono size (fun t mem => joined t (row.awaited t mem).1) (.inr rfl)
  · exact ⟨τ₀, τ' ::ₘ rest₀, callers, behind, tasks, through, Multiset.cons_swap _ _ _,
      (row.swap place).mono size (fun t mem => joined t (row.awaited t mem).1) (.inr rfl), same⟩

end Relay

/-! ## The steps of a row -/

theorem Standing.joined?_eq_some {st : Standing} {result : Joined} (h : st.joined? = some result) :
    (∃ x, st = .stands ⟨.leave x, []⟩ ∧ result = .ended x) ∨
    ∃ f, st = .faulted f ∧ result = .faulted f := by
  unfold Standing.joined? at h
  split at h
  · next x => cases h; exact .inl ⟨x, rfl, rfl⟩
  · next f => cases h; exact .inr ⟨f, rfl, rfl⟩
  · cases h

/-- A loop that has not ended has not with more callers behind. -/
theorem Config.unsettled_below {c : Config} (h : Standing.joined? (.stands c) = none)
    (cs : List Caller) : Standing.joined? (.stands (c.below cs)) = none := by
  obtain ⟨focus, callers⟩ := c
  cases focus with
  | leave x =>
    cases callers with
    | nil => cases h
    | cons => rfl
  | eval | unwind | resume | park => rfl

/-- What a strand has come to can be read off where it stands. -/
theorem Strand.State.joined?_standing {state : Strand.State} {result : Joined}
    (h : state.joined? = some result) : state.standing.joined? = some result := by
  cases state with
  | ended | faulted => exact h
  | waiting | running | dropped => cases h

theorem Strand.ofSpawns_quiet {run : TokenId} {new : List Spawn}
    (quiet : ∀ x ∈ new, x.segment? = none) : Strand.ofSpawns run new = 0 := by
  refine Multiset.eq_zero_of_forall_notMem fun τ mem => ?_
  obtain ⟨x, started, segment, some, -⟩ := Strand.mem_ofSpawns.mp mem
  rw [quiet x started] at some
  cases some

namespace Relay

variable {s : Store} {rest : Multiset Strand} {role : Strand.Role} {callers mine : List Caller}
  {own : Standing} {behind : List (Strand.Role × Standing)} {tasks : List TaskId}
  {through : Multiset (Strand.Role × Standing)} {τ τ₀ : Strand} {st : Standing}
  {σ σ' : Runtime} {log : List Moment} {env : Env} {t : TaskId}

/-- The last one that waits takes up what the strand that acts has come to, and is the one that
acts from then on. -/
theorem Behind.hand {result : Joined}
    (h : Behind s (τ ::ₘ rest) τ₀.role callers τ₀.state.standing behind tasks through)
    (waits : τ.state.standing = .stands ⟨.resume (.shifted env t), mine⟩)
    (found : s.joined? t = some result) :
    ∃ p callers' behind' tasks',
      (∀ worker, Config.step worker ⟨.resume (.shifted env t), mine⟩ s = (p, s)) ∧
      τ₀.state.standing.below callers = p.state.standing.below callers' ∧
      behind.length = behind'.length + 1 ∧
      ∀ own, Behind s (τ₀ ::ₘ rest) τ.role callers' own behind' tasks' (τ₀.place ::ₘ through) := by
  have mem : τ.place ∈ behind ∧ t ∈ tasks := by
    obtain ⟨env', t', there, own, same, -, mem⟩ | ⟨ended, -⟩ := h.beside
    · cases waits.symm.trans same
      exact ⟨mem, there⟩
    · rw [waits] at ended
      exact (ended rfl).elim
  obtain ⟨lt, none | ⟨role, came⟩⟩ := h.awaited t mem.2
  · cases none.symm.trans found
  have path := h.path
  rw [role] at path
  cases path with
  | @away behind' role' mine' callers' tasks' env' t single before distinct =>
    -- It is the last one of those that wait, because it waits for the last task.
    have last : τ.place = (role', .stands ⟨.resume (.shifted env' t), mine'⟩) := by
      obtain same | earlier := List.mem_cons.mp mem.1
      · exact same
      · obtain ⟨env'', t'', there, own, same, -⟩ := before.waits earlier
        cases waits.symm.trans same
        exact (distinct there).elim
    have role'' : τ.role = role' := congrArg Prod.fst last
    have same : τ.state.standing = _ := congrArg Prod.snd last
    cases waits.symm.trans same
    have others : rest.map Strand.place = behind' + through := by
      have all := h.others
      rw [Multiset.map_cons, last, ← Multiset.cons_coe, Multiset.cons_add] at all
      exact Multiset.cons_inj_right _ |>.mp all
    have behinds : ∀ own, Behind s (τ₀ ::ₘ rest) τ.role callers' own behind' tasks'
        (τ₀.place ::ₘ through) := fun own => by
      refine ⟨role'' ▸ before, ?_, fun u there => ?_, fun p mem => ?_⟩
      · rw [Multiset.map_cons, others, Multiset.add_cons]
      · obtain ⟨lt, none | ⟨other, -⟩⟩ := h.awaited u (List.mem_cons_of_mem _ there)
        · exact ⟨lt, .inl none⟩
        · cases role.symm.trans other
          exact (distinct there).elim
      · obtain rfl | mem := Multiset.mem_cons.mp mem
        · refine ⟨?_, t, lt, role, distinct⟩
          show τ₀.state.standing.joined? ≠ none
          rw [← came, found]
          exact Option.some_ne_none _
        · obtain ⟨ended, u, lt, task, apart⟩ := h.through p mem
          exact ⟨ended, u, lt, task, fun there => apart (List.mem_cons_of_mem _ there)⟩
    rw [found] at came
    obtain ⟨x, stands, rfl⟩ | ⟨f, faulted, rfl⟩ := Standing.joined?_eq_some came.symm
    · refine ⟨.next ⟨.leave x, mine⟩, callers', behind', tasks', fun worker => ?_, ?_, rfl, behinds⟩
      · simp [Config.step, Machine.resumeStep, found, Joined.exit, Machine.leave]
      · rw [stands]
        rfl
    · refine ⟨.faulted f, callers', behind', tasks', fun worker => ?_, ?_, rfl, behinds⟩
      · simp [Config.step, Machine.resumeStep, found, Joined.exit]
      · rw [faulted]
        rfl

end Relay

namespace Relay

variable {s : Store} {rest : Multiset Strand} {role : Strand.Role} {callers mine : List Caller}
  {own : Standing} {behind : List (Strand.Role × Standing)} {tasks : List TaskId}
  {through : Multiset (Strand.Role × Standing)} {τ τ₀ : Strand} {st : Standing} {c : Config}
  {σ σ' : Runtime} {log : List Moment} {env : Env} {t : TaskId} {run : TokenId}

/-- The row stands where the loop is after its stride, and has done the same. -/
structure Strides (σ' : Runtime) (worker : Worker) (c : Config) (s : Store) : Prop where
  relay : Relay σ' (c.stride worker s).1.state.standing
  record : σ'.store.record = (c.stride worker s).2.record

/-- The loop that acts goes on in the same strand. -/
theorem Behind.inner (h : Behind s rest role callers (.stands c) behind tasks through)
    (inner : c.Inner) (worker : Worker) (run : TokenId) (log : List Moment) :
    Strides (Runtime.turn worker run role c ⟨s, rest, log⟩) worker (c.below callers) s := by
  obtain ⟨standing, store⟩ := inner.stride callers worker s
  obtain ⟨-, -, new, spawned, quiet⟩ := inner.apart callers worker s
  obtain ⟨grows, es, new', trace, spawned', -⟩ := c.step_reacts worker s
  cases List.append_cancel_right (spawned.symm.trans spawned')
  have alone : Strand.ofSpawns run new + rest = rest := by
    rw [Strand.ofSpawns_quiet quiet, zero_add]
  rw [Runtime.turn_eq trace spawned, alone]
  -- Nobody has been told anything of a loop that goes on.
  have open_ : Standing.joined? (.stands c) = none := by
    obtain ⟨focus, own⟩ := c
    cases focus with
    | leave x =>
      cases own with
      | nil => exact (inner.stacked x rfl rfl).elim
      | cons => rfl
    | eval | unwind | resume | park => rfl
  refine ⟨⟨_, rest, callers, behind, tasks, through, rfl, ?_, standing⟩, congrArg Store.record store.symm⟩
  exact h.mono grows.joins_le (fun t mem => grows.joined? (h.awaited t mem).1) (.inl open_)

/-- The loop that acts goes on in a strand of its own, for which this one waits. -/
theorem Behind.shift {loop : Loop} {context : Context}
    (h : Behind s rest role callers (.stands ⟨.eval loop (.shift context), mine⟩) behind tasks
      through) (isOpen : context.isOpen = true) (single : ∀ k ∈ mine, k.Single) (worker : Worker)
    (run : TokenId) (log : List Moment) :
    Strides (Runtime.turn worker run role ⟨.eval loop (.shift context), mine⟩ ⟨s, rest, log⟩) worker
      ⟨.eval loop (.shift context), mine ++ callers⟩ s := by
  cases cancelled : s.isCancelled loop.env.token with
  | true =>
    have step : Config.step worker ⟨.eval loop (.shift context), mine⟩ s
        = (.next ⟨.unwind loop .canceled, mine⟩, s) := by
      simp [Config.step, Machine.evalStep, Machine.atPoint, cancelled, Machine.unwind]
    have stride : Config.stride worker ⟨.eval loop (.shift context), mine ++ callers⟩ s
        = (.next ⟨.unwind loop .canceled, mine ++ callers⟩, s) := by
      simp [Config.stride, Machine.atPoint, cancelled, Machine.unwind]
    rw [Runtime.turn_still step]
    constructor
    · rw [stride]
      exact ⟨_, rest, callers, behind, tasks, through, rfl,
        h.mono (Nat.le_refl _) (fun _ _ => rfl) (.inl rfl), rfl⟩
    · rw [stride]
  | false =>
    let there : Loop := { loop with env := loop.env.withContext context }
    let s₁ := (s.emit (.entered loop.env.token .shift)).emit (.shifting context.name)
    let job : Job := .segment (.start there Effect.unit)
    have step : Config.step worker ⟨.eval loop (.shift context), mine⟩ s
        = (.next ⟨.resume (.shifted loop.env s.joins.size), mine⟩, (s₁.spawn context job).2) := by
      simp only [Config.step, Machine.evalStep, Machine.atPoint, cancelled, Store.spawn_fst]
      rfl
    have stride : Config.stride worker ⟨.eval loop (.shift context), mine ++ callers⟩ s
        = (.next ⟨.eval there Effect.unit, mine ++ callers⟩, s₁) := by
      simp only [Config.stride, Machine.atPoint, cancelled]
      rfl
    have trace : (Config.step worker ⟨.eval loop (.shift context), mine⟩ s).2.trace
        = [.shifting context.name, .entered loop.env.token .shift] ++ s.trace := by
      rw [step]
      exact s₁.trace_spawn context job
    have spawned : (Config.step worker ⟨.eval loop (.shift context), mine⟩ s).2.spawned
        = [⟨s.joins.size, context, job⟩] ++ s.spawned := by
      rw [step]
      refine (s₁.spawned_spawn context job).trans ?_
      rw [if_pos isOpen]
      rfl
    rw [Runtime.turn_eq trace spawned, step]
    have size : (s₁.spawn context job).2.joins.size = s.joins.size + 1 :=
      s₁.size_joins_spawn context job
    have fresh : s.joins.size ∉ tasks := fun mem => Nat.lt_irrefl _ (h.awaited _ mem).1
    constructor
    · rw [stride]
      let sent : Strand := ⟨run, .task s.joins.size, .waiting (.start there Effect.unit)⟩
      let left : Strand := ⟨run, role, .running ⟨.resume (.shifted loop.env s.joins.size), mine⟩⟩
      refine ⟨sent, left ::ₘ rest, mine ++ callers, _, s.joins.size :: tasks, through, ?_,
        ⟨.away loop.env s.joins.size single h.path fresh, ?_, fun t mem => ?_, fun p mem => ?_⟩, rfl⟩
      · exact Multiset.cons_swap left sent rest
      · rw [Multiset.map_cons, h.others, ← Multiset.cons_coe, Multiset.cons_add]
        rfl
      · obtain rfl | mem := List.mem_cons.mp mem
        · refine ⟨size ▸ Nat.lt_succ_self _, .inl ?_⟩
          exact (s₁.joined?_spawn_self context job).trans (if_pos isOpen)
        · obtain ⟨lt, waits⟩ := h.awaited t mem
          have still : (s₁.spawn context job).2.joined? t = s.joined? t :=
            s₁.joined?_spawn_of_lt context job lt
          refine ⟨size ▸ Nat.lt_succ_of_lt lt, .inl (still.trans ?_)⟩
          obtain none | ⟨-, none⟩ := waits <;> exact none
      · obtain ⟨ended, t, lt, task, apart⟩ := h.through p mem
        refine ⟨ended, t, size ▸ Nat.lt_succ_of_lt lt, task, fun mem => ?_⟩
        obtain rfl | mem := List.mem_cons.mp mem
        · exact Nat.lt_irrefl _ lt
        · exact apart mem
    · rw [stride]
      exact s₁.record_spawn context job

/-- What a step of the row is for the loop. -/
inductive Onward (σ σ' : Runtime) (st : Standing) : Option Influence → Prop
  /-- Nothing that can be seen. -/
  | still (relay : Relay σ' st) (record : σ'.store.record = σ.store.record) : Onward σ σ' st none
  | told (i : Influence) (relay : Relay σ' st) (store : σ'.store = i.on σ.store) :
      Onward σ σ' st (some i)
  | strides (worker : Worker) (c : Config) (stands : st = .stands c)
      (unsettled : Standing.joined? (.stands c) = none) (h : Strides σ' worker c σ.store) :
      Onward σ σ' st none

end Relay

namespace Relay

variable {s s' : Store} {rest : Multiset Strand} {role : Strand.Role} {callers : List Caller}
  {own : Standing} {behind : List (Strand.Role × Standing)} {tasks : List TaskId}
  {through : Multiset (Strand.Role × Standing)} {τ : Strand} {st : Standing} {c : Config}
  {σ σ' : Runtime} {log : List Moment} {t : TaskId} {run : TokenId} {worker : Worker}

/-- A poll whose grip changes. -/
theorem slackened (h : Relay ⟨s, ⟨run, role, .running c⟩ ::ₘ rest, log⟩ st) (slack : c.Slack) :
    Onward ⟨s, ⟨run, role, .running c⟩ ::ₘ rest, log⟩
      (Runtime.turn worker run role c ⟨s, rest, log⟩) st none := by
  obtain ⟨p, standing, step⟩ := slack
  rw [Runtime.turn_still (step worker s)]
  have place : Strand.place ⟨run, role, p.state⟩ = Strand.place ⟨run, role, .running c⟩ :=
    congrArg (Prod.mk role) standing
  exact .still (h.regrip place (Nat.le_refl _) fun _ _ => rfl) rfl

/-- The strand that acts makes a stride of its loop, if it is not through. -/
theorem Behind.strides (h : Behind s rest role callers (.stands c) behind tasks through)
    (plain : (c.below callers).Plain) (unsettled : Standing.joined? (.stands c) = none)
    (worker : Worker) (run : TokenId) (log : List Moment) :
    Strides (Runtime.turn worker run role c ⟨s, rest, log⟩) worker (c.below callers) s := by
  obtain ⟨focus, mine⟩ := c
  by_cases stays : ∀ loop context, focus ≠ .eval loop (.shift context)
  · refine h.inner ⟨plain.focus, stays, fun x leaves none => ?_⟩ worker run log
    obtain ⟨rfl, rfl⟩ : focus = .leave x ∧ mine = [] := ⟨leaves, none⟩
    cases unsettled
  · push Not at stays
    obtain ⟨loop, context, rfl⟩ := stays
    exact h.shift plain.focus (fun k mem => plain.single k (List.mem_append_left _ mem)) worker run log

theorem single_of_plain (plain : Standing.Plain (.stands (c.below callers))) :
    ∀ k ∈ c.callers, k.Single :=
  fun k mem => plain.single k (List.mem_append_left _ mem)

/-- No strand of the row races or starts groups. -/
theorem single (h : Relay ⟨s, τ ::ₘ rest, log⟩ st) (plain : st.Plain)
    (stands : τ.state.standing = .stands c) : ∀ k ∈ c.callers, k.Single := by
  obtain ⟨callers, behind, tasks, through, row, rfl⟩ |
    ⟨τ₀, rest₀, callers, behind, tasks, through, rfl, row, rfl⟩ := h.locate rfl
  · rw [stands] at plain
    exact single_of_plain plain
  · obtain ⟨env, t, there, mine, same, single, -⟩ | ⟨ended, -⟩ := row.beside
    · cases stands.symm.trans same
      exact single
    · obtain ⟨result, joined⟩ := Option.ne_none_iff_exists'.mp ended
      rw [stands] at joined
      obtain ⟨x, left, -⟩ | ⟨f, faulted, -⟩ := Standing.joined?_eq_some joined
      · cases left
        exact fun k mem => by cases mem
      · cases faulted

/-- A strand makes a step of its poll. -/
theorem turn (h : Relay ⟨s, ⟨run, role, .running c⟩ ::ₘ rest, log⟩ st) (plain : st.Plain)
    (worker : Worker) : Onward ⟨s, ⟨run, role, .running c⟩ ::ₘ rest, log⟩
      (Runtime.turn worker run role c ⟨s, rest, log⟩) st none := by
  -- A poll that is not at its loop, or is through, only gets there.
  by_cases moves : c.settled = c
  · obtain ⟨callers, behind, tasks, through, row, rfl⟩ |
      ⟨τ₀, rest₀, callers, behind, tasks, through, rfl, row, rfl⟩ := h.locate rfl
    · have stands : (Strand.State.running c).standing = .stands c := congrArg Standing.stands moves
      simp only [stands] at row plain ⊢
      cases came : Standing.joined? (.stands c) with
      | none =>
        have unsettled := Config.unsettled_below came callers
        exact .strides worker _ rfl unsettled (row.strides plain came worker run log)
      | some result =>
        obtain ⟨x, left, -⟩ | ⟨f, faulted, -⟩ := Standing.joined?_eq_some came
        · cases left
          exact h.slackened (Config.slack_leave x)
        · cases faulted
    · obtain ⟨env, t, there, mine, same, single, -⟩ | ⟨ended, t, lt, task, apart⟩ := row.beside
      · obtain rfl : c = ⟨.resume (.shifted env t), mine⟩ := by
          rw [← moves]
          exact Standing.stands.inj same
        cases found : s.joined? t with
        | none =>
          have step : Config.step worker ⟨.resume (.shifted env t), mine⟩ s
              = (.next ⟨.park (.shifted env t), mine⟩, s.watchTask t worker.task) := by
            simp [Config.step, Machine.resumeStep, found, Machine.park]
          have watched := s.same_watchTask t worker.task
          have trace : (Config.step worker ⟨.resume (.shifted env t), mine⟩ s).2.trace
              = [] ++ s.trace := by rw [step]; exact watched.trace
          have spawned : (Config.step worker ⟨.resume (.shifted env t), mine⟩ s).2.spawned
              = [] ++ s.spawned := by rw [step]; exact watched.spawned
          have alone : Strand.ofSpawns run [] + (τ₀ ::ₘ rest₀) = τ₀ ::ₘ rest₀ := zero_add _
          rw [Runtime.turn_eq trace spawned, step, alone]
          exact .still (h.regrip rfl watched.joins.ge fun t _ => watched.joined t)
            (Store.record_of_bare (s.bare_watchTask t worker.task))
        | some result =>
          obtain ⟨p, callers', behind', tasks', step, stands, -, handed⟩ := row.hand same found
          rw [Runtime.turn_still (step worker), stands]
          exact .still ⟨_, τ₀ ::ₘ rest₀, callers', behind', tasks', _, rfl, handed _, rfl⟩ rfl
      · obtain ⟨result, joined⟩ := Option.ne_none_iff_exists'.mp ended
        obtain ⟨x, stands, -⟩ | ⟨f, faulted, -⟩ := Standing.joined?_eq_some joined
        · obtain rfl : c = ⟨.leave x, []⟩ := by
            rw [← moves]
            exact Standing.stands.inj stands
          exact h.slackened (Config.slack_leave x)
        · cases faulted
  · exact h.slackened (Config.slack_of_settled (h.single plain rfl) moves)

/-- The store changes, but not in what it knows of the strands. -/
theorem aside (h : Relay σ st) (size : σ.store.joins.size ≤ s'.joins.size)
    (joined : ∀ t < σ.store.joins.size, (∃ τ ∈ σ.strands, τ.role = .task t) →
      s'.joined? t = σ.store.joined? t) : Relay { σ with store := s' } st := by
  obtain ⟨τ, rest, callers, behind, tasks, through, strands, row, same⟩ := h
  refine ⟨τ, rest, callers, behind, tasks, through, strands,
    row.mono size (fun t mem => joined t (row.awaited t mem).1 ?_) (.inr rfl), same⟩
  rw [strands]
  obtain role | ⟨p, there, task⟩ := row.path.carried mem
  · exact ⟨τ, Multiset.mem_cons_self _ _, role⟩
  · have among : p ∈ rest.map Strand.place := by
      rw [row.others]
      exact Multiset.mem_add.mpr (.inl there)
    obtain ⟨τ', waiting, rfl⟩ := Multiset.mem_map.mp among
    exact ⟨τ', Multiset.mem_cons_of_mem waiting, task⟩

/-- It is told what the strand that acts has come to. -/
theorem Behind.report {result : Joined}
    (h : Behind s rest (.task t) callers own behind tasks through)
    (came : own.joined? = some result) :
    Behind (s.finish t result) rest (.task t) callers own behind tasks through := by
  have size : (s.finish t result).joins.size = s.joins.size := Runtime.finish_joins s t result
  refine ⟨h.path, h.others, fun u mem => ?_, size.symm ▸ h.through⟩
  obtain ⟨lt, waits⟩ := h.awaited u mem
  refine ⟨size.symm ▸ lt, ?_⟩
  rw [Runtime.finish_joined s t u result (h.awaited t h.path.mem).1]
  split
  · next here => exact .inr ⟨here ▸ rfl, came.symm⟩
  · exact waits

/-- It is told what a strand has come to. -/
theorem report {state : Strand.State} {result : Joined}
    (h : Relay ⟨s, ⟨run, .task t, state⟩ ::ₘ rest, log⟩ st) (joined : state.joined? = some result) :
    Relay ⟨s.finish t result, ⟨run, .task t, state⟩ ::ₘ rest, log⟩ st := by
  have came := Strand.State.joined?_standing joined
  have size := Runtime.finish_joins s t result
  obtain ⟨callers, behind, tasks, through, row, same⟩ |
    ⟨τ₀, rest₀, callers, behind, tasks, through, rfl, row, same⟩ := h.locate rfl
  · exact ⟨_, rest, callers, behind, tasks, through, rfl, row.report came, same⟩
  · obtain ⟨env, u, there, mine, waits, -⟩ | ⟨-, u, lt, task, apart⟩ := row.beside
    · rw [waits] at came
      cases came
    · cases task
      refine ⟨τ₀, _ ::ₘ rest₀, callers, behind, tasks, through, Multiset.cons_swap _ _ _,
        row.mono size.ge (fun v mem => ?_) (.inr rfl), same⟩
      have other : v ≠ t := fun eq => apart (eq ▸ mem)
      rw [Runtime.finish_joined s t v result lt, if_neg other]

/-- A step of the row is a stride of the loop, or nothing that can be seen. -/
theorem step {who : Strand → Worker → Prop} {i : Option Influence} (h : Relay σ st)
    (plain : st.Plain) (step : Runtime.Alone who i σ σ') : Onward σ σ' st i := by
  cases step with
  | poll s rest log run role segment => exact .still (h.regrip rfl (Nat.le_refl _) fun _ _ => rfl) rfl
  | turn s rest log run role c worker => exact h.turn plain worker
  | report s rest log run t state result joined =>
    exact .still (h.report joined) (s.record_finish t result)
  | aside _ s outside record =>
    refine .still (h.aside outside.joins fun t lt ⟨τ, mem, role⟩ => ?_) record
    obtain same | ⟨-, none⟩ := outside.joined t lt
    · exact same
    · exact (none τ mem role).elim
  | influence _ i =>
    have same := i.same σ.store
    exact .told i (h.aside same.joins.ge fun t _ _ => same.joined t) rfl

/-! ## What a row can do -/

end Relay

/-- A strand that is through ends its poll. -/
theorem Runtime.quietly_end {who : Strand → Worker → Prop} (total : ∀ τ, ∃ worker, who τ worker)
    {state : Strand.State} {result : Joined} (came : state.standing.joined? = some result)
    (s : Store) (rest : Multiset Strand) (log : List Moment) (run : TokenId) (role : Strand.Role) :
    ∃ state' : Strand.State, state'.joined? = some result ∧ state'.standing = state.standing ∧
      Quietly who ⟨s, ⟨run, role, state⟩ ::ₘ rest, log⟩ ⟨s, ⟨run, role, state'⟩ ::ₘ rest, log⟩ := by
  cases joined : state.joined? with
  | some result' =>
    cases (Strand.State.joined?_standing joined).symm.trans came
    exact ⟨state, joined, rfl, .refl⟩
  | none =>
    obtain ⟨x, stands, rfl⟩ | ⟨f, faulted, rfl⟩ := Standing.joined?_eq_some came
    · obtain ⟨worker, polls⟩ := total ⟨run, role, .running ⟨.leave x, []⟩⟩
      have ends : Alone who none ⟨s, ⟨run, role, .running ⟨.leave x, []⟩⟩ ::ₘ rest, log⟩
          ⟨s, ⟨run, role, .ended x⟩ ::ₘ rest, log⟩ := .still (p := .ended x) rfl rest log polls
      have none : ∀ k ∈ ([] : List Caller), k.Single := fun k mem => by cases mem
      exact ⟨.ended x, rfl, stands.symm, (quietly_settle total stands joined none s rest log run
        role).tail ends⟩
    · cases state with
      | faulted => cases joined
      | waiting | running | ended | dropped => cases faulted

namespace Relay

variable {s s' : Store} {rest : Multiset Strand} {role : Strand.Role} {callers : List Caller}
  {own : Standing} {behind : List (Strand.Role × Standing)} {tasks : List TaskId}
  {through : Multiset (Strand.Role × Standing)} {τ : Strand} {st : Standing} {c : Config}
  {σ σ' : Runtime} {log : List Moment} {t : TaskId} {run : TokenId} {result : Joined}
  {who : Strand → Worker → Prop} (total : ∀ τ, ∃ worker, who τ worker)
include total

/-- What the strand that acts has come to reaches the last one that waits. -/
theorem Behind.pass
    (h : Behind s rest τ.role callers τ.state.standing behind tasks through)
    (came : τ.state.standing.joined? = some result) (more : behind ≠ []) (log : List Moment) :
    ∃ s' τ' rest' callers' behind' tasks' through',
      Runtime.Quietly who ⟨s, τ ::ₘ rest, log⟩ ⟨s', τ' ::ₘ rest', log⟩ ∧ s'.record = s.record ∧
      Behind s' rest' τ'.role callers' τ'.state.standing behind' tasks' through' ∧
      τ.state.standing.below callers = τ'.state.standing.below callers' ∧
      behind.length = behind'.length + 1 := by
  obtain ⟨run, role, state⟩ := τ
  cases path : h.path with
  | root => exact (more rfl).elim
  | @away behind role' mine callers tasks env t single before distinct =>
    obtain ⟨state', joined, standing, ends⟩ := Runtime.quietly_end total came s rest log run (.task t)
    have row := h.report came
    -- The strand that waits for it.
    have mem : (role', Standing.stands ⟨.resume (.shifted env t), mine⟩) ∈ rest.map Strand.place := by
      rw [h.others]
      exact Multiset.mem_add.mpr (.inl (List.mem_cons_self ..))
    obtain ⟨τ₁, there, place⟩ := Multiset.mem_map.mp mem
    obtain ⟨rest, rfl⟩ := Multiset.exists_cons_of_mem there
    have waits : τ₁.state.standing = .stands ⟨.resume (.shifted env t), mine⟩ :=
      congrArg Prod.snd place
    have unsettled : τ₁.state.joined? = none := by
      cases joined : τ₁.state.joined? with
      | none => rfl
      | some result =>
        have came := Strand.State.joined?_standing joined
        rw [waits] at came
        cases came
    have found : (s.finish t result).joined? t = some result := by
      rw [Runtime.finish_joined s t t result (h.awaited t h.path.mem).1, if_pos rfl]
    let ended : Strand := ⟨run, .task t, state'⟩
    have row' : Behind (s.finish t result) (τ₁ ::ₘ rest) ended.role (mine ++ callers)
        ended.state.standing ((role', .stands ⟨.resume (.shifted env t), mine⟩) :: behind)
        (t :: tasks) through := standing.symm ▸ row
    obtain ⟨p, callers', behind', tasks', step, stands, length, handed⟩ := row'.hand waits found
    have reports : Runtime.Alone who none ⟨s, ended ::ₘ τ₁ ::ₘ rest, log⟩
        ⟨s.finish t result, τ₁ ::ₘ ended ::ₘ rest, log⟩ :=
      Multiset.cons_swap ended τ₁ rest ▸ .report s (τ₁ ::ₘ rest) log run t state' result joined
    have resumed := Runtime.quietly_settle total waits unsettled single (s.finish t result)
      (ended ::ₘ rest) log τ₁.run τ₁.role
    obtain ⟨worker, polls⟩ :=
      total ⟨τ₁.run, τ₁.role, .running ⟨.resume (.shifted env t), mine⟩⟩
    exact ⟨s.finish t result, ⟨τ₁.run, τ₁.role, p.state⟩, ended ::ₘ rest, callers', behind', tasks', _,
      ((ends.tail reports).trans resumed).tail (.still (step worker) (ended ::ₘ rest) log polls),
      s.record_finish t result, handed _, standing ▸ stands, length⟩

omit total in
/-- A row that is through, or whose last strand is at the loop and has not ended. -/
inductive Ready (σ : Runtime) (st : Standing) : Prop
  | acts (s : Store) (rest : Multiset Strand) (log : List Moment) (run : TokenId)
      (role : Strand.Role) (c : Config) (callers : List Caller)
      (behind : List (Strand.Role × Standing)) (tasks : List TaskId)
      (through : Multiset (Strand.Role × Standing))
      (at_ : σ = ⟨s, ⟨run, role, .running c⟩ ::ₘ rest, log⟩)
      (h : Behind s rest role callers (.stands c) behind tasks through)
      (unsettled : Standing.joined? (.stands c) = none) (same : st = .stands (c.below callers))
  | through (result : Joined) (came : st.joined? = some result) (resolves : σ.Resolves result)

/-- A row gets on until its last strand can act. -/
theorem ready (h : Relay σ st) (plain : st.Plain) :
    ∃ σ', Runtime.Quietly who σ σ' ∧ σ'.store.record = σ.store.record ∧ Ready σ' st := by
  obtain ⟨τ, rest, callers, behind, tasks, through, strands, row, rfl⟩ := h
  obtain ⟨s, strands', log⟩ := σ
  obtain rfl : strands' = τ ::ₘ rest := strands
  -- Each strand that waits takes up what the next one has come to.
  induction size : behind.length using Nat.strong_induction_on
    generalizing s τ rest callers behind tasks through with
  | _ n ih =>
  obtain ⟨run, role, state⟩ := τ
  cases came : state.standing.joined? with
  | some result =>
    by_cases more : behind = []
    · subst more
      cases path : row.path
      obtain ⟨state', joined, standing, ends⟩ := Runtime.quietly_end total came s rest log run .root
      refine ⟨_, ends, rfl, .through result ?_ ⟨_, Multiset.mem_cons_self _ _, rfl, joined⟩⟩
      rwa [Standing.below_nil]
    · obtain ⟨s', τ', rest', callers', behind', tasks', through', steps, record, row', same, less⟩ :=
        row.pass total came more log
      have shorter : behind'.length < n := by omega
      rw [same] at plain ⊢
      obtain ⟨σ', steps', record', ready⟩ := ih _ shorter τ' rest' callers' behind' tasks' through'
        plain s' row' rfl
      exact ⟨σ', steps.trans steps', record'.trans record, ready⟩
  | none =>
    cases stands : state.standing with
    | stands d =>
      have live : state.joined? = none := by
        cases joined : state.joined? with
        | none => rfl
        | some result => cases (Strand.State.joined?_standing joined).symm.trans came
      rw [stands] at came row plain
      have single := single_of_plain plain
      refine ⟨_, Runtime.quietly_settle total stands live single s rest log run role, rfl, ?_⟩
      exact .acts s rest log run role d callers behind tasks through rfl row came rfl
    | faulted f =>
      rw [stands] at came
      cases came
    | dropped =>
      rw [stands] at plain
      exact plain.elim

/-- A row can make the next stride of a loop that has not ended. -/
theorem next (h : Relay σ (.stands c)) (plain : c.Plain)
    (unsettled : Standing.joined? (.stands c) = none) :
    ∃ σ₁ worker σ', Runtime.Quietly who σ σ₁ ∧ σ₁.store.record = σ.store.record ∧
      Runtime.Alone who none σ₁ σ' ∧ Strides σ' worker c σ₁.store := by
  obtain ⟨σ₁, steps, record, ready⟩ := h.ready total plain
  cases ready with
  | acts s rest log run role d callers behind tasks through at_ row live same =>
    subst at_
    obtain rfl : c = d.below callers := Standing.stands.inj same
    obtain ⟨worker, polls⟩ := total ⟨run, role, .running d⟩
    exact ⟨_, worker, _, steps, record, .turn s rest log run role d worker polls,
      row.strides plain live worker run log⟩
  | through result came =>
    rw [unsettled] at came
    cases came

/-- A row comes to what the loop has come to. -/
theorem resolves (h : Relay σ st) (plain : st.Plain) (came : st.joined? = some result) :
    ∃ σ', Runtime.Quietly who σ σ' ∧ σ'.store.record = σ.store.record ∧ σ'.Resolves result := by
  obtain ⟨σ', steps, record, ready⟩ := h.ready total plain
  cases ready with
  | acts s rest log run role d callers behind tasks through at_ row live same =>
    subst same
    cases (Config.unsettled_below live callers).symm.trans came
  | through result' came' resolves =>
    cases came.symm.trans came'
    exact ⟨σ', steps, record, resolves⟩

omit total in
/-- What a row comes to, the loop has come to. -/
theorem resolved (h : Relay σ st) (resolves : σ.Resolves result) : st.joined? = some result := by
  obtain ⟨τ, mem, role, joined⟩ := resolves
  have came := Strand.State.joined?_standing joined
  obtain ⟨rest, strands⟩ := Multiset.exists_cons_of_mem mem
  obtain ⟨callers, behind, tasks, through, row, same⟩ |
    ⟨τ₀, rest₀, callers, behind, tasks, through, rfl, row, same⟩ := h.locate strands
  · have path := row.path
    rw [role] at path
    cases path
    rw [same, Standing.below_nil, came]
  · obtain ⟨env, t, there, mine, waits, -⟩ | ⟨-, t, -, task, -⟩ := row.beside
    · rw [waits] at came
      cases came
    · cases role.symm.trans task

end Relay

end EffectFibers
