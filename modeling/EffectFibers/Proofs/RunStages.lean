import EffectFibers.Proofs.Structured

/-!
# The stages of a run

A run, as its caller holds it, stands for a strand: it has not been polled and the strand is at the
start of the effect, or it was polled and the strand waits, has ended, or has met a panic
(`Run.Stands`).  Polls lead from stage to stage.  Of an effect at whose start the strand still is
nothing has been carried out: no mark of the run is in the log, and the run has no other strand.

## Main statements

* `Run.Stands.poll`: a poll of a run is some steps of its strand.
* `Runtime.Reachable.untouched`: what is true of a run that was not polled yet.
-/

namespace EffectFibers

/-! ## Stages -/

/-- A run and the strand that it stands for. -/
inductive Run.Stands : Run → Strand → Prop
  | unpolled (t : TokenId) (context : Context) {loop : Loop} (fresh : loop.frames = [])
      (effect : Effect) : Stands ⟨t, context, .live (.start loop effect), false⟩
        ⟨t, .root, .waiting (.start loop effect)⟩
  | suspended (t : TokenId) (context : Context) (g : Segment) :
      Stands ⟨t, context, .live g, true⟩ ⟨t, .root, .waiting g⟩
  | complete (t : TokenId) (context : Context) (x : Exit) :
      Stands ⟨t, context, .complete, true⟩ ⟨t, .root, .ended x⟩
  | broken (t : TokenId) (context : Context) (f : Fault) :
      Stands ⟨t, context, .broken, true⟩ ⟨t, .root, .faulted f⟩

namespace Run

variable {r r' : Run} {τ : Strand}

theorem Stands.run (h : r.Stands τ) : τ.run = r.token := by
  cases h <;> rfl

theorem Stands.role (h : r.Stands τ) : τ.role = .root := by
  cases h <;> rfl

/-- A new run stands for a strand at the start of the effect. -/
theorem stands_new (effect : Effect) (kept : List TokenId) (t : TokenId) (context : Context)
    (s : Store) : (new effect kept t context s).1.Stands (.ofRun (new effect kept t context s).1) :=
  .unpolled t context rfl effect

/-- A poll of a run is some steps of its strand, and the run stands for what that has come to. -/
theorem Stands.poll (h : r.Stands τ) {worker : Worker} {bound : Nat} {s s' : Store} {p : Polled}
    (poll : r.poll worker bound s = (p, r', s')) (came : p ≠ .unfinished) (rest : Multiset Strand)
    (log : List Moment) : ∃ τ' new marks, r'.Stands τ' ∧ Runtime.Steps ⟨s, τ ::ₘ rest, log⟩
      ⟨s', τ' ::ₘ (Strand.ofSpawns r.token new + rest), marks ++ log⟩ := by
  have still : Runtime.Steps ⟨s, τ ::ₘ rest, log⟩
      ⟨s, τ ::ₘ (Strand.ofSpawns r.token [] + rest), [] ++ log⟩ := by
    rw [show Strand.ofSpawns r.token [] = 0 from rfl, zero_add]
    exact .refl
  have polled (t : TokenId) (context : Context) (g : Segment) (started : Bool)
      (token : r.token = t) (stands : τ = ⟨t, .root, .waiting g⟩)
      (poll : Run.poll worker bound ⟨t, context, .live g, started⟩ s = (p, r', s')) :
      ∃ τ' new marks, r'.Stands τ' ∧ Runtime.Steps ⟨s, τ ::ₘ rest, log⟩
        ⟨s', τ' ::ₘ (Strand.ofSpawns r.token new + rest), marks ++ log⟩ := by
    subst token stands
    have begun : Runtime.Step ⟨s, ⟨r.token, .root, .waiting g⟩ ::ₘ rest, log⟩
        ⟨s, ⟨r.token, .root, .running ⟨.resume g, []⟩⟩ ::ₘ rest, log⟩ := .poll ..
    simp only [Run.poll] at poll
    split at poll
    · next x s₁ result =>
      cases poll
      obtain ⟨new, es, marks, -, -, -, steps⟩ :=
        Runtime.steps_of_poll r.token .root rest log rfl result
      refine ⟨_, new, marks, .complete r.token context x,
        (Relation.ReflTransGen.head begun steps).tail (.outside _ _ ?_)⟩
      exact ⟨rfl, rfl, ⟨[_], rfl, by simp [Event.isMark, Event.fiber?, Event.isPlain]⟩,
        Nat.le_refl _, fun _ _ => .inl rfl⟩
    · next g' s₁ result =>
      cases poll
      obtain ⟨new, es, marks, -, -, -, steps⟩ :=
        Runtime.steps_of_poll r.token .root rest log rfl result
      exact ⟨_, new, marks, .suspended r.token context g', .head begun steps⟩
    · next f s₁ result =>
      cases poll
      obtain ⟨new, es, marks, -, -, -, steps⟩ :=
        Runtime.steps_of_poll r.token .root rest log rfl result
      exact ⟨_, new, marks, .broken r.token context f, .head begun steps⟩
    · cases poll
      exact absurd rfl came
  cases h with
  | unpolled t context fresh effect => exact polled t context _ false rfl rfl poll
  | suspended t context g => exact polled t context g true rfl rfl poll
  | complete t context x =>
    cases poll
    exact ⟨_, [], [], .complete t context x, still⟩
  | broken t context f =>
    cases poll
    exact ⟨_, [], [], .broken t context f, still⟩

end Run

/-! ## What has begun -/

/-- A poll carries a segment outwards that is at the start of its effect. -/
def Config.isFresh (c : Config) : Bool :=
  match c.focus with
  | .park g => g.isFresh
  | .eval .. | .unwind .. | .leave _ | .resume _ => false

def Strand.State.isFresh : Strand.State → Bool
  | .waiting g => g.isFresh
  | .running c => c.isFresh
  | .ended _ | .faulted _ | .dropped => false

/-- What a step of a poll has come to is not at the start of an effect. -/
theorem Config.isFresh_step (worker : Worker) {c : Config} (s : Store)
    (begun : c.isFresh = false) : (c.step worker s).1.state.isFresh = false := by
  obtain ⟨focus, callers⟩ := c
  cases focus with
  | eval loop effect =>
    cases effect with
    | perform | loop =>
      simp only [Config.step, Machine.evalStep]
      split <;> rfl
    | async | await | bracket | shift =>
      simp only [Config.step, Machine.evalStep, Machine.atPoint]
      split
      · rfl
      · repeat' split
        all_goals rfl
    | _ => rfl
  | unwind loop x =>
    obtain ⟨env, frames⟩ := loop
    cases frames with
    | nil => rfl
    | cons frame frames =>
      simp only [Config.step, Machine.unwindStep, Machine.frameStep]
      repeat' split
      all_goals rfl
  | leave x =>
    cases callers with
    | nil => rfl
    | cons caller callers =>
      simp only [Config.step, Machine.leaveStep, Machine.returnStep, Machine.settle]
      repeat' split
      all_goals rfl
  | resume g =>
    simp only [Config.step, Machine.resumeStep]
    repeat' split
    all_goals rfl
  | park g =>
    simp only [Config.step, Machine.parkStep]
    split
    · exact begun
    all_goals rfl

namespace Runtime

variable {σ σ' : Runtime} {run : TokenId} {τ τ' : Strand}

theorem Reachable.unique_root (h : Reachable σ) (mem : τ ∈ σ.strands) (mem' : τ' ∈ σ.strands)
    (root : τ.role = .root) (root' : τ'.role = .root) (same : τ.run = τ'.run) : τ = τ' := by
  have distinct := h.kindred.roots
  rw [parties, Multiset.filterMap_map] at distinct
  have mark : Party.root? τ.party = some τ.run := by simp [Party.root?, Strand.party, root]
  have mark' : Party.root? τ'.party = some τ.run := by
    simp [Party.root?, Strand.party, root', same]
  exact unique_of_nodup_filterMap distinct mem mem' mark mark'

/-- Nothing of the run was carried out: it has no mark in the log, and no task. -/
structure Untouched (σ : Runtime) (run : TokenId) : Prop where
  silent : ∀ m ∈ σ.log, m.run ≠ run
  alone : ∀ τ ∈ σ.strands, τ.run = run → τ.role = .root

/-- Who is at the start of an effect has carried nothing out. -/
structure Staged (σ : Runtime) : Prop where
  known : ∀ m ∈ σ.log, m.run < σ.store.size
  begun : ∀ τ ∈ σ.strands, ∀ c, τ.state = .running c → c.isFresh = false
  untouched : ∀ τ ∈ σ.strands, τ.role = .root → τ.state.isFresh = true → σ.Untouched τ.run

theorem Staged.begin (h : σ.Staged) (kindred : σ.Kindred) (new : TokenId × Store)
    (fresh : Within σ.store.size new.2.size new.1) (effect : Effect) (kept : List TokenId)
    (context : Context) : (σ.begin new effect kept context).Staged := by
  have older : ∀ τ ∈ σ.strands, τ.run ≠ new.1 := fun τ mem same =>
    Nat.not_lt.mpr fresh.le (same ▸ kindred.runs τ.party (Multiset.mem_map_of_mem _ mem))
  refine ⟨fun m mem => Nat.lt_trans (Nat.lt_of_lt_of_le (h.known m mem) fresh.le) fresh.lt,
    fun τ mem c running => ?_, fun τ mem root untouched => ⟨fun m mem' same => ?_, ?_⟩⟩
  · obtain rfl | mem := Multiset.mem_cons.mp mem
    · cases running
    · exact h.begun τ mem c running
  · obtain rfl | mem := Multiset.mem_cons.mp mem
    · have known : m.run < σ.store.size := h.known m mem'
      rw [same] at known
      exact Nat.not_lt.mpr fresh.le known
    · exact (h.untouched τ mem root untouched).silent m mem' same
  · intro τ' mem' same
    obtain rfl | mem' := Multiset.mem_cons.mp mem'
    · rfl
    · obtain rfl | mem := Multiset.mem_cons.mp mem
      · exact (older τ' mem' same).elim
      · exact (h.untouched τ mem root untouched).alone τ' mem' same

/-- The strands are the same up to one that has the same run and role, and no more fresh. -/
theorem Staged.replace {s : Store} {rest : Multiset Strand} {log : List Moment}
    (h : Staged ⟨s, τ ::ₘ rest, log⟩) {s' : Store} (size : s.size ≤ s'.size)
    (run : τ'.run = τ.run) (role : τ'.role = τ.role)
    (fresh : τ'.state.isFresh = true → τ.state.isFresh = true)
    (begun : ∀ c, τ'.state = .running c → c.isFresh = false) :
    Staged ⟨s', τ' ::ₘ rest, log⟩ := by
  have alone : ∀ {t : TokenId}, Untouched ⟨s, τ ::ₘ rest, log⟩ t →
      Untouched ⟨s', τ' ::ₘ rest, log⟩ t := by
    intro t untouched
    refine ⟨untouched.silent, fun τ₁ mem same => ?_⟩
    obtain rfl | mem := Multiset.mem_cons.mp mem
    · exact role.trans (untouched.alone τ (Multiset.mem_cons_self _ _) (run ▸ same))
    · exact untouched.alone τ₁ (Multiset.mem_cons_of_mem mem) same
  refine ⟨fun m mem => Nat.lt_of_lt_of_le (h.known m mem) size, fun τ₁ mem c running => ?_,
    fun τ₁ mem root isFresh => alone ?_⟩
  · obtain rfl | mem := Multiset.mem_cons.mp mem
    · exact begun c running
    · exact h.begun τ₁ (Multiset.mem_cons_of_mem mem) c running
  · obtain rfl | mem := Multiset.mem_cons.mp mem
    · have same := h.untouched τ (Multiset.mem_cons_self _ _) (role ▸ root) (fresh isFresh)
      exact run ▸ same
    · exact h.untouched τ₁ (Multiset.mem_cons_of_mem mem) root isFresh

theorem Staged.turn {s : Store} {rest : Multiset Strand} {log : List Moment} {role : Strand.Role}
    {c : Config} (reach : Reachable ⟨s, ⟨run, role, .running c⟩ ::ₘ rest, log⟩)
    (h : Staged ⟨s, ⟨run, role, .running c⟩ ::ₘ rest, log⟩) (worker : Worker) :
    (turn worker run role c ⟨s, rest, log⟩).Staged := by
  obtain ⟨grows, es, new, trace, spawned, -⟩ := c.step_reacts worker s
  rw [turn_eq trace spawned]
  let acting : Strand := ⟨run, role, .running c⟩
  have mem₀ : acting ∈ acting ::ₘ rest := Multiset.mem_cons_self _ _
  have still := Config.isFresh_step worker s (h.begun acting mem₀ c rfl)
  generalize (c.step worker s).1.state = state at still
  have runs : run < s.size := reach.kindred.runs _ (Multiset.mem_map_of_mem Strand.party mem₀)
  have marked : ∀ m ∈ (es.filter Event.isMark).map (Moment.of run s), m.run = run := by
    intro m mem
    obtain ⟨e, -, rfl⟩ := List.mem_map.mp mem
    rfl
  refine ⟨fun m mem => Nat.lt_of_lt_of_le ?_ grows.size_le, fun τ mem c' running => ?_,
    fun τ mem root fresh => ?_⟩
  · obtain mem | mem := List.mem_append.mp mem
    · exact marked m mem ▸ runs
    · exact h.known m mem
  · obtain rfl | mem := Multiset.mem_cons.mp mem
    · cases running
      exact still
    obtain mem | mem := Multiset.mem_add.mp mem
    · obtain ⟨x, -, g, -, rfl⟩ := Strand.mem_ofSpawns.mp mem
      cases running
    · exact h.begun τ (Multiset.mem_cons_of_mem mem) c' running
  · -- The strand is not the one that has acted, which is of another run.
    obtain rfl | mem := Multiset.mem_cons.mp mem
    · cases still.symm.trans fresh
    obtain mem | mem := Multiset.mem_add.mp mem
    · obtain ⟨x, -, g, -, rfl⟩ := Strand.mem_ofSpawns.mp mem
      cases root
    have before : τ ∈ acting ::ₘ rest := Multiset.mem_cons_of_mem mem
    obtain ⟨silent, alone⟩ := h.untouched τ before root fresh
    have other : run ≠ τ.run := by
      intro same
      have same' := reach.unique_root before mem₀ root (alone acting mem₀ same) same.symm
      rw [same'] at fresh
      cases (h.begun acting mem₀ c rfl).symm.trans fresh
    refine ⟨fun m mem' => ?_, fun τ' mem' same => ?_⟩
    · obtain mem' | mem' := List.mem_append.mp mem'
      · exact marked m mem' ▸ other
      · exact silent m mem'
    · obtain rfl | mem' := Multiset.mem_cons.mp mem'
      · exact (other same).elim
      obtain mem' | mem' := Multiset.mem_add.mp mem'
      · obtain ⟨x, -, g, -, rfl⟩ := Strand.mem_ofSpawns.mp mem'
        exact (other same).elim
      · exact alone τ' (Multiset.mem_cons_of_mem mem') same

theorem Step.staged (reach : Reachable σ) (h : σ.Staged) (step : Step σ σ') : σ'.Staged := by
  have size := step.ages.size
  have kept : ∀ {s : Store}, σ.store.size ≤ s.size → Staged ⟨s, σ.strands, σ.log⟩ := fun le =>
    ⟨fun m mem => Nat.lt_of_lt_of_le (h.known m mem) le, h.begun, fun τ mem root fresh =>
      ⟨(h.untouched τ mem root fresh).silent, (h.untouched τ mem root fresh).alone⟩⟩
  cases step with
  | begin _ effect kept context =>
    refine h.begin reach.kindred _ ⟨Nat.le_refl _, ?_⟩ effect kept context
    rw [Store.size_freshToken]
    exact Nat.lt_succ_self _
  | beginBelow _ parent lt effect kept context =>
    refine h.begin reach.kindred _ ⟨?_, ?_⟩ effect kept context
    · exact (σ.store.childToken_fst parent).ge
    · rw [Store.childToken_fst, Store.size_childToken]
      exact Nat.lt_succ_self _
  | poll s rest log run role g =>
    exact h.replace (Nat.le_refl _) rfl rfl nofun (by rintro c ⟨⟩; rfl)
  | turn s rest log run role c worker => exact Staged.turn reach h worker
  | report | cancel | fresh | child | prune | outside => exact kept size
  | giveUp s rest log r g live unstarted =>
    obtain ⟨t, context, state, started⟩ := r
    cases live
    unfold Strand.remainder
    split
    · exact h.replace size rfl rfl id (by rintro c ⟨⟩)
    · exact h.replace size rfl rfl nofun (by rintro c ⟨⟩)

theorem Reachable.staged (h : Reachable σ) : σ.Staged := by
  induction h with
  | refl => exact ⟨nofun, nofun, nofun⟩
  | tail reach step ih => exact Step.staged reach ih step

/-- Of a run that stands for a strand and was not polled, nothing was carried out. -/
theorem Reachable.untouched (h : Reachable σ) {r : Run} (stands : r.Stands τ)
    (unpolled : r.started = false) (mem : τ ∈ σ.strands) : σ.Untouched r.token := by
  cases stands with
  | @unpolled t context loop fresh effect =>
    refine h.staged.untouched _ mem rfl ?_
    simp [Strand.State.isFresh, Segment.isFresh, fresh]
  | suspended | complete | broken => cases unpolled

end Runtime

end EffectFibers
