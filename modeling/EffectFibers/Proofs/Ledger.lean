import EffectFibers.Proofs.Crew

/-!
# The ledger of tasks

What the store says that a task has come to is what the strand of the task has come to, no two
strands have one task, and what is recorded stays recorded.  So a part of a run that was cut off
stays cut off.

## Main statements

* `Runtime.Reachable.booked`: the ledger is right in every reachable runtime.
* `Runtime.Step.cut`: what was cut off stays cut off.
-/

namespace EffectFibers

def Strand.task? (τ : Strand) : Option TaskId :=
  match τ.role with
  | .root => none
  | .task t => some t

namespace Runtime

/-- The tasks that are parts of runs. -/
def tasks (strands : Multiset Strand) : Multiset TaskId := strands.filterMap Strand.task?

structure Booked (σ : Runtime) : Prop where
  known : ∀ τ ∈ σ.strands, ∀ t, τ.task? = some t → t < σ.store.joins.size
  distinct : (tasks σ.strands).Nodup
  results : ∀ τ ∈ σ.strands, ∀ t, τ.task? = some t →
    ∀ result, σ.store.joined? t = some result → τ.state.joined? = some result

variable {σ σ' : Runtime} {s s' : Store} {rest : Multiset Strand} {log : List Moment}

theorem mem_tasks {strands : Multiset Strand} {t : TaskId} :
    t ∈ tasks strands ↔ ∃ τ ∈ strands, τ.task? = some t := by
  simp [tasks]

/-- The strands are the same, and the store has kept what it knew of their tasks. -/
theorem Booked.kept (h : σ.Booked) (strands : σ'.strands = σ.strands)
    (joins : σ.store.joins.size ≤ σ'.store.joins.size)
    (joined : ∀ τ ∈ σ.strands, ∀ t, τ.task? = some t → t < σ.store.joins.size →
      σ'.store.joined? t = σ.store.joined? t) : σ'.Booked where
  known τ mem t task := Nat.lt_of_lt_of_le (h.known τ (strands ▸ mem) t task) joins
  distinct := strands ▸ h.distinct
  results τ mem t task result found := by
    rw [strands] at mem
    rw [joined τ mem t task (h.known τ mem t task)] at found
    exact h.results τ mem t task result found

theorem Booked.grow (h : σ.Booked) (strands : σ'.strands = σ.strands)
    (grows : σ.store.Grows σ'.store) : σ'.Booked :=
  h.kept strands grows.joins_le fun _ _ _ _ lt => grows.joined? lt

theorem tasks_ofSpawns_le (run : TokenId) (new : List Spawn) :
    tasks (Strand.ofSpawns run new) ≤ (new.map Spawn.task : List TaskId) := by
  unfold Strand.ofSpawns
  induction new with
  | nil => simp [tasks]
  | cons x new ih =>
    rw [List.filterMap_cons, List.map_cons, ← Multiset.cons_coe]
    cases h : Strand.ofSpawn? run x with
    | none => exact ih.trans (Multiset.le_cons_self _ _)
    | some τ =>
      obtain ⟨segment, -, rfl⟩ := Option.map_eq_some_iff.mp h
      rw [← Multiset.cons_coe, tasks, Multiset.filterMap_cons_some Strand.task? _ _ rfl]
      exact Multiset.cons_le_cons _ ih

/-- A strand that has come to nothing yet makes a step, and tasks are started. -/
theorem Booked.turn {run : TokenId} {role : Strand.Role} {state state' : Strand.State}
    {new : List Spawn} (h : Booked ⟨s, ⟨run, role, state⟩ ::ₘ rest, log⟩)
    (unsettled : state.joined? = none) (grows : s.Grows s')
    (spawned : s'.spawned = new ++ s.spawned) {log' : List Moment} :
    Booked ⟨s', ⟨run, role, state'⟩ ::ₘ (Strand.ofSpawns run new + rest), log'⟩ := by
  obtain ⟨new', spawned', fresh, nodup⟩ := grows.spawned
  obtain rfl := List.append_cancel_right (spawned.symm.trans spawned')
  have head := h.known _ (Multiset.mem_cons_self _ _)
  have pending : ∀ t, (⟨run, role, state⟩ : Strand).task? = some t → s.joined? t = none :=
    fun t task => by
      cases found : s.joined? t with
      | none => rfl
      | some result =>
        have := h.results _ (Multiset.mem_cons_self _ _) t task result found
        simp [unsettled] at this
  constructor
  · intro τ mem t task
    obtain rfl | mem := Multiset.mem_cons.mp mem
    · exact Nat.lt_of_lt_of_le (head t task) grows.joins_le
    · obtain mem | mem := Multiset.mem_add.mp mem
      · obtain ⟨x, started, segment, -, rfl⟩ := Strand.mem_ofSpawns.mp mem
        cases task
        exact (fresh x started).1.lt
      · exact Nat.lt_of_lt_of_le (h.known τ (Multiset.mem_cons_of_mem mem) t task) grows.joins_le
  · have old : (tasks (⟨run, role, state'⟩ ::ₘ rest)).Nodup := by
      have same : tasks (⟨run, role, state'⟩ ::ₘ rest) = tasks (⟨run, role, state⟩ ::ₘ rest) := by
        simp [tasks, Multiset.filterMap_cons, Strand.task?]
      exact same ▸ h.distinct
    have young : (tasks (Strand.ofSpawns run new)).Nodup :=
      Multiset.nodup_of_le (tasks_ofSpawns_le run new) (by simpa using nodup)
    rw [← Multiset.add_cons, tasks, Multiset.filterMap_add]
    refine Multiset.nodup_add.mpr ⟨young, old, Multiset.disjoint_left.mpr fun {t} inNew inOld => ?_⟩
    obtain ⟨τ, mem, task⟩ := mem_tasks.mp inNew
    obtain ⟨x, started, segment, -, rfl⟩ := Strand.mem_ofSpawns.mp mem
    cases task
    obtain ⟨τ', mem', task'⟩ := mem_tasks.mp inOld
    have lt : x.task < s.joins.size := by
      obtain rfl | mem' := Multiset.mem_cons.mp mem'
      · exact head _ task'
      · exact h.known τ' (Multiset.mem_cons_of_mem mem') _ task'
    exact absurd (fresh x started).1.le (Nat.not_le.mpr lt)
  · intro τ mem t task result found
    obtain rfl | mem := Multiset.mem_cons.mp mem
    · rw [grows.joined? (head t task), pending t task] at found
      cases found
    · obtain mem | mem := Multiset.mem_add.mp mem
      · obtain ⟨x, started, segment, -, rfl⟩ := Strand.mem_ofSpawns.mp mem
        cases task
        rw [(fresh x started).2] at found
        cases found
      · rw [grows.joined? (h.known τ (Multiset.mem_cons_of_mem mem) t task)] at found
        exact h.results τ (Multiset.mem_cons_of_mem mem) t task result found

theorem finish_join (s : Store) (t u : TaskId) (result : Joined) (lt : t < s.joins.size) :
    (s.finish t result).join u = if u = t then ⟨some result, s.ended, []⟩ else s.join u := by
  obtain ⟨ready, woken, same⟩ := Store.wakeAll_eq _ _
  rw [Store.finish, same]
  by_cases h : u = t
  · subst h
    simp [Store.join, lt]
  · simp [Store.join, h, Ne.symm h]

theorem finish_joined (s : Store) (t u : TaskId) (result : Joined) (lt : t < s.joins.size) :
    (s.finish t result).joined? u = if u = t then some result else s.joined? u := by
  rw [Store.joined?, finish_join s t u result lt]
  split <;> rfl

theorem finish_joins (s : Store) (t : TaskId) (result : Joined) :
    (s.finish t result).joins.size = s.joins.size :=
  (same_finish s t result).joins.trans (by simp)

/-- Two members of a bag that are marked alike are one. -/
theorem unique_of_nodup_filterMap {α β : Type} {f : α → Option β} {S : Multiset α}
    (h : (S.filterMap f).Nodup) {a a' : α} {x : β} (mem : a ∈ S) (mem' : a' ∈ S)
    (mark : f a = some x) (mark' : f a' = some x) : a = a' := by
  obtain ⟨others, split⟩ := Multiset.exists_cons_of_mem mem
  rw [split, Multiset.filterMap_cons_some _ _ _ mark] at h
  rw [split] at mem'
  refine ((Multiset.mem_cons.mp mem').resolve_right fun inOthers => ?_).symm
  exact (Multiset.nodup_cons.mp h).1 ((Multiset.mem_filterMap _ _).mpr ⟨a', inOthers, mark'⟩)

/-- One task, one strand. -/
theorem Booked.unique (h : σ.Booked) {τ τ' : Strand} {t : TaskId} (mem : τ ∈ σ.strands)
    (mem' : τ' ∈ σ.strands) (task : τ.task? = some t) (task' : τ'.task? = some t) : τ = τ' :=
  unique_of_nodup_filterMap h.distinct mem mem' task task'

theorem Booked.begun (h : σ.Booked) (new : TokenId × Store) (grows : σ.store.Grows new.2)
    (effect : Effect) (kept : List TokenId) (context : Context) :
    (σ.begin new effect kept context).Booked := by
  have grown : Booked { σ with store := (Run.new effect kept new.1 context new.2).2 } :=
    h.grow rfl (grows.tail (.emit _ _ rfl))
  refine ⟨fun τ mem t task => ?_, ?_, fun τ mem t task => ?_⟩
  · obtain rfl | mem := Multiset.mem_cons.mp mem
    · cases task
    · exact grown.known τ mem t task
  · have same : tasks (σ.begin new effect kept context).strands = tasks σ.strands :=
      Multiset.filterMap_cons_none _ _ rfl
    exact same ▸ grown.distinct
  · obtain rfl | mem := Multiset.mem_cons.mp mem
    · cases task
    · exact grown.results τ mem t task

/-- What a run itself has come to is not in the ledger. -/
theorem Booked.root {τ τ' : Strand} (h : Booked ⟨s, τ ::ₘ rest, log⟩) (root : τ.task? = none)
    (root' : τ'.task? = none) : Booked ⟨s, τ' ::ₘ rest, log⟩ := by
  have others : ∀ μ ∈ τ' ::ₘ rest, ∀ t, μ.task? = some t → μ ∈ τ ::ₘ rest := fun μ mem t task => by
    obtain rfl | mem := Multiset.mem_cons.mp mem
    · simp [root'] at task
    · exact Multiset.mem_cons_of_mem mem
  refine ⟨fun μ mem t task => h.known μ (others μ mem t task) t task, ?_,
    fun μ mem t task => h.results μ (others μ mem t task) t task⟩
  have distinct := h.distinct
  rw [tasks, Multiset.filterMap_cons_none _ _ root] at distinct
  rwa [tasks, Multiset.filterMap_cons_none _ _ root']

theorem Booked.reported {run : TokenId} {t : TaskId} {state : Strand.State} {result : Joined}
    (h : Booked ⟨s, ⟨run, .task t, state⟩ ::ₘ rest, log⟩) (came : state.joined? = some result) :
    Booked ⟨s.finish t result, ⟨run, .task t, state⟩ ::ₘ rest, log⟩ := by
  have lt := h.known _ (Multiset.mem_cons_self _ _) t rfl
  refine ⟨fun τ mem u task => ?_, h.distinct, fun τ mem u task r found => ?_⟩
  · simpa [finish_joins] using h.known τ mem u task
  · rw [finish_joined s t u result lt] at found
    split at found
    · next same =>
      subst same
      obtain rfl := h.unique mem (Multiset.mem_cons_self _ _) task rfl
      rw [← found, came]
    · exact h.results τ mem u task r found

theorem Step.booked (h : σ.Booked) (step : Step σ σ') : σ'.Booked := by
  cases step with
  | begin _ effect kept context => exact h.begun _ (.single (.fresh _)) effect kept context
  | beginBelow _ parent lt effect kept context =>
    exact h.begun _ (.single (.child _ parent)) effect kept context
  | poll s rest log run role segment =>
    have turned : Booked ⟨s, ⟨run, role, .running ⟨.resume segment, []⟩⟩ ::ₘ
        (Strand.ofSpawns run [] + rest), log⟩ := h.turn rfl .refl rfl
    simpa [Strand.ofSpawns] using turned
  | turn s rest log run role c worker =>
    obtain ⟨grows, es, new, trace, spawned, -⟩ := c.step_reacts worker s
    rw [Runtime.turn_eq trace spawned]
    exact h.turn rfl grows spawned
  | report s rest log run t state result came => exact h.reported came
  | giveUp s rest log r segment live unstarted =>
    have same : (Strand.remainder r).task? = none := by
      unfold Strand.remainder
      split <;> rfl
    exact (h.root rfl same).grow rfl (giveUp_grows r s)
  | cancel _ t => exact h.grow rfl (.single (.cancel _ t))
  | fresh => exact h.grow rfl (.single (.fresh _))
  | child _ parent lt => exact h.grow rfl (.single (.child _ parent))
  | prune _ held held_all => exact h.kept rfl (Nat.le_refl _) fun _ _ _ _ _ => rfl
  | outside _ s out =>
    refine h.kept rfl out.joins fun τ mem t task lt => ?_
    refine (out.joined t lt).resolve_right ?_
    rintro ⟨-, others⟩
    refine others τ mem ?_
    simp only [Strand.task?] at task
    split at task
    · cases task
    · next u role => cases task; exact role

theorem Reachable.booked (h : Reachable σ) : σ.Booked := by
  induction h with
  | refl => exact ⟨by simp, by simp [tasks], by simp⟩
  | tail _ step ih => exact Step.booked ih step

/-! ## What was cut off -/

theorem Step.joined? (h : σ.Booked) (step : Step σ σ') {t : TaskId} {result : Joined}
    (found : σ.store.joined? t = some result) : σ'.store.joined? t = some result := by
  have lt : t < σ.store.joins.size := by
    refine Nat.lt_of_not_le fun le => ?_
    have unknown : (default : Join).result = none := rfl
    simp [Store.joined?, Store.join, Array.getElem?_eq_none le, unknown] at found
  have grown : σ.store.Grows σ'.store → σ'.store.joined? t = some result :=
    fun grows => (grows.joined? lt).trans found
  cases step with
  | begin _ effect kept context => exact grown (.tail (.single (.fresh _)) (.emit _ _ rfl))
  | beginBelow _ parent lt effect kept context =>
    exact grown (.tail (.single (.child _ parent)) (.emit _ _ rfl))
  | poll s rest log run role segment => exact found
  | turn s rest log run role c worker => exact grown (c.step_reacts worker s).1
  | report s rest log run u state came_to came =>
    refine (finish_joined s u t came_to (h.known _ (Multiset.mem_cons_self _ _) u rfl)).trans ?_
    split
    · next same =>
      subst same
      have recorded := h.results _ (Multiset.mem_cons_self _ _) t rfl result found
      rw [← came, recorded]
    · exact found
  | giveUp s rest log r segment live unstarted => exact grown (giveUp_grows r s)
  | cancel _ u => exact grown (.single (.cancel _ u))
  | fresh => exact grown (.single (.fresh _))
  | child _ parent lt => exact grown (.single (.child _ parent))
  | prune _ held held_all => exact found
  | outside _ s out =>
    obtain same | ⟨none, -⟩ := out.joined t lt
    · exact same.trans found
    · simp [none] at found

/-- A strand that has failed takes no step. -/
theorem Step.failed (step : Step σ σ') {τ : Strand} (mem : τ ∈ σ.strands) (failed : τ.failed) :
    τ ∈ σ'.strands := by
  cases step with
  | begin | beginBelow => exact Multiset.mem_cons_of_mem mem
  | poll s rest log run role segment =>
    obtain rfl | mem := Multiset.mem_cons.mp mem
    · exact failed.elim
    · exact Multiset.mem_cons_of_mem mem
  | turn s rest log run role c worker =>
    obtain rfl | mem := Multiset.mem_cons.mp mem
    · exact failed.elim
    · exact Multiset.mem_cons_of_mem (Multiset.mem_add.mpr (.inr mem))
  | giveUp s rest log r segment live unstarted =>
    obtain rfl | mem := Multiset.mem_cons.mp mem
    · simp [Strand.failed, Strand.ofRun, live] at failed
    · exact Multiset.mem_cons_of_mem mem
  | report | cancel | fresh | child | prune | outside => exact mem

theorem Step.failure (step : Step σ σ') {run : TokenId} (failed : σ.Failed run) :
    σ'.Failed run := by
  obtain ⟨τ, mem, same, failed⟩ := failed
  exact ⟨τ, step.failed mem failed, same, failed⟩

/-- A part of a run was cut off: a strand has failed, or a task was refused by a closed
context. -/
def Cut (σ : Runtime) (run : TokenId) : Prop :=
  σ.Failed run ∨ ∃ t, σ.store.joined? t = some .aborted

theorem Step.cut (h : σ.Booked) (step : Step σ σ') {run : TokenId} (cut : σ.Cut run) :
    σ'.Cut run :=
  cut.imp step.failure fun ⟨t, aborted⟩ => ⟨t, step.joined? h aborted⟩

end Runtime

end EffectFibers
