import EffectFibers.Proofs.AlikeSteps

/-!
# Interchangeable effects

Runs of effects that differ by the laws of monads and functors cannot be told apart.  At any moment
the two have the same memory, tokens and log, and every strand has ended in the same way or waits
for the same (`Runtime.SameView`).  Each can do what the other does, at any moment and in any
order, but for turns that nobody sees (`Runtime.Bisimulation`); the turns that one side needs to
pass a few more frames on are such turns.

A bisimulation does not say that a poll comes to an end.  So it is shown of whole polls in addition:
if one side comes to something, so does the other side, and to the same.

## Main definitions

* `Runtime.Bisimilar`: neither side can do what the other cannot.
* `Effect.Interchangeable`: one effect may be put for the other.

## Main statements

* `Runtime.bisimulation_alike`: runtimes with alike strands are bisimilar.
* `Effect.Equivalent.interchangeable`: monad and functor laws, in any surroundings.
-/

namespace EffectFibers

/-! ## What can be seen -/

/-- Where a strand is in its course. -/
inductive Strand.Phase where
  /-- It waits, in a nest of loops, for what their posts say. -/
  | waiting (posts : Multiset Post)
  | running
  | ended (exit : Exit)
  | faulted (fault : Fault)
  | dropped

def Strand.State.phase : Strand.State → Strand.Phase
  | .waiting segment => .waiting ((segment.posts .outer).map Post.bare)
  | .running _ => .running
  | .ended x => .ended x
  | .faulted f => .faulted f
  | .dropped => .dropped

/-- What can be seen of a strand. -/
def Strand.face (τ : Strand) : TokenId × Strand.Role × Strand.Phase :=
  (τ.run, τ.role, τ.state.phase)

/-- What can be seen of a task that was started. -/
def Spawn.face (x : Spawn) : TaskId × Context := (x.task, x.context)

theorem Spawn.faces_alike {tasks tasks' : List Spawn} (h : List.Forall₂ Spawn.Alike tasks tasks') :
    tasks.map face = tasks'.map face := by
  induction h with
  | nil => rfl
  | cons first _ ih =>
    cases first
    exact congrArg (List.cons _) ih

/-- Two stores in which everything but the work of tasks is the same. -/
structure Store.SameView (s s' : Store) : Prop where
  store : s.withTasks [] = s'.withTasks []
  tasks : s.spawned.map Spawn.face = s'.spawned.map Spawn.face

namespace Store

variable {s s' s'' : Store}

theorem SameView.symm (h : s.SameView s') : s'.SameView s := ⟨h.store.symm, h.tasks.symm⟩

theorem SameView.trans (h : s.SameView s') (h' : s'.SameView s'') : s.SameView s'' :=
  ⟨h.store.trans h'.store, h.tasks.trans h'.tasks⟩

theorem Alike.sameView (h : s.Alike s') : s.SameView s' := by
  obtain ⟨tasks, alike, rfl⟩ := h
  exact ⟨rfl, Spawn.faces_alike alike⟩

/-- The events and the tasks since are alike. -/
theorem Alike.since {s₁ s₁' : Store} (h : s.Alike s') (h₁ : s₁.Alike s₁') :
    s.since s₁ = s'.since s₁' ∧ List.Forall₂ Spawn.Alike (s.started s₁) (s'.started s₁') := by
  obtain ⟨tasks, alike, rfl⟩ := h
  obtain ⟨tasks₁, alike₁, rfl⟩ := h₁
  refine ⟨rfl, ?_⟩
  have length : tasks₁.length - tasks.length = s₁.spawned.length - s.spawned.length := by
    rw [alike.length_eq, alike₁.length_eq]
  show List.Forall₂ Spawn.Alike (s₁.spawned.take _) (tasks₁.take (tasks₁.length - tasks.length))
  rw [length]
  exact List.forall₂_take _ alike₁

end Store

namespace Strand

inductive Alike : Strand → Strand → Prop
  | waiting (run : TokenId) (role : Role) {g g' : Segment} (h : g.Alike g')
      (fresh : role = .root → g.isFresh = g'.isFresh) :
      Alike ⟨run, role, .waiting g⟩ ⟨run, role, .waiting g'⟩
  | running (run : TokenId) (role : Role) {c c' : Config} (h : c.Alike c') :
      Alike ⟨run, role, .running c⟩ ⟨run, role, .running c'⟩
  | ended (run : TokenId) (role : Role) (x : Exit) :
      Alike ⟨run, role, .ended x⟩ ⟨run, role, .ended x⟩
  | faulted (run : TokenId) (role : Role) (f : Fault) :
      Alike ⟨run, role, .faulted f⟩ ⟨run, role, .faulted f⟩
  | dropped (run : TokenId) (role : Role) : Alike ⟨run, role, .dropped⟩ ⟨run, role, .dropped⟩

variable {τ τ' : Strand}

theorem Alike.refl (τ : Strand) : τ.Alike τ := by
  obtain ⟨run, role, state⟩ := τ
  cases state with
  | waiting g => exact .waiting run role (.refl g) fun _ => rfl
  | running c => exact .running run role (.refl c)
  | ended x => exact .ended run role x
  | faulted f => exact .faulted run role f
  | dropped => exact .dropped run role

theorem Alike.symm (h : τ.Alike τ') : τ'.Alike τ := by
  cases h with
  | waiting run role h fresh => exact .waiting run role h.symm fun root => (fresh root).symm
  | running run role h => exact .running run role h.symm
  | ended run role x => exact .ended run role x
  | faulted run role f => exact .faulted run role f
  | dropped run role => exact .dropped run role

theorem Alike.face (h : τ.Alike τ') : τ.face = τ'.face := by
  cases h with
  | waiting run role h fresh => simp [Strand.face, State.phase, h.bare]
  | running | ended | faulted | dropped => rfl

theorem Alike.role (h : τ.Alike τ') : τ.role = τ'.role := by
  cases h <;> rfl

theorem Alike.owned (h : τ.Alike τ') : τ.posts.map Post.owned = τ'.posts.map Post.owned := by
  cases h with
  | waiting run role h fresh => exact h.owned .outer
  | running run role h => exact h.owned
  | ended | faulted | dropped => rfl

theorem Alike.of_progress (run : TokenId) (role : Role) {p p' : Progress} (h : p.Alike p') :
    Alike ⟨run, role, p.state⟩ ⟨run, role, p'.state⟩ := by
  cases h with
  | next h => exact .running run role h
  | ended x => exact .ended run role x
  | parked h fresh => exact .waiting run role h fun _ => fresh
  | faulted f => exact .faulted run role f

theorem Alike.ofSpawns (run : TokenId) {new new' : List Spawn}
    (h : List.Forall₂ Spawn.Alike new new') :
    Multiset.Rel Alike (Strand.ofSpawns run new) (Strand.ofSpawns run new') := by
  induction h with
  | nil => exact .zero
  | @cons x x' rest rest' first _ ih =>
    have whole := ofSpawns_append run [x] rest
    have whole' := ofSpawns_append run [x'] rest'
    rw [List.singleton_append] at whole whole'
    rw [whole, whole']
    refine .add ?_ ih
    obtain ⟨task, context, job⟩ := first
    cases job with
    | segment h => exact .cons (.waiting run _ h nofun) .zero
    | detached h => exact .zero
    | same =>
      rename_i job
      cases job with
      | segment g => exact .cons (.waiting run _ (.refl g) nofun) .zero
      | fiber | observed | detached | completer | canceller => exact .zero

/-- Bags of strands that are alike. -/
abbrev AllAlike : Multiset Strand → Multiset Strand → Prop := Multiset.Rel Alike

theorem AllAlike.symm {S S' : Multiset Strand} (h : AllAlike S S') : AllAlike S' S :=
  (Multiset.rel_flip.mpr h).mono fun _ _ _ _ h => h.symm

theorem AllAlike.faces {S S' : Multiset Strand} (h : AllAlike S S') : S.map face = S'.map face := by
  induction h with
  | zero => rfl
  | cons first _ ih => rw [Multiset.map_cons, Multiset.map_cons, first.face, ih]

end Strand

namespace Runtime

variable {σ σ' τ υ : Runtime}

/-- All that can be seen is the same: the store but for the work of tasks, the log, how each strand
has ended, and what it waits for. -/
structure SameView (σ τ : Runtime) : Prop where
  store : σ.store.SameView τ.store
  log : σ.log = τ.log
  strands : σ.strands.map Strand.face = τ.strands.map Strand.face

theorem SameView.refl (σ : Runtime) : SameView σ σ := ⟨⟨rfl, rfl⟩, rfl, rfl⟩

theorem SameView.symm (h : SameView σ τ) : SameView τ σ :=
  ⟨h.store.symm, h.log.symm, h.strands.symm⟩

theorem SameView.trans (h : SameView σ τ) (h' : SameView τ υ) : SameView σ υ :=
  ⟨h.store.trans h'.store, h.log.trans h'.log, h.strands.trans h'.strands⟩

/-! ## Bisimulations -/

/-- A step that nobody sees. -/
structure Unseen (σ τ : Runtime) : Prop where
  step : Step σ τ
  view : SameView σ τ

/-- Some steps that nobody sees, and then a step or none. -/
def Weakly (σ τ : Runtime) : Prop :=
  ∃ σ₁, Relation.ReflTransGen Unseen σ σ₁ ∧ (σ₁ = τ ∨ Step σ₁ τ)

theorem view_of_unseen (h : Relation.ReflTransGen Unseen σ τ) : SameView σ τ := by
  induction h with
  | refl => exact .refl σ
  | tail _ last ih => exact ih.trans last.view

/-- Each side can do what the other does, and what can be seen stays the same. -/
structure Bisimulation (R : Runtime → Runtime → Prop) : Prop where
  view : ∀ {σ τ}, R σ τ → SameView σ τ
  forth : ∀ {σ τ σ'}, R σ τ → Step σ σ' → ∃ τ', Weakly τ τ' ∧ R σ' τ'
  back : ∀ {σ τ τ'}, R σ τ → Step τ τ' → ∃ σ', Weakly σ σ' ∧ R σ' τ'

def Bisimilar (σ τ : Runtime) : Prop := ∃ R, Bisimulation R ∧ R σ τ

namespace Bisimulation

variable {R S : Runtime → Runtime → Prop}

theorem flip (h : Bisimulation R) : Bisimulation (Function.swap R) where
  view rel := (h.view rel).symm
  forth rel step := h.back rel step
  back rel step := h.forth rel step

theorem unseen (h : Bisimulation R) (rel : R σ τ)
    (steps : Relation.ReflTransGen Unseen σ σ') :
    ∃ τ', Relation.ReflTransGen Unseen τ τ' ∧ R σ' τ' := by
  induction steps with
  | refl => exact ⟨τ, .refl, rel⟩
  | tail _ last ih =>
    obtain ⟨τ₁, before, rel₁⟩ := ih
    obtain ⟨τ₂, ⟨τ', unseen, last'⟩, rel₂⟩ := h.forth rel₁ last.step
    have between := before.trans unseen
    obtain rfl | step := last'
    · exact ⟨τ', between, rel₂⟩
    · -- What the last step changes would be seen on the other side.
      have still := (h.view rel₁).symm.trans (last.view.trans (h.view rel₂))
      exact ⟨τ₂, between.tail ⟨step, (view_of_unseen unseen).symm.trans still⟩, rel₂⟩

theorem weakly (h : Bisimulation R) (rel : R σ τ) (step : Weakly σ σ') :
    ∃ τ', Weakly τ τ' ∧ R σ' τ' := by
  obtain ⟨σ₁, steps, last⟩ := step
  obtain ⟨τ₁, unseen, rel₁⟩ := h.unseen rel steps
  obtain rfl | step := last
  · exact ⟨τ₁, ⟨τ₁, unseen, .inl rfl⟩, rel₁⟩
  · obtain ⟨τ', ⟨τ₂, unseen', last⟩, rel'⟩ := h.forth rel₁ step
    exact ⟨τ', ⟨τ₂, unseen.trans unseen', last⟩, rel'⟩

theorem comp (h : Bisimulation R) (h' : Bisimulation S) : Bisimulation (Relation.Comp R S) where
  view := fun ⟨_, first, second⟩ => (h.view first).trans (h'.view second)
  forth := by
    rintro σ υ σ' ⟨τ, first, second⟩ step
    obtain ⟨τ', weakly, first'⟩ := h.forth first step
    obtain ⟨υ', weakly', second'⟩ := h'.weakly second weakly
    exact ⟨υ', weakly', τ', first', second'⟩
  back := by
    rintro σ υ υ' ⟨τ, first, second⟩ step
    obtain ⟨τ', weakly, second'⟩ := h'.back second step
    obtain ⟨σ', weakly', first'⟩ := h.flip.weakly first weakly
    exact ⟨σ', weakly', τ', first', second'⟩

end Bisimulation

theorem Bisimilar.trans (h : Bisimilar σ τ) (h' : Bisimilar τ υ) : Bisimilar σ υ := by
  obtain ⟨R, bisimulation, first⟩ := h
  obtain ⟨S, bisimulation', second⟩ := h'
  exact ⟨_, bisimulation.comp bisimulation', τ, first, second⟩

/-- Whatever the one side comes to, the other side can come to what cannot be told from it. -/
theorem Bisimilar.steps (h : Bisimilar σ τ) (steps : Steps σ σ') :
    ∃ τ', Steps τ τ' ∧ SameView σ' τ' := by
  obtain ⟨R, bisimulation, rel⟩ := h
  obtain ⟨τ', steps', rel'⟩ : ∃ τ', Steps τ τ' ∧ R σ' τ' := by
    induction steps with
    | refl => exact ⟨τ, .refl, rel⟩
    | tail _ step ih =>
      obtain ⟨τ₁, steps₁, rel₁⟩ := ih
      obtain ⟨τ', ⟨τ₂, unseen, last⟩, rel'⟩ := bisimulation.forth rel₁ step
      have before : Steps τ τ₂ :=
        steps₁.trans (unseen.lift id fun _ _ h => h.step)
      obtain rfl | step := last
      · exact ⟨τ₂, before, rel'⟩
      · exact ⟨τ', before.tail step, rel'⟩
  exact ⟨τ', steps', bisimulation.view rel'⟩

/-! ## Runtimes that are alike -/

structure Alike (σ τ : Runtime) : Prop where
  store : σ.store.Alike τ.store
  strands : Strand.AllAlike σ.strands τ.strands
  log : σ.log = τ.log

namespace Alike

theorem symm (h : Alike σ τ) : Alike τ σ where
  store := h.store.symm
  strands := h.strands.symm
  log := h.log.symm

theorem view (h : Alike σ τ) : SameView σ τ where
  store := h.store.sameView
  log := h.log
  strands := h.strands.faces

theorem strand {s : Store} {τ₀ : Strand} {rest : Multiset Strand} {log : List Moment}
    (h : Alike ⟨s, τ₀ ::ₘ rest, log⟩ τ) : ∃ s' τ₁ rest', τ = ⟨s', τ₁ ::ₘ rest', log⟩ ∧
      s.Alike s' ∧ τ₀.Alike τ₁ ∧ Strand.AllAlike rest rest' := by
  obtain ⟨s', strands', log'⟩ := τ
  obtain ⟨store, strands, log⟩ := h
  cases log
  obtain ⟨τ₁, rest', first, others, same⟩ := Multiset.rel_cons_left.mp strands
  cases same
  exact ⟨s', τ₁, rest', rfl, store, first, others⟩

/-- Runs of alike effects begin alike. -/
theorem begin {new new' : TokenId × Store} (strands : Strand.AllAlike σ.strands τ.strands)
    (log : σ.log = τ.log) (both : Store.Both new new') {e e' : Effect} (effect : e.Alike e')
    (kept : List TokenId) (context : Context) :
    Alike (σ.begin new e kept context) (τ.begin new' e' kept context) := by
  obtain ⟨t, s, s', rfl, rfl, store⟩ := both
  have segment : Segment.Alike (.start ⟨⟨t, context, kept⟩, []⟩ e)
      (.start ⟨⟨t, context, kept⟩, []⟩ e') := .start (.mk _ .nil) effect
  exact ⟨store.apply (.emit _), .cons (.waiting t .root segment fun _ => rfl) strands, log⟩

theorem turn {s s' : Store} {rest rest' : Multiset Strand} {c c' : Config} {worker : Worker}
    (agree : Machine.Agree (c.step worker s) (c'.step worker s')) (store : s.Alike s')
    (strands : Strand.AllAlike rest rest') (run : TokenId) (role : Strand.Role)
    (log : List Moment) :
    Alike (turn worker run role c ⟨s, rest, log⟩) (turn worker run role c' ⟨s', rest', log⟩) := by
  obtain ⟨events, tasks⟩ := store.since agree.store
  have moment : Moment.of run s = Moment.of run s' := by
    funext e
    unfold Moment.of
    split
    · rw [store.isCancelled]
    · rfl
  refine ⟨agree.store, .cons (.of_progress run role agree.progress) ?_, ?_⟩
  · exact .add (Strand.Alike.ofSpawns run tasks) strands
  · show List.map _ _ ++ log = List.map _ _ ++ log
    rw [events, moment]

end Alike

/-- Calm steps of a poll are seen by nobody. -/
theorem unseen_of_calm {c d : Config} (calms : Relation.ReflTransGen Config.Calm c d) (s : Store)
    (rest : Multiset Strand) (log : List Moment) (run : TokenId) (role : Strand.Role) :
    Relation.ReflTransGen Unseen ⟨s, ⟨run, role, .running c⟩ ::ₘ rest, log⟩
      ⟨s, ⟨run, role, .running d⟩ ::ₘ rest, log⟩ := by
  induction calms with
  | refl => exact .refl
  | @tail b d _ calm ih =>
    have step := Step.turn s rest log run role b default
    rw [turn_still (calm.step default s)] at step
    refine .tail ih ⟨step, ⟨rfl, rfl⟩, rfl, ?_⟩
    simp [Strand.face, Strand.State.phase]

theorem giveUp_alike {s s' : Store} (store : s.Alike s') (token : TokenId) (context : Context)
    (started : Bool) {g g' : Segment} (segment : g.Alike g') :
    (Run.giveUp ⟨token, context, .live g, started⟩ s).Alike
      (Run.giveUp ⟨token, context, .live g', started⟩ s') := by
  have cancelled := store.apply (.cancel token)
  cases started with
  | false => exact cancelled
  | true =>
    exact ((cancelled.apply (.emit (.runDropped context.name))).spawn context
      (.detached segment)).store

theorem Outside.alike {s : Store} (out : σ.Outside s) (h : Alike σ τ) : τ.Outside s := by
  obtain ⟨tokens, brackets, trace, joins, joined⟩ := out
  obtain ⟨s', strands', log'⟩ := τ
  obtain ⟨⟨tasks, -, rfl⟩, strands, -⟩ := h
  refine ⟨tokens, brackets, trace, joins, fun t lt => (joined t lt).imp_right ?_⟩
  rintro ⟨none, alone⟩
  refine ⟨none, fun τ₁ mem => ?_⟩
  obtain ⟨τ₀, mem₀, alike⟩ := Multiset.exists_mem_of_rel_of_mem strands.symm mem
  exact alike.role ▸ alone τ₀ mem₀

/-- What one side does the other side does too, after calm steps at most. -/
theorem Alike.forth (h : Alike σ τ) (step : Step σ σ') : ∃ τ', Weakly τ τ' ∧ Alike σ' τ' := by
  -- All but the calm turns are answered by the step itself.
  have once {τ' : Runtime} (step : Step τ τ') (h : Alike σ' τ') :
      ∃ τ', Weakly τ τ' ∧ Alike σ' τ' := ⟨τ', ⟨τ, .refl, .inr step⟩, h⟩
  have size : τ.store.size = σ.store.size := congrArg (·.nodes.size) h.store.tokens
  cases step with
  | begin _ effect kept context =>
    exact once (.begin τ effect kept context)
      (.begin h.strands h.log h.store.freshToken (.refl effect) kept context)
  | beginBelow _ parent lt effect kept context =>
    exact once (.beginBelow τ parent (size ▸ lt) effect kept context)
      (.begin h.strands h.log (h.store.childToken parent) (.refl effect) kept context)
  | poll s rest log run role segment =>
    obtain ⟨s', τ₁, rest', rfl, store, first, others⟩ := h.strand
    cases first with
    | waiting _ _ segment fresh =>
      exact once (.poll s' rest' log run role _)
        ⟨store, .cons (.running run role (.resume segment .nil)) others, rfl⟩
  | turn s rest log run role c worker =>
    obtain ⟨s', τ₁, rest', rfl, store, first, others⟩ := h.strand
    cases first with
    | running _ _ alike =>
      obtain ⟨d, step, alike⟩ | ⟨d', calms, agree⟩ := alike.turn worker store
      · rw [turn_still step]
        exact ⟨_, ⟨_, .refl, .inl rfl⟩, store, .cons (.running run role alike) others, rfl⟩
      · exact ⟨_, ⟨_, unseen_of_calm calms s' rest' log run role, .inr (.turn ..)⟩,
          .turn agree store others run role log⟩
  | report s rest log run t state result came =>
    obtain ⟨s', τ₁, rest', rfl, store, first, others⟩ := h.strand
    have finished := store.apply (.finish t result)
    cases first with
    | ended _ _ x =>
      exact once (.report s' rest' log run t (.ended x) result came)
        ⟨finished, .cons (.ended run _ x) others, rfl⟩
    | faulted _ _ f =>
      exact once (.report s' rest' log run t (.faulted f) result came)
        ⟨finished, .cons (.faulted run _ f) others, rfl⟩
    | waiting | running | dropped => cases came
  | giveUp s rest log r segment live unstarted =>
    obtain ⟨s', τ₁, rest', rfl, store, first, others⟩ := h.strand
    obtain ⟨token, context, state, started⟩ := r
    cases live
    cases first with
    | @waiting _ _ _ g' segment fresh =>
      let r' : Run := ⟨token, context, .live g', started⟩
      have step : Step ⟨s', .ofRun r' ::ₘ rest', log⟩ _ :=
        .giveUp s' rest' log r' g' rfl fun none => fresh rfl ▸ unstarted none
      refine once step ⟨giveUp_alike store token context started segment, .cons ?_ others, rfl⟩
      unfold Strand.remainder
      split
      · exact .waiting token .root segment fresh
      · exact .dropped token .root
  | cancel _ t => exact once (.cancel τ t) ⟨h.store.apply (.cancel t), h.strands, h.log⟩
  | fresh => exact once (.fresh τ) ⟨h.store.freshToken.store, h.strands, h.log⟩
  | child _ parent lt =>
    exact once (.child τ parent (size ▸ lt))
      ⟨(h.store.childToken parent).store, h.strands, h.log⟩
  | prune _ held owned =>
    refine once (.prune τ held fun τ₁ mem p inside t own => ?_)
      ⟨h.store.apply (.prune held), h.strands, h.log⟩
    obtain ⟨τ₀, mem₀, alike⟩ := Multiset.exists_mem_of_rel_of_mem h.strands.symm mem
    have same : p.owned ∈ τ₀.posts.map Post.owned := alike.owned ▸ Multiset.mem_map_of_mem _ inside
    obtain ⟨p₀, inside₀, same⟩ := Multiset.mem_map.mp same
    exact owned τ₀ mem₀ p₀ inside₀ t (same ▸ own)
  | outside _ s out => exact once (.outside τ s (out.alike h)) ⟨.refl s, h.strands, h.log⟩

theorem bisimulation_alike : Bisimulation Alike where
  view h := h.view
  forth h step := h.forth step
  back h step := by
    obtain ⟨σ', weakly, alike⟩ := h.symm.forth step
    exact ⟨σ', weakly, alike.symm⟩

end Runtime

/-! ## Interchangeable effects -/

namespace Effect

/-- Effects of which one comes from the other when the laws are used in any places, any number of
times. -/
abbrev Equivalent : Effect → Effect → Prop := Relation.ReflTransGen Alike

/-- What a poll comes to in which a loop evaluates the one effect, it comes to as well when the loop
evaluates the other one, whatever frames are pending and whatever loops are around. -/
def PollsLike (e e' : Effect) : Prop :=
  ∀ (worker : Worker) (loop : Loop) (callers : List Caller) (s : Store) (bound : Nat)
    (r : Config.Result) (t : Store), Config.run worker bound ⟨.eval loop e, callers⟩ s = (r, t) →
    r ≠ .unfinished → ∃ bound' r' t',
      Config.run worker bound' ⟨.eval loop e', callers⟩ s = (r', t') ∧
        r.state?.map Strand.State.phase = r'.state?.map Strand.State.phase ∧ t.SameView t'

/-- One effect may be put for the other. -/
structure Interchangeable (e e' : Effect) : Prop where
  polls : PollsLike e e'
  polls' : PollsLike e' e
  /-- Under every schedule, and whatever is cancelled at what time. -/
  runs : ∀ (σ : Runtime) (kept : List TokenId) (context : Context),
    (σ.begin σ.store.freshToken e kept context).Bisimilar
      (σ.begin σ.store.freshToken e' kept context)
  runsBelow : ∀ (σ : Runtime) (parent : TokenId) (kept : List TokenId) (context : Context),
    (σ.begin (σ.store.childToken parent) e kept context).Bisimilar
      (σ.begin (σ.store.childToken parent) e' kept context)

namespace Equivalent

variable {e e' : Effect}

theorem symm (h : Equivalent e e') : Equivalent e' e := by
  induction h with
  | refl => exact .refl
  | tail _ last ih => exact .head last.symm ih

theorem polls (h : Equivalent e e') : PollsLike e e' := by
  intro worker loop callers s bound r t run came
  induction h with
  | refl => exact ⟨bound, r, t, run, rfl, rfl, rfl⟩
  | tail _ last ih =>
    obtain ⟨bound₁, r₁, t₁, run₁, phase, view⟩ := ih
    have came₁ : r₁ ≠ .unfinished := by
      rintro rfl
      cases r with
      | unfinished => exact came rfl
      | ended | parked | faulted => cases phase
    obtain ⟨bound', r', t', run', result, after⟩ :=
      (last.evals (.refl loop) (.refl callers)).run (.refl s) run₁ came₁
    refine ⟨bound', r', t', run', phase.trans ?_, view.trans after.sameView⟩
    cases result with
    | ended | faulted => rfl
    | parked h fresh => simp [Config.Result.state?, Strand.State.phase, h.bare]

theorem begin (h : Equivalent e e') (σ : Runtime) (new : TokenId × Store) (kept : List TokenId)
    (context : Context) : (σ.begin new e kept context).Bisimilar (σ.begin new e' kept context) := by
  have strands : Strand.AllAlike σ.strands σ.strands :=
    Multiset.rel_refl_of_refl_on fun τ _ => .refl τ
  have both : Store.Both new new := ⟨_, _, _, rfl, rfl, .refl _⟩
  have alike {e e' : Effect} (h : e.Alike e') :
      (σ.begin new e kept context).Bisimilar (σ.begin new e' kept context) :=
    ⟨Runtime.Alike, Runtime.bisimulation_alike, .begin strands rfl both h kept context⟩
  induction h with
  | refl => exact alike (.refl e)
  | tail _ last ih => exact ih.trans (alike last)

/-- Monad and functor laws: their two sides are interchangeable, in any place of any effect. -/
theorem interchangeable (h : Equivalent e e') : Interchangeable e e' where
  polls := h.polls
  polls' := h.symm.polls
  runs σ := h.begin σ _
  runsBelow σ _ := h.begin σ _

end Equivalent

/-- A use and a finalizer that map by the identity end as those without it do. -/
theorem interchangeable_guarantee : ∃ τ : Runtime,
    Runtime.Steps (Runtime.starting (unit.guarantee unit) Context.home) τ ∧
      (0, .root, .ended (.succeeded .null)) ∈ τ.strands.map Strand.face := by
  let effect : Effect := (unit.mapValue id).guarantee (unit.mapValue id)
  have law : Law (unit.mapValue id) unit := .map_id unit
  have equivalent : Equivalent effect (unit.guarantee unit) :=
    .single (.inside (.bracket (.refl _) (fun _ => .law law) (fun _ _ => .law law)
      fun _ _ => law.built rfl))
  let poll := Segment.poll ⟨1, "main"⟩ 30 (.start ⟨⟨0, Context.home, []⟩, []⟩ effect)
    (Runtime.starting effect Context.home).store
  have came : poll = (.ended (.succeeded .null), poll.2) := rfl
  obtain ⟨marks, -, steps⟩ := Runtime.steps_of_starting rfl came
  have runs := equivalent.interchangeable.runs {} [] Context.home
  obtain ⟨τ, steps', view⟩ := Runtime.Bisimilar.steps runs steps
  refine ⟨τ, steps', view.strands ▸ ?_⟩
  rw [Multiset.map_cons]
  exact Multiset.mem_cons_self _ _

end Effect

end EffectFibers
