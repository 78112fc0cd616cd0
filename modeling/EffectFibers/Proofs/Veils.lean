import EffectFibers.Proofs.Finalization
import EffectFibers.Proofs.Surroundings

/-!
# Behind a veil

Two runtimes of the same strands are told apart by nothing if their stores differ in tokens only
that are hidden from the strands, and in what is out of view (`Runtime.Veiled`).  Whatever a strand
does on one side it does on the other side.  What happens elsewhere on one side is brought about on
the other, where nothing that is barred is cancelled.

## Main statements

* `Strand.Goes.mirrors`: a strand does the same in stores that agree on what it can see.
* `Runtime.Veiled.act`, `Runtime.Veiled.elsewhere`: the two kinds of steps.
-/

namespace EffectFibers

variable {V : View}

/-! ## Nothing is told apart -/

theorem eq_of_forall₂ {α : Type*} {R : α → α → Prop} {l l' : List α} (h : List.Forall₂ R l l')
    (eq : ∀ a b, R a b → a = b) : l = l' :=
  List.forall₂_eq_eq_eq ▸ h.imp eq

theorem Frame.Mirrors.eq {f f' : Frame} (h : f.Mirrors V.lens f') : f = f' := by
  cases h with
  | @release b b' number =>
    have same : b = b' := number
    rw [same]
  | map | bind | handle | again => rfl

theorem Loop.Mirrors.eq {l l' : Loop} (h : l.Mirrors V.lens l') : l = l' := by
  obtain ⟨env, frames⟩ := h
  rw [eq_of_forall₂ frames fun _ _ frame => frame.eq]

theorem Group.Mirrors.eq {g g' : Group} (h : g.Mirrors V.lens g') : g = g' := by
  obtain ⟨token, operands, values, failure, canceled⟩ := h
  rw [eq_of_forall₂ operands fun _ _ same => Prod.ext same.1 same.2]

theorem Segment.Mirrors.eq {g g' : Segment} (h : g.Mirrors V.lens g') : g = g' := by
  induction h with
  | start loop | callback loop | future loop => rw [loop.eq]
  | @shifted env t t' task =>
    have same : t = t' := task
    rw [same]
  | acquiring loop used released nested ih | settling loop winner exit nested ih
  | remaining loop side nested ih => rw [loop.eq, ih]
  | @releasing l l' b b' inner inner' loop number outcome nested ih =>
    have same : b = b' := number
    rw [loop.eq, same, ih]
  | racing loop tokens onLeft onRight ih ih' => rw [loop.eq, ih, ih']
  | gathering loop group => rw [loop.eq, group.eq]

theorem Caller.Mirrors.eq {c c' : Caller} (h : c.Mirrors V.lens c') : c = c' := by
  cases h with
  | acquiring loop | settling loop | remaining loop => rw [loop.eq]
  | @releasing l l' b b' loop number =>
    have same : b = b' := number
    rw [loop.eq, same]
  | racingLeft loop tokens other | racingRight loop tokens other => rw [loop.eq, other.eq]

theorem Config.Mirrors.eq {c c' : Config} (h : c.Mirrors V.lens c') : c = c' := by
  have all {cs cs' : List Caller} (callers : Caller.AllMirror V.lens cs cs') : cs = cs' :=
    eq_of_forall₂ callers fun _ _ caller => caller.eq
  cases h with
  | eval loop reads callers | unwind loop x callers => rw [loop.eq, all callers]
  | leave x callers => rw [all callers]
  | resume segment callers | park segment callers => rw [segment.eq, all callers]

theorem Strand.State.Mirrors.eq {state state' : Strand.State} (h : state.Mirrors V.lens state') :
    state = state' := by
  cases h with
  | waiting segment => rw [segment.eq]
  | running config => rw [config.eq]
  | ended | faulted | dropped => rfl

theorem Event.Mirrors.eq {e e' : Event} (h : e.Mirrors V.lens e') : e = e' := by
  cases h with
  | same => rfl
  | @acquired _ b b' number | @useStarted _ b b' number | @releaseStarted _ b b' number
  | @releaseFailed b b' number | @releaseFinished _ b b' number =>
    have same : b = b' := number
    rw [same]

theorem Strand.Mirrors.eq {μ μ' : Strand} (h : μ.Mirrors V.lens μ') : μ = μ' := by
  obtain ⟨run, part, same⟩ := h
  cases part with
  | root => rw [same.eq]
  | @task t t' task =>
    have number : t = t' := task
    rw [same.eq, number]

/-- The other side of an agreement. -/
theorem Store.Agree.symm {hidden : TokenId → Prop} {A B : Store} (h : A.Agree V.lens hidden B) :
    B.Agree V.lens hidden A where
  tokens := h.tokens.symm
  clear := h.clear
  memory := V.equivalence.symm h.memory
  now := h.now.symm
  timed := h.timed.symm
  ended := h.ended.symm
  slots := h.slots.symm
  join t t' task := (h.join t' t (Eq.symm task)).imp Eq.symm Eq.symm
  tasks i := (h.tasks i).symm
  brackets i := (h.brackets i).symm

/-! ## What a strand does -/

variable {hidden : TokenId → Prop} {s s' u : Store}

/-- What is still to be evaluated by the strand looks at nothing that is out of view. -/
def Strand.Reads (V : View) (μ : Strand) : Prop := μ.state.Mirrors V.lens μ.state

/-- What is noted of loops that are not hidden is the same in both stores. -/
theorem Store.Agree.moments (agree : s.Agree V.lens hidden u) (run : TokenId) (es : List Event)
    (shown : ∀ e ∈ es, ∀ t, e.fiber? = some t → ¬ hidden t) :
    es.map (Moment.of run u) = es.map (Moment.of run s) := by
  refine List.map_congr_left fun e mem => ?_
  unfold Moment.of
  split
  · next t own => rw [agree.isCancelled (shown e mem t own)]
  · rfl

/-- A strand does the same in stores that agree on what it can see. -/
theorem Strand.Goes.mirrors {μ μ' : Strand} {begun : Multiset Strand} {marks : List Moment}
    (goes : μ.Goes s s' μ' begun marks) (reads : μ.Reads V)
    (shown : ∀ φ ∈ Post.fibers μ.posts, ¬ hidden φ.token)
    (marked : ∀ m ∈ marks, ∀ t, m.event.fiber? = some t → ¬ hidden t)
    (agree : s.Agree V.lens hidden u) : ∃ u', μ.Goes u u' μ' begun marks ∧
      s'.Agree V.lens hidden u' ∧ μ'.Reads V ∧ ∀ τ ∈ begun, τ.Reads V := by
  cases goes with
  | poll run role segment =>
    refine ⟨u, .poll run role segment, agree, ?_, by simp⟩
    cases reads with
    | waiting segment => exact .running (.resume segment .nil)
  | report run t state result h =>
    exact ⟨_, .report run t state result h, agree.finish rfl result, reads, by simp⟩
  | @turn run role c worker es new trace spawned =>
    cases reads with
    | running config =>
      obtain ⟨progress, along⟩ := Config.step_mirrors worker config shown agree
      obtain ⟨es₁, es₁', trace₁, trace', events⟩ := along.trace
      obtain ⟨new₁, new₁', spawned₁, spawned', tasks⟩ := along.spawned
      obtain rfl : es₁ = es := List.append_cancel_right (trace₁.symm.trans trace)
      obtain rfl : new₁ = new := List.append_cancel_right (spawned₁.symm.trans spawned)
      obtain rfl : es₁ = es₁' := eq_of_forall₂ events fun _ _ event => event.eq
      have rel := Strand.Mirrors.ofSpawns run tasks
      have begun : Strand.ofSpawns run new₁ = Strand.ofSpawns run new₁' :=
        Multiset.rel_eq.mp (rel.mono fun _ _ _ _ same => same.eq)
      have state := Strand.State.Mirrors.of_progress progress
      have moments := agree.moments run (es₁.filter Event.isMark) fun e mem =>
        marked _ (List.mem_map_of_mem mem)
      have goes := Strand.Goes.turn run role c worker trace' spawned'
      rw [← begun, ← state.eq, moments] at goes
      refine ⟨_, goes, along.toAgree, ?_, fun τ mem => ?_⟩
      · have eq := state.eq
        unfold Reads
        rw [← eq] at state
        exact state
      · obtain ⟨τ', -, same⟩ := Multiset.exists_mem_of_rel_of_mem rel mem
        obtain rfl := same.eq
        obtain ⟨_, -, state⟩ := same
        exact state

namespace Runtime

variable {σ σ' τ τ' υ υ' : Runtime} {barred : TokenId → Prop}

theorem crew_of_strands (same : σ'.strands = σ.strands) : σ'.crew = σ.crew := by
  rw [crew, crew, parties, parties, same]

theorem mem_crew_of_strand {μ : Strand} (mem : μ ∈ σ.strands) {φ : Fiber}
    (inside : φ ∈ Post.fibers μ.posts) : (μ.run, φ) ∈ σ.crew :=
  mem_crew.mpr ⟨μ.party, Multiset.mem_map_of_mem _ mem, rfl, Post.mem_fibers.mp inside⟩

theorem mem_badges_of_strand {μ : Strand} (mem : μ ∈ σ.strands) {φ : Fiber}
    (inside : φ ∈ Post.fibers μ.posts) : φ.token ∈ badges σ.crew :=
  mem_badges.mpr ⟨_, mem_crew_of_strand mem inside, rfl⟩

theorem Elsewhere.size_le {own : Multiset Strand} {s s' : Store} (h : Elsewhere own s s') :
    s.size ≤ s'.size := by
  cases h with
  | drifts h =>
    obtain ⟨⟨s₁, grows, same⟩, -⟩ := h
    have size : s'.size = s₁.size := by rw [Store.size, Store.size, same]
    exact size ▸ grows.size_le
  | prune held h same =>
    subst same
    simp [Store.size, Forest.prune]

/-! ## Two runtimes of the same strands -/

variable (V barred) in
/-- The strands of two runtimes are the same.  What is barred is hidden from them, and the stores
differ in nothing but what is hidden or out of view. -/
structure Veiled (τ υ : Runtime) : Prop where
  strands : υ.strands = τ.strands
  log : υ.log = τ.log
  reads : ∀ μ ∈ τ.strands, μ.Reads V
  manned : τ.Manned
  named : ∀ t, V.named t → t < τ.store.size
  agree : ∃ hidden, τ.store.Agree V.lens hidden υ.store ∧ (∀ t, barred t → hidden t) ∧
    ∀ t ∈ badges τ.crew, ¬ hidden t

namespace Veiled

theorem symm (h : Veiled V barred τ υ) : Veiled V barred υ τ := by
  obtain ⟨strands, log, reads, manned, named, hidden, agree, veiled, shown⟩ := h
  have crew := crew_of_strands strands
  refine ⟨strands.symm, log.symm, strands ▸ reads, ⟨?_, crew ▸ manned.distinct, ?_⟩, ?_, hidden,
    agree.symm, veiled, crew ▸ shown⟩
  · rw [crew, ← agree.size]
    exact manned.bound
  · rw [events, log, ← agree.size]
    exact manned.marked
  · rw [← agree.size]
    exact named

theorem looks (h : Veiled V barred τ υ) : V.memory τ.store.memory υ.store.memory := by
  obtain ⟨hidden, agree, -⟩ := h.agree
  exact agree.memory

/-- What the strands do is the same on both sides. -/
theorem act (h : Veiled V barred τ υ) (act : Act τ τ') :
    ∃ υ', Act υ υ' ∧ Veiled V barred τ' υ' := by
  have step := act.step
  have manned' := step.manned h.manned
  obtain ⟨strands, log, reads, manned, named, hidden, agree, veiled, shown⟩ := h
  obtain ⟨run, ms, log', marks⟩ := step.move.marks
  have young : ∀ t ∈ badges τ'.crew, ¬ hidden t := fun t mem inside => by
    obtain ⟨n, inCrew, rfl⟩ := mem_badges.mp mem
    obtain ⟨n₀, mem₀, -, token⟩ | new := step.move.member inCrew
    · exact shown _ (mem_badges.mpr ⟨n₀, mem₀, token⟩) inside
    · exact Nat.not_le.mpr (agree.tokens.known _ inside) new
  obtain ⟨goes, rest, moments⟩ := act
  obtain ⟨u, strandsυ, logυ⟩ := υ
  cases strands
  cases log
  have new := List.append_cancel_right log'
  obtain ⟨u', goes', agree', reads', begun⟩ := goes.mirrors (reads _ (Multiset.mem_cons_self _ _))
    (fun φ mem => shown _ (mem_badges_of_strand (Multiset.mem_cons_self _ _) mem))
    (fun m mem t own => by
      obtain ⟨e, inMarks, rfl⟩ := List.mem_map.mp (new ▸ mem)
      obtain ⟨n, inCrew, -, token⟩ := marks e inMarks
      obtain rfl : n.2.token = t := Option.some.inj (token.symm.trans own)
      exact shown _ (mem_badges.mpr ⟨n, inCrew, rfl⟩)) agree
  refine ⟨_, .mk goes' rest moments, rfl, rfl, fun μ mem => ?_, manned', fun t known => ?_, hidden,
    agree', veiled, young⟩
  · obtain rfl | mem := Multiset.mem_cons.mp mem
    · exact reads'
    · obtain mem | mem := Multiset.mem_add.mp mem
      · exact begun μ mem
      · exact reads μ (Multiset.mem_cons_of_mem mem)
  · exact Nat.lt_of_lt_of_le (named t known) step.ages.size

/-- What happens elsewhere is brought about on the other side, but for what is barred and what is
out of view. -/
theorem elsewhere (h : Veiled V barred τ υ) {s : Store} (other : Elsewhere τ.strands τ.store s)
    (looks : V.memory τ.store.memory s.memory) :
    ∃ υ', Stirs barred υ υ' ∧ Veiled V barred { τ with store := s } υ' := by
  have size := other.size_le
  obtain ⟨strands, log, reads, manned, named, hidden, agree, veiled, shown⟩ := h
  have manned' : Manned { τ with store := s } := ⟨fun t mem =>
    Nat.lt_of_lt_of_le (manned.bound t mem) size, manned.distinct, fun e mem t own =>
    Nat.lt_of_lt_of_le (manned.marked e mem t own) size⟩
  have named' (t : TokenId) (known : V.named t) : t < s.size :=
    Nat.lt_of_lt_of_le (named t known) size
  cases other with
  | drifts drifts =>
    obtain ⟨hidden', υ', stirs, log', agree', old⟩ :=
      stirs_of_drifts agree veiled named (strands ▸ drifts) looks
    refine ⟨υ', stirs, stirs.strands.trans strands, log'.trans log, reads, manned', named',
      hidden', agree', fun t inside => ?_, fun t mem inside => ?_⟩
    · exact (old t (agree.tokens.known t (veiled t inside))).mpr (veiled t inside)
    · exact shown t mem ((old t (manned.bound t mem)).mp inside)
  | prune held owned same =>
    subst same
    refine ⟨_, .single (.prune held (strands ▸ owned)), strands, log, reads, manned', named',
      hidden, ?_, veiled, shown⟩
    exact ((Store.Along.refl agree).withTokens (agree.tokens.prune held)).toAgree

end Veiled

end Runtime

end EffectFibers
