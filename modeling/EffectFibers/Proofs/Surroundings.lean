import EffectFibers.Proofs.Lockstep

/-!
# What happens around strands

The steps of a runtime are of two kinds: a strand goes on (`Runtime.Act`), or the surroundings
begin and give up runs, cancel tokens and change the store.  What happens elsewhere changes the
store of a strand without the strand (`Elsewhere`).  It can be brought about around another
runtime, in which nothing that is barred is cancelled and nothing is written (`Runtime.Stir`): only
what is hidden, and what is out of view, differs then.

## Main definitions

* `Strand.Goes`: what a strand does in a step, whatever is around it.
* `Runtime.Act`, `Runtime.Stir`: a strand goes on, and what happens around a runtime in which
  nothing barred is cancelled.

## Main statements

* `Runtime.Step.occurs`: a step is an act, or happens elsewhere.
* `Runtime.stirs_of_drifts`: the change of a store is brought about around another runtime.
-/

namespace EffectFibers

/-- Nothing is told apart but what is out of view. -/
def View.lens (V : View) : Lens where
  toView := V
  task t t' := t = t'
  bracket b b' := b = b'
  single same same' := by rw [same, same']

/-- What a strand does in a step, with the tasks that it begins and the marks that it leaves. -/
inductive Strand.Goes (s : Store) : Strand → Store → Strand → Multiset Strand → List Moment → Prop
  | poll (run : TokenId) (role : Role) (segment : Segment) :
      Goes s ⟨run, role, .waiting segment⟩ s ⟨run, role, .running ⟨.resume segment, []⟩⟩ 0 []
  | turn (run : TokenId) (role : Role) (c : Config) (worker : Worker) {es : List Event}
      {new : List Spawn} (trace : (c.step worker s).2.trace = es ++ s.trace)
      (spawned : (c.step worker s).2.spawned = new ++ s.spawned) :
      Goes s ⟨run, role, .running c⟩ (c.step worker s).2 ⟨run, role, (c.step worker s).1.state⟩
        (Strand.ofSpawns run new) ((es.filter Event.isMark).map (.of run s))
  /-- What a task has come to is told to whoever waits for it. -/
  | report (run : TokenId) (t : TaskId) (state : State) (result : Joined)
      (h : state.joined? = some result) :
      Goes s ⟨run, .task t, state⟩ (s.finish t result) ⟨run, .task t, state⟩ 0 []

namespace Strand.Goes

variable {s s' : Store} {μ μ' : Strand} {begun : Multiset Strand} {marks : List Moment}

theorem role (goes : μ.Goes s s' μ' begun marks) : μ'.role = μ.role := by
  cases goes <;> rfl

theorem begun_role (goes : μ.Goes s s' μ' begun marks) : ∀ ν ∈ begun, ν.role ≠ .root := by
  cases goes with
  | poll | report => simp
  | turn run role c worker trace spawned =>
    intro ν mem
    obtain ⟨x, -, segment, -, rfl⟩ := mem_ofSpawns.mp mem
    exact nofun

theorem turned {run : TokenId} {role : Role} {c : Config}
    (goes : Strand.Goes s ⟨run, role, .running c⟩ s' μ begun marks) : ∃ worker, ∀ rest log,
      (⟨s', μ ::ₘ (begun + rest), marks ++ log⟩ : Runtime)
        = .turn worker run role c ⟨s, rest, log⟩ := by
  cases goes with
  | turn _ _ _ worker trace spawned =>
    exact ⟨worker, fun rest log => (Runtime.turn_eq trace spawned).symm⟩
  | report run t state result h => cases h

end Strand.Goes

namespace Runtime

variable {σ σ' τ τ' : Runtime}

/-! ## Acts, and what the surroundings do -/

/-- A strand goes on. -/
inductive Act : Runtime → Runtime → Prop
  | mk {s s' : Store} {μ μ' : Strand} {begun : Multiset Strand} {marks : List Moment}
      (goes : μ.Goes s s' μ' begun marks) (rest : Multiset Strand) (log : List Moment) :
      Act ⟨s, μ ::ₘ rest, log⟩ ⟨s', μ' ::ₘ (begun + rest), marks ++ log⟩

theorem Act.step (act : Act σ σ') : Step σ σ' := by
  obtain ⟨goes, rest, log⟩ := act
  cases goes with
  | poll run role segment =>
    rw [zero_add]
    exact .poll _ rest log run role segment
  | turn run role c worker trace spawned =>
    rw [← turn_eq trace spawned]
    exact .turn _ rest log run role c worker
  | report run t state result h =>
    rw [zero_add]
    exact .report _ rest log run t state result h

/-- The store has changed, and some strands have not come to anything by that. -/
structure Drifts (own : Multiset Strand) (s s' : Store) : Prop where
  tokens : ∃ s₁, s.Grows s₁ ∧ s'.tokens = s₁.tokens
  brackets : s.brackets ≤ s'.brackets
  joins : s.joins.size ≤ s'.joins.size
  joined : ∀ t < s.joins.size, s'.joined? t = s.joined? t ∨
    s.joined? t = none ∧ ∀ μ ∈ own, μ.role ≠ .task t

theorem drifts_of_grows {own : Multiset Strand} {s s' : Store} (grows : s.Grows s') :
    Drifts own s s' :=
  ⟨⟨s', grows, rfl⟩, grows.brackets_le, grows.joins_le, fun _ lt => .inl (grows.joined? lt)⟩

/-- What happens to the store while some strands do nothing. -/
inductive Elsewhere (own : Multiset Strand) (s s' : Store) : Prop
  | drifts (h : Drifts own s s')
  /-- Tokens are cut loose, but none that a loop of theirs holds. -/
  | prune (held : TokenId → Bool)
      (h : ∀ μ ∈ own, ∀ p ∈ μ.posts, ∀ t ∈ p.owned, held t = true)
      (same : s' = { s with tokens := s.tokens.prune held })

theorem elsewhere_of_grows {own : Multiset Strand} {s s' : Store} (grows : s.Grows s') :
    Elsewhere own s s' := .drifts (drifts_of_grows grows)

/-- Who does something in a step. -/
inductive Occurs : Runtime → Runtime → Prop
  | act {σ σ' : Runtime} (h : Act σ σ') : Occurs σ σ'
  /-- A run is given up; it goes on by itself, or nothing is left of it. -/
  | giveUp {s s' : Store} {μ μ' : Strand} (root : μ.role = .root)
      (waits : ∃ g, μ.state = .waiting g) (left : μ' = μ ∨ μ' = { μ with state := .dropped })
      (grows : s.Grows s') (rest : Multiset Strand) (log : List Moment) :
      Occurs ⟨s, μ ::ₘ rest, log⟩ ⟨s', μ' ::ₘ rest, log⟩
  | elsewhere {σ : Runtime} {s' : Store} (h : Elsewhere σ.strands σ.store s')
      (begun : Multiset Strand) : Occurs σ ⟨s', begun + σ.strands, σ.log⟩

theorem Step.occurs (step : Step σ σ') : Occurs σ σ' := by
  have still {s' : Store} (h : Elsewhere σ.strands σ.store s') :
      Occurs σ { σ with store := s' } := by
    have occurs := Occurs.elsewhere h 0
    rwa [zero_add] at occurs
  cases step with
  | begin _ effect kept context =>
    exact .elsewhere (elsewhere_of_grows (.tail (.single (.fresh _)) (.emit _ _ rfl))) {_}
  | beginBelow _ parent lt effect kept context =>
    exact .elsewhere (elsewhere_of_grows (.tail (.single (.child _ parent)) (.emit _ _ rfl))) {_}
  | poll s rest log run role segment =>
    have act := Act.mk (.poll (s := s) run role segment) rest log
    rw [zero_add] at act
    exact .act act
  | turn s rest log run role c worker =>
    obtain ⟨-, es, new, trace, spawned, -⟩ := c.step_reacts worker s
    rw [Runtime.turn_eq trace spawned]
    exact .act (.mk (.turn run role c worker trace spawned) rest log)
  | report s rest log run t state result h =>
    have act := Act.mk (.report (s := s) run t state result h) rest log
    rw [zero_add] at act
    exact .act act
  | giveUp s rest log r segment live unstarted =>
    refine .giveUp rfl ⟨segment, by simp [Strand.ofRun, live]⟩ ?_ (giveUp_grows r s) rest log
    unfold Strand.remainder
    split
    · exact .inl rfl
    · exact .inr rfl
  | cancel _ t => exact still (elsewhere_of_grows (.single (.cancel _ t)))
  | fresh => exact still (elsewhere_of_grows (.single (.fresh _)))
  | child _ parent lt => exact still (elsewhere_of_grows (.single (.child _ parent)))
  | prune _ held owned => exact still (.prune held owned rfl)
  | outside _ s out =>
    exact still (.drifts ⟨⟨_, .refl, out.tokens⟩, Nat.le_of_eq out.brackets.symm, out.joins,
      out.joined⟩)

/-- What happens around a runtime that is left alone: nothing that is barred is cancelled, and
nothing is written.  Fibers that are not part of it may take numbers for their brackets. -/
inductive Stir (barred : TokenId → Prop) (σ : Runtime) : Runtime → Prop
  | cancel (t : TokenId) (free : ¬ barred t) : Stir barred σ { σ with store := σ.store.cancel t }
  | fresh : Stir barred σ { σ with store := σ.store.freshToken.2 }
  | child (parent : TokenId) (lt : parent < σ.store.size) :
      Stir barred σ { σ with store := (σ.store.childToken parent).2 }
  | prune (held : TokenId → Bool)
      (h : ∀ τ ∈ σ.strands, ∀ p ∈ τ.posts, ∀ t ∈ p.owned, held t = true) :
      Stir barred σ { σ with store := { σ.store with tokens := σ.store.tokens.prune held } }
  | outside (s : Store) (h : σ.Outside { s with brackets := σ.store.brackets })
      (numbers : σ.store.brackets ≤ s.brackets) (same : s.memory = σ.store.memory) :
      Stir barred σ { σ with store := s }

abbrev Stirs (barred : TokenId → Prop) : Runtime → Runtime → Prop :=
  Relation.ReflTransGen (Stir barred)

variable {barred hidden : TokenId → Prop}

theorem Stir.strands (stir : Stir barred σ σ') : σ'.strands = σ.strands := by
  cases stir <;> rfl

theorem Stirs.strands (stirs : Stirs barred σ σ') : σ'.strands = σ.strands := by
  induction stirs with
  | refl => rfl
  | tail _ stir ih => exact stir.strands.trans ih

/-! ## The surroundings of one runtime, brought about in another -/

/-- Nothing but tokens, and who is woken, differs. -/
structure Still (σ σ' : Runtime) : Prop where
  strands : σ'.strands = σ.strands
  log : σ'.log = σ.log
  memory : σ'.store.memory = σ.store.memory
  brackets : σ'.store.brackets = σ.store.brackets
  joins : σ'.store.joins.size = σ.store.joins.size
  joined : ∀ t, σ'.store.joined? t = σ.store.joined? t

theorem Still.refl : Still σ σ := ⟨rfl, rfl, rfl, rfl, rfl, fun _ => rfl⟩

theorem Still.trans (h : Still σ τ) (h' : Still τ τ') : Still σ τ' where
  strands := h'.strands.trans h.strands
  log := h'.log.trans h.log
  memory := h'.memory.trans h.memory
  brackets := h'.brackets.trans h.brackets
  joins := h'.joins.trans h.joins
  joined t := (h'.joined t).trans (h.joined t)

theorem memory_cancel (s : Store) (t : TokenId) : (s.cancel t).memory = s.memory :=
  (congrArg Store.memory (s.bare_cancel t) :)

/-- A change of the tokens of one store is brought about in a runtime whose tokens agree. -/
theorem stirs_of_change {A A' : Store} (change : A.Change A')
    (agree : Forest.Agree hidden A.tokens τ.store.tokens) (veiled : ∀ t, barred t → hidden t) :
    ∃ hidden' τ', Stirs barred τ τ' ∧ Still τ τ' ∧
      Forest.Agree hidden' A'.tokens τ'.store.tokens ∧ ∀ t < A.size, (hidden' t ↔ hidden t) := by
  have same (tokens : A'.tokens = A.tokens) : ∃ hidden' τ', Stirs barred τ τ' ∧ Still τ τ' ∧
      Forest.Agree hidden' A'.tokens τ'.store.tokens ∧ ∀ t < A.size, (hidden' t ↔ hidden t) :=
    ⟨hidden, τ, .refl, .refl, tokens ▸ agree, fun _ _ => .rfl⟩
  have fresh : Still τ { τ with store := τ.store.freshToken.2 } :=
    ⟨rfl, rfl, rfl, rfl, rfl, fun _ => rfl⟩
  cases change with
  | same h => exact same h.tokens
  | emit | acquire => exact same rfl
  | spawn context job => exact same (A.tokens_spawn context job)
  | fresh => exact ⟨hidden, _, .single .fresh, fresh, agree.fresh, fun _ _ => .rfl⟩
  | child p =>
    by_cases lt : p < A.size
    · have child : Still τ { τ with store := (τ.store.childToken p).2 } :=
        ⟨rfl, rfl, rfl, rfl, rfl, fun _ => rfl⟩
      have stir : Stirs barred τ _ := .single (.child p (Nat.lt_of_lt_of_eq lt agree.size))
      by_cases inside : hidden p
      · refine ⟨_, _, stir, child, agree.child_hidden inside, fun t known => ?_⟩
        exact or_iff_left (Nat.ne_of_lt known)
      · exact ⟨hidden, _, stir, child, agree.child inside, fun _ _ => .rfl⟩
    · have unknown : (A.childToken p).2.tokens = A.tokens.fresh.2 :=
        Forest.child_unknown (Nat.not_lt.mp lt)
      exact ⟨hidden, _, .single .fresh, fresh, unknown ▸ agree.fresh, fun _ _ => .rfl⟩
  | cancel t =>
    by_cases inside : hidden t
    · refine ⟨hidden, τ, .refl, .refl, ?_, fun _ _ => .rfl⟩
      rw [Store.tokens_cancel]
      exact agree.hide inside
    · refine ⟨hidden, _, .single (.cancel t fun h => inside (veiled t h)), ?_, ?_,
        fun _ _ => .rfl⟩
      · exact ⟨rfl, rfl, memory_cancel _ t, by simp, by simp, by simp⟩
      · rw [Store.tokens_cancel, Store.tokens_cancel]
        exact agree.cancel t

theorem stirs_of_grows {A A' : Store} (grows : A.Grows A')
    (agree : Forest.Agree hidden A.tokens τ.store.tokens) (veiled : ∀ t, barred t → hidden t) :
    ∃ hidden' τ', Stirs barred τ τ' ∧ Still τ τ' ∧
      Forest.Agree hidden' A'.tokens τ'.store.tokens ∧ ∀ t < A.size, (hidden' t ↔ hidden t) := by
  induction grows with
  | refl => exact ⟨hidden, τ, .refl, .refl, agree, fun _ _ => .rfl⟩
  | @tail A₁ A' grows change ih =>
    obtain ⟨hidden₁, τ₁, stirs, still, agree₁, old⟩ := ih
    have veiled₁ : ∀ t, barred t → hidden₁ t := fun t h =>
      (old t (agree.known t (veiled t h))).mpr (veiled t h)
    obtain ⟨hidden', τ', stirs', still', agree', old'⟩ := stirs_of_change change agree₁ veiled₁
    refine ⟨hidden', τ', stirs.trans stirs', still.trans still', agree', fun t lt => ?_⟩
    exact (old' t (Nat.lt_of_lt_of_le lt (Store.Grows.size_le grows))).trans (old t lt)

variable {V : View}

/-- What has changed around one runtime is brought about in another one, but for what is hidden
and what is out of view. -/
theorem stirs_of_drifts {A A' : Store} (agree : A.Agree V.lens hidden τ.store)
    (veiled : ∀ t, barred t → hidden t) (known : ∀ t, V.named t → t < A.size)
    (drifts : Drifts τ.strands A A') (looks : V.memory A.memory A'.memory) :
    ∃ hidden' τ', Stirs barred τ τ' ∧ τ'.log = τ.log ∧
      A'.Agree V.lens hidden' τ'.store ∧ ∀ t < A.size, (hidden' t ↔ hidden t) := by
  obtain ⟨⟨A₁, grows, same⟩, brackets, joins, joined⟩ := drifts
  obtain ⟨hidden', τ₁, stirs, still, tokens, old⟩ := stirs_of_grows grows agree.tokens veiled
  let s' : Store := { A' with
    tokens := τ₁.store.tokens, memory := τ₁.store.memory, trace := τ₁.store.trace }
  have size : τ.store.joins.size = A.joins.size := (agree.tasks 0).symm
  have numbers : τ₁.store.brackets ≤ s'.brackets := by
    have before : A.brackets = τ.store.brackets := agree.brackets 0
    rw [still.brackets, ← before]
    exact brackets
  have out : τ₁.Outside { s' with brackets := τ₁.store.brackets } := by
    refine ⟨rfl, rfl, ⟨[], rfl, by simp⟩, ?_, fun t lt => ?_⟩
    · rw [still.joins, size]
      exact joins
    · rw [still.joins, size] at lt
      have before : τ₁.store.joined? t = A.joined? t :=
        (still.joined t).trans (agree.joined? rfl).symm
      rw [before, still.strands]
      exact joined t lt
  refine ⟨hidden', _, stirs.tail (.outside s' out numbers rfl), still.log, ?_, old⟩
  exact {
    tokens := same ▸ tokens
    clear := fun t named inside => agree.clear t named ((old t (known t named)).mp inside)
    memory := by
      have kept : s'.memory = τ.store.memory := still.memory
      rw [kept]
      exact V.equivalence.trans (V.equivalence.symm looks) agree.memory
    now := rfl, timed := rfl, ended := rfl, slots := rfl
    join := fun t t' same => by
      cases same
      exact ⟨rfl, rfl⟩
    tasks := fun i => rfl
    brackets := fun i => rfl }

end Runtime

/-! ## What is barred is not cancelled -/

/-- Tokens that are known, and hang below no others. -/
structure Store.Clan (s : Store) (set : TokenId → Prop) : Prop where
  known : ∀ t, set t → t < s.size
  above : ∀ p c, c ∈ s.tokens.children p → set c → set p

namespace Store.Clan

variable {s s' : Store} {set : TokenId → Prop}

theorem lists (h : s.Clan set) {t u : TokenId} (lists : s.tokens.Lists t u) (inside : set u) :
    set t := by
  induction lists using Relation.ReflTransGen.head_induction_on with
  | refl => exact inside
  | head listed _ ih => exact h.above _ _ listed ih

theorem of_tokens (h : s.Clan set) (same : s'.tokens = s.tokens) : s'.Clan set := by
  refine ⟨fun t inside => ?_, same ▸ h.above⟩
  rw [Store.size, same]
  exact h.known t inside

theorem prune (h : s.Clan set) {held : TokenId → Bool}
    (pruned : s'.tokens = s.tokens.prune held) : s'.Clan set := by
  refine ⟨fun t inside => ?_, fun p c mem => ?_⟩
  · rw [Store.size, pruned]
    simpa [Forest.prune] using h.known t inside
  · rw [pruned] at mem
    exact h.above p c (Forest.mem_children_of_prune mem)

theorem grows (h : s.Clan set) (grows : s.Grows s') : s'.Clan set := by
  induction grows with
  | refl => exact h
  | @tail s₁ s' grows change ih =>
    have size := Store.Grows.size_le (.single change)
    refine ⟨fun t inside => Nat.lt_of_lt_of_le (ih.known t inside) size, ?_⟩
    cases change with
    | same same => exact same.tokens ▸ ih.above
    | emit | acquire => exact ih.above
    | spawn context job => exact (s₁.tokens_spawn context job) ▸ ih.above
    | fresh => exact fun p c mem => ih.above p c (Forest.children_fresh ▸ mem)
    | child parent =>
      intro p c mem inside
      obtain mem | ⟨-, rfl, -⟩ := Forest.mem_children_of_child mem
      · exact ih.above p c mem inside
      · exact (Nat.lt_irrefl _ (ih.known _ inside)).elim
    | cancel t =>
      rw [Store.tokens_cancel]
      exact fun p c mem => ih.above p c (Forest.mem_children_of_cancelAll mem)

end Store.Clan

namespace Runtime

variable {σ σ' : Runtime} {barred : TokenId → Prop}

theorem Act.clan (act : Act σ σ') (h : σ.store.Clan barred) : σ'.store.Clan barred := by
  cases act.step.elapse with
  | grows grows => exact h.grows grows
  | still tokens => exact h.of_tokens tokens
  | prune owned tokens => exact h.prune tokens

theorem Stir.clan (stir : Stir barred σ σ') (h : σ.store.Clan barred) :
    σ'.store.Clan barred := by
  cases stir with
  | cancel t => exact h.grows (.single (.cancel _ t))
  | fresh => exact h.grows (.single (.fresh _))
  | child parent => exact h.grows (.single (.child _ parent))
  | prune held => exact h.prune rfl
  | outside s out => exact h.of_tokens out.tokens

/-- The surroundings cancel nothing that is barred, if that hangs below no other token. -/
theorem Stir.spares (stir : Stir barred σ σ') (h : σ.store.Clan barred) {t : TokenId}
    (inside : barred t) : σ'.store.isCancelled t = σ.store.isCancelled t := by
  cases stir with
  | cancel u free =>
    have reached : (σ.store.tokens.cancel u).isCancelled t = true →
        σ.store.tokens.isCancelled t = true := fun cancelled =>
      (Forest.listed_of_isCancelled_cancel cancelled).resolve_right fun lists =>
        free (h.lists lists inside)
    rw [Store.isCancelled, Store.isCancelled, Store.tokens_cancel, Bool.eq_iff_iff]
    exact ⟨reached, Forest.isCancelled_cancelAll⟩
  | fresh => exact Forest.isCancelled_fresh
  | child parent =>
    have old : t ≠ σ.store.tokens.nodes.size := Nat.ne_of_lt (h.known t inside)
    show (σ.store.tokens.child parent).2.isCancelled t = σ.store.tokens.isCancelled t
    simp [Forest.isCancelled_child, old]
  | prune held => exact Forest.isCancelled_prune held
  | outside s out =>
    have tokens : s.tokens = σ.store.tokens := out.tokens
    rw [Store.isCancelled, Store.isCancelled, tokens]

end Runtime

end EffectFibers
