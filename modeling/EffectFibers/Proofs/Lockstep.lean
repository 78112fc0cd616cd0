import EffectFibers.Proofs.LensSteps

/-!
# Runtimes in lockstep

Two runtimes go in lockstep if each step of one is a step of the other, again and again, and what
can be seen stays the same: the memory, the clock, the tokens, the log, and what each strand has
come to (`Runtime.Lockstep`).  Runtimes that mirror each other through a lens go in lockstep, if
the lens hides nothing but the numbers of tasks: which number a task has is seen by nobody.

## Main definitions

* `Runtime.Mirrors`: sameness of two runtimes up to numbers of tasks.
* `Runtime.SameCourse`: neither runtime can do what the other cannot, step by step.

## Main statements

* `Runtime.Mirrors.forth`: a step of one side is a step of the other side.
* `Runtime.Mirrors.sameCourse`: runtimes that mirror each other have the same course.
-/

namespace EffectFibers

/-! ## The other side of a lens -/

/-- The lens seen from the other side. -/
def Lens.flip (L : Lens) : Lens where
  toView := L.toView
  task t t' := L.task t' t
  bracket b b' := L.bracket b' b
  single task other := (L.single task other).symm

/-- Nothing but the numbers of tasks may differ. -/
structure Lens.Plain (L : Lens) : Prop where
  named : ∀ t, L.named t
  memory : ∀ {m m'}, L.memory m m' → m = m'
  bracket : ∀ {b b'}, L.bracket b b' → b = b'

variable {L : Lens}

theorem Lens.Plain.reads (plain : L.Plain) (effect : Effect) : effect.Reads L.toView :=
  effect.reads_all plain.named plain.memory

theorem Lens.Plain.flip (plain : L.Plain) : L.flip.Plain where
  named := plain.named
  memory := plain.memory
  bracket number := (plain.bracket number).symm

theorem Frame.Mirrors.flip {f f' : Frame} (h : f.Mirrors L f') : f'.Mirrors L.flip f := by
  cases h with
  | map f => exact .map f
  | bind reads => exact .bind reads
  | handle reads => exact .handle reads
  | again again reads => exact .again again reads
  | release number reads => exact .release (L := L.flip) number reads

theorem Loop.Mirrors.flip {l l' : Loop} (h : l.Mirrors L l') : l'.Mirrors L.flip l := by
  obtain ⟨env, frames⟩ := h
  exact .mk env (frames.imp fun _ _ frame => frame.flip).flip

theorem Wait.Shown.flip {wait : Wait} (h : wait.Shown L) : wait.Shown L.flip := by
  cases h with
  | never => exact .never
  | deadline time result => exact .deadline time result
  | cancellation named => exact .cancellation named

theorem Group.Mirrors.flip {g g' : Group} (h : g.Mirrors L g') : g'.Mirrors L.flip g := by
  obtain ⟨token, operands, values, failure, canceled⟩ := h
  refine .mk token (List.Forall₂.flip ?_) values failure canceled
  exact operands.imp fun _ _ same => ⟨same.1.symm, same.2⟩

theorem Segment.Mirrors.flip {g g' : Segment} (h : g.Mirrors L g') : g'.Mirrors L.flip g := by
  induction h with
  | start loop reads => exact .start loop.flip reads
  | callback loop slot => exact .callback loop.flip slot
  | future loop shown => exact .future loop.flip shown.flip
  | shifted env task => exact .shifted env task
  | acquiring loop used released _ ih => exact .acquiring loop.flip used released ih
  | releasing loop number outcome _ ih => exact .releasing loop.flip number outcome ih
  | racing loop tokens _ _ ih ih' => exact .racing loop.flip tokens ih ih'
  | settling loop winner exit _ ih => exact .settling loop.flip winner exit ih
  | remaining loop side _ ih => exact .remaining loop.flip side ih
  | gathering loop group => exact .gathering loop.flip group.flip

theorem Caller.Mirrors.flip {c c' : Caller} (h : c.Mirrors L c') : c'.Mirrors L.flip c := by
  cases h with
  | acquiring loop used released => exact .acquiring loop.flip used released
  | releasing loop number outcome => exact .releasing loop.flip number outcome
  | racingLeft loop tokens other => exact .racingLeft loop.flip tokens other.flip
  | racingRight loop tokens other => exact .racingRight loop.flip tokens other.flip
  | settling loop winner exit => exact .settling loop.flip winner exit
  | remaining loop side => exact .remaining loop.flip side

theorem Caller.AllMirror.flip {cs cs' : List Caller} (h : Caller.AllMirror L cs cs') :
    Caller.AllMirror L.flip cs' cs :=
  List.Forall₂.flip (h.imp fun _ _ caller => caller.flip)

theorem Config.Mirrors.flip {c c' : Config} (h : c.Mirrors L c') : c'.Mirrors L.flip c := by
  cases h with
  | eval loop reads callers => exact .eval loop.flip reads (Caller.AllMirror.flip callers)
  | unwind loop x callers => exact .unwind loop.flip x (Caller.AllMirror.flip callers)
  | leave x callers => exact .leave x (Caller.AllMirror.flip callers)
  | resume segment callers => exact .resume segment.flip (Caller.AllMirror.flip callers)
  | park segment callers => exact .park segment.flip (Caller.AllMirror.flip callers)

theorem Strand.State.Mirrors.flip {state state' : Strand.State} (h : state.Mirrors L state') :
    state'.Mirrors L.flip state := by
  cases h with
  | waiting segment => exact .waiting segment.flip
  | running config => exact .running config.flip
  | ended x => exact .ended x
  | faulted f => exact .faulted f
  | dropped => exact .dropped

theorem Store.Agree.flip {hidden : TokenId → Prop} {A B : Store} (h : A.Agree L hidden B) :
    B.Agree L.flip hidden A where
  tokens := h.tokens.symm
  clear := h.clear
  memory := L.equivalence.symm h.memory
  now := h.now.symm
  timed := h.timed.symm
  ended := h.ended.symm
  slots := h.slots.symm
  join t t' task := (h.join t' t task).imp Eq.symm Eq.symm
  tasks := h.tasks
  brackets := h.brackets

/-! ## What loops hold on to -/

theorem Segment.Mirrors.isFresh {g g' : Segment} (h : g.Mirrors L g') : g.isFresh = g'.isFresh := by
  cases h with
  | start loop reads =>
    obtain ⟨env, frames⟩ := loop
    cases frames <;> rfl
  | _ => rfl

/-- What a post is for those who cannot tell tasks and brackets by their numbers: whether its loop
is there, and the tokens that it holds on to. -/
def Post.standing (p : Post) : Bool × List TokenId := (p.fiber?.isSome, p.owned)

theorem Post.owned_head (p : Post) : p.owned.head? = some p.token := by
  obtain ⟨link, ⟨loop, doing⟩ | ⟨env, task⟩⟩ := p
  · cases doing <;> rfl
  · rfl

/-- Posts of the same standing have loops with the same tokens. -/
theorem Post.fiber_of_standing {P Q : Multiset Post} (same : P.map standing = Q.map standing)
    {φ : Fiber} (mem : φ ∈ fibers P) : ∃ χ ∈ fibers Q, χ.token = φ.token := by
  obtain ⟨l, mem⟩ := mem_fibers.mp mem
  have inside : standing ⟨l, .fiber φ⟩ ∈ Q.map standing := same ▸ Multiset.mem_map_of_mem _ mem
  obtain ⟨⟨l', piece⟩, inside, same⟩ := Multiset.mem_map.mp inside
  cases piece with
  | away env task => cases congrArg Prod.fst same
  | fiber χ =>
    refine ⟨χ, mem_fibers.mpr ⟨l', inside⟩, Option.some.inj ?_⟩
    have owned : owned ⟨l', .fiber χ⟩ = owned ⟨l, .fiber φ⟩ := congrArg Prod.snd same
    exact (owned_head _).symm.trans ((congrArg List.head? owned).trans (owned_head _))

theorem Segment.Mirrors.standing {g g' : Segment} (h : g.Mirrors L g') (link : Link) :
    (g.posts link).map Post.standing = (g'.posts link).map Post.standing := by
  induction h generalizing link with
  | start loop | callback loop | future loop =>
    cases loop
    rfl
  | shifted env task => rfl
  | acquiring loop used released nested ih | releasing loop number outcome nested ih
  | settling loop winner exit nested ih | remaining loop side nested ih =>
    cases loop
    simp only [posts, Multiset.map_cons, ih]
    rfl
  | racing loop tokens onLeft onRight ih ih' =>
    cases loop
    simp only [posts, Multiset.map_cons, Multiset.map_add, ih, ih']
    rfl
  | gathering loop group =>
    cases loop
    cases group
    rfl

theorem Caller.Mirrors.standing {c c' : Caller} (h : c.Mirrors L c') (link : Link) :
    c.inner = c'.inner ∧ (c.posts link).map Post.standing = (c'.posts link).map Post.standing := by
  cases h with
  | acquiring loop | releasing loop | settling loop | remaining loop =>
    cases loop
    exact ⟨rfl, rfl⟩
  | racingLeft loop tokens other | racingRight loop tokens other =>
    cases loop
    refine ⟨rfl, ?_⟩
    simp only [posts, Multiset.map_cons, other.standing]
    rfl

theorem Caller.AllMirror.standing {cs cs' : List Caller} (h : Caller.AllMirror L cs cs') :
    innermost cs = innermost cs' ∧
      (allPosts cs).map Post.standing = (allPosts cs').map Post.standing := by
  induction h with
  | nil => exact ⟨rfl, rfl⟩
  | cons caller callers ih =>
    obtain ⟨inner, rest⟩ := ih
    refine ⟨(caller.standing .outer).1, ?_⟩
    rw [allPosts_cons, allPosts_cons, Multiset.map_add, Multiset.map_add, rest, inner,
      (caller.standing _).2]

theorem Config.Mirrors.standing {c c' : Config} (h : c.Mirrors L c') :
    c.posts.map Post.standing = c'.posts.map Post.standing := by
  cases h with
  | eval loop reads callers | unwind loop x callers =>
    cases loop
    simp only [posts_eval, posts_unwind, Multiset.map_cons, (Caller.AllMirror.standing callers).2]
    rfl
  | leave x callers => simp only [posts_leave, (Caller.AllMirror.standing callers).2]
  | resume segment callers | park segment callers =>
    obtain ⟨inner, rest⟩ := Caller.AllMirror.standing callers
    simp only [posts_resume, posts_park, Multiset.map_add, segment.standing, inner, rest]

/-! ## Strands -/

namespace Strand

variable (L) in
inductive Role.Mirrors : Role → Role → Prop
  | root : Mirrors .root .root
  | task {t t' : TaskId} (h : L.task t t') : Mirrors (.task t) (.task t')

variable (L) in
/-- The same strand, up to numbers. -/
inductive Mirrors : Strand → Strand → Prop
  | mk (run : TokenId) {role role' : Role} (part : role.Mirrors L role') {state state' : State}
      (same : state.Mirrors L state') : Mirrors ⟨run, role, state⟩ ⟨run, role', state'⟩

/-- What has become of a strand, for those who cannot tell tasks by their numbers. -/
def outlook (τ : Strand) : TokenId × Bool × Option Joined :=
  (τ.run, τ.task?.isSome, τ.state.joined?)

variable {τ τ' : Strand}

theorem Mirrors.flip (h : τ.Mirrors L τ') : τ'.Mirrors L.flip τ := by
  obtain ⟨run, part, same⟩ := h
  refine .mk run ?_ same.flip
  cases part with
  | root => exact .root
  | task task => exact .task task

theorem Mirrors.outlook (h : τ.Mirrors L τ') : τ.outlook = τ'.outlook := by
  obtain ⟨run, part, same⟩ := h
  cases part <;> simp [Strand.outlook, task?, same.joined?]

theorem Mirrors.outlooks {S S' : Multiset Strand} (h : Multiset.Rel (Mirrors L) S S') :
    S.map Strand.outlook = S'.map Strand.outlook := by
  induction h with
  | zero => rfl
  | cons first _ ih => rw [Multiset.map_cons, Multiset.map_cons, first.outlook, ih]

theorem State.Mirrors.standing {state state' : State} (h : state.Mirrors L state')
    (run run' : TokenId) (role role' : Role) :
    (posts ⟨run, role, state⟩).map Post.standing
      = (posts ⟨run', role', state'⟩).map Post.standing := by
  cases h with
  | waiting segment => exact segment.standing .outer
  | running config => exact config.standing
  | ended | faulted | dropped => rfl

theorem Mirrors.standing (h : τ.Mirrors L τ') :
    τ.posts.map Post.standing = τ'.posts.map Post.standing := by
  obtain ⟨run, part, same⟩ := h
  exact same.standing run run _ _

/-- Tasks that mirror each other begin on both sides. -/
theorem rel_ofSpawns {R : Strand → Strand → Prop} {run run' : TokenId} {new new' : List Spawn}
    (h : List.Forall₂ (Spawn.Mirrors L) new new')
    (one : ∀ {t t' : TaskId} {g g' : Segment}, L.task t t' → g.Mirrors L g' →
      R ⟨run, .task t, .waiting g⟩ ⟨run', .task t', .waiting g'⟩) :
    Multiset.Rel R (Strand.ofSpawns run new) (Strand.ofSpawns run' new') := by
  induction h with
  | nil => exact .zero
  | @cons x x' rest rest' first _ ih =>
    have whole := ofSpawns_append run [x] rest
    have whole' := ofSpawns_append run' [x'] rest'
    rw [List.singleton_append] at whole whole'
    rw [whole, whole']
    refine .add ?_ ih
    obtain ⟨task, segment⟩ := first
    unfold Strand.ofSpawns ofSpawn?
    simp only [List.filterMap_cons, List.filterMap_nil]
    generalize x.segment? = part at segment ⊢
    generalize x'.segment? = part' at segment ⊢
    cases segment with
    | none => exact .zero
    | some segment => exact .cons (one task segment) .zero

theorem Mirrors.ofSpawns (run : TokenId) {new new' : List Spawn}
    (h : List.Forall₂ (Spawn.Mirrors L) new new') :
    Multiset.Rel (Mirrors L) (Strand.ofSpawns run new) (Strand.ofSpawns run new') :=
  rel_ofSpawns h fun task segment => .mk run (.task task) (.waiting segment)

end Strand

namespace Runtime

variable {σ σ' τ τ' υ : Runtime}

/-! ## The same course -/

/-- All that can be seen is the same, up to the numbers of tasks. -/
structure SameSight (σ τ : Runtime) : Prop where
  memory : σ.store.memory = τ.store.memory
  now : σ.store.now = τ.store.now
  tokens : σ.store.tokens = τ.store.tokens
  log : σ.log = τ.log
  strands : σ.strands.map Strand.outlook = τ.strands.map Strand.outlook

/-- Each step of a side is a step of the other side, and what can be seen stays the same. -/
structure Lockstep (R : Runtime → Runtime → Prop) : Prop where
  sight : ∀ {σ τ}, R σ τ → SameSight σ τ
  forth : ∀ {σ τ σ'}, R σ τ → Step σ σ' → ∃ τ', Step τ τ' ∧ R σ' τ'
  back : ∀ {σ τ τ'}, R σ τ → Step τ τ' → ∃ σ', Step σ σ' ∧ R σ' τ'

def SameCourse (σ τ : Runtime) : Prop := ∃ R, Lockstep R ∧ R σ τ

/-- Whatever the one side comes to, the other side comes to what cannot be told from it. -/
theorem SameCourse.steps (h : SameCourse σ τ) (steps : Steps σ σ') :
    ∃ τ', Steps τ τ' ∧ SameSight σ' τ' ∧ SameCourse σ' τ' := by
  obtain ⟨R, lockstep, rel⟩ := h
  suffices ∃ τ', Steps τ τ' ∧ R σ' τ' by
    obtain ⟨τ', steps', rel'⟩ := this
    exact ⟨τ', steps', lockstep.sight rel', R, lockstep, rel'⟩
  induction steps with
  | refl => exact ⟨τ, .refl, rel⟩
  | tail _ step ih =>
    obtain ⟨τ₁, steps₁, rel₁⟩ := ih
    obtain ⟨τ', step', rel'⟩ := lockstep.forth rel₁ step
    exact ⟨τ', steps₁.tail step', rel'⟩

theorem SameCourse.symm (h : SameCourse σ τ) : SameCourse τ σ := by
  obtain ⟨R, lockstep, rel⟩ := h
  refine ⟨fun υ υ' => R υ' υ, ⟨fun rel => ?_, lockstep.back, lockstep.forth⟩, rel⟩
  obtain ⟨memory, now, tokens, log, strands⟩ := lockstep.sight rel
  exact ⟨memory.symm, now.symm, tokens.symm, log.symm, strands.symm⟩

/-! ## Runtimes that mirror each other -/

variable (L) in
/-- The same runtime, up to the numbers of tasks. -/
structure Mirrors (σ τ : Runtime) : Prop where
  agree : σ.store.Agree L (fun _ => False) τ.store
  strands : Multiset.Rel (Strand.Mirrors L) σ.strands τ.strands
  log : σ.log = τ.log

namespace Mirrors

theorem flip (h : Mirrors L σ τ) : Mirrors L.flip τ σ where
  agree := h.agree.flip
  strands := (Multiset.rel_flip.mpr h.strands).mono fun _ _ _ _ same => same.flip
  log := h.log.symm

theorem sight (plain : L.Plain) (h : Mirrors L σ τ) : SameSight σ τ where
  memory := plain.memory h.agree.memory
  now := h.agree.now
  tokens := by
    have nodes : σ.store.tokens.nodes = τ.store.tokens.nodes :=
      Array.ext_getElem? fun u => h.agree.tokens.nodes u id
    cases σtokens : σ.store.tokens
    cases τtokens : τ.store.tokens
    simp_all
  log := h.log
  strands := Strand.Mirrors.outlooks h.strands

theorem strand {s : Store} {τ₀ : Strand} {rest : Multiset Strand} {log : List Moment}
    (h : Mirrors L ⟨s, τ₀ ::ₘ rest, log⟩ τ) : ∃ s' τ₁ rest', τ = ⟨s', τ₁ ::ₘ rest', log⟩ ∧
      s.Agree L (fun _ => False) s' ∧ τ₀.Mirrors L τ₁ ∧
      Multiset.Rel (Strand.Mirrors L) rest rest' := by
  obtain ⟨s', strands', log'⟩ := τ
  obtain ⟨agree, strands, log⟩ := h
  cases log
  obtain ⟨τ₁, rest', first, others, same⟩ := Multiset.rel_cons_left.mp strands
  cases same
  exact ⟨s', τ₁, rest', rfl, agree, first, others⟩

theorem turn (plain : L.Plain) {s s' : Store} {rest rest' : Multiset Strand} {c c' : Config}
    {role role' : Strand.Role} (agree : s.Agree L (fun _ => False) s')
    (others : Multiset.Rel (Strand.Mirrors L) rest rest') (part : role.Mirrors L role')
    (config : c.Mirrors L c') (worker : Worker) (run : TokenId) (log : List Moment) :
    Mirrors L (turn worker run role c ⟨s, rest, log⟩) (turn worker run role' c' ⟨s', rest', log⟩)
    := by
  obtain ⟨progress, along⟩ := Config.step_mirrors worker config (fun _ _ => id) agree
  obtain ⟨es, es', trace, trace', events⟩ := along.trace
  obtain ⟨new, new', spawned, spawned', tasks⟩ := along.spawned
  rw [turn_eq trace spawned, turn_eq trace' spawned']
  refine ⟨along.toAgree, .cons (.mk run part (.of_progress progress))
    (.add (Strand.Mirrors.ofSpawns run tasks) others), ?_⟩
  have same : es = es' := by
    refine List.forall₂_eq_eq_eq ▸ events.imp fun e e' mirror => ?_
    cases mirror with
    | same => rfl
    | acquired t number | useStarted t number | releaseStarted t number | releaseFailed number
    | releaseFinished t number => rw [plain.bracket number]
  have moment : Moment.of run s = Moment.of run s' := by
    funext e
    unfold Moment.of
    split
    · rw [agree.isCancelled id]
    · rfl
  rw [same, moment]

/-- Runs of an effect begin on both sides. -/
theorem begin (plain : L.Plain) (h : Mirrors L σ τ) {new new' : TokenId × Store}
    (same : new.1 = new'.1) (agree : new.2.Agree L (fun _ => False) new'.2) (effect : Effect)
    (kept : List TokenId) (context : Context) :
    Mirrors L (σ.begin new effect kept context) (τ.begin new' effect kept context) := by
  obtain ⟨t, s⟩ := new
  obtain ⟨t', s'⟩ := new'
  cases same
  have start := Segment.Mirrors.start (.mk ⟨t, context, kept⟩ .nil) (plain.reads effect)
  exact ⟨((Store.Along.refl agree).emit (.same _)).toAgree,
    .cons (.mk t .root (.waiting start)) h.strands, h.log⟩

end Mirrors

/-- A change of the store by the surroundings can be made on the other side too. -/
theorem Outside.mirrors {s : Store} (out : σ.Outside s) (h : Mirrors L σ τ) :
    ∃ s', τ.Outside s' ∧ s.Agree L (fun _ => False) s' := by
  classical
  obtain ⟨agree, strands, -⟩ := h
  obtain ⟨es, trace, plain⟩ := out.trace
  let size := τ.store.joins.size + (s.joins.size - σ.store.joins.size)
  -- The results of tasks that stand for others are theirs; the rest stays.
  let joins := Array.ofFn fun i : Fin size =>
    if known : ∃ t, L.task t i then s.join known.choose else τ.store.join i
  let s' : Store := { s with
    tokens := τ.store.tokens, brackets := τ.store.brackets, trace := es ++ τ.store.trace, joins }
  have grown : s'.joins.size = size := Array.size_ofFn
  have le : τ.store.joins.size ≤ size := Nat.le_add_right _ _
  have tasks (i : Nat) : L.task (s.joins.size + i) (size + i) := by
    have same := agree.tasks (s.joins.size - σ.store.joins.size + i)
    rwa [← Nat.add_assoc, ← Nat.add_assoc, Nat.add_sub_cancel' out.joins] at same
  have carried {t t' : TaskId} (task : L.task t t') (lt : t' < size) : s'.join t' = s.join t := by
    have known : ∃ u, L.task u t' := ⟨t, task⟩
    have chosen : known.choose = t := (L.single known.choose_spec task).mpr rfl
    have found : s'.joins[t']? = some (s.join known.choose) := by
      simp only [s', joins, Array.getElem?_ofFn, dif_pos lt, dif_pos known]
    rw [Store.join, found, chosen]
    rfl
  have left {t' : TaskId} (alone : ¬ ∃ t, L.task t t') (lt : t' < size) :
      s'.join t' = τ.store.join t' := by
    have found : s'.joins[t']? = some (τ.store.join t') := by
      simp only [s', joins, Array.getElem?_ofFn, dif_pos lt, dif_neg alone]
    rw [Store.join, found]
    rfl
  refine ⟨s', ⟨rfl, rfl, ⟨es, rfl, plain⟩, grown.symm ▸ le, fun t' lt => ?_⟩, ?_⟩
  · have lt' := Nat.lt_of_lt_of_le lt le
    by_cases known : ∃ t, L.task t t'
    · obtain ⟨t, task⟩ := known
      have same : s'.joined? t' = s.joined? t := congrArg Join.result (carried task lt')
      rw [same, ← agree.joined? task]
      refine (out.joined t ((agree.known task).mpr lt)).imp_right ?_
      rintro ⟨none, alone⟩
      refine ⟨none, fun τ₁ mem role => ?_⟩
      obtain ⟨τ₀, mem₀, same⟩ :=
        Multiset.exists_mem_of_rel_of_mem (Multiset.rel_flip.mpr strands) mem
      obtain ⟨run, part, -⟩ := same
      cases part with
      | root => cases role
      | task task' =>
        cases role
        exact alone _ mem₀ (congrArg Strand.Role.task ((L.single task' task).mpr rfl))
    · exact .inl (congrArg Join.result (left known lt'))
  · exact {
      tokens := by
        show Forest.Agree _ s.tokens τ.store.tokens
        rw [out.tokens]
        exact agree.tokens
      clear := agree.clear, memory := L.equivalence.refl _, now := rfl, timed := rfl, ended := rfl, slots := rfl
      join := fun t t' task => by
        by_cases lt : t' < size
        · rw [carried task lt]
          exact ⟨rfl, rfl⟩
        · have new := tasks (t' - size)
          rw [Nat.add_sub_cancel' (Nat.not_lt.mp lt)] at new
          have large : s.joins.size ≤ t := (L.single task new).mpr rfl ▸ Nat.le_add_right _ _
          have large' : s'.joins.size ≤ t' := grown ▸ Nat.not_lt.mp lt
          simp only [Store.join, Array.getElem?_eq_none large, Array.getElem?_eq_none large',
            and_self]
      tasks := fun i => grown.symm ▸ tasks i
      brackets := fun i => by
        show L.bracket (s.brackets + i) (τ.store.brackets + i)
        rw [out.brackets]
        exact agree.brackets i }

end Runtime

theorem Run.giveUp_mirrors {hidden : TokenId → Prop} {A B : Store} (agree : A.Agree L hidden B)
    (token : TokenId) (context : Context) (started : Bool) (g g' : Segment) :
    (Run.giveUp ⟨token, context, .live g, started⟩ A).Agree L hidden
      (Run.giveUp ⟨token, context, .live g', started⟩ B) := by
  have cancelled := (Store.Along.refl agree).cancel token
  cases started with
  | false => exact cancelled.toAgree
  | true =>
    have dropped := cancelled.emit (.same (.runDropped context.name))
    exact (dropped.spawn context (.detached g) (.detached g') .none).toAgree

namespace Runtime

variable {σ σ' τ τ' : Runtime}

/-- A step of one side is a step of the other side. -/
theorem Mirrors.forth (plain : L.Plain) (h : Mirrors L σ τ) (step : Step σ σ') :
    ∃ τ', Step τ τ' ∧ Mirrors L σ' τ' := by
  have along := Store.Along.refl h.agree
  cases step with
  | begin _ effect kept context =>
    exact ⟨_, .begin τ effect kept context,
      h.begin plain h.agree.size along.freshToken.toAgree effect kept context⟩
  | beginBelow _ parent lt effect kept context =>
    refine ⟨_, .beginBelow τ parent (h.agree.size ▸ lt) effect kept context,
      h.begin plain ?_ (along.childToken id).toAgree effect kept context⟩
    rw [Store.childToken_fst, Store.childToken_fst, h.agree.size]
  | poll s rest log run role segment =>
    obtain ⟨s', τ₁, rest', rfl, agree, ⟨_, part, same⟩, others⟩ := h.strand
    cases same with
    | waiting segment =>
      exact ⟨_, .poll s' rest' log run _ _,
        agree, .cons (.mk run part (.running (.resume segment .nil))) others, rfl⟩
  | turn s rest log run role c worker =>
    obtain ⟨s', τ₁, rest', rfl, agree, ⟨_, part, same⟩, others⟩ := h.strand
    cases same with
    | running config =>
      exact ⟨_, .turn s' rest' log run _ _ worker,
        .turn plain agree others part config worker run log⟩
  | report s rest log run t state result came =>
    obtain ⟨s', τ₁, rest', rfl, agree, ⟨_, part, same⟩, others⟩ := h.strand
    cases part with
    | task task =>
      exact ⟨_, .report s' rest' log run _ _ result (same.joined? ▸ came),
        agree.finish task result, .cons (.mk run (.task task) same) others, rfl⟩
  | giveUp s rest log r segment live unstarted =>
    obtain ⟨s', τ₁, rest', rfl, agree, first, others⟩ := h.strand
    obtain ⟨token, context, state, started⟩ := r
    cases live
    obtain ⟨_, part, same⟩ := first
    cases part
    cases same with
    | @waiting _ g' segment =>
      let r' : Run := ⟨token, context, .live g', started⟩
      have step : Step ⟨s', .ofRun r' ::ₘ rest', log⟩ _ :=
        .giveUp s' rest' log r' g' rfl fun none => segment.isFresh ▸ unstarted none
      refine ⟨_, step, Run.giveUp_mirrors agree token context started _ _, .cons ?_ others, rfl⟩
      unfold Strand.remainder
      split
      · exact .mk token .root (.waiting segment)
      · exact .mk token .root .dropped
  | cancel _ t => exact ⟨_, .cancel τ t, (along.cancel t).toAgree, h.strands, h.log⟩
  | fresh => exact ⟨_, .fresh τ, along.freshToken.toAgree, h.strands, h.log⟩
  | child _ parent lt =>
    exact ⟨_, .child τ parent (h.agree.size ▸ lt), (along.childToken id).toAgree, h.strands, h.log⟩
  | prune _ held owned =>
    refine ⟨_, .prune τ held fun τ₁ mem p inside t own => ?_,
      (along.withTokens (h.agree.tokens.prune held)).toAgree, h.strands, h.log⟩
    obtain ⟨τ₀, mem₀, same⟩ :=
      Multiset.exists_mem_of_rel_of_mem (Multiset.rel_flip.mpr h.strands) mem
    have kept : p.standing ∈ τ₀.posts.map Post.standing :=
      same.standing ▸ Multiset.mem_map_of_mem _ inside
    obtain ⟨p₀, inside₀, kept⟩ := Multiset.mem_map.mp kept
    have same : p₀.owned = p.owned := congrArg Prod.snd kept
    exact owned τ₀ mem₀ p₀ inside₀ t (same ▸ own)
  | outside _ s out =>
    obtain ⟨s', out', agree⟩ := out.mirrors h
    exact ⟨_, .outside τ s' out', agree, h.strands, h.log⟩

theorem lockstep_mirrors (plain : L.Plain) : Lockstep (Mirrors L) where
  sight h := h.sight plain
  forth h step := h.forth plain step
  back h step := by
    obtain ⟨σ', step', mirror⟩ := h.flip.forth plain.flip step
    exact ⟨σ', step', mirror.flip⟩

theorem Mirrors.sameCourse (plain : L.Plain) (h : Mirrors L σ τ) : SameCourse σ τ :=
  ⟨Mirrors L, lockstep_mirrors plain, h⟩

end Runtime

end EffectFibers
