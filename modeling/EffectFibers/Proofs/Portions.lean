import EffectFibers.Proofs.Causes
import EffectFibers.Proofs.Ambits
import EffectFibers.Proofs.Shelter

/-!
# The tokens of a part of a run

Some strands of a run may have a part of it to themselves.  The tokens of that part are the one
that it began with, which may be that of the run, and those that its strands have made.  Nobody
else holds on to any of them but to that of the run, and the parent of each of them, but the first,
is one of them (`Belongings`).

So nothing in the part is cancelled from around, as long as the run and the first token are not
cancelled (`Belongings.calm`).

## Main statements

* `Strand.Goes.owned`, `Strand.Goes.parent`, `Strand.Goes.fibers`: what a strand holds on to and
  carries out after it has gone on.
* `Strand.Goes.spreads`: what it cancels.
* `Belongings.calm`: what is not cancelled from around.
-/

namespace EffectFibers

/-! ## What a strand does -/

namespace Strand

variable {s s' : Store} {μ μ' ν : Strand} {own own' begun rest : Multiset Strand} {t q : TokenId}
  {marks log : List Moment}

theorem owns_cons : Owns (μ ::ₘ own) t ↔ (∃ p ∈ μ.posts, t ∈ p.owned) ∨ Owns own t := by
  simp [Owns]

theorem owns_add : Owns (own + own') t ↔ Owns own t ∨ Owns own' t := by
  simp [Owns, or_and_right, exists_or]

namespace Goes

/-- What a strand does is no matter to its loops, or they react. -/
theorem reacts (goes : μ.Goes s s' μ' begun marks) :
    (∀ ν ∈ μ' ::ₘ begun, ∀ p ∈ ν.posts, p ∈ μ.posts) ∨ ∃ ms new,
      Reaction s s' μ.posts ms new μ'.posts ∧ begun = Strand.ofSpawns μ.run new := by
  cases goes with
  | poll run role segment =>
    refine .inl fun ν mem p inside => ?_
    obtain rfl := Multiset.mem_singleton.mp mem
    simpa [posts] using inside
  | report run t state result h =>
    refine .inl fun ν mem p inside => ?_
    obtain rfl := Multiset.mem_singleton.mp mem
    exact inside
  | @turn run role c worker es new trace spawned =>
    obtain ⟨-, es₁, new₁, -, spawned₁, turned⟩ := c.step_reacts worker s
    obtain rfl : new₁ = new := List.append_cancel_right (spawned₁.symm.trans spawned)
    cases progress : (c.step worker s).1 with
    | next c' =>
      rw [progress] at turned
      obtain ⟨reaction⟩ := turned
      exact .inr ⟨_, new₁, reaction, rfl⟩
    | ended x =>
      rw [progress] at turned
      generalize (List.filter Event.isMark es₁) = ms at turned
      cases turned
      refine .inl fun ν mem p inside => ?_
      obtain rfl := Multiset.mem_singleton.mp mem
      cases inside
    | parked segment =>
      rw [progress] at turned
      generalize (List.filter Event.isMark es₁) = ms at turned
      cases turned with
      | parked same =>
        refine .inl fun ν mem p inside => ?_
        obtain rfl := Multiset.mem_singleton.mp mem
        exact (congrArg (p ∈ ·) same).mpr inside
    | faulted f =>
      rw [progress] at turned
      cases turned with
      | faulted quiet =>
        refine .inl fun ν mem p inside => ?_
        obtain rfl | mem := Multiset.mem_cons.mp mem
        · cases inside
        · obtain ⟨x, inNew, segment, found, -⟩ := mem_ofSpawns.mp mem
          rw [quiet x inNew] at found
          cases found

/-- A loop of a task that is begun is one of those with which the task was started. -/
theorem posts_of_spawned {run : TokenId} {new : List Spawn} (mem : ν ∈ Strand.ofSpawns run new) :
    ∃ x ∈ new, ν.posts = x.posts := by
  obtain ⟨x, inNew, segment, found, rfl⟩ := mem_ofSpawns.mp mem
  exact ⟨x, inNew, by simp [posts, Spawn.posts, found]⟩

/-- A strand that goes on, and the tasks that it begins, hold on to what it did before, and to new
tokens. -/
theorem owned (goes : μ.Goes s s' μ' begun marks) (owns : Owns (μ' ::ₘ begun) t) :
    Owns {μ} t ∨ Within s.size s'.size t := by
  have whole : (∃ p ∈ μ.posts, t ∈ p.owned) → Owns {μ} t := fun held =>
    ⟨μ, Multiset.mem_singleton_self μ, held⟩
  obtain ⟨ν, mem, p, inside, own⟩ := owns
  obtain same | ⟨ms, new, reaction, rfl⟩ := goes.reacts
  · exact .inl (whole ⟨p, same ν mem p inside, own⟩)
  · obtain rfl | mem := Multiset.mem_cons.mp mem
    · exact (reaction.owned inside own).imp_left whole
    · obtain ⟨x, inNew, posts⟩ := posts_of_spawned mem
      obtain ⟨loop, effect, rfl, known⟩ := reaction.starting inNew (posts ▸ inside)
      obtain rfl : t = loop.env.token := by simpa [Post.owned, Loop.at, Fiber.token] using own
      exact known.imp_left whole

/-- A new token that a strand comes to hold on to was derived from one that it has held on to, or
from another new one. -/
theorem parent (goes : μ.Goes s s' μ' begun marks) (family : s.Family) (family' : s'.Family)
    (bound : ∀ t, Owns {μ} t → t < s.size) (owns : Owns (μ' ::ₘ begun) t) (fresh : s.size ≤ t)
    (derived : s'.Derived q t) : Owns {μ} q ∨ Within s.size s'.size q := by
  have whole : (∃ p ∈ μ.posts, q ∈ p.owned) → Owns {μ} q := fun held =>
    ⟨μ, Multiset.mem_singleton_self μ, held⟩
  have old : ∀ p ∈ μ.posts, t ∉ p.owned := fun p inside own =>
    Nat.not_lt.mpr fresh (bound t ⟨μ, Multiset.mem_singleton_self μ, p, inside, own⟩)
  obtain ⟨ν, mem, p, inside, own⟩ := owns
  obtain same | ⟨ms, new, reaction, rfl⟩ := goes.reacts
  · exact (old p (same ν mem p inside) own).elim
  generalize μ.posts = P at reaction old whole
  obtain rfl | mem := Multiset.mem_cons.mp mem
  · generalize ν.posts = P' at reaction inside
    cases reaction with
    | idle => exact (old p inside own).elim
    | @act l φ φ' ms nested new P step single newborn distinct quiet =>
      obtain rfl | inside := Multiset.mem_cons.mp inside
      · exact (old _ (Multiset.mem_cons_self _ _) (Post.owned_step step single own)).elim
      · obtain inside | inside := Multiset.mem_add.mp inside
        · have born := newborn p inside
          rw [Post.owned_of_newborn born, List.mem_singleton] at own
          subst own
          have link := born.link
          split at link
          · obtain ⟨rfl, parent⟩ := link
            obtain rfl := family'.unique _ _ _ derived parent
            exact .inl (whole ⟨_, Multiset.mem_cons_self _ _, Post.token_mem_owned _⟩)
          · exact (Nat.not_lt.mpr fresh (family.bound q _ (link q derived))).elim
          · exact link.elim
        · exact (old p (Multiset.mem_cons_of_mem inside) own).elim
    | @fan l loop n operands group new P begun =>
      obtain rfl | inside := Multiset.mem_cons.mp inside
      · obtain rfl | rfl : t = loop.env.token ∨ t = group.token := by
          simpa [Post.owned, Loop.at] using own
        · exact (old _ (Multiset.mem_cons_self _ _) (List.mem_singleton_self _)).elim
        · obtain rfl := family'.unique _ _ _ derived begun.derived
          exact .inl (whole ⟨_, Multiset.mem_cons_self _ _, List.mem_singleton_self _⟩)
      · exact (old p (Multiset.mem_cons_of_mem inside) own).elim
    | sent =>
      obtain rfl | inside := Multiset.mem_cons.mp inside
      · exact (old _ (Multiset.mem_cons_self _ _) own).elim
      · exact (old p (Multiset.mem_cons_of_mem inside) own).elim
    | back | left => exact (old p (Multiset.mem_cons_of_mem inside) own).elim
  · obtain ⟨x, inNew, posts⟩ := posts_of_spawned mem
    rw [posts] at inside
    generalize μ'.posts = P' at reaction
    cases reaction with
    | idle | back | left => cases inNew
    | act step single newborn distinct quiet => simp [Spawn.posts, quiet x inNew] at inside
    | fan begun =>
      obtain ⟨env, effect, segment, -, parent, -⟩ := begun.operands x inNew
      rw [Spawn.posts_of_segment? segment, Multiset.mem_singleton] at inside
      subst inside
      obtain rfl : t = env.token := by simpa [Post.owned, Loop.at, Fiber.token] using own
      obtain rfl := family'.unique _ _ _ derived parent
      exact .inr begun.token
    | sent =>
      split at inNew
      · obtain rfl := List.mem_singleton.mp inNew
        rw [Spawn.posts_of_segment? rfl, Multiset.mem_singleton] at inside
        subst inside
        exact (old _ (Multiset.mem_cons_self _ _) own).elim
      · cases inNew

/-- A loop that is carried out after a strand has gone on is new, or it was carried out before and
has made a step at most. -/
theorem fibers {φ' : Fiber} (goes : μ.Goes s s' μ' begun marks) (mem : ν ∈ μ' ::ₘ begun)
    (inside : φ' ∈ Post.fibers ν.posts) : Within s.size s'.size φ'.token ∨
      ∃ φ ∈ Post.fibers μ.posts, φ' = φ ∨ ∃ ms, φ.Step s ms φ' := by
  obtain ⟨l, inside⟩ := Post.mem_fibers.mp inside
  obtain same | ⟨ms, new, reaction, rfl⟩ := goes.reacts
  · exact .inr ⟨φ', Post.mem_fibers.mpr ⟨l, same ν mem _ inside⟩, .inl rfl⟩
  generalize μ.posts = P at reaction
  obtain rfl | mem := Multiset.mem_cons.mp mem
  · generalize ν.posts = P' at reaction inside
    have kept {p : Post} {P : Multiset Post} (inside : ⟨l, .fiber φ'⟩ ∈ P) :
        ∃ φ ∈ Post.fibers (p ::ₘ P), φ' = φ ∨ ∃ ms, φ.Step s ms φ' :=
      ⟨φ', Post.mem_fibers.mpr ⟨l, Multiset.mem_cons_of_mem inside⟩, .inl rfl⟩
    cases reaction with
    | idle => exact .inr ⟨φ', Post.mem_fibers.mpr ⟨l, inside⟩, .inl rfl⟩
    | @act l₁ φ φ₁ ms nested new P step single newborn distinct quiet =>
      obtain same | inside := Multiset.mem_cons.mp inside
      · cases same
        exact .inr ⟨φ, Post.mem_fibers.mpr ⟨l, Multiset.mem_cons_self _ _⟩, .inr ⟨ms, step⟩⟩
      · obtain inside | inside := Multiset.mem_add.mp inside
        · exact .inl (newborn _ inside).fresh
        · exact .inr (kept inside)
    | fan begun =>
      obtain same | inside := Multiset.mem_cons.mp inside
      · cases same
        exact .inr ⟨_, Post.mem_fibers.mpr ⟨l, Multiset.mem_cons_self _ _⟩, .inr ⟨_, .fan⟩⟩
      · exact .inr (kept inside)
    | sent =>
      obtain same | inside := Multiset.mem_cons.mp inside
      · cases same
      · exact .inr (kept inside)
    | back | left => exact .inr (kept inside)
  · obtain ⟨x, inNew, posts⟩ := posts_of_spawned mem
    rw [posts] at inside
    generalize μ'.posts = P' at reaction
    cases reaction with
    | idle | back | left => cases inNew
    | act step single newborn distinct quiet => simp [Spawn.posts, quiet x inNew] at inside
    | fan begun =>
      obtain ⟨env, effect, segment, fresh, -⟩ := begun.operands x inNew
      rw [Spawn.posts_of_segment? segment, Multiset.mem_singleton] at inside
      cases inside
      exact .inl (fresh.mono (Nat.le_succ_of_le begun.token.le) (Nat.le_refl _))
    | sent live refused =>
      split at inNew
      · obtain rfl := List.mem_singleton.mp inNew
        rw [Spawn.posts_of_segment? rfl, Multiset.mem_singleton] at inside
        cases inside
        exact .inr ⟨_, Post.mem_fibers.mpr ⟨_, Multiset.mem_cons_self _ _⟩, .inr ⟨_, .shift live⟩⟩
      · cases inNew

end Goes

end Strand

/-! ## What is cancelled -/

/-- What a step of a poll cancels itself is asked for, or a loop of the poll holds on to it. -/
theorem Config.Targets.owned {s : Store} {c : Config} {t : TokenId} (target : c.Targets s t)
    (orderly : Berth.Orderly s c.berths) :
    (∃ loop, c.focus = .eval loop (.cancel t)) ∨ ∃ p ∈ c.posts, t ∈ p.owned := by
  have group {loop : Loop} {g : Group} {callers : List Caller} :
      ∃ p ∈ Config.posts ⟨.resume (.gathering loop g), callers⟩, g.token ∈ p.owned :=
    ⟨_, Multiset.mem_cons_self _ _, by simp [Post.owned, Loop.at]⟩
  cases target with
  | asked => exact .inl ⟨_, rfl⟩
  | failed | panicked => exact .inr group
  | @settled loop tokens other side x callers decided =>
    obtain ⟨b, inside, room⟩ := other.exists_room (loop.side side.other)
    have around : ∀ b, b = loop.berth (Caller.innerRoom callers) (.racing tokens) ∨
        b ∈ other.berths (loop.side side.other) →
        b ∈ Config.berths ⟨.leave x, Caller.race loop tokens other side :: callers⟩ := by
      intro b mem
      rw [Config.berths_leave, Caller.allBerths_cons]
      exact Multiset.mem_add.mpr (.inl (by cases side <;> exact Multiset.mem_cons.mpr mem))
    have token := orderly.operands _ loop tokens (around _ (.inl rfl)) b (around b (.inr inside))
      side.other room
    refine .inr ⟨b.post, ?_, token ▸ b.post.token_mem_owned⟩
    rw [← Config.map_berths]
    exact Multiset.mem_map_of_mem _ (around b (.inr inside))

/-- A strand that goes on cancels what its program asks for, and tokens that it holds on to. -/
theorem Strand.Goes.spreads {s s' : Store} {μ μ' : Strand} {begun rest : Multiset Strand}
    {marks log : List Moment} (goes : μ.Goes s s' μ' begun marks)
    (h : Runtime.Reachable ⟨s, μ ::ₘ rest, log⟩) : s.Spreads s' fun t =>
      Runtime.Asks ⟨s, μ ::ₘ rest, log⟩ ⟨s', μ' ::ₘ (begun + rest), marks ++ log⟩ t ∨
        Strand.Owns {μ} t := by
  cases goes with
  | poll => exact .of_tokens rfl
  | report run t state result => exact .of_tokens (Runtime.same_finish s t result).tokens
  | turn run role c worker trace spawned =>
    refine (c.step_spreads worker h.listed).mono fun t target => ?_
    have acting : (⟨run, role, .running c⟩ : Strand).company
        ∈ Runtime.companies ⟨s, ⟨run, role, .running c⟩ ::ₘ rest, log⟩ :=
      Multiset.mem_map_of_mem Strand.company (Multiset.mem_cons_self _ _)
    obtain ⟨loop, focus⟩ | held := target.owned (h.orderly _ acting)
    · obtain ⟨focus, callers⟩ := c
      cases focus
      rw [← Runtime.turn_eq trace spawned]
      exact .inl .program
    · exact .inr ⟨_, Multiset.mem_singleton_self _, held⟩

/-! ## What happens around strands -/

namespace Runtime

variable {σ σ' : Runtime}

theorem Reachable.owned_known (h : Reachable σ) {t : TokenId} (owns : Strand.Owns σ.strands t) :
    t < σ.store.size := by
  obtain ⟨ν, mem, held⟩ := owns
  exact h.kindred.known ⟨ν.party, Multiset.mem_map_of_mem _ mem, rfl, held⟩

/-- Nothing goes on: the strands stay as they are while the store changes and runs begin, or one of
them is given up for good. -/
inductive Aside : Runtime → Runtime → Prop
  | begins {σ : Runtime} {s' : Store} {begun : Multiset Strand}
      (h : Elsewhere σ.strands σ.store s') (runs : ∀ ν ∈ begun, σ.store.size ≤ ν.run)
      (fresh : ∀ t, Strand.Owns begun t → σ.store.size ≤ t) :
      Aside σ ⟨s', begun + σ.strands, σ.log⟩
  | drops {s s' : Store} (grows : s.Grows s') (μ : Strand) (rest : Multiset Strand)
      (log : List Moment) :
      Aside ⟨s, μ ::ₘ rest, log⟩ ⟨s', { μ with state := .dropped } ::ₘ rest, log⟩

/-- A strand goes on in a step, or nothing does, and then what is asked for is cancelled, or what
is given up. -/
theorem Step.act_or_aside (h : Reachable σ) (step : Step σ σ') : Act σ σ' ∨ Aside σ σ' ∧
    σ.store.Spreads σ'.store fun t => Asks σ σ' t ∨ σ.Holds t t := by
  have listed := h.listed
  have still {s' : Store} (h : Elsewhere σ.strands σ.store s') :
      Aside σ { σ with store := s' } := by
    have around : Aside σ ⟨s', 0 + σ.strands, σ.log⟩ :=
      .begins h (by simp) (by simp [Strand.Owns])
    rwa [zero_add] at around
  have begins {new : TokenId × Store} (grows : σ.store.Grows new.2) (same : new.1 = σ.store.size)
      (effect : Effect) (kept : List TokenId) (context : Context) :
      Aside σ (σ.begin new effect kept context) := by
    show Aside σ ⟨_, {_} + σ.strands, σ.log⟩
    refine .begins (elsewhere_of_grows (.tail grows (.emit _ _ rfl))) (fun ν mem => ?_)
      fun t owns => ?_
    · obtain rfl := Multiset.mem_singleton.mp mem
      exact same.ge
    · obtain ⟨ν, mem, p, inside, own⟩ := owns
      obtain rfl := Multiset.mem_singleton.mp mem
      obtain rfl : p = _ := Multiset.mem_singleton.mp inside
      obtain rfl : t = new.1 := List.mem_singleton.mp own
      exact same.ge
  cases step with
  | begin _ effect kept context =>
    exact .inr ⟨begins (.single (.fresh _)) rfl effect kept context,
      .of_same fun _ => Forest.isCancelled_fresh⟩
  | beginBelow _ parent lt effect kept context =>
    exact .inr ⟨begins (.single (.child _ parent)) (σ.store.childToken_fst parent) effect kept
      context, (σ.store.spreads_child parent).trans (.of_tokens rfl)
        (Store.Grows.ages (.single (.emit _ _ rfl)))⟩
  | poll s rest log run role segment =>
    have act := Act.mk (.poll (s := s) run role segment) rest log
    rw [zero_add] at act
    exact .inl act
  | turn s rest log run role c worker =>
    obtain ⟨-, es, new, trace, spawned, -⟩ := c.step_reacts worker s
    rw [Runtime.turn_eq trace spawned]
    exact .inl (.mk (.turn run role c worker trace spawned) rest log)
  | report s rest log run t state result came =>
    have act := Act.mk (.report (s := s) run t state result came) rest log
    rw [zero_add] at act
    exact .inl act
  | giveUp s rest log r segment live unstarted =>
    refine .inr ⟨?_, (giveUp_spreads h live).mono fun u held => .inr held⟩
    unfold Strand.remainder
    split
    · exact still (elsewhere_of_grows (giveUp_grows r s))
    · exact .drops (giveUp_grows r s) (.ofRun r) rest log
  | cancel _ t =>
    exact .inr ⟨still (elsewhere_of_grows (.single (.cancel _ t))),
      (Store.spreads_cancel listed t).mono fun u same => .inl (same ▸ .outside)⟩
  | fresh =>
    exact .inr ⟨still (elsewhere_of_grows (.single (.fresh _))),
      .of_same fun _ => Forest.isCancelled_fresh⟩
  | child _ parent lt =>
    exact .inr ⟨still (elsewhere_of_grows (.single (.child _ parent))),
      σ.store.spreads_child parent⟩
  | prune _ held owned =>
    exact .inr ⟨still (.prune held owned rfl), .of_same fun _ => Forest.isCancelled_prune held⟩
  | outside _ s out =>
    exact .inr ⟨still (.drifts ⟨⟨_, .refl, out.tokens⟩, Nat.le_of_eq out.brackets.symm, out.joins,
      out.joined⟩), .of_tokens out.tokens⟩

end Runtime

/-! ## The tokens of a part -/

/-- The tokens of a part of a run: those that its strands have made, and the one that it began
with. -/
structure Belongings (s : Store) (run : TokenId) (own others : Multiset Strand)
    (mine : TokenId → Prop) (token : TokenId) : Prop where
  known : ∀ t, mine t → t < s.size
  first : mine token
  inside : ∀ t, Strand.Owns own t → mine t
  /-- Nobody else holds on to any of them, but to that of the run. -/
  outside : ∀ t, Strand.Owns others t → mine t → t = run
  parent : ∀ t q, Strand.Owns own t → t ≠ token → s.Parent q t → mine q

namespace Belongings

variable {s s' : Store} {run token t : TokenId} {own others others' begun : Multiset Strand}
  {mine : TokenId → Prop} {μ μ' : Strand} {marks : List Moment}

/-- An old token gets no parent. -/
theorem parent_old {q : TokenId} (ages : s.Ages s') (known : t < s.size)
    (parent : s'.Parent q t) : s.Parent q t := by
  refine ⟨(ages.young q t parent.derived).resolve_right fun new => ?_, parent.lt⟩
  exact Nat.not_lt.mpr new.le known

/-- The part does nothing. -/
theorem around (h : Belongings s run own others mine token) (ages : s.Ages s')
    (new : ∀ t, Strand.Owns others' t → Strand.Owns others t ∨ s.size ≤ t) :
    Belongings s' run own others' mine token where
  known t inside := Nat.lt_of_lt_of_le (h.known t inside) ages.size
  first := h.first
  inside := h.inside
  outside t owns inside := by
    obtain old | new := new t owns
    · exact h.outside t old inside
    · exact (Nat.not_lt.mpr new (h.known t inside)).elim
  parent t q owns ne parent :=
    h.parent t q owns ne (parent_old ages (h.known t (h.inside t owns)) parent)

/-- A strand of the part goes on. -/
theorem act (h : Belongings s run (μ ::ₘ own) others mine token)
    (goes : μ.Goes s s' μ' begun marks) (ages : s.Ages s') (family : s.Family)
    (family' : s'.Family) (bound : ∀ t, Strand.Owns others t → t < s.size) :
    Belongings s' run (μ' ::ₘ (begun + own)) others (fun t => mine t ∨ Within s.size s'.size t)
      token := by
  have acting : ∀ t, Strand.Owns {μ} t → mine t := by
    rintro t ⟨ν, mem, held⟩
    obtain rfl := Multiset.mem_singleton.mp mem
    exact h.inside t ⟨ν, Multiset.mem_cons_self _ _, held⟩
  have rest : ∀ t, Strand.Owns own t → mine t := fun t owns =>
    h.inside t (Strand.owns_cons.mpr (.inr owns))
  have split : ∀ t, Strand.Owns (μ' ::ₘ (begun + own)) t →
      Strand.Owns (μ' ::ₘ begun) t ∨ Strand.Owns own t := fun t owns => by
    rwa [← Multiset.cons_add, Strand.owns_add] at owns
  refine ⟨?_, .inl h.first, fun t owns => ?_, fun t owns inside => ?_, fun t q owns ne parent => ?_⟩
  · rintro t (old | new)
    · exact Nat.lt_of_lt_of_le (h.known t old) ages.size
    · exact new.lt
  · obtain now | old := split t owns
    · exact (goes.owned now).imp_left (acting t)
    · exact .inl (rest t old)
  · refine h.outside t owns (inside.resolve_right fun new => ?_)
    exact Nat.not_lt.mpr new.le (bound t owns)
  · have old (inside : mine t) (owns : Strand.Owns (μ ::ₘ own) t) : mine q :=
      h.parent t q owns ne (parent_old ages (h.known t inside) parent)
    obtain now | same := split t owns
    · obtain before | new := goes.owned now
      · refine .inl (old (acting t before) ?_)
        obtain ⟨ν, mem, held⟩ := before
        obtain rfl := Multiset.mem_singleton.mp mem
        exact ⟨ν, Multiset.mem_cons_self _ _, held⟩
      · exact (goes.parent family family' (fun t owns => h.known t (acting t owns)) now new.le
          parent.derived).imp_left (acting q)
    · exact .inl (old (rest t same) (Strand.owns_cons.mpr (.inr same)))

/-- Nothing in the part is cancelled from around but its first token, as long as neither that nor
the token of the run is. -/
theorem calm {σ σ' : Runtime} (h : Belongings σ.store run own others mine token)
    (reach : σ.Reachable) (discreet : Runtime.Discreet σ σ') (whole : ¬ σ.Failed run)
    (strands : σ.strands = own + others)
    (runs : ∀ μ ∈ own, μ.run = run)
    (spreads : σ.store.Spreads σ'.store fun t =>
      Runtime.Asks σ σ' t ∨ σ.Holds t t ∨ Strand.Owns others t)
    (alive : σ'.store.isCancelled run = false)
    (clear : Strand.Owns own token → σ'.store.isCancelled token = false)
    (owns : Strand.Owns own t) (ne : t ≠ token) (cancelled : σ'.store.isCancelled t = true) :
    σ.store.isCancelled t = true := by
  have held : ∀ t, Strand.Owns own t → σ.Holds run t := by
    rintro t ⟨ν, mem, p, inside, own⟩
    have here : ν ∈ σ.strands := strands ▸ Multiset.mem_add.mpr (.inl mem)
    exact ⟨ν.party, Multiset.mem_map_of_mem _ here, runs ν mem, p, inside, own⟩
  have other : ∀ t, σ'.store.isCancelled t = true → t ≠ run := by
    rintro t cancelled rfl
    rw [alive] at cancelled
    cases cancelled
  induction t using Nat.strong_induction_on with
  | h t ih =>
    have holds := held t owns
    obtain before | (asks | given | outside) | ⟨q, parent, above⟩ := spreads t cancelled
    · exact before
    · exact discreet.spares t asks ⟨run, holds, other t cancelled⟩
    · exact (other t cancelled (reach.separate.unique given holds)).elim
    · exact (other t cancelled (h.outside t outside (h.inside t owns))).elim
    · have old := parent_old discreet.step.ages (h.known t (h.inside t owns)) parent
      have inside := h.parent t q owns ne old
      obtain held' | same | failed := reach.kindred.parent holds old
      · obtain ⟨π, mem, -, p, post, own'⟩ := held'
        obtain ⟨ν, here, rfl⟩ := Multiset.mem_map.mp mem
        rw [strands] at here
        obtain mem | mem := Multiset.mem_add.mp here
        · have ownsq : Strand.Owns own q := ⟨ν, mem, p, post, own'⟩
          by_cases first : q = token
          · subst first
            rw [clear ownsq] at above
            cases above
          · have before := ih q old.lt ownsq first above
            exact reach.cancelled_below whole holds (reach.separate.rooted run q (held q ownsq))
              (.single old) before
        · exact (other q above (h.outside q ⟨ν, mem, p, post, own'⟩ inside)).elim
      · exact (other t cancelled same).elim
      · exact (whole failed).elim

end Belongings

end EffectFibers
