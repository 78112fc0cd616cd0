import EffectFibers.Proofs.Companies
import EffectFibers.Proofs.Gathering
import EffectFibers.Proofs.Starts

/-!
# How far a cancellation goes

A cancellation of the token of a run comes to every fiber of the run but those in an acquisition
or in a release, because the run holds on to all the tokens in between.  A race that is settled
cancels the token of the operand that is left, a group that fails its own token, and what was
derived from them; nothing around the race or the group, and nothing of another run, is below
those tokens.

That nothing of another run is there is an invariant of its own (`Runtime.Separate`): only one
run gets new tokens in a step, and it holds on to their parents (`Runtime.Turnover.gains`).

## Main statements

* `Runtime.Reachable.separate`: what a run holds on to is below no token of another run, unless
  the run itself is.
* `Runtime.Reachable.cancel_reaches`: a cancellation inside of a run comes down to all below it.
* `Runtime.Reachable.cancellation`: reach and confinement.
-/

namespace EffectFibers

namespace Store

variable {s s' : Store} {t u : TokenId}

/-- An old token is below nothing new. -/
theorem Ages.below (ages : s.Ages s') (below : s'.Below t u) (known : u < s.size) :
    s.Below t u := by
  induction below with
  | refl => exact .refl
  | @tail q u below parent ih =>
    have derived := (ages.young q u parent.derived).resolve_right fun fresh =>
      Nat.not_lt.mpr fresh.le known
    exact (ih (Nat.lt_trans parent.lt known)).tail ⟨derived, parent.lt⟩

theorem Ages.below_mono (ages : s.Ages s') (below : s.Below t u) : s'.Below t u :=
  Relation.ReflTransGen.mono (fun _ _ parent => Parent.mono parent ages) _ _ below

/-- What is below a token is below it through its parent, if it is not the token itself. -/
theorem Family.below_parent (family : s.Family) {q : TokenId} (below : s.Below t u) (ne : u ≠ t)
    (parent : s.Parent q u) : s.Below t q := by
  obtain rfl | ⟨q', below, parent'⟩ := Relation.ReflTransGen.cases_tail below
  · exact (ne rfl).elim
  · exact family.unique q' q u parent'.derived parent.derived ▸ below

end Store

namespace Runtime

variable {σ σ' : Runtime} {run run' t u c q : TokenId}

/-! ## New tokens -/

theorem Kindred.known (h : σ.Kindred) (held : σ.Holds run c) : c < σ.store.size := by
  obtain ⟨π, mem, -, p, inside, own⟩ := held
  exact (h.linked π mem p inside).bound c own

/-- A run holds on to the parent of a token that it holds on to, if the token is not its own, or
not that of the outermost loop of a task. -/
theorem Kindred.holds_parent (h : σ.Kindred) {π : Party} {p : Post} (mem : π ∈ σ.parties)
    (inside : p ∈ π.posts) (own : c ∈ p.owned) :
    (∀ q, σ.store.Derived q c → σ.Holds π.run q) ∨ p.link = .outer ∧ c = p.token := by
  have linked := h.linked π mem p inside
  obtain rfl | ⟨loop, g, piece, rfl⟩ := Post.mem_owned.mp own
  · have fits := linked.link
    cases link : p.link with
    | operand q₀ =>
      rw [link] at fits
      obtain ⟨p', inside', rfl⟩ := (nest mem).under p inside q₀ link
      refine .inl fun q derived => ?_
      obtain rfl := h.family.unique _ q _ fits.derived derived
      exact ⟨π, mem, rfl, p', inside', p'.token_mem_owned⟩
    | apart =>
      rw [link] at fits
      exact .inl fun q derived => (fits q derived).elim
    | outer => exact .inr ⟨rfl, rfl⟩
  · obtain ⟨parent, -⟩ := linked.group loop g piece
    refine .inl fun q derived => ?_
    obtain rfl := h.family.unique _ q _ parent.derived derived
    exact ⟨π, mem, rfl, p, inside, by simp [Post.owned, piece]⟩

/-- A token that a run comes to hold on to is its own, or the run holds on to the parent. -/
theorem Turnover.gains (turnover : Turnover σ σ') (kindred' : σ'.Kindred)
    (held : σ'.Holds run c) :
    σ.Holds run c ∨ c = run ∨ ∀ q, σ'.store.Derived q c → σ'.Holds run q := by
  obtain ⟨π, mem, rfl, p, inside, own⟩ := held
  obtain parents | ⟨link, rfl⟩ := kindred'.holds_parent mem inside own
  · exact .inr (.inr parents)
  cases turnover.origin mem with
  | old mem => exact .inl ⟨π, mem, rfl, p, inside, own⟩
  | acted acting reaction =>
    obtain ⟨p₀, inside₀, -, same⟩ := reaction.outer inside link
    exact .inl ⟨_, acting, rfl, p₀, inside₀, same ▸ p₀.token_mem_owned⟩
  | started acting acted reaction started =>
    cases reaction with
    | idle | back | left => cases started
    | act step single newborn distinct quiet =>
      simp [Spawn.posts, quiet _ started] at inside
    | fan begun =>
      obtain ⟨env, effect, segment, -, derived', -⟩ := begun.operands _ started
      rw [Spawn.posts_of_segment? segment, Multiset.mem_singleton] at inside
      subst inside
      refine .inr (.inr fun q derived => ?_)
      obtain rfl := kindred'.family.unique _ q _ derived' derived
      exact ⟨_, acted, rfl, _, Multiset.mem_cons_self _ _, by simp [Post.owned, Loop.at]⟩
    | sent live refused =>
      split at started
      · obtain rfl := List.mem_singleton.mp started
        rw [Spawn.posts_of_segment? rfl, Multiset.mem_singleton] at inside
        subst inside
        exact .inl ⟨_, acting, rfl, _, Multiset.mem_cons_self _ _, List.mem_singleton_self _⟩
      · cases started
  | lost => cases inside
  | begun =>
    obtain rfl := Multiset.mem_singleton.mp inside
    exact .inr (.inl rfl)

/-- Only one run gets anything in a step. -/
theorem Turnover.single (turnover : Turnover σ σ') :
    ∃ run₀, ∀ run c, σ'.Holds run c → σ.Holds run c ∨ run = run₀ := by
  have some : ∃ run₀, ∀ π ∈ σ'.parties, π ∈ σ.parties ∨ π.run = run₀ := by
    cases turnover with
    | idle parties => exact ⟨0, fun π mem => .inl (parties ▸ mem)⟩
    | @act run role P P' ms new rest reaction numbered tasks parties parties' =>
      refine ⟨run, fun π mem => ?_⟩
      rw [parties'] at mem
      obtain rfl | mem := Multiset.mem_cons.mp mem
      · exact .inr rfl
      · obtain mem | mem := Multiset.mem_add.mp mem
        · obtain ⟨x, -, -, rfl⟩ := mem_ofSpawns.mp mem
          exact .inr rfl
        · exact .inl (parties ▸ Multiset.mem_cons_of_mem mem)
    | @lose run role P ms rest failed marks parties parties' =>
      refine ⟨run, fun π mem => ?_⟩
      rw [parties'] at mem
      obtain rfl | mem := Multiset.mem_cons.mp mem
      · exact .inr rfl
      · exact .inl (parties ▸ Multiset.mem_cons_of_mem mem)
    | @begin env effect fresh parties' =>
      refine ⟨env.token, fun π mem => ?_⟩
      rw [parties'] at mem
      obtain rfl | mem := Multiset.mem_cons.mp mem
      · exact .inr rfl
      · exact .inl mem
  obtain ⟨run₀, origin⟩ := some
  refine ⟨run₀, fun run c held => ?_⟩
  obtain ⟨π, mem, rfl, p, inside, own⟩ := held
  exact (origin π mem).imp_left fun old => ⟨π, old, rfl, p, inside, own⟩

/-! ## What belongs to different runs -/

/-- A run holds on to no token older than its own, and to none below a token of another run,
unless the run itself was begun below that token. -/
structure Separate (σ : Runtime) : Prop where
  rooted : ∀ run c, σ.Holds run c → run ≤ c
  apart : ∀ run run' t u, run ≠ run' → σ.Holds run t → σ.Holds run' u → σ.store.Below t u →
    σ.store.Below t run'

theorem Step.rooted (h : σ.Separate) (kindred : σ.Kindred) (step : Step σ σ')
    (held : σ'.Holds run c) : run ≤ c := by
  obtain old | fresh := step.turnover.holds held
  · exact h.rooted run c old
  · have older : ∀ {π : Party}, π ∈ σ.parties → π.run ≤ c := fun mem =>
      Nat.le_of_lt (Nat.lt_of_lt_of_le (kindred.runs _ mem) fresh.le)
    obtain ⟨π, mem, rfl, p, inside, own⟩ := held
    cases step.turnover.origin mem with
    | old old | acted old | started old | lost old =>
      have le := older old
      exact le
    | begun =>
      obtain rfl := Multiset.mem_singleton.mp inside
      obtain rfl := List.mem_singleton.mp own
      exact Nat.le_refl _

theorem Step.separate (h : σ.Separate) (kindred : σ.Kindred) (kindred' : σ'.Kindred)
    (step : Step σ σ') : σ'.Separate := by
  have old : ∀ {run c}, c < σ.store.size → σ'.Holds run c → σ.Holds run c := fun known held =>
    (step.turnover.holds held).resolve_right fun fresh => Nat.not_lt.mpr fresh.le known
  obtain ⟨run₀, single⟩ := step.turnover.single
  refine ⟨fun run c => step.rooted h kindred, fun run run' t u ne holds held below => ?_⟩
  -- By induction on the lower token: an old one is known to be apart, a new one has a parent.
  induction u using Nat.strongRecOn with
  | ind u ih =>
    obtain held₀ | fresh := step.turnover.holds held
    · have known := kindred.known held₀
      have below₀ := step.ages.below below known
      have holds₀ := old (Nat.lt_of_le_of_lt (Store.below_le below) known) holds
      exact step.ages.below_mono (h.apart run run' t u ne holds₀ held₀ below₀)
    · have unknown : ∀ run, ¬ σ.Holds run u := fun run held₀ =>
        Nat.not_lt.mpr fresh.le (kindred.known held₀)
      obtain held₀ | rfl | parents := step.turnover.gains kindred' held
      · exact (unknown _ held₀).elim
      · exact below
      · obtain rfl | ⟨q, below, parent⟩ := Relation.ReflTransGen.cases_tail below
        · obtain same := (single run u holds).resolve_left (unknown run)
          obtain same' := (single run' u held).resolve_left (unknown run')
          exact (ne (same.trans same'.symm)).elim
        · exact ih q parent.lt (parents q parent.derived) below

theorem Reachable.separate (h : Reachable σ) : σ.Separate := by
  induction h with
  | refl =>
    have none : Runtime.parties {} = 0 := rfl
    refine ⟨?_, ?_⟩
    all_goals simp [Holds, none]
  | tail reach step ih =>
    exact Step.separate ih (Reachable.kindred reach) (Reachable.kindred (.tail reach step)) step

/-- What a run holds on to no other run does. -/
theorem Separate.unique (h : σ.Separate) (held : σ.Holds run c) (held' : σ.Holds run' c) :
    run = run' := by
  by_contra ne
  have below := Store.below_le (h.apart run run' c c ne held held' .refl)
  have below' := Store.below_le (h.apart run' run c c (Ne.symm ne) held' held .refl)
  exact ne (Nat.le_antisymm (Nat.le_trans (h.rooted _ _ held) below)
    (Nat.le_trans (h.rooted _ _ held') below'))

theorem Reachable.listed (h : Reachable σ) : σ.store.Listed := by
  induction h with
  | refl => exact fun p c mem => by simp [Forest.children] at mem
  | tail reach step ih => exact step.elapse.listed ih

/-! ## Inside of a run -/

/-- A run holds on to whatever is between a token inside of it and one that it holds on to. -/
theorem Kindred.between (h : σ.Kindred) (whole : ¬ σ.Failed run) (held : σ.Holds run u)
    (inner : run ≤ t) (low : Relation.TransGen σ.store.Parent t c) (high : σ.store.Below c u) :
    σ.Holds run c := by
  refine (h.above whole held high).resolve_right fun up => ?_
  obtain ⟨b, parent, upper⟩ := Relation.TransGen.head'_iff.mp up
  obtain ⟨b', parent', lower⟩ := Relation.TransGen.head'_iff.mp low
  have above : c < run := Nat.lt_of_lt_of_le parent.lt (Store.below_le upper)
  have beneath : t < c := Nat.lt_of_lt_of_le parent'.lt (Store.below_le lower)
  exact Nat.not_lt.mpr inner (Nat.lt_trans beneath above)

/-- Below a cancelled token inside of a run, all that the run holds on to is cancelled. -/
theorem Reachable.cancelled_below (h : Reachable σ) (whole : ¬ σ.Failed run)
    (held : σ.Holds run u) (inner : run ≤ t) (below : σ.store.Below t u)
    (cancelled : σ.store.isCancelled t = true) : σ.store.isCancelled u = true :=
  (Reachable.hung h).cancelled below
    (fun _ low high => ⟨run, (Reachable.kindred h).between whole held inner low high⟩) cancelled

/-- A cancellation inside of a run comes down to whatever the run holds on to. -/
theorem Reachable.cancel_reaches (h : Reachable σ) (whole : ¬ σ.Failed run)
    (held : σ.Holds run u) (inner : run ≤ t) (below : σ.store.Below t u) :
    (σ.store.cancel t).isCancelled u = true := by
  let σ₁ : Runtime := { σ with store := σ.store.cancel t }
  have cancel : Step σ σ₁ := .cancel σ t
  have known := (Reachable.kindred h).known held
  have top : σ₁.store.isCancelled t = true := by
    rw [Store.isCancelled, Store.tokens_cancel]
    exact Forest.isCancelled_cancel_self (Nat.lt_of_le_of_lt (Store.below_le below) known)
  exact Reachable.cancelled_below (.tail h cancel) whole held inner (cancel.ages.below_mono below) top

/-- A step of a run cancels the token `t`, which is inside of the run, and what was derived from
it: all that the run holds on to below it, and nothing else. -/
structure Strikes (σ σ' : Runtime) (run t : TokenId) : Prop where
  itself : σ'.store.isCancelled t = true
  reach : ∀ c, σ.Holds run c → σ.store.Below t c → σ'.store.isCancelled c = true
  only : ∀ c, σ'.store.isCancelled c = true → σ.store.isCancelled c = true ∨ σ.store.Below t c
  /-- The token of the fiber around, and those around that, are as they were. -/
  around : ∀ q c, σ.store.Parent q t → σ.store.Below c q →
    σ'.store.isCancelled c = σ.store.isCancelled c
  /-- So are the token of the run and those that it was derived from. -/
  caller : ∀ c, σ.store.Below c run → σ'.store.isCancelled c = σ.store.isCancelled c
  /-- So is whatever another run holds on to that was not begun below the token. -/
  unrelated : ∀ run' c, run' ≠ run → σ.Holds run' c → ¬ σ.store.Below t run' →
    σ'.store.isCancelled c = σ.store.isCancelled c

theorem Strikes.of_cancel (h : Reachable σ) (whole : ¬ σ.Failed run) (step : Step σ σ')
    (holds : σ.Holds run t) (inner : run < t)
    (cancelled : σ'.store.tokens = σ.store.tokens.cancel t) : Strikes σ σ' run t := by
  have same : ∀ c, σ'.store.isCancelled c = (σ.store.cancel t).isCancelled c := fun c => by
    rw [Store.isCancelled, cancelled, ← Store.tokens_cancel]
    rfl
  have only : ∀ c, σ'.store.isCancelled c = true →
      σ.store.isCancelled c = true ∨ σ.store.Below t c := fun c after => by
    rw [Store.isCancelled, cancelled] at after
    exact h.listed.below after
  have spared : ∀ c, ¬ σ.store.Below t c → σ'.store.isCancelled c = σ.store.isCancelled c :=
    fun c free => Bool.eq_iff_iff.mpr
      ⟨fun after => (only c after).resolve_right free, step.ages.isCancelled c⟩
  have older : ∀ c, c < t → ¬ σ.store.Below t c := fun c lt below =>
    Nat.not_lt.mpr (Store.below_le below) lt
  refine ⟨?_, fun c held below => ?_, only, fun q c parent below => ?_, fun c below => ?_,
    fun run' c ne held outside => ?_⟩
  · rw [same]
    exact h.cancel_reaches whole holds (Nat.le_of_lt inner) .refl
  · rw [same]
    exact h.cancel_reaches whole held (Nat.le_of_lt inner) below
  · exact spared c (older c (Nat.lt_of_le_of_lt (Store.below_le below) parent.lt))
  · exact spared c (older c (Nat.lt_of_le_of_lt (Store.below_le below) inner))
  · exact spared c fun below => outside (h.separate.apart run run' t c ne.symm holds held below)

theorem holds_of_mem_crew {φ : Fiber} (mem : (run, φ) ∈ σ.crew) : σ.Holds run φ.token := by
  obtain ⟨π, inParties, same, l, inside⟩ := mem_crew.mp mem
  exact ⟨π, inParties, same, _, inside, Post.token_mem_owned _⟩

theorem holds_of_berth {κ : Company} (mem : κ ∈ σ.companies) {b : Berth}
    (inside : b ∈ κ.berths) :
    σ.Holds κ.run b.token :=
  ⟨κ.party, mem_parties.mpr ⟨κ, mem, rfl⟩, rfl, b.post, Multiset.mem_map_of_mem _ inside,
    b.post.token_mem_owned⟩

theorem holds_group {loop : Loop} {g : Group}
    (mem : (run, ⟨loop, .gathering g⟩) ∈ σ.crew) : σ.Holds run g.token := by
  obtain ⟨π, inParties, own, l, inside⟩ := mem_crew.mp mem
  exact ⟨π, inParties, own, _, inside, by simp [Post.owned]⟩

/-! ## Races that are settled -/

/-- The race of a loop is settled for a side: the other operand is cancelled. -/
structure Settles (σ σ' : Runtime) (run : TokenId) (loop : Loop) (tokens : RaceTokens)
    (side : Side) : Prop where
  strikes : Strikes σ σ' run (tokens.of side.other)
  inside : σ.store.Parent loop.env.token (tokens.of side.other)
  winner : σ'.store.isCancelled (tokens.of side) = σ.store.isCancelled (tokens.of side)
  /-- What is left in the race is the other operand, under the token that is cancelled. -/
  loser : ∃ κ ∈ σ.companies, κ.run = run ∧ (∃ l, loop.berth l (.racing tokens) ∈ κ.berths) ∧
    (∃ b ∈ κ.berths, b.room = loop.side side.other) ∧
    ∀ b ∈ κ.berths, ∀ other, b.room = loop.side other →
      other = side.other ∧ b.token = tokens.of side.other

theorem Step.settles (h : Reachable σ) (whole : ¬ σ.Failed run) (step : Step σ σ')
    {loop loop' : Loop} {tokens : RaceTokens} {side : Side} {x : Exit}
    (mem : (run, ⟨loop, .racing tokens⟩) ∈ σ.crew)
    (mem' : (run, ⟨loop', .settling side x⟩) ∈ σ'.crew)
    (token : loop'.env.token = loop.env.token) : Settles σ σ' run loop tokens side := by
  have reach' : Reachable σ' := .tail h step
  have kindred := h.kindred
  obtain same | acts | ⟨effect, other, -⟩ := step.deed h mem mem' token
  · cases same
  · obtain ⟨role, l, nested, B, acting, acted, -⟩ := acts.company
    cases acts.deed with
    | plain plain => cases plain
    | settle cancelled =>
      have orderly := h.orderly _ acting
      have here : Loop.berth loop l (.racing tokens)
          ∈ (⟨l, .fiber ⟨loop, .racing tokens⟩⟩ ::ₘ B : Multiset Berth) :=
        Multiset.mem_cons_self _ _
      obtain ⟨apart, parent⟩ := orderly.tokens l loop tokens here
      -- Whoever is left in the race is on the side that is cancelled.
      have left : ∀ b ∈ (⟨l, .fiber ⟨loop, .racing tokens⟩⟩ ::ₘ B : Multiset Berth), ∀ other,
          b.room = loop.side other → other = side.other := by
        intro b inB other room
        obtain rfl | inB := Multiset.mem_cons.mp inB
        · have around : l.around? = some loop.env.token := by
            change l = loop.side other at room
            rw [room]
            rfl
          have young := orderly.young _ here loop.env.token around
          exact (Nat.lt_irrefl _ young).elim
        · have stays : b ∈ (⟨l, .fiber ⟨loop, .settling side x⟩⟩ ::ₘ (nested + B)
              : Multiset Berth) := by simp [inB]
          have hosts := (reach'.orderly _ acted).hosts (nest_company acted)
            (Multiset.mem_cons_self _ _) stays (by rw [room]; rfl)
          rw [room] at hosts
          cases hosts
          rfl
      obtain ⟨b, inB, other, room⟩ := raced_company acting l loop tokens here
      obtain rfl := left b inB other room
      have operand := orderly.operands l loop tokens here
      have owned := operand b inB side.other room
      have holds : σ.Holds run (tokens.of side.other) := by
        refine ⟨_, mem_parties.mpr ⟨_, acting, rfl⟩, rfl, b.post,
          Multiset.mem_map_of_mem _ inB, ?_⟩
        exact owned ▸ b.post.token_mem_owned
      have inner : run < tokens.of side.other :=
        Nat.lt_of_le_of_lt (h.separate.rooted run _ (holds_of_mem_crew mem)) (parent side.other).lt
      have strikes := Strikes.of_cancel h whole step holds inner cancelled
      refine ⟨strikes, parent side.other, ?_, _, acting, rfl, ⟨l, here⟩, ⟨b, inB, room⟩,
        fun b inB other room => ?_⟩
      · refine Bool.eq_iff_iff.mpr ⟨fun after => ?_, step.ages.isCancelled _⟩
        refine (strikes.only _ after).resolve_right fun below => ?_
        have ne : tokens.of side ≠ tokens.of side.other := by
          cases side
          · exact apart
          · exact apart.symm
        have upper := kindred.family.below_parent below ne (parent side)
        exact Nat.not_lt.mpr (Store.below_le upper) (parent side.other).lt
      · obtain rfl := left b inB other room
        exact ⟨rfl, operand b inB side.other room⟩
  · cases other

/-! ## Groups that fail -/

/-- What gathering does to the tokens: a group that fails in a step cancels its token, and any
other cancels nothing. -/
theorem Step.gathers (h : Reachable σ) (step : Step σ σ') {loop : Loop} {g : Group} {φ' : Fiber}
    (mem : (run, ⟨loop, .gathering g⟩) ∈ σ.crew) (mem' : (run, φ') ∈ σ'.crew)
    (token : φ'.token = loop.env.token) :
    φ' = ⟨loop, .gathering g⟩ ∨
      g.Fails φ' ∧ σ'.store.tokens = σ.store.tokens.cancel g.token ∨
      ¬ g.Fails φ' ∧ σ'.store.tokens = σ.store.tokens := by
  obtain same | acts | ⟨effect, other, -⟩ := step.deed h mem mem' token
  · exact .inl same
  · right
    cases acts.deed with
    | plain plain => cases plain
    | @gather _ _ g' s₁ gathered tokens more =>
      rw [tokens]
      cases whole : g.failure with
      | none =>
        obtain ⟨failed, tokens⟩ | ⟨whole', tokens⟩ := Machine.gather_whole gathered whole
        · exact .inl ⟨.gathering whole failed, tokens⟩
        · refine .inr ⟨fun fails => ?_, tokens⟩
          cases fails with
          | gathering before after => exact after whole'
      | some f =>
        have failed : g.failure ≠ none := by simp [whole]
        refine .inr ⟨fun fails => ?_, (Machine.gather_failed gathered failed).2⟩
        cases fails with
        | gathering before after => exact failed before
    | @gathered _ _ g' s₁ gathered tokens ended =>
      rw [tokens]
      cases whole : g.failure with
      | none =>
        obtain ⟨failed, tokens⟩ | ⟨whole', tokens⟩ := Machine.gather_whole gathered whole
        · obtain ⟨⟨i, e⟩, some⟩ := Option.ne_none_iff_exists'.mp failed
          have exit : g'.exit = .errored e := by simp [Group.exit, some]
          exact .inl ⟨exit ▸ .gathered whole, tokens⟩
        · refine .inr ⟨fun fails => ?_, tokens⟩
          generalize exit : g'.exit = x at fails
          cases fails with
          | gathered => exact Group.failure_of_exit exit whole'
      | some f =>
        have failed : g.failure ≠ none := by simp [whole]
        refine .inr ⟨fun fails => ?_, (Machine.gather_failed gathered failed).2⟩
        generalize g'.exit = x at fails
        cases fails with
        | gathered before => exact failed before
  · cases other

theorem Step.strikes_group (h : Reachable σ) (whole : ¬ σ.Failed run) (step : Step σ σ')
    {loop : Loop} {g : Group} {φ' : Fiber} (mem : (run, ⟨loop, .gathering g⟩) ∈ σ.crew)
    (mem' : (run, φ') ∈ σ'.crew) (token : φ'.token = loop.env.token) (fails : g.Fails φ') :
    Strikes σ σ' run g.token ∧ σ.store.Parent loop.env.token g.token := by
  obtain ⟨π, inParties, rfl, l, inside⟩ := mem_crew.mp mem
  obtain ⟨parent, -⟩ := (h.kindred.linked π inParties _ inside).group loop g rfl
  have holds := holds_group mem
  have inner : π.run < g.token :=
    Nat.lt_of_le_of_lt (h.separate.rooted _ _ (holds_of_mem_crew mem)) parent.lt
  obtain rfl | ⟨-, cancelled⟩ | ⟨calm, -⟩ := step.gathers h mem mem' token
  · cases fails with
    | gathering before after => exact (after before).elim
  · exact ⟨Strikes.of_cancel h whole step holds inner cancelled, parent⟩
  · exact (calm fails).elim

/-! ## Reach and confinement -/

structure Cancellation (σ : Runtime) (run : TokenId) : Prop where
  /-- A cancellation of the run comes to all that the run holds on to, but for acquisitions and
  releases and what is inside of them. -/
  reach : ∀ c, σ.Holds run c → (σ.store.cancel run).isCancelled c = true ∨
    ∃ r, σ.Apart run r ∧ σ.store.Below r c
  /-- The operands of a race have the tokens that the race was begun with. -/
  operands : ∀ κ ∈ σ.companies, κ.run = run → ∀ l loop tokens,
    Loop.berth loop l (.racing tokens) ∈ κ.berths →
    ∀ b ∈ κ.berths, ∀ side, b.room = loop.side side → b.token = tokens.of side
  race : ∀ σ' loop loop' tokens side x, Step σ σ' → (run, ⟨loop, .racing tokens⟩) ∈ σ.crew →
    (run, ⟨loop', .settling side x⟩) ∈ σ'.crew → loop'.env.token = loop.env.token →
    Settles σ σ' run loop tokens side
  group : ∀ σ' loop g φ', Step σ σ' → (run, ⟨loop, .gathering g⟩) ∈ σ.crew →
    (run, φ') ∈ σ'.crew → φ'.token = loop.env.token → g.Fails φ' →
    Strikes σ σ' run g.token ∧ σ.store.Parent loop.env.token g.token

/-- In a run without a panic a cancellation comes to all fibers below the token that are not in
an acquisition or in a release; a race that is settled and a group that fails strike the loser
and the operands of the group, and nothing else. -/
theorem Reachable.cancellation (h : Reachable σ) (whole : ¬ σ.Failed run) :
    Cancellation σ run where
  reach c held := by
    obtain ⟨r, rfl | apart, below⟩ := h.kindred.ancestor held whole
    · exact .inl (h.cancel_reaches whole held (Nat.le_refl _) below)
    · exact .inr ⟨r, apart, below⟩
  operands κ mem _ l loop tokens here := (h.orderly κ mem).operands l loop tokens here
  race _ _ _ _ _ _ step mem mem' token := step.settles h whole mem mem' token
  group _ _ _ _ step mem mem' token fails := step.strikes_group h whole mem mem' token fails

/-- The left operand of a race ends at once.  When the race is settled the right operand, which
would wait for ever, is cancelled; the run and the winner are not. -/
theorem cancellation_race : ∃ σ σ', Reachable σ ∧ ¬ σ.Failed 0 ∧ Cancellation σ 0 ∧ Step σ σ' ∧
    σ'.store.isCancelled 2 = true ∧ σ'.store.isCancelled 0 = σ.store.isCancelled 0 ∧
    σ'.store.isCancelled 1 = σ.store.isCancelled 1 := by
  let right : Segment := .start (operandLoop 2) Effect.never
  let racing : Caller := .racingLeft outermost ⟨1, 2⟩ right
  let settling : Caller := .settling outermost .left (.succeeded .null)
  let worker : Worker := ⟨1, "main"⟩
  obtain ⟨s₀, s, log, began, begins⟩ := race_begins Effect.unit Effect.never
  let left : Event := .left 1 (.succeeded .null)
  let ended := s.emit left
  have pure : Config.step worker ⟨.eval (operandLoop 1) Effect.unit, [racing]⟩ s
      = (.next ⟨.unwind (operandLoop 1) (.succeeded .null), [racing]⟩, s) := rfl
  have ends : Config.step worker ⟨.unwind (operandLoop 1) (.succeeded .null), [racing]⟩ s
      = (.next ⟨.leave (.succeeded .null), [racing]⟩, ended) := rfl
  have settled : Config.step worker ⟨.leave (.succeeded .null), [racing]⟩ ended
      = (.next ⟨.resume right, [settling]⟩, ended.cancel 2) := rfl
  have none : s.trace = [] ++ s.trace := rfl
  have trace : ended.trace = [left] ++ s.trace := rfl
  have trace' : (ended.cancel 2).trace = [] ++ ended.trace := ended.trace_cancel 2
  have evaluated : Reachable (lone s _ _) := .tail (.tail began begins) (step_lone pure none rfl)
  have reach : Reachable (lone ended _ _) := .tail evaluated (step_lone ends trace rfl)
  have step : ∀ log, Step (lone ended _ log) (lone (ended.cancel 2) _ log) := fun log =>
    step_lone settled trace' (ended.spawned_cancel 2)
  have cancellation := Reachable.cancellation reach (whole_lone _ _ _)
  have inRace : outermost.berth .outer (.racing ⟨1, 2⟩)
      ∈ Config.berths ⟨.leave (.succeeded .null), [racing]⟩ := by
    simp [racing, Caller.berths]
  have inSettling : outermost.berth .outer (.settling .left (.succeeded .null))
      ∈ Config.berths ⟨.resume right, [settling]⟩ :=
    Multiset.mem_add.mpr (.inr (Multiset.mem_add.mpr (.inl (Multiset.mem_singleton_self _))))
  have settles := cancellation.race _ outermost outermost ⟨1, 2⟩ .left _ (step _)
    (mem_crew_lone inRace) (mem_crew_lone inSettling) rfl
  exact ⟨_, _, reach, whole_lone _ _ _, cancellation, step _, settles.strikes.itself,
    settles.strikes.caller 0 .refl, settles.winner⟩

end Runtime

end EffectFibers
