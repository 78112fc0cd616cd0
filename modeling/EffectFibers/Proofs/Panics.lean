import EffectFibers.Proofs.Structured
import EffectFibers.Proofs.Unwinding

/-!
# Panics

A panic ends the strand that meets it, and nothing of it is unwound.  Whoever waits for the strand
panics in turn, with the same payload, and a group that does so cancels its token first.  So the
operands that are left in the group are cancelled, and so is all that hangs below them.

What hangs below a loop that is gone is another matter.  A token is reached by a cancellation from
above as long as loops hold on to every token in between (`Runtime.Moored`); the loops of a strand
that panics let go of theirs, and a token that nobody holds is cut loose before the run is given
up.  What was moored to the run through such a token goes on.

## Main statements

* `Machine.resume_panics`: a group that meets a panicked operand.
* `Runtime.Reachable.bonded`: a loop that waits for a task has its outermost loop below it.
* `Runtime.Reachable.dropped`: what is cancelled when a run is given up after a panic.
* `Runtime.Reachable.group_panics`: what a group that meets a panicked operand leaves behind.
* `World.pollTask_panics`: a task that panics is dropped, and its payload is kept for who joins it.
-/

namespace EffectFibers

/-! ## Groups that meet a panic -/

theorem Joined.exit_error {joined : Joined} {f : Fault} :
    joined.exit = .error f ↔ joined = .faulted f := by
  cases joined <;> simp [Joined.exit]

namespace Machine

variable {g : Group} {ended : List (Nat × Joined)} {s : Store}

/-- The operands before the first one that panicked are taken into account, and no others. -/
theorem gather_panics (panic : ∃ y ∈ ended, ∃ f, y.2 = .faulted f) :
    ∃ before y after f s₁, ended = before ++ y :: after ∧ (∀ z ∈ before, ∀ f, z.2 ≠ .faulted f) ∧
      y.2 = .faulted f ∧ s.Grows s₁ ∧ gather g ended s = (.error f, s₁.cancel g.token) := by
  induction ended generalizing g s with
  | nil => simp at panic
  | cons z rest ih =>
    obtain ⟨i, joined⟩ := z
    unfold gather
    split
    · next f exit =>
      exact ⟨[], (i, joined), rest, f, s, rfl, nofun, Joined.exit_error.mp exit, .refl, rfl⟩
    · next x exit =>
      have calm : ∀ f, joined ≠ .faulted f := fun f faulted => by
        simp [Joined.exit_error.mpr faulted] at exit
      have later : ∃ y ∈ rest, ∃ f, y.2 = .faulted f := by
        obtain ⟨y, mem, f, faulted⟩ := panic
        obtain _ | ⟨_, mem⟩ := mem
        · exact (calm f faulted).elim
        · exact ⟨y, mem, f, faulted⟩
      have token : ((g.drop i).absorb i x).token = g.token := (absorb_fields _ i x).1
      have taken (first : Bool) : ∃ before y after f s₁,
          (i, joined) :: rest = before ++ y :: after ∧ (∀ z ∈ before, ∀ f, z.2 ≠ .faulted f) ∧
          y.2 = .faulted f ∧ s.Grows s₁ ∧
          gather ((g.drop i).absorb i x) rest
            (if first then (s.emit (.operandFailed i)).cancel g.token else s)
              = (.error f, s₁.cancel g.token) := by
        have grows : s.Grows (if first then (s.emit (.operandFailed i)).cancel g.token else s) := by
          cases first with
          | false => exact .refl
          | true => exact .tail (.single (.emit s _ rfl)) (.cancel _ _)
        obtain ⟨before, y, after, f, s₁, rfl, quiet, faulted, grows', came⟩ :=
          ih (g := (g.drop i).absorb i x)
            (s := if first then (s.emit (.operandFailed i)).cancel g.token else s) later
        rw [token] at came
        refine ⟨(i, joined) :: before, y, after, f, s₁, rfl, ?_, faulted, grows.trans grows', came⟩
        intro z mem
        obtain _ | ⟨_, mem⟩ := mem
        · exact calm
        · exact quiet z mem
      exact taken _

/-- Operands of a group that have ended, in the order in which they did. -/
theorem endedOperands_sorted (g : Group) (s : Store) :
    ∃ L : List (Nat × Nat × Joined), endedOperands g s = L.map Prod.snd ∧
      L.Pairwise (fun a b => a.1 ≤ b.1) ∧
      ∀ z, z ∈ L ↔ ∃ t, (z.2.1, t) ∈ g.pending ∧ s.joined? t = some z.2.2 ∧
        (s.join t).order = z.1 := by
  refine ⟨_, rfl, ?_, fun z => ?_⟩
  · refine (List.pairwise_mergeSort ?_ ?_ _).imp fun h => by simpa using h
    · intro a b c hab hbc
      simp only [decide_eq_true_eq] at *
      omega
    · intro a b
      simp only [Bool.or_eq_true, decide_eq_true_eq]
      omega
  · simp only [List.mem_mergeSort, List.mem_filterMap]
    constructor
    · rintro ⟨⟨i, t⟩, waiting, found⟩
      obtain ⟨joined, result, rfl⟩ := Option.map_eq_some_iff.mp found
      exact ⟨t, waiting, result, rfl⟩
    · rintro ⟨t, waiting, result, order⟩
      exact ⟨(z.2.1, t), waiting, by simp [result, order]⟩

/-- A group that meets a panicked operand panics with the payload of the one that ended first, and
has its token cancelled. -/
theorem resume_panics (worker : Worker) (loop : Loop) (callers : List Caller)
    (panic : ∃ y ∈ g.pending, ∃ f, s.joined? y.2 = some (.faulted f)) :
    ∃ y ∈ g.pending, ∃ f s₁, s.joined? y.2 = some (.faulted f) ∧
      (∀ z ∈ g.pending, ∀ f', s.joined? z.2 = some (.faulted f') →
        (s.join y.2).order ≤ (s.join z.2).order) ∧
      s.Grows s₁ ∧
      resumeStep worker callers s (.gathering loop g) = (.faulted f, s₁.cancel g.token) := by
  obtain ⟨L, operands, sorted, mem_L⟩ := endedOperands_sorted g s
  have ended : ∃ y ∈ endedOperands g s, ∃ f, y.2 = .faulted f := by
    obtain ⟨⟨i, t⟩, waiting, f, result⟩ := panic
    refine ⟨(i, .faulted f), ?_, f, rfl⟩
    rw [operands]
    have here := (mem_L ((s.join t).order, i, .faulted f)).mpr ⟨t, waiting, result, rfl⟩
    exact List.mem_map_of_mem here
  obtain ⟨before, y, after, f, s₁, split, quiet, faulted, grows, came⟩ := gather_panics ended
  rw [operands] at split
  obtain ⟨L₁, L₂', rfl, rfl, tail⟩ := List.map_eq_append_iff.mp split
  obtain ⟨z, L₂, rfl, rfl, rfl⟩ := List.map_eq_cons_iff.mp tail
  obtain ⟨t, waiting, result, order⟩ := (mem_L z).mp (by simp)
  refine ⟨(z.2.1, t), waiting, f, s₁, faulted ▸ result, ?_, grows, ?_⟩
  · rintro ⟨j, u⟩ waiting' f' result'
    have here := (mem_L ((s.join u).order, j, .faulted f')).mpr ⟨u, waiting', result', rfl⟩
    rw [order]
    obtain earlier | here := List.mem_append.mp here
    · exact (quiet _ (List.mem_map_of_mem earlier) f' rfl).elim
    · obtain _ | ⟨_, later⟩ := here
      · exact Nat.le_refl _
      · have after := (List.pairwise_append.mp sorted).2.1
        exact (List.pairwise_cons.mp after).1 _ later
  · rw [resumeStep, came]

end Machine

/-! ## Who waits for a task -/

/-- A loop that waits for a task waited for it before, or has just begun to wait for a new task,
whose outermost loop is below it. -/
theorem Reaction.bonds {s s' : Store} {P P' : Multiset Post} {ms : List Event} {new : List Spawn}
    (h : Reaction s s' P ms new P') (ages : s.Ages s')
    (tasks : ∀ x ∈ new, Within s.joins.size s'.joins.size x.task) {p : Post} (mem : p ∈ P')
    {t : TaskId} (wait : t ∈ p.waits) :
    (∃ p₀ ∈ P, t ∈ p₀.waits ∧ ∀ c, p₀.Ties s t c → p.Ties s' t c) ∨
      Within s.joins.size s'.joins.size t ∧
        ∀ x ∈ new, x.task = t → ∀ q ∈ x.posts, p.Ties s' t q.token := by
  have others : ∀ {p₀ : Post} {P : Multiset Post}, p ∈ P →
      (∃ p₁ ∈ p₀ ::ₘ P, t ∈ p₁.waits ∧ ∀ c, p₁.Ties s t c → p.Ties s' t c) ∨
        Within s.joins.size s'.joins.size t ∧
          ∀ x ∈ new, x.task = t → ∀ q ∈ x.posts, p.Ties s' t q.token :=
    fun mem => .inl ⟨p, Multiset.mem_cons_of_mem mem, wait, fun c tied => tied.mono ages⟩
  cases h with
  | idle => exact .inl ⟨p, mem, wait, fun c tied => tied.mono ages⟩
  | @act l φ φ' ms nested new P step single newborn distinct quiet =>
    obtain rfl | mem := Multiset.mem_cons.mp mem
    · obtain ⟨loop', doing'⟩ := φ'
      cases doing' with
      | gathering g' =>
        obtain ⟨g, rfl, advances⟩ := step.gathering single
        refine .inl ⟨_, Multiset.mem_cons_self _ _, (advances.pending.map _).subset wait, ?_⟩
        rintro c (_ | ⟨-, parent⟩)
        obtain ⟨⟨i, u⟩, waiting, rfl⟩ := List.mem_map.mp wait
        exact .gathering waiting (advances.token ▸ parent.mono ages)
      | _ => cases wait
    · obtain mem | mem := Multiset.mem_add.mp mem
      · obtain ⟨env, effect, same⟩ := (newborn p mem).loop
        simp [Post.waits, same] at wait
      · exact others mem
  | fan begun =>
    obtain rfl | mem := Multiset.mem_cons.mp mem
    · obtain ⟨y, waiting, rfl⟩ := List.mem_map.mp wait
      refine .inr ⟨begun.tasks y waiting, fun x started task q inside => ?_⟩
      obtain ⟨env, effect, segment, fresh, derived, -⟩ := begun.operands x started
      rw [Spawn.posts_of_segment? segment, Multiset.mem_singleton] at inside
      subst inside
      exact .gathering waiting ⟨derived, fresh.le⟩
    · exact others mem
  | @sent l loop context P live refused =>
    obtain rfl | mem := Multiset.mem_cons.mp mem
    · obtain rfl := List.mem_singleton.mp wait
      refine .inr ⟨⟨Nat.le_refl _, ?_⟩, fun x started task q inside => ?_⟩
      · cases state : context.isOpen with
        | false =>
          by_contra beyond
          have unknown : s'.joins[s.joins.size]? = none := by simpa using beyond
          simp [Store.joined?, Store.join, unknown] at refused
          cases refused state
        | true =>
          rw [if_pos state] at tasks
          exact (tasks _ (List.mem_singleton_self _)).lt
      · split at started
        · obtain rfl := List.mem_singleton.mp started
          rw [Spawn.posts_of_segment? rfl, Multiset.mem_singleton] at inside
          subst inside
          exact .away rfl
        · cases started
    · exact others mem
  | back | left => exact others mem

/-- In a motion of its strand a cancelled fiber stays where it is, or comes to its end. -/
theorem Motion.keeps {s s' : Store} {B B' : Multiset Berth} {ms : List Event} {new : List Spawn}
    (motion : Motion s s' B ms new B') {l : Room} {φ : Fiber} (inside : ⟨l, .fiber φ⟩ ∈ B)
    (cancelled : s.isCancelled φ.token = true) :
    (∃ φ', ⟨l, .fiber φ'⟩ ∈ B' ∧ φ'.token = φ.token) ∨
      ∃ env x, φ = ⟨⟨env, []⟩, .unwinding x⟩ ∧ ms = [.left φ.token x] := by
  cases motion with
  | idle => exact .inl ⟨φ, inside, rfl⟩
  | @act _ _ φ' _ _ _ _ step =>
    obtain same | inside := Multiset.mem_cons.mp inside
    · cases same
      exact .inl ⟨φ', Multiset.mem_cons_self _ _, step.token⟩
    · exact .inl ⟨φ, by simp [inside], rfl⟩
  | fan =>
    obtain same | inside := Multiset.mem_cons.mp inside
    · cases same
      exact .inl ⟨_, Multiset.mem_cons_self _ _, rfl⟩
    · exact .inl ⟨φ, Multiset.mem_cons_of_mem inside, rfl⟩
  | sent live =>
    obtain same | inside := Multiset.mem_cons.mp inside
    · cases same
      cases live.symm.trans cancelled
    · exact .inl ⟨φ, Multiset.mem_cons_of_mem inside, rfl⟩
  | back =>
    obtain same | inside := Multiset.mem_cons.mp inside
    · cases same
    · exact .inl ⟨φ, inside, rfl⟩
  | left =>
    obtain same | inside := Multiset.mem_cons.mp inside
    · cases same
      exact .inr ⟨_, _, rfl, rfl⟩
    · exact .inl ⟨φ, inside, rfl⟩

namespace Runtime

variable {σ σ' : Runtime} {run t u c : TokenId}

/-- The outermost loop of a task is below the loop that waits for the task. -/
def Bonded (σ : Runtime) : Prop :=
  ∀ π ∈ σ.parties, ∀ p ∈ π.posts, ∀ t ∈ p.waits, t < σ.store.joins.size ∧
    ∀ π' ∈ σ.parties, π'.role = .task t → ∀ q ∈ π'.posts, q.link = .outer →
      p.Ties σ.store t q.token

theorem Step.joins_le (step : Step σ σ') : σ.store.joins.size ≤ σ'.store.joins.size := by
  cases step with
  | begin | beginBelow | poll | prune => exact Nat.le_refl _
  | turn s rest log run role c worker => exact (c.step_reacts worker s).1.joins_le
  | report s rest log run t state result came => exact Nat.le_of_eq (finish_joins s t result).symm
  | giveUp s rest log r segment live unstarted => exact (giveUp_grows r s).joins_le
  | cancel _ t => exact Store.Grows.joins_le (.single (.cancel _ t))
  | fresh => exact Nat.le_refl _
  | child _ parent lt => exact Store.Grows.joins_le (.single (.child _ parent))
  | outside _ s out => exact out.joins

/-- What there is of a task that was known has the outermost loop that it had. -/
theorem Turnover.outermost (turnover : Turnover σ σ') {π : Party} (mem : π ∈ σ'.parties)
    (role : π.role = .task t) (known : t < σ.store.joins.size) {q : Post} (inside : q ∈ π.posts)
    (link : q.link = .outer) : ∃ π₀ ∈ σ.parties, π₀.role = .task t ∧
      ∃ q₀ ∈ π₀.posts, q₀.link = .outer ∧ q₀.token = q.token := by
  cases turnover with
  | idle parties => exact ⟨π, parties ▸ mem, role, q, inside, link, rfl⟩
  | @act run own P P' ms new rest reaction numbered tasks parties parties' =>
    have acting : ⟨run, own, P⟩ ∈ σ.parties := parties ▸ Multiset.mem_cons_self _ _
    rw [parties'] at mem
    obtain rfl | mem := Multiset.mem_cons.mp mem
    · obtain ⟨q₀, inside₀, link₀, same⟩ := reaction.outer inside link
      exact ⟨_, acting, role, q₀, inside₀, link₀, same⟩
    obtain mem | mem := Multiset.mem_add.mp mem
    · obtain ⟨x, started, -, rfl⟩ := mem_ofSpawns.mp mem
      cases role
      exact (Nat.not_lt.mpr (tasks x started).le known).elim
    · exact ⟨π, parties ▸ Multiset.mem_cons_of_mem mem, role, q, inside, link, rfl⟩
  | lose failed marks parties parties' =>
    rw [parties'] at mem
    obtain rfl | mem := Multiset.mem_cons.mp mem
    · cases inside
    · exact ⟨π, parties ▸ Multiset.mem_cons_of_mem mem, role, q, inside, link, rfl⟩
  | begin fresh parties' =>
    rw [parties'] at mem
    obtain rfl | mem := Multiset.mem_cons.mp mem
    · cases role
    · exact ⟨π, mem, role, q, inside, link, rfl⟩

/-- Whoever waits for a task waited for it before, or has just begun to. -/
theorem Turnover.bonds (turnover : Turnover σ σ') (booked : σ.Booked)
    (ages : σ.store.Ages σ'.store) {π : Party} (mem : π ∈ σ'.parties) {p : Post}
    (inside : p ∈ π.posts) (wait : t ∈ p.waits) :
    (∃ π₀ ∈ σ.parties, ∃ p₀ ∈ π₀.posts, t ∈ p₀.waits ∧
      ∀ c, p₀.Ties σ.store t c → p.Ties σ'.store t c) ∨
    Within σ.store.joins.size σ'.store.joins.size t ∧
      ∀ π' ∈ σ'.parties, π'.role = .task t → ∀ q ∈ π'.posts, p.Ties σ'.store t q.token := by
  have old (mem : π ∈ σ.parties) : ∃ π₀ ∈ σ.parties, ∃ p₀ ∈ π₀.posts, t ∈ p₀.waits ∧
      ∀ c, p₀.Ties σ.store t c → p.Ties σ'.store t c :=
    ⟨π, mem, p, inside, wait, fun c tied => tied.mono ages⟩
  cases turnover with
  | idle parties => exact .inl (old (parties ▸ mem))
  | @act run role P P' ms new rest reaction numbered tasks parties parties' =>
    have acting : ⟨run, role, P⟩ ∈ σ.parties := parties ▸ Multiset.mem_cons_self _ _
    rw [parties'] at mem
    obtain rfl | mem := Multiset.mem_cons.mp mem
    · obtain ⟨p₀, inside₀, wait₀, ties⟩ | ⟨fresh, bond⟩ :=
        reaction.bonds ages tasks inside wait
      · exact .inl ⟨_, acting, p₀, inside₀, wait₀, ties⟩
      · refine .inr ⟨fresh, fun π' mem' role' q inside' => ?_⟩
        have unknown : ∀ π₀ ∈ σ.parties, π₀.role ≠ .task t := fun π₀ mem₀ role₀ =>
          Nat.not_lt.mpr fresh.le (booked.party mem₀ role₀).1
        rw [parties'] at mem'
        obtain rfl | mem' := Multiset.mem_cons.mp mem'
        · exact (unknown _ acting role').elim
        obtain mem' | mem' := Multiset.mem_add.mp mem'
        · obtain ⟨x, started, -, rfl⟩ := mem_ofSpawns.mp mem'
          cases role'
          exact bond x started rfl q inside'
        · exact (unknown π' (parties ▸ Multiset.mem_cons_of_mem mem') role').elim
    obtain mem | mem := Multiset.mem_add.mp mem
    · obtain ⟨x, started, -, rfl⟩ := mem_ofSpawns.mp mem
      obtain ⟨loop, effect, rfl, -⟩ := reaction.starting started inside
      cases wait
    · exact .inl (old (parties ▸ Multiset.mem_cons_of_mem mem))
  | lose failed marks parties parties' =>
    rw [parties'] at mem
    obtain rfl | mem := Multiset.mem_cons.mp mem
    · cases inside
    · exact .inl (old (parties ▸ Multiset.mem_cons_of_mem mem))
  | begin fresh parties' =>
    rw [parties'] at mem
    obtain rfl | mem := Multiset.mem_cons.mp mem
    · obtain rfl := Multiset.mem_singleton.mp inside
      cases wait
    · exact .inl (old mem)

theorem Step.bonded (h : σ.Bonded) (booked : σ.Booked) (step : Step σ σ') : σ'.Bonded := by
  intro π mem p inside t wait
  obtain ⟨π₀, mem₀, p₀, inside₀, wait₀, ties⟩ | ⟨fresh, bond⟩ :=
    step.turnover.bonds booked step.ages mem inside wait
  · obtain ⟨known, bond⟩ := h π₀ mem₀ p₀ inside₀ t wait₀
    refine ⟨Nat.lt_of_lt_of_le known step.joins_le, fun π' mem' role q inside' link => ?_⟩
    obtain ⟨π₁, mem₁, role₁, q₁, inside₁, link₁, same⟩ :=
      step.turnover.outermost mem' role known inside' link
    exact same ▸ ties q₁.token (bond π₁ mem₁ role₁ q₁ inside₁ link₁)
  · exact ⟨fresh.lt, fun π' mem' role q inside' link => bond π' mem' role q inside'⟩

theorem Reachable.bonded (h : Reachable σ) : σ.Bonded := by
  induction h with
  | refl =>
    have none : Runtime.parties {} = 0 := rfl
    simp [Bonded, none]
  | tail reach step ih => exact Step.bonded ih (Reachable.booked reach) step

/-! ## What a cancellation reaches -/

/-- A token is below another one, and loops hold on to every token in between, and to it. -/
structure Moored (σ : Runtime) (t u : TokenId) : Prop where
  below : σ.store.Below t u
  held : ∀ c, Relation.TransGen σ.store.Parent t c → σ.store.Below c u → ∃ run, σ.Holds run c

theorem Moored.cancelled (moored : σ.Moored t u) (h : Reachable σ)
    (cancelled : σ.store.isCancelled t = true) : σ.store.isCancelled u = true :=
  h.hung.cancelled moored.below moored.held cancelled

/-- When the tokens that no loop holds are cut loose and a token is cancelled, what is reached is
what is moored to that token, and nothing else. -/
theorem Reachable.dropped (h : Reachable σ) {held : TokenId → Bool}
    (exactly : ∀ c, held c = true ↔ ∃ run, σ.Holds run c) (known : t < σ.store.size) :
    ((σ.store.tokens.prune held).cancel t).isCancelled u = true ↔
      σ.store.isCancelled u = true ∨ σ.Moored t u := by
  have family := h.kindred.family
  constructor
  · intro cancelled
    refine (Forest.listed_of_isCancelled_cancel cancelled).imp
      (fun before => (Forest.isCancelled_prune held).symm.trans before) fun lists => ?_
    clear cancelled
    -- Down the list each token was derived from the one before it, and is held.
    induction lists with
    | refl =>
      refine ⟨.refl, fun c low high => ?_⟩
      obtain ⟨b, parent, below⟩ := Relation.TransGen.head'_iff.mp low
      have lt := Nat.lt_of_lt_of_le parent.lt (Store.below_le below)
      exact (Nat.not_lt.mpr (Store.below_le high) lt).elim
    | @tail p u lists mem ih =>
      obtain ⟨mem, isHeld⟩ := Forest.mem_children_prune.mp mem
      have parent := h.listed p u mem
      refine ⟨ih.below.tail parent, fun c low high => ?_⟩
      by_cases same : u = c
      · exact same ▸ (exactly u).mp isHeld
      · exact ih.held c low (family.below_parent high same parent)
  · rintro (before | moored)
    · exact Forest.isCancelled_cancelAll ((Forest.isCancelled_prune held).trans before)
    · let σ₁ : Runtime := { σ with store := { σ.store with tokens := σ.store.tokens.prune held } }
      let σ₂ : Runtime := { σ₁ with store := σ₁.store.cancel t }
      have prune : Step σ σ₁ := .prune σ held fun τ mem p inside c own =>
        (exactly c).mpr ⟨τ.run, _, Multiset.mem_map_of_mem _ mem, rfl, p, inside, own⟩
      have cancel : Step σ₁ σ₂ := .cancel σ₁ t
      have reach : Reachable σ₂ := .tail (.tail h prune) cancel
      have top : σ₂.store.isCancelled t = true := by
        rw [Store.isCancelled, Store.tokens_cancel]
        exact Forest.isCancelled_cancel_self (by simpa [σ₁, Forest.prune] using known)
      have trace : σ₂.store.trace = σ.store.trace := σ₁.store.trace_cancel t
      have derived : σ₂.store.Derived = σ.store.Derived := by
        funext p c
        rw [Store.Derived, trace, Store.Derived]
      have same : σ₂.store.Parent = σ.store.Parent := by
        funext p c
        exact propext ⟨fun h => ⟨derived ▸ h.derived, h.lt⟩, fun h => ⟨derived ▸ h.derived, h.lt⟩⟩
      have moored' : σ₂.Moored t u :=
        ⟨by rw [Store.Below, same]; exact moored.below, fun c low high => by
          rw [same] at low
          rw [Store.Below, same] at high
          exact moored.held c low high⟩
      have reached := moored'.cancelled reach top
      rwa [Store.isCancelled, Store.tokens_cancel] at reached

/-! ## Groups and shifts that pass a panic on -/

/-- A group meets an operand that panicked: its strand panics with the payload of the operand that
ended first, and what is left of the group is cancelled. -/
structure GroupPanics (σ σ' : Runtime) (run : TokenId) (role : Strand.Role) (g : Group) : Prop where
  payload : ∃ y ∈ g.pending, ∃ f, σ.store.joined? y.2 = some (.faulted f) ∧
    ⟨run, role, .faulted f⟩ ∈ σ'.strands ∧
    ∀ z ∈ g.pending, ∀ f', σ.store.joined? z.2 = some (.faulted f') →
      (σ.store.join y.2).order ≤ (σ.store.join z.2).order
  token : σ'.store.isCancelled g.token = true
  /-- The outermost loops of the operands that have not ended are cancelled. -/
  operands : ∀ y ∈ g.pending, ∀ π ∈ σ'.parties, π.role = .task y.2 → ∀ q ∈ π.posts,
    q.link = .outer → σ'.store.isCancelled q.token = true
  /-- So is all that is moored to the group. -/
  reach : ∀ u, σ'.Moored g.token u → σ'.store.isCancelled u = true

theorem Reachable.group_panics {s : Store} {role : Strand.Role} {loop : Loop} {g : Group}
    {callers : List Caller} {rest : Multiset Strand} {log : List Moment}
    (h : Reachable ⟨s, ⟨run, role, .running ⟨.resume (.gathering loop g), callers⟩⟩ ::ₘ rest, log⟩)
    (worker : Worker) (panic : ∃ y ∈ g.pending, ∃ f, s.joined? y.2 = some (.faulted f)) :
    GroupPanics ⟨s, ⟨run, role, .running ⟨.resume (.gathering loop g), callers⟩⟩ ::ₘ rest, log⟩
      (turn worker run role ⟨.resume (.gathering loop g), callers⟩ ⟨s, rest, log⟩) run role g := by
  let c : Config := ⟨.resume (.gathering loop g), callers⟩
  let σ : Runtime := ⟨s, ⟨run, role, .running c⟩ ::ₘ rest, log⟩
  let σ' := turn worker run role c ⟨s, rest, log⟩
  have step : Step σ σ' := .turn s rest log run role c worker
  have reach' : Reachable σ' := .tail h step
  obtain ⟨y, waiting, f, s₁, result, first, grows, came⟩ :=
    Machine.resume_panics worker loop callers panic
  have came : c.step worker s = (.faulted f, s₁.cancel g.token) := came
  have store : σ'.store = s₁.cancel g.token := congrArg Prod.snd came
  have acting : (⟨run, role, c.posts⟩ : Party) ∈ σ.parties :=
    Multiset.mem_map_of_mem Strand.party (Multiset.mem_cons_self _ _)
  have inside : Loop.at loop (Caller.innermost callers) (.gathering g) ∈ c.posts := by
    simp [c, Config.posts, Focus.posts, Segment.posts]
  have linked := h.kindred.linked _ acting _ inside
  have token : σ'.store.isCancelled g.token = true := by
    have known : g.token < s.size := linked.bound _ (by simp [Post.owned, Loop.at])
    rw [store, Store.isCancelled, Store.tokens_cancel]
    exact Forest.isCancelled_cancel_self (Nat.lt_of_lt_of_le known grows.size_le)
  refine ⟨⟨y, waiting, f, result, ?_, first⟩, token, ?_,
    fun u moored => moored.cancelled reach' token⟩
  · have state : (c.step worker s).1.state = .faulted f := by rw [came]; rfl
    exact state ▸ Multiset.mem_cons_self _ _
  · intro z waiting' π mem role' q inside' link
    have wait : z.2 ∈ (Loop.at loop (Caller.innermost callers) (.gathering g)).waits :=
      List.mem_map_of_mem waiting'
    obtain ⟨known, bond⟩ := h.bonded _ acting _ inside _ wait
    obtain ⟨π₀, mem₀, role₀, q₀, inside₀, link₀, same⟩ :=
      step.turnover.outermost mem role' known inside' link
    have tied := bond π₀ mem₀ role₀ q₀ inside₀ link₀
    rw [same] at tied
    cases tied with
    | gathering _ parent =>
      have holds : σ'.Holds π.run q.token := ⟨π, mem, rfl, q, inside', q.token_mem_owned⟩
      exact (reach'.hung _ _ _ holds (parent.mono step.ages)).cancelled token

/-- A loop behind a shift passes the panic on to where it was sent from. -/
theorem turn_shifted {s : Store} {f : Fault} (result : s.joined? t = some (.faulted f))
    (worker : Worker) (role : Strand.Role) (env : Env) (callers : List Caller)
    (rest : Multiset Strand) (log : List Moment) :
    turn worker run role ⟨.resume (.shifted env t), callers⟩ ⟨s, rest, log⟩
      = ⟨s, ⟨run, role, .faulted f⟩ ::ₘ rest, log⟩ := by
  have came : Config.step worker ⟨.resume (.shifted env t), callers⟩ s = (.faulted f, s) := by
    simp [Config.step, Machine.resumeStep, result, Joined.exit]
  have trace : (Config.step worker ⟨.resume (.shifted env t), callers⟩ s).2.trace
      = [] ++ s.trace := by rw [came]; rfl
  have spawned : (Config.step worker ⟨.resume (.shifted env t), callers⟩ s).2.spawned
      = [] ++ s.spawned := by rw [came]; rfl
  rw [turn_eq trace spawned, came]
  simp [Strand.ofSpawns, Progress.state]

/-- A panic that a task has left behind is that of its strand. -/
theorem Booked.panicked (h : σ.Booked) {τ : Strand} (mem : τ ∈ σ.strands) (role : τ.role = .task t)
    {f : Fault} (result : σ.store.joined? t = some (.faulted f)) : τ.state = .faulted f := by
  have task : τ.task? = some t := by simp [Strand.task?, role]
  have state := h.results τ mem t task _ result
  cases own : τ.state with
  | faulted f' =>
    rw [own] at state
    cases state
    rfl
  | waiting | running | ended | dropped =>
    rw [own] at state
    cases state

end Runtime

namespace World

variable {w : World} {t : TaskId}

/-! ## A task that panics -/

theorem mem_marks {c : TokenId} (tokens : List TokenId) (marks : Array Bool)
    (lt : c < marks.size) :
    ((tokens.foldl (fun marks t => marks.setIfInBounds t true) marks)[c]?).getD false = true ↔
      (marks[c]?).getD false = true ∨ c ∈ tokens := by
  induction tokens generalizing marks with
  | nil => simp
  | cons u tokens ih =>
    rw [List.foldl_cons, ih _ (by simpa using lt), Array.getElem?_setIfInBounds]
    by_cases same : u = c
    · simp [same, lt]
    · simp [same, Ne.symm same]

theorem adopt_store (w : World) : w.adopt.store = { w.store with spawned := [] } := by
  have kept (tasks : List Spawn) (w : World) :
      (tasks.foldl (fun w x => w.setTask x.task (some ⟨x.context, x.job⟩)) w).store = w.store := by
    induction tasks generalizing w with
    | nil => rfl
    | cons x tasks ih => exact ih _
  exact kept _ _

/-- The tokens that nobody holds are cut loose. -/
theorem sweep_store (w : World) : ∃ held,
    (∀ c < w.store.size, held c = true ↔ c ∈ w.held) ∧
      w.sweep.store = { w.store with tokens := w.store.tokens.prune held } := by
  refine ⟨_, fun c lt => ?_, rfl⟩
  rw [mem_marks _ _ (by simpa using lt)]
  have unmarked : ((Array.replicate w.store.size false)[c]?).getD false = false := by simp [lt]
  simp [unmarked]

/-- After a panic the tokens that nobody holds any more are cut loose, and then the token that the
run guards is cancelled. -/
theorem dropFaulted_tokens {guard : Option Run} (broken : ∀ r ∈ guard, r.state = .broken) :
    ∃ held, (∀ c < w.store.size, held c = true ↔ c ∈ w.held) ∧
      (w.dropFaulted guard).store.joins.size = w.store.joins.size ∧
      (w.dropFaulted guard).store.tokens = guard.elim (w.store.tokens.prune held)
        fun r => (w.store.tokens.prune held).cancel r.token := by
  obtain ⟨held, marked, swept⟩ := w.sweep_store
  refine ⟨held, marked, ?_⟩
  cases guard with
  | none => simp [dropFaulted, swept]
  | some r =>
    have given : r.giveUp w.sweep.store
        = (w.sweep.store.cancel r.token).emit (.runDropped r.context.name) := by
      rw [Run.giveUp, broken r rfl]
    have dropped : (w.dropFaulted (some r)).store = { r.giveUp w.sweep.store with spawned := [] } :=
      adopt_store _
    rw [dropped, given]
    refine ⟨(Store.size_joins_cancel _ _).trans (by rw [swept]), (Store.tokens_cancel _ _).trans ?_⟩
    rw [swept]
    rfl

/-- A task that panics is dropped with its loops, and with it the run that it drives.  Who joins
the task finds the payload of the panic. -/
theorem pollTask_panics {task : Task} {guard : Option Run} {f : Fault} {s : Store} (bound : Nat)
    (found : w.task? t = some task)
    (poll : task.job.poll ⟨t, task.context.thread⟩ bound w.store = (.faulted f guard, s))
    (broken : ∀ r ∈ guard, r.state = .broken) (known : t < s.joins.size) :
    ∃ w' held, w.pollTask bound t = some w' ∧ w'.store.joined? t = some (.faulted f) ∧
      (∀ c < s.size, held c = true ↔ c ∈ ((w.setTask t none).withStore s).held) ∧
      w'.store.tokens = guard.elim (s.tokens.prune held)
        fun r => (s.tokens.prune held).cancel r.token := by
  let w₁ := (w.setTask t none).withStore s
  let w₂ := w₁.dropFaulted guard
  let w₃ := w₂.withStore (w₂.store.finish t (.faulted f))
  have store₁ : w₁.store = { s with spawned := [] } := adopt_store _
  have store₃ : w₃.store = { w₂.store.finish t (.faulted f) with spawned := [] } := adopt_store _
  obtain ⟨held, marked, joins, tokens⟩ := dropFaulted_tokens (w := w₁) broken
  rw [store₁] at marked joins tokens
  have result : w.pollTask bound t = some w₃ := by simp [pollTask, found, poll, w₁, w₂, w₃]
  refine ⟨w₃, held, result, ?_, marked, ?_⟩
  · rw [store₃]
    exact (Runtime.finish_joined w₂.store t t _ (joins ▸ known)).trans (if_pos rfl)
  · rw [store₃]
    exact (Runtime.same_finish _ _ _).tokens.trans tokens

end World

end EffectFibers
