import EffectFibers.Proofs.Ledger
import EffectFibers.Proofs.Ties

/-!
# Kinship

The loops of a run are kin: each task of the run is waited for by a loop of the run, in a strand
that is older than the task, up to the strand of the run itself (`Runtime.Kindred`).  So as long
as a loop of a run is alive, so is the run; and the parents of the tokens that the loops of a run
hold are held by loops of the run.

## Main statements

* `Runtime.Reachable.kindred`: the loops of every reachable runtime are kin.
* `Runtime.Kindred.alive`: while a loop is alive its run is, unless the run has failed.
* `Runtime.Kindred.origin`: where the tokens come from that a run holds on to.
-/

namespace EffectFibers

namespace Party

/-- Strands are older than the tasks that they start. -/
def rank (π : Party) : Nat :=
  match π.role with
  | .root => 0
  | .task t => t + 1

/-- The run that the party is the root of. -/
def root? (π : Party) : Option TokenId :=
  match π.role with
  | .root => some π.run
  | .task _ => none

end Party

namespace Runtime

variable {σ σ' : Runtime} {π : Party}

theorem nest (mem : π ∈ σ.parties) : Post.Nest π.posts := by
  obtain ⟨τ, -, rfl⟩ := Multiset.mem_map.mp mem
  have nest := τ.nest.posts
  rwa [τ.map_berths] at nest

/-- The tasks of the parties are known, and those whose loops are alive have not ended. -/
theorem Booked.party (h : σ.Booked) (mem : π ∈ σ.parties) {t : TaskId} (role : π.role = .task t) :
    t < σ.store.joins.size ∧ (π.posts ≠ 0 → σ.store.joined? t = none) := by
  obtain ⟨τ, inStrands, rfl⟩ := Multiset.mem_map.mp mem
  have task : τ.task? = some t := by
    simp only [Strand.party] at role
    simp [Strand.task?, role]
  refine ⟨h.known τ inStrands t task, fun alive => ?_⟩
  cases found : σ.store.joined? t with
  | none => rfl
  | some result =>
    have state := h.results τ inStrands t task result found
    refine (alive ?_).elim
    obtain ⟨run, role, state'⟩ := τ
    cases state' with
    | waiting | running | dropped => cases state
    | ended | faulted => rfl

theorem Booked.rank_le (h : σ.Booked) (mem : π ∈ σ.parties) : π.rank ≤ σ.store.joins.size := by
  unfold Party.rank
  split
  · exact Nat.zero_le _
  · next t role => exact (h.party mem role).1

/-- A party waits for a task of its run whose outermost loop has the token `c`. -/
def Awaited (σ : Runtime) (run : TokenId) (t : TaskId) (c : TokenId) : Prop :=
  ∃ π ∈ σ.parties, π.run = run ∧ ∃ p ∈ π.posts, p.Ties σ.store t c

structure Kindred (σ : Runtime) : Prop where
  family : σ.store.Family
  linked : ∀ π ∈ σ.parties, ∀ p ∈ π.posts, p.Linked σ.store
  root : ∀ π ∈ σ.parties, π.role = .root → ∀ p ∈ π.posts, p.link = .outer → p.token = π.run
  awaited : ∀ π ∈ σ.parties, ∀ t, π.role = .task t → ∀ p ∈ π.posts, p.link = .outer →
    σ.Awaited π.run t p.token ∨ σ.Failed π.run
  order : ∀ π ∈ σ.parties, ∀ p ∈ π.posts, ∀ t ∈ p.waits, π.rank ≤ t
  runs : ∀ π ∈ σ.parties, π.run < σ.store.size
  roots : (σ.parties.filterMap Party.root?).Nodup

/-! ## Every step keeps the loops kin -/

section

variable (h : σ.Kindred) (ages : σ.store.Ages σ'.store)

include h ages

theorem Turnover.linked (turnover : Turnover σ σ') :
    ∀ π ∈ σ'.parties, ∀ p ∈ π.posts, p.Linked σ'.store := by
  have born : ∀ {loop : Loop} {effect : Effect}, loop.env.token < σ'.store.size →
      Post.Linked σ'.store (loop.at .outer (.evaluating effect)) := fun lt =>
    ⟨fun t mem => List.mem_singleton.mp mem ▸ lt, trivial, nofun⟩
  intro π mem p inside
  cases turnover.origin mem with
  | old mem => exact (h.linked π mem p inside).mono ages
  | acted acting reaction => exact reaction.linked ages h.family (h.linked _ acting) p inside
  | started acting _ reaction started =>
    obtain ⟨loop, effect, rfl, ⟨p₀, mem₀, own⟩ | fresh⟩ := reaction.starting started inside
    · exact born (Nat.lt_of_lt_of_le ((h.linked _ acting p₀ mem₀).bound _ own) ages.size)
    · exact born fresh.lt
  | lost => cases inside
  | begun fresh =>
    obtain rfl := Multiset.mem_singleton.mp inside
    exact born fresh.lt

omit ages in
theorem Turnover.root (turnover : Turnover σ σ') :
    ∀ π ∈ σ'.parties, π.role = .root → ∀ p ∈ π.posts, p.link = .outer → p.token = π.run := by
  intro π mem role p inside link
  cases turnover.origin mem with
  | old mem => exact h.root π mem role p inside link
  | acted acting reaction =>
    obtain ⟨p₀, mem₀, link₀, same⟩ := reaction.outer inside link
    exact same.symm.trans (h.root _ acting role p₀ mem₀ link₀)
  | started => cases role
  | lost => cases inside
  | begun =>
    obtain rfl := Multiset.mem_singleton.mp inside
    rfl

/-- Whoever is waited for goes on to be waited for, or its run has failed. -/
theorem Turnover.keeps (turnover : Turnover σ σ') {run : TokenId} {t : TaskId} {c : TokenId}
    (awaited : σ.Awaited run t c) (unsettled : σ.store.joined? t = none) :
    σ'.Awaited run t c ∨ σ'.Failed run := by
  obtain ⟨π, mem, rfl, p, inside, tied⟩ := awaited
  obtain stays | ⟨ms, new, P', reaction, acted⟩ | failed := turnover.fate mem
  · exact .inl ⟨π, stays, rfl, p, inside, tied.mono ages⟩
  · obtain ⟨p', inside', -, tied'⟩ := reaction.ties ages (h.linked _ mem) inside tied unsettled
    exact .inl ⟨_, acted, rfl, p', inside', tied'⟩
  · exact .inr failed

theorem Turnover.awaited (booked : σ.Booked) (failure : ∀ run, σ.Failed run → σ'.Failed run)
    (turnover : Turnover σ σ') : ∀ π ∈ σ'.parties, ∀ t, π.role = .task t → ∀ p ∈ π.posts,
      p.link = .outer → σ'.Awaited π.run t p.token ∨ σ'.Failed π.run := by
  have old : ∀ π ∈ σ.parties, ∀ t, π.role = .task t → ∀ p ∈ π.posts, p.link = .outer →
      σ'.Awaited π.run t p.token ∨ σ'.Failed π.run := by
    intro π mem t role p inside link
    have alive : π.posts ≠ 0 := fun none => by simp [none] at inside
    obtain awaited | failed := h.awaited π mem t role p inside link
    · exact turnover.keeps h ages awaited ((booked.party mem role).2 alive)
    · exact .inr (failure _ failed)
  intro π mem t role p inside link
  cases turnover.origin mem with
  | old mem => exact old π mem t role p inside link
  | acted acting reaction =>
    obtain ⟨p₀, mem₀, link₀, same⟩ := reaction.outer inside link
    exact same ▸ old _ acting t role p₀ mem₀ link₀
  | started _ acted reaction started =>
    cases role
    obtain ⟨p', inside', tied⟩ := reaction.tied started inside
    exact .inl ⟨_, acted, rfl, p', inside', tied⟩
  | lost => cases inside
  | begun => cases role

omit ages in
theorem Turnover.order (booked : σ.Booked) (turnover : Turnover σ σ') :
    ∀ π ∈ σ'.parties, ∀ p ∈ π.posts, ∀ t ∈ p.waits, π.rank ≤ t := by
  intro π mem p inside t wait
  cases turnover.origin mem with
  | old mem => exact h.order π mem p inside t wait
  | acted acting reaction =>
    obtain ⟨p₀, mem₀, wait₀⟩ | new := reaction.waits inside wait
    · exact h.order _ acting p₀ mem₀ t wait₀
    · have rank := booked.rank_le acting
      exact Nat.le_trans rank new
  | started _ _ reaction started =>
    obtain ⟨loop, effect, rfl, -⟩ := reaction.starting started inside
    cases wait
  | lost => cases inside
  | begun =>
    obtain rfl := Multiset.mem_singleton.mp inside
    cases wait

theorem Turnover.runs (turnover : Turnover σ σ') :
    ∀ π ∈ σ'.parties, π.run < σ'.store.size := by
  have old : ∀ π ∈ σ.parties, π.run < σ'.store.size := fun π mem =>
    Nat.lt_of_lt_of_le (h.runs π mem) ages.size
  intro π mem
  cases turnover.origin mem with
  | old mem => exact old π mem
  | acted acting | started acting | lost acting =>
    have known := old _ acting
    exact known
  | begun fresh => exact fresh.lt

omit ages in
theorem Turnover.roots (turnover : Turnover σ σ') :
    (σ'.parties.filterMap Party.root?).Nodup := by
  have changed : ∀ {run : TokenId} {role : Strand.Role} {P P' : Multiset Post}
      {rest new : Multiset Party}, σ.parties = ⟨run, role, P⟩ ::ₘ rest →
      new.filterMap Party.root? = 0 →
      σ'.parties = ⟨run, role, P'⟩ ::ₘ (new + rest) →
      (σ'.parties.filterMap Party.root?).Nodup := by
    intro run role P P' rest new parties none parties'
    have distinct := h.roots
    rw [parties] at distinct
    rw [parties', ← Multiset.add_cons, Multiset.filterMap_add, none, zero_add]
    simpa [Multiset.filterMap_cons, Party.root?] using distinct
  cases turnover with
  | idle parties => exact parties ▸ h.roots
  | @act run role P P' ms new rest reaction numbered tasks parties parties' =>
    refine changed parties (Multiset.eq_zero_of_forall_notMem fun t mem => ?_) parties'
    obtain ⟨π, mem, root⟩ := (Multiset.mem_filterMap _ _).mp mem
    obtain ⟨x, -, -, rfl⟩ := mem_ofSpawns.mp mem
    cases root
  | lose failed marks parties parties' => exact changed parties rfl (by rw [parties', zero_add])
  | @begin env effect fresh parties' =>
    rw [parties', Multiset.filterMap_cons_some Party.root? _ _ rfl]
    refine Multiset.nodup_cons.mpr ⟨fun mem => ?_, h.roots⟩
    obtain ⟨π, mem, root⟩ := (Multiset.mem_filterMap _ _).mp mem
    obtain ⟨run, role, P⟩ := π
    cases role with
    | root =>
      cases root
      exact Nat.not_lt.mpr fresh.le (h.runs _ mem)
    | task t => cases root

end

theorem Step.kindred (h : σ.Kindred) (booked : σ.Booked) (step : Step σ σ') : σ'.Kindred where
  family := step.elapse.family h.family
  linked := step.turnover.linked h step.ages
  root := step.turnover.root h
  awaited := step.turnover.awaited h step.ages booked fun _ => step.failure
  order := step.turnover.order h booked
  runs := step.turnover.runs h step.ages
  roots := step.turnover.roots h

theorem Reachable.kindred (h : Reachable σ) : σ.Kindred := by
  induction h with
  | refl =>
    have none : Runtime.parties {} = 0 := rfl
    refine ⟨⟨nofun, nofun⟩, ?_, ?_, ?_, ?_, ?_, ?_⟩
    all_goals simp [none]
  | tail reach step ih => exact Step.kindred ih (Reachable.booked reach) step

/-! ## What kinship gives -/

/-- A run holds on to a token. -/
def Holds (σ : Runtime) (run c : TokenId) : Prop :=
  ∃ π ∈ σ.parties, π.run = run ∧ ∃ p ∈ π.posts, c ∈ p.owned

/-- A task whose loops are alive is waited for by an older party whose loops are. -/
theorem Kindred.older (h : σ.Kindred) (mem : π ∈ σ.parties) {t : TaskId} (role : π.role = .task t)
    {p : Post} (inside : p ∈ π.posts) (link : p.link = .outer) :
    (∃ π' ∈ σ.parties, π'.run = π.run ∧ π'.rank < π.rank ∧
      ∃ p' ∈ π'.posts, p'.Ties σ.store t p.token) ∨ σ.Failed π.run := by
  refine (h.awaited π mem t role p inside link).imp_left ?_
  rintro ⟨π', mem', run, p', inside', tied⟩
  have lt : π'.rank < π.rank := by
    have rank : π.rank = t + 1 := by simp [Party.rank, role]
    rw [rank]
    exact Nat.lt_succ_of_le (h.order π' mem' p' inside' t tied.waits)
  exact ⟨π', mem', run, lt, p', inside', tied⟩

/-- While a loop of a run is alive, so is the run, or it has failed. -/
theorem Kindred.alive (h : σ.Kindred) (mem : π ∈ σ.parties) (alive : π.posts ≠ 0) :
    (∃ π₀ ∈ σ.parties, π₀.run = π.run ∧ π₀.role = .root ∧ π₀.posts ≠ 0) ∨ σ.Failed π.run := by
  generalize rank : π.rank = n
  induction n using Nat.strongRecOn generalizing π with
  | ind n ih =>
    cases role : π.role with
    | root => exact .inl ⟨π, mem, rfl, role, alive⟩
    | task t =>
      obtain ⟨p, inside, link⟩ := (nest mem).outer alive
      obtain ⟨π', mem', run, lt, p', inside', -⟩ | failed := h.older mem role inside link
      · have alive' : π'.posts ≠ 0 := fun none => by simp [none] at inside'
        exact run ▸ ih π'.rank (rank ▸ lt) mem' alive' rfl
      · exact .inr failed

/-- A loop of a run that no cancellation from around reaches: an acquisition or a release. -/
def Apart (σ : Runtime) (run c : TokenId) : Prop :=
  ∃ π ∈ σ.parties, π.run = run ∧ ∃ p ∈ π.posts, p.link = .apart ∧ p.token = c

/-- Where a token comes from that a run holds on to: from a parent that the run holds on to too,
or the token is that of the run, or of an acquisition or a release. -/
theorem Kindred.origin (h : σ.Kindred) {run c : TokenId} (held : σ.Holds run c) :
    (∃ q, σ.store.Parent q c ∧ σ.Holds run q) ∨ c = run ∨ σ.Apart run c ∨ σ.Failed run := by
  obtain ⟨π, mem, rfl, p, inside, own⟩ := held
  have linked := h.linked π mem p inside
  generalize rank : π.rank = n
  induction n using Nat.strongRecOn generalizing π p with
  | ind n ih =>
    obtain rfl | ⟨loop, g, piece, rfl⟩ := Post.mem_owned.mp own
    · cases link : p.link with
      | operand q =>
        obtain ⟨p', inside', rfl⟩ := (nest mem).under p inside q link
        have parent : σ.store.Parent p'.token p.token := by
          have fits := linked.link
          rwa [link] at fits
        exact .inl ⟨_, parent, π, mem, rfl, p', inside', p'.token_mem_owned⟩
      | apart => exact .inr (.inr (.inl ⟨π, mem, rfl, p, inside, link, rfl⟩))
      | outer =>
        cases role : π.role with
        | root => exact .inr (.inl (h.root π mem role p inside link))
        | task t =>
          obtain ⟨π', mem', run, lt, p', inside', tied⟩ | failed := h.older mem role inside link
          · rw [← run]
            cases tied with
            | @away l env same =>
              refine ih π'.rank (rank ▸ lt) π' mem' _ inside' ?_ (h.linked π' mem' _ inside') rfl
              exact List.mem_singleton.mpr same.symm
            | gathering pending parent =>
              exact .inl ⟨_, parent, π', mem', rfl, _, inside', by simp [Post.owned]⟩
          · exact .inr (.inr (.inr failed))
    · obtain ⟨parent, -⟩ := linked.group loop g piece
      exact .inl ⟨_, parent, π, mem, rfl, p, inside, by simp [Post.owned, piece]⟩

/-- The parent of a token that a run holds on to is held by the run, unless the token is that of
the run, or the run has failed. -/
theorem Kindred.parent (h : σ.Kindred) {run c q : TokenId} (held : σ.Holds run c)
    (parent : σ.store.Parent q c) : σ.Holds run q ∨ c = run ∨ σ.Failed run := by
  obtain ⟨q', parent', held'⟩ | same | ⟨π, mem, -, p, inside, link, rfl⟩ | failed := h.origin held
  · exact .inl (h.family.unique q' q c parent'.derived parent.derived ▸ held')
  · exact .inr (.inl same)
  · have fits := (h.linked π mem p inside).link
    rw [link] at fits
    exact (fits q parent.derived).elim
  · exact .inr (.inr failed)

/-- Every token that a run holds on to is below the token of the run, or below the token of an
acquisition or a release. -/
theorem Kindred.ancestor (h : σ.Kindred) {run c : TokenId} (held : σ.Holds run c)
    (whole : ¬ σ.Failed run) :
    ∃ r, (r = run ∨ σ.Apart run r) ∧ σ.store.Below r c := by
  induction c using Nat.strongRecOn with
  | ind c ih =>
    obtain ⟨q, parent, held'⟩ | same | apart | failed := h.origin held
    · obtain ⟨r, top, below⟩ := ih q parent.lt held'
      exact ⟨r, top, below.tail parent⟩
    · exact ⟨c, .inl same, .refl⟩
    · exact ⟨c, .inr apart, .refl⟩
    · exact (whole failed).elim

end Runtime

end EffectFibers
