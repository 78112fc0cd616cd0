import EffectFibers.Proofs.Spreading

/-!
# What cancellations are caused by

Nothing is cancelled without a cause.  A cancelled token that a run holds on to is the run's own,
or a token above it is cancelled, or it is inside of a race that is settled or of a group that has
failed (`Runtime.Traced`).  So a token of which nobody asked the cancellation is cancelled only
when something around it is, and then a fiber ends with `canceled` only after its own token was
cancelled: a race that is decided and a group that fails keep the cancellations inside.

Two tokens are told apart for that: those that programs and their surroundings may know, and those
that only the run loops know, of operands, groups, acquisitions and releases.  Nobody but a run
loop asks for the cancellation of one of the latter (`Runtime.Discreet`).

## Main statements

* `Runtime.Reachable.bearer`: what has begun the loops of a run waits for them.
* `Runtime.Step.traced`: every cancelled token can be traced to a cause.
* `Runtime.Step.caused`: whoever unwinds with `canceled` is cancelled.
* `Runtime.Discreetly.provoked`: what ends with `canceled`, and what does not.
-/

namespace EffectFibers

/-- The loop has cancelled what is inside of it: its race is settled, or its group has failed. -/
def Fiber.strikes (φ : Fiber) : Prop :=
  match φ.doing with
  | .settling .. => True
  | .gathering g => g.failure ≠ none
  | _ => False

namespace Runtime

variable {σ σ' : Runtime} {run run' q u c : TokenId} {φ φ' : Fiber} {κ : Company} {b : Berth}
  {loop : Loop} {g : Group}

/-! ## Who has begun a loop -/

/-- A loop whose token was derived is inside of the loop with the parent, or an operand of the
group with the parent. -/
theorem Reachable.begun_by (h : Reachable σ) (whole : ¬ σ.Failed run) (mem : κ ∈ σ.companies)
    (own : κ.run = run) (inside : b ∈ κ.berths) (parent : σ.store.Parent q b.token)
    (ne : b.token ≠ run) : ∃ φ, (run, φ) ∈ σ.crew ∧
      (φ.token = q ∧ (∃ room, φ.Hosts room) ∨ ∃ loop g, φ = ⟨loop, .gathering g⟩ ∧ g.token = q) := by
  have kindred := h.kindred
  generalize rank : κ.party.rank = n
  induction n using Nat.strongRecOn generalizing κ b with
  | ind n ih =>
    have inParties : κ.party ∈ σ.parties := mem_parties.mpr ⟨κ, mem, rfl⟩
    have post : b.post ∈ κ.party.posts := Multiset.mem_map_of_mem Berth.post inside
    have fits := (kindred.linked _ inParties _ post).link
    obtain ⟨room, piece⟩ := b
    cases room with
    | apart q' => exact (fits q parent.derived).elim
    | operand q' side =>
      obtain outer | ⟨b', mem', φ, piece', hosts⟩ := (nest_company mem).inside _ inside
      · cases outer
      obtain ⟨room', piece⟩ := b'
      cases piece'
      refine ⟨φ, mem_crew_iff.mpr ⟨κ, mem, own, room', mem'⟩, .inl ⟨?_, _, hosts⟩⟩
      have same : q' = φ.token := Option.some.inj hosts.around
      exact same ▸ kindred.family.unique _ _ _ fits.derived parent.derived
    | outer =>
      cases role : κ.role with
      | root => exact (ne ((kindred.root _ inParties role _ post rfl).trans own)).elim
      | task t =>
        obtain ⟨π', inParties', run', lt, p', inside', tied⟩ | failed :=
          kindred.older inParties role post rfl
        · obtain ⟨κ', mem', rfl⟩ := mem_parties.mp inParties'
          obtain ⟨⟨room', piece'⟩, berth', rfl⟩ := Multiset.mem_map.mp inside'
          have own' : κ'.run = run := run'.trans own
          cases tied with
          | @away _ env same =>
            have token : Berth.token ⟨room', .away env t⟩ = Berth.token ⟨.outer, piece⟩ := same
            exact ih _ (rank ▸ lt) mem' own' berth' (token ▸ parent) (token ▸ ne) rfl
          | @gathering _ loop g i pending parent' =>
            refine ⟨_, mem_crew_iff.mpr ⟨κ', mem', own', room', berth'⟩, .inr ⟨loop, g, rfl, ?_⟩⟩
            exact kindred.family.unique _ _ _ parent'.derived parent.derived
        · exact (whole (own ▸ failed)).elim

/-- No loop of a run has the token of a group of the run. -/
theorem Reachable.aloof (h : Reachable σ) (whole : ¬ σ.Failed run) (mem : (run, φ) ∈ σ.crew)
    (mem' : (run, ⟨loop, .gathering g⟩) ∈ σ.crew) : φ.token ≠ g.token := by
  generalize value : g.token = n
  -- By induction on the token: what has begun the loop would be a group with an older token.
  induction n using Nat.strongRecOn generalizing φ loop g with
  | ind n ih =>
    intro same
    obtain ⟨parent, -⟩ := linked_group h.kindred mem'
    obtain ⟨κ, inCompanies, own, l, inside⟩ := mem_crew_iff.mp mem
    have token : Berth.token ⟨l, .fiber φ⟩ = g.token := same.trans value.symm
    have older : run ≤ loop.env.token := h.separate.rooted _ _ (holds_of_mem_crew mem')
    have ne : Berth.token ⟨l, .fiber φ⟩ ≠ run := by
      rw [token]
      exact Nat.ne_of_gt (Nat.lt_of_le_of_lt older parent.lt)
    obtain ⟨ψ, inCrew, ⟨same', room, hosts⟩ | ⟨loop', g', rfl, same'⟩⟩ :=
      h.begun_by whole inCompanies own inside (token ▸ parent) ne
    · cases h.manned.unique inCrew mem' same'
      cases hosts
    · exact ih _ (value ▸ same'.symm ▸ parent.lt) mem' inCrew rfl same'.symm

/-- What a derived token was derived from is the token of a loop that waits, or of a group that a
loop waits for. -/
theorem Reachable.bearer (h : Reachable σ) (whole : ¬ σ.Failed run) (held : σ.Holds run u)
    (parent : σ.store.Parent q u) (ne : u ≠ run) : ∃ φ, (run, φ) ∈ σ.crew ∧
      (φ.token = q ∧ φ.waits = true ∨ ∃ loop g, φ = ⟨loop, .gathering g⟩ ∧ g.token = q) := by
  obtain ⟨π, inParties, own, p, inside, owned⟩ := held
  obtain ⟨κ, mem, rfl⟩ := mem_parties.mp inParties
  obtain ⟨b, berth, rfl⟩ := Multiset.mem_map.mp inside
  obtain rfl | ⟨loop, g, piece, rfl⟩ := Post.mem_owned.mp owned
  · obtain ⟨φ, inCrew, ⟨same, room, hosts⟩ | group⟩ := h.begun_by whole mem own berth parent ne
    · exact ⟨φ, inCrew, .inl ⟨same, hosts.waits⟩⟩
    · exact ⟨φ, inCrew, .inr group⟩
  · obtain ⟨room, _⟩ := b
    cases piece
    have inCrew : (run, ⟨loop, .gathering g⟩) ∈ σ.crew := mem_crew_iff.mpr ⟨κ, mem, own, room, berth⟩
    have derived := (linked_group h.kindred inCrew).1.derived
    exact ⟨_, inCrew, .inl ⟨h.kindred.family.unique _ _ _ derived parent.derived, rfl⟩⟩

/-- Whatever was derived from the token of a loop, and is held by a run, is inside of the loop. -/
theorem Reachable.inner (h : Reachable σ) (whole : ¬ σ.Failed run) (held : σ.Holds run u)
    (mem : (run', φ) ∈ σ.crew) (parent : σ.store.Parent φ.token u) (ne : u ≠ run) :
    run' = run ∧ φ.waits = true := by
  obtain ⟨ψ, inCrew, ⟨same, waits⟩ | ⟨loop, g, rfl, same⟩⟩ := h.bearer whole held parent ne
  · cases h.manned.unique inCrew mem same
    exact ⟨rfl, waits⟩
  · obtain rfl := h.separate.unique (holds_of_mem_crew mem) (same ▸ holds_group inCrew)
    exact (h.aloof whole mem inCrew same.symm).elim

/-! ## Causes -/

/-- Only the run loops know the token: a run holds on to it, and it is not that of the run. -/
def Private (σ : Runtime) (t : TokenId) : Prop := ∃ run, σ.Holds run t ∧ t ≠ run

/-- A step in which nobody asks for the cancellation of a token that only the run loops know.
Programs and their surroundings never do: a token that a run loop makes for an operand, a group, an
acquisition or a release is given to nobody. -/
structure Discreet (σ σ' : Runtime) : Prop where
  step : Step σ σ'
  spares : ∀ t, Asks σ σ' t → σ.Private t → σ.store.isCancelled t = true

/-- Any number of such steps. -/
abbrev Discreetly : Runtime → Runtime → Prop := Relation.ReflTransGen Discreet

theorem Discreetly.steps (h : Discreetly σ σ') : Steps σ σ' :=
  Relation.ReflTransGen.mono (fun _ _ discreet => discreet.step) _ _ h

/-- Every cancelled token that a run holds on to is its own, or was derived from a cancelled one,
or from that of a loop that has cancelled what is inside of it. -/
def Traced (σ : Runtime) (run : TokenId) : Prop :=
  ∀ u, σ.Holds run u → σ.store.isCancelled u = true → u = run ∨ ∃ q, σ.store.Parent q u ∧
    (σ.store.isCancelled q = true ∨ ∃ φ, (run, φ) ∈ σ.crew ∧ φ.token = q ∧ φ.strikes)

/-- A loop that has cancelled what is inside of it goes on to wait while something is. -/
theorem Step.strikes_on (h : Reachable σ) (step : Step σ σ') (whole' : ¬ σ'.Failed run)
    (mem : (run, φ) ∈ σ.crew) (strikes : φ.strikes) (held' : σ'.Holds run u)
    (parent' : σ'.store.Parent φ.token u) (ne : u ≠ run) :
    ∃ φ', (run, φ') ∈ σ'.crew ∧ φ'.token = φ.token ∧ φ'.strikes := by
  have reach' : Reachable σ' := .tail h step
  have whole : ¬ σ.Failed run := fun failed => whole' (step.failure failed)
  have known : φ.token < σ.store.size := h.manned.bound _ (mem_badges.mpr ⟨_, mem, rfl⟩)
  obtain ⟨ψ, inCrew, ⟨same, waits⟩ | ⟨loop, g, rfl, same⟩⟩ := reach'.bearer whole' held' parent' ne
  · refine ⟨ψ, inCrew, same, ?_⟩
    obtain rfl | acts | ⟨effect, doing, -⟩ := step.deed h mem inCrew same
    · exact strikes
    · obtain ⟨ms, acts'⟩ := acts.step
      obtain ⟨loop, doing⟩ := φ
      cases doing with
      | settling winner x =>
        cases acts'
        cases waits
      | gathering g =>
        cases acts.deed with
        | plain plain => cases plain
        | gather gathered => exact (Machine.gather_failed gathered strikes).1
        | gathered => cases waits
      | _ => exact strikes.elim
    · simp [Fiber.strikes, doing] at strikes
  · exfalso
    cases step.group_origin inCrew with
    | old before => exact h.aloof whole mem before same.symm
    | gathered before ok =>
      have token := (Machine.gather_advances (congrArg Prod.fst ok)).1
      exact h.aloof whole mem before (same.symm.trans token)
    | opened before opened => exact Nat.not_lt.mpr opened.begun.token.le (same ▸ known)

theorem Asks.size (asks : Asks σ σ' u) : σ'.store.size = σ.store.size := by
  cases asks with
  | outside => exact Store.size_cancel _ _
  | program => exact Store.size_cancel _ _

/-- Every cancelled token can be traced to a cause. -/
theorem Step.traced (h : Reachable σ) (traced : σ.Traced run) (discreet : Discreet σ σ')
    (whole' : ¬ σ'.Failed run) : σ'.Traced run := by
  have step := discreet.step
  have reach' : Reachable σ' := .tail h step
  intro u held' cancelled'
  by_cases ne : u = run
  · exact .inl ne
  right
  have old : u < σ.store.size → σ.Holds run u := fun known =>
    (step.turnover.holds held').resolve_right fun fresh => Nat.not_lt.mpr fresh.le known
  by_cases before : σ.store.isCancelled u = true
  · obtain same | ⟨q, parent, cause⟩ := traced u (old (Forest.isCancelled_lt before)) before
    · exact (ne same).elim
    have parent' := parent.mono step.ages
    refine ⟨q, parent', cause.imp (step.ages.isCancelled q) ?_⟩
    rintro ⟨φ, mem, rfl, strikes⟩
    exact step.strikes_on h whole' mem strikes held' parent' ne
  obtain cancelled | target | ⟨q, parent, above⟩ := step.spreads h u cancelled'
  · exact (before cancelled).elim
  · cases target with
    | asked asks =>
      have known : u < σ.store.size := asks.size ▸ reach'.kindred.known held'
      exact (before (discreet.spares u asks ⟨run, old known, ne⟩)).elim
    | given owned =>
      exact (ne (h.separate.unique owned (old (h.kindred.known owned)))).elim
    | @settled run' loop tokens side x mem mem' token =>
      subst token
      obtain ⟨κ, inCompanies, own, l, inside⟩ := mem_crew_iff.mp mem
      have parent := ((h.orderly κ inCompanies).tokens l loop tokens inside).2 side.other
      have parent' := parent.mono step.ages
      obtain ⟨rfl, -⟩ := reach'.inner whole' held' mem' parent' ne
      exact ⟨_, parent', .inr ⟨_, mem', rfl, trivial⟩⟩
    | @failed run' loop g doing mem mem' goes token =>
      subst token
      have parent' := (linked_group h.kindred mem).1.mono step.ages
      obtain ⟨rfl, waits⟩ := reach'.inner whole' held' mem' parent' ne
      obtain ⟨g', rfl, -, failure⟩ | ⟨x, rfl⟩ := goes
      · exact ⟨_, parent', .inr ⟨_, mem', rfl, failure⟩⟩
      · cases waits
    | @panicked run' loop g mem failed token =>
      subst token
      have owned := holds_group mem
      obtain rfl := h.separate.unique owned (old (h.kindred.known owned))
      exact (whole' failed).elim
  · exact ⟨q, parent, .inl above⟩

/-! ## What is traced -/

section

variable (h : Reachable σ) (traced : σ.Traced run)

include h traced

/-- What was derived from a token of the run is cancelled with it, or by the loop of that token. -/
theorem Traced.above (held : σ.Holds run q) (inner : σ.Holds run u) (parent : σ.store.Parent q u)
    (cancelled : σ.store.isCancelled u = true) :
    σ.store.isCancelled q = true ∨ ∃ φ, (run, φ) ∈ σ.crew ∧ φ.token = q ∧ φ.strikes := by
  obtain rfl | ⟨q', parent', cause⟩ := traced u inner cancelled
  · exact (Nat.not_lt.mpr (h.separate.rooted _ _ held) parent.lt).elim
  · exact h.kindred.family.unique _ _ _ parent'.derived parent.derived ▸ cause

/-- Nothing cancels an acquisition or a release. -/
theorem Traced.apart (mem : κ ∈ σ.companies) (own : κ.run = run) (inside : b ∈ κ.berths)
    (room : b.room = .apart q) : σ.store.isCancelled b.token = false := by
  refine Bool.eq_false_iff.mpr fun cancelled => ?_
  have inParties : κ.party ∈ σ.parties := mem_parties.mpr ⟨κ, mem, rfl⟩
  have fits := (h.kindred.linked _ inParties _ (Multiset.mem_map_of_mem Berth.post inside)).link
  obtain same | ⟨q', parent, -⟩ := traced _ (own ▸ holds_of_berth mem inside) cancelled
  · obtain outer | ⟨b', mem', φ, piece, hosts⟩ := (nest_company mem).inside b inside
    · cases room.symm.trans outer
    · have young := (h.orderly κ mem).young b inside φ.token hosts.around
      have token : b'.token = φ.token := by
        obtain ⟨room', _⟩ := b'
        cases piece
        rfl
      have older := h.separate.rooted _ _ (own ▸ token ▸ holds_of_berth mem mem' : σ.Holds run _)
      exact Nat.not_lt.mpr older (same ▸ young)
  · obtain ⟨l, piece⟩ := b
    cases room
    exact fits q' parent.derived

/-- An operand of a race that is not decided is cancelled only with the loop of the race. -/
theorem Traced.operand {l : Room} {tokens : RaceTokens} {side : Side} (mem : κ ∈ σ.companies)
    (own : κ.run = run) (racing : loop.berth l (.racing tokens) ∈ κ.berths) (inside : b ∈ κ.berths)
    (room : b.room = loop.side side) (cancelled : σ.store.isCancelled b.token = true) :
    σ.store.isCancelled loop.env.token = true := by
  have orderly := h.orderly κ mem
  have token := orderly.operands l loop tokens racing b inside side room
  have parent := (orderly.tokens l loop tokens racing).2 side
  have inCrew : (run, ⟨loop, .racing tokens⟩) ∈ σ.crew := mem_crew_iff.mpr ⟨κ, mem, own, l, racing⟩
  have held : σ.Holds run b.token := own ▸ holds_of_berth mem inside
  refine (traced.above h (holds_of_mem_crew inCrew) held (token ▸ parent) cancelled).resolve_right ?_
  rintro ⟨φ, mem', same, strikes⟩
  cases h.manned.unique mem' inCrew same
  exact strikes

/-- An operand of a group is cancelled only with the group. -/
theorem Traced.task (whole : ¬ σ.Failed run) (mem : (run, ⟨loop, .gathering g⟩) ∈ σ.crew)
    (held : σ.Holds run c) (parent : σ.store.Parent g.token c)
    (cancelled : σ.store.isCancelled c = true) : σ.store.isCancelled g.token = true := by
  refine (traced.above h (holds_group mem) held parent cancelled).resolve_right ?_
  rintro ⟨φ, mem', same, -⟩
  exact h.aloof whole mem' mem same

/-- A group that has not failed is cancelled only with its loop. -/
theorem Traced.group (mem : (run, ⟨loop, .gathering g⟩) ∈ σ.crew) (failure : g.failure = none)
    (cancelled : σ.store.isCancelled g.token = true) :
    σ.store.isCancelled loop.env.token = true := by
  have parent := (linked_group h.kindred mem).1
  refine (traced.above h (holds_of_mem_crew mem) (holds_group mem) parent cancelled).resolve_right ?_
  rintro ⟨φ, mem', same, strikes⟩
  cases h.manned.unique mem' mem same
  exact strikes failure

end

/-! ## Who ends with a cancellation -/

end Runtime

/-- The loop goes on with `canceled` only when it is cancelled.  Its race is never left to one
operand, and its group counts an operand as cancelled only when the group is. -/
def Fiber.Caused (s : Store) (φ : Fiber) : Prop :=
  match φ.doing with
  | .unwinding .canceled | .releasing _ .canceled | .settling _ .canceled =>
    s.isCancelled φ.token = true
  | .remaining _ => False
  | .gathering g => g.canceled = true → s.isCancelled g.token = true
  | _ => True

/-- What holds when the caller is handed `canceled`: an acquisition is not, and an operand of a
race only with the race. -/
def Caller.Owes (s : Store) : Caller → Prop
  | .acquiring .. => False
  | .racingLeft loop _ _ | .racingRight loop _ _ => s.isCancelled loop.env.token = true
  | .releasing .. | .settling .. | .remaining .. => True

section

variable {s s' : Store} {φ φ' : Fiber} {ms : List Event} {x : Exit}

theorem Fiber.Caused.mono (h : φ.Caused s) (ages : s.Ages s') : φ.Caused s' := by
  obtain ⟨loop, doing⟩ := φ
  cases doing with
  | unwinding x =>
    cases x with
    | canceled => exact ages.isCancelled _ h
    | succeeded | errored => trivial
  | releasing bracket x =>
    cases x with
    | canceled => exact ages.isCancelled _ h
    | succeeded | errored => trivial
  | settling side x =>
    cases x with
    | canceled => exact ages.isCancelled _ h
    | succeeded | errored => trivial
  | gathering g => exact fun canceled => ages.isCancelled _ (h canceled)
  | remaining side => exact h
  | evaluating | callback | future | acquiring | racing => trivial

theorem Loop.decided_caused {loop : Loop} {side : Side}
    (owes : x = .canceled → s.isCancelled loop.env.token = true) :
    Fiber.Caused s ⟨loop, loop.decided s side x⟩ := by
  cases x with
  | canceled =>
    have settled : loop.decided s side .canceled = .settling side .canceled := by
      simp [Loop.decided, owes rfl]
    rw [settled]
    exact owes rfl
  | succeeded | errored => trivial

/-- A loop that waits for a nested one goes on with `canceled` only when it is cancelled. -/
theorem Caller.after_caused (caller : Caller) (caused : caller.fiber.Caused s)
    (owes : x = .canceled → caller.Owes s) : (caller.after s x).Caused s := by
  cases caller with
  | acquiring loop use release =>
    cases x with
    | canceled => exact (owes rfl).elim
    | errored => trivial
    | succeeded v =>
      cases live : s.isCancelled loop.env.token <;> simp [Caller.after, live, Fiber.Caused]
      exact live
  | releasing loop bracket outcome =>
    cases outcome with
    | canceled => cases x <;> exact caused
    | succeeded | errored => cases x <;> trivial
  | racingLeft | racingRight => exact Loop.decided_caused owes
  | settling loop winner y =>
    cases y with
    | canceled => cases winner <;> exact caused
    | succeeded | errored => cases winner <;> trivial
  | remaining => exact caused.elim

/-- So does a loop that waits for no other one. -/
theorem Fiber.Step.caused (step : φ.Step s ms φ') (caused : φ.Caused s)
    (free : ∀ room, ¬ φ.Hosts room) (single : ∀ g, φ.doing ≠ .gathering g)
    (single' : ∀ g, φ'.doing ≠ .gathering g) : φ'.Caused s := by
  cases step with
  | refused point cancelled => exact cancelled
  | abandoned cancelled | forgone cancelled => exact cancelled
  | @delivered loop slot result => cases result <;> trivial
  | @due loop wait result => cases result <;> trivial
  | skipped => exact caused
  | @release env bracket finalizer frames y outcome given =>
    cases live : s.isCancelled env.token with
    | true =>
      obtain rfl : outcome = .canceled := by simpa [live] using given
      exact live
    | false =>
      obtain rfl : outcome = y := by simpa [live] using given
      cases outcome with
      | canceled => exact caused
      | succeeded | errored => trivial
  | fan => exact (single' _ rfl).elim
  | gather | gathered => exact (single _ rfl).elim
  | acquired | acquiredLate | notAcquired => exact (free _ .acquiring).elim
  | released => exact (free _ .releasing).elim
  | settle | withdrawn => exact (free _ (.racing .left)).elim
  | settled => exact (free _ .settling).elim
  | remained => exact (free _ .remaining).elim
  | pure | fail | perform | cancel | isCancelled | map | bind | handle | again | done | register
  | await | shift | bracket | race | mapped | bound | repeated | handled => trivial

end

namespace Machine

variable {g g' : Group} {s s' : Store} {ended : List (Nat × Joined)}

/-- A group counts a cancellation only when an operand was cancelled. -/
theorem gather_canceled (ok : gather g ended s = (.ok g', s')) (canceled : g'.canceled = true) :
    g.canceled = true ∨ ∃ y ∈ ended, y.2.exit = .ok .canceled := by
  induction ended generalizing g s with
  | nil =>
    cases ok
    exact .inl canceled
  | cons y rest ih =>
    obtain ⟨i, joined⟩ := y
    obtain ⟨x, came, later⟩ := gather_cons ok
    obtain now | ⟨y, mem, later⟩ := ih later
    · cases x with
      | succeeded v => exact .inl now
      | errored e =>
        refine .inl ?_
        simp only [Group.absorb] at now
        split at now
        · exact now
        · split at now <;> exact now
      | canceled => exact .inr ⟨_, List.mem_cons_self .., came⟩
    · exact .inr ⟨y, List.mem_cons_of_mem _ mem, later⟩

end Machine

theorem Caller.Owes.mono {s s' : Store} {caller : Caller} (h : caller.Owes s) (ages : s.Ages s') :
    caller.Owes s' := by
  cases caller with
  | acquiring => exact h
  | racingLeft | racingRight => exact ages.isCancelled _ h
  | releasing | settling | remaining => trivial

namespace Runtime

variable {σ σ' : Runtime} {run c : TokenId} {φ φ' : Fiber} {loop : Loop} {g g' : Group}
  {role : Strand.Role} {callers : List Caller}

/-- What holds when a strand of a run hands over a `canceled` that is from the loop with the token
`c`. -/
structure Owed (σ : Runtime) (run : TokenId) (role : Strand.Role) (callers : List Caller)
    (c : TokenId) : Prop where
  heard : σ.Heard run role callers c
  token : σ.store.isCancelled c = true
  caller : ∀ caller ∈ callers.head?, caller.Owes σ.store
  group : ∀ loop g, (run, ⟨loop, .gathering g⟩) ∈ σ.crew → σ.store.Parent g.token c →
    σ.store.isCancelled g.token = true

/-- A loop of the run has ended with `canceled`, and its token was cancelled before. -/
def Departed (σ : Runtime) (run c : TokenId) : Prop :=
  ∃ m ∈ σ.log, m.run = run ∧ m.event = .left c .canceled ∧ m.cancelled = true

/-- Every cancellation in a run has its cause. -/
structure Caused (σ : Runtime) (run : TokenId) : Prop where
  traced : σ.Traced run
  fibers : ∀ φ, (run, φ) ∈ σ.crew → φ.Caused σ.store
  hands : ∀ τ ∈ σ.strands, τ.run = run → ∀ callers, τ.state.handed? = some (callers, .canceled) →
    ∃ c, σ.Owed run τ.role callers c ∧ σ.Departed run c
  log : ∀ m ∈ σ.log, m.run = run → ∀ c, m.event = .left c .canceled → m.cancelled = true

theorem Step.departed (step : Step σ σ') (h : σ.Departed run c) : σ'.Departed run c := by
  obtain ⟨m, mem, own⟩ := h
  obtain ⟨new, log, -⟩ := step.move.enters
  exact ⟨m, log ▸ List.mem_append_right _ mem, own⟩

theorem Step.owed (h : Reachable σ) (step : Step σ σ') (owed : σ.Owed run role callers c) :
    σ'.Owed run role callers c where
  heard := step.heard h owed.heard
  token := step.ages.isCancelled c owed.token
  caller caller mem := (owed.caller caller mem).mono step.ages
  group loop g mem parent := by
    have known : c < σ.store.size := Forest.isCancelled_lt owed.token
    have before : σ.store.Parent g.token c :=
      ⟨(step.ages.young _ _ parent.derived).resolve_right fun fresh =>
        Nat.not_lt.mpr fresh.le known, parent.lt⟩
    cases step.group_origin mem with
    | old mem₀ => exact step.ages.isCancelled _ (owed.group loop g mem₀ before)
    | @gathered g₀ s₁ mem₀ ok =>
      have token := (Machine.gather_advances (congrArg Prod.fst ok)).1
      rw [token] at before ⊢
      exact step.ages.isCancelled _ (owed.group loop g₀ mem₀ before)
    | opened mem₀ opened =>
      exact (Nat.not_lt.mpr (Nat.le_trans opened.begun.token.le (Nat.le_of_lt parent.lt)) known).elim

/-- What a loop owes to its callers that ends when it is cancelled. -/
theorem Traced.owed (traced : σ.Traced run) (h : Reachable σ) (whole : ¬ σ.Failed run)
    {state : Strand.State} (mem : ⟨run, role, state⟩ ∈ σ.strands) {b : Berth}
    (inside : b ∈ Strand.berths ⟨run, role, state⟩) (room : b.room = Caller.innerRoom callers)
    (around : Caller.allBerths callers ⊆ Strand.berths ⟨run, role, state⟩)
    (cancelled : σ.store.isCancelled b.token = true) : σ.Owed run role callers b.token := by
  have inCompanies : Strand.company ⟨run, role, state⟩ ∈ σ.companies := Multiset.mem_map_of_mem _ mem
  refine ⟨h.heard mem inside room around, cancelled, fun caller head => ?_, fun loop g inCrew parent =>
    traced.task h whole inCrew (holds_of_berth inCompanies inside) parent cancelled⟩
  cases callers with
  | nil => cases head
  | cons caller' callers =>
    cases head
    cases caller with
    | acquiring loop use release =>
      have live := traced.apart h inCompanies rfl inside room
      exact Bool.noConfusion (live.symm.trans cancelled)
    | racingLeft loop tokens other | racingRight loop tokens other =>
      have racing := around (Multiset.mem_add.mpr (.inl (Multiset.mem_cons_self _ _)))
      exact traced.operand h inCompanies rfl racing inside room cancelled
    | releasing | settling | remaining => trivial

section

variable (h : Reachable σ) (caused : σ.Caused run)
  (unrefused : ∀ t, σ.store.joined? t ≠ some .aborted)

include h caused unrefused

/-- A group counts a cancellation only when the group is cancelled. -/
theorem Caused.gathered {s₁ : Store} (mem : (run, ⟨loop, .gathering g⟩) ∈ σ.crew)
    (ok : Machine.gather g (Machine.endedOperands g σ.store) σ.store = (.ok g', s₁))
    (canceled : g'.canceled = true) : σ.store.isCancelled g.token = true := by
  obtain before | ⟨y, ended, exit⟩ := Machine.gather_canceled ok canceled
  · exact caused.fibers _ mem before
  · obtain ⟨t, pending, found⟩ := Machine.mem_endedOperands ended
    obtain ⟨κ, inCompanies, rfl, l, inside⟩ := mem_crew_iff.mp mem
    have wait : t ∈ Post.waits (Berth.post ⟨l, .fiber ⟨loop, .gathering g⟩⟩) :=
      List.mem_map_of_mem pending
    obtain there | ⟨aborted, -⟩ := h.came inCompanies inside wait found exit
    · obtain ⟨c, owed, -⟩ := caused.hands _ there rfl [] rfl
      obtain ⟨-, ties⟩ := owed.heard
      have tied := ties _ (mem_parties.mpr ⟨κ, inCompanies, rfl⟩) _
        (Multiset.mem_map_of_mem Berth.post inside) wait
      cases tied with
      | gathering _ parent => exact owed.group loop g mem parent
    · exact (unrefused t aborted).elim

/-- What a loop goes on with has its cause before the step. -/
theorem Caused.goes (step : Step σ σ') (mem : (run, φ) ∈ σ.crew) (mem' : (run, φ') ∈ σ'.crew)
    (token : φ'.token = φ.token) : φ'.Caused σ.store := by
  have manned' := Reachable.manned (.tail h step)
  have stayed : φ' = φ → φ'.Caused σ.store := fun same => same ▸ caused.fibers φ mem
  by_cases group : ∃ g', φ'.doing = .gathering g'
  · obtain ⟨loop, _⟩ := φ'
    obtain ⟨g', rfl⟩ := group
    cases step.group_origin mem' with
    | old mem₀ => exact caused.fibers _ mem₀
    | gathered mem₀ ok =>
      intro canceled
      rw [(Machine.gather_advances (congrArg Prod.fst ok)).1]
      exact caused.gathered h unrefused mem₀ ok canceled
    | opened mem₀ opened =>
      intro canceled
      rw [opened.blank] at canceled
      cases canceled
  by_cases waiting : ∃ g, φ.doing = .gathering g
  · obtain ⟨loop, _⟩ := φ
    obtain ⟨g, rfl⟩ := waiting
    obtain same | acts | ⟨effect, other, -⟩ := step.deed h mem mem' token
    · exact stayed same
    · cases acts.deed with
      | plain plain => cases plain
      | gather => exact (group ⟨_, rfl⟩).elim
      | @gathered _ _ g' s₁ ok tokens none =>
        cases exit : g'.exit with
        | succeeded | errored => trivial
        | canceled =>
          -- The group is cancelled and has not failed, so its loop is cancelled.
          obtain ⟨failure, canceled⟩ : g'.failure = Option.none ∧ g'.canceled = true := by
            unfold Group.exit at exit
            split at exit
            · cases exit
            · next whole =>
              split at exit
              · next canceled => exact ⟨whole, canceled⟩
              · cases exit
          have whole : g.failure = Option.none := by
            by_contra failed
            exact (Machine.gather_failed ok failed).1 failure
          exact caused.traced.group h mem whole (caused.gathered h unrefused mem ok canceled)
    · cases other
  by_cases hosting : ∃ room, φ.Hosts room
  · obtain ⟨room, hosts⟩ := hosting
    obtain same | ⟨role, x, caller, callers, inStrands, rfl, rfl⟩ :=
      step.returns h mem hosts mem' token
    · exact stayed same
    · refine caller.after_caused (caused.fibers _ mem) fun canceled => ?_
      subst canceled
      obtain ⟨c, owed, -⟩ := caused.hands _ inStrands rfl _ rfl
      exact owed.caller caller rfl
  · obtain ⟨new, -, follow⟩ := step.move.follow h.manned mem
    cases follow with
    | stay there => exact stayed (congrArg Prod.snd (manned'.unique mem' there token))
    | @act φ'' ms acts there =>
      cases congrArg Prod.snd (manned'.unique mem' there (token.trans acts.token.symm))
      exact acts.caused (caused.fibers φ mem) (fun room hosts => hosting ⟨room, hosts⟩)
        (fun g doing => waiting ⟨g, doing⟩) fun g doing => group ⟨g, doing⟩
    | part parting gone => exact (gone (mem_badges.mpr ⟨_, mem', token⟩)).elim

end

/-- A fiber was there before with its token, or has just begun. -/
theorem Move.origin (move : Move σ σ') (mem : (run, φ') ∈ σ'.crew) :
    (∃ φ, (run, φ) ∈ σ.crew ∧ φ.token = φ'.token) ∨ ∃ effect, φ'.doing = .evaluating effect := by
  cases move with
  | idle crew => exact .inl ⟨φ', crew ▸ mem, rfl⟩
  | @act run₁ φ φ₁ ms born rest step fresh distinct numbered crew crew' =>
    rw [crew'] at mem
    obtain same | mem := Multiset.mem_cons.mp mem
    · cases same
      exact .inl ⟨φ, crew ▸ Multiset.mem_cons_self _ _, step.token.symm⟩
    obtain mem | mem := Multiset.mem_add.mp mem
    · obtain ⟨χ, inBorn, same⟩ := Multiset.mem_map.mp mem
      cases same
      obtain ⟨env, effect, rfl⟩ := (fresh _ inBorn).loop
      exact .inr ⟨effect, rfl⟩
    · exact .inl ⟨φ', crew ▸ Multiset.mem_cons_of_mem mem, rfl⟩
  | leave crew => exact .inl ⟨φ', crew ▸ Multiset.mem_cons_of_mem mem, rfl⟩
  | refuse closed aborted live crew => exact .inl ⟨φ', crew ▸ Multiset.mem_cons_of_mem mem, rfl⟩
  | lose crew => exact .inl ⟨φ', crew ▸ Multiset.mem_add.mpr (.inr mem), rfl⟩
  | begin fresh crew =>
    rw [crew] at mem
    obtain same | mem := Multiset.mem_cons.mp mem
    · cases same
      obtain ⟨env, effect, rfl⟩ := fresh.loop
      exact .inr ⟨effect, rfl⟩
    · exact .inl ⟨φ', mem, rfl⟩

/-- A loop that ends is at the end of its frames. -/
theorem Move.left (move : Move σ σ') {m : Moment} (mem : m ∈ σ'.log) {x : Exit}
    (event : m.event = .left c x) : m ∈ σ.log ∨ m = .of m.run σ.store (.left c x) ∧
      ∃ env, env.token = c ∧ (m.run, ⟨⟨env, []⟩, .unwinding x⟩) ∈ σ.crew := by
  have absent : ∀ (run : TokenId) (ms : List Event), (∀ e ∈ ms, ∀ c x, e ≠ .left c x) →
      σ'.log = ms.map (.of run σ.store) ++ σ.log → m ∈ σ.log := fun run ms none log => by
    rw [log] at mem
    obtain mem | mem := List.mem_append.mp mem
    · obtain ⟨e, inMarks, rfl⟩ := List.mem_map.mp mem
      exact (none e inMarks c x event).elim
    · exact mem
  cases move with
  | idle crew log | begin fresh crew log => exact .inl (log ▸ mem)
  | @act run₁ φ φ₁ ms born rest step fresh distinct numbered crew crew' log =>
    refine .inl (absent run₁ ms (fun e inMarks c x => ?_) log)
    rintro rfl
    cases step <;> simp at inMarks
  | @leave run₁ env y crew log =>
    rw [log] at mem
    obtain rfl | mem := List.mem_cons.mp mem
    · cases event
      exact .inr ⟨rfl, env, rfl, crew ▸ Multiset.mem_cons_self _ _⟩
    · exact .inl mem
  | @lose run₁ gone ms crew same failed marks log =>
    refine .inl (absent run₁ ms (fun e inMarks c x => ?_) log)
    rintro rfl
    obtain rfl | ⟨φ, point, -, -, rfl⟩ := marks <;> simp at inMarks
  | @refuse run₁ loop context closed aborted live crew log =>
    exact .inl (absent run₁ [.entered loop.env.token .shift] (by simp) log)

theorem Step.caused (h : Reachable σ) (caused : σ.Caused run) (discreet : Discreet σ σ')
    (whole' : ¬ σ'.Failed run) (unrefused : ∀ t, σ.store.joined? t ≠ some .aborted) :
    σ'.Caused run := by
  have step := discreet.step
  have whole : ¬ σ.Failed run := fun failed => whole' (step.failure failed)
  refine ⟨Step.traced h caused.traced discreet whole', fun φ' mem' => ?_,
    fun τ mem own callers hands => ?_, fun m mem own c event => ?_⟩
  · obtain ⟨φ, mem, token⟩ | ⟨effect, doing⟩ := step.move.origin mem'
    · exact (caused.goes h unrefused step mem mem' token.symm).mono step.ages
    · simp [Fiber.Caused, doing]
  · subst own
    have around : ∀ P : Multiset Berth, Caller.allBerths callers ⊆ P + Caller.allBerths callers :=
      fun P => Multiset.subset_of_le (Multiset.le_add_left _ _)
    obtain ⟨τ₀, mem₀, run, role, hands⟩ | ⟨env, mem₀, log⟩ |
      ⟨env, t, joined, mem₀, found, exit⟩ := step.hands mem hands
    · obtain ⟨c, owed, departed⟩ := caused.hands τ₀ mem₀ run callers hands
      exact ⟨c, role ▸ step.owed h owed, step.departed departed⟩
    · have inside : (⟨Caller.innerRoom callers, .fiber ⟨⟨env, []⟩, .unwinding .canceled⟩⟩ : Berth)
          ∈ Config.berths ⟨.unwind ⟨env, []⟩ .canceled, callers⟩ :=
        Multiset.mem_add.mpr (.inl (Multiset.mem_singleton_self _))
      have cancelled := caused.fibers _ (mem_crew_of_running mem₀ inside)
      refine ⟨env.token, step.owed h (caused.traced.owed h whole mem₀ inside rfl (around _)
        cancelled), ?_⟩
      exact ⟨.of τ.run σ.store (.left env.token .canceled), log ▸ List.mem_cons_self .., rfl, rfl,
        cancelled⟩
    · have inside : (⟨Caller.innerRoom callers, .away env t⟩ : Berth)
          ∈ Config.berths ⟨.resume (.shifted env t), callers⟩ :=
        Multiset.mem_add.mpr (.inl (Multiset.mem_singleton_self _))
      have inCompanies := Multiset.mem_map_of_mem Strand.company mem₀
      obtain ended | ⟨aborted, -⟩ :=
        h.came inCompanies inside (List.mem_singleton_self t) found exit
      · obtain ⟨c, owed, departed⟩ := caused.hands _ ended rfl [] rfl
        obtain ⟨-, ties⟩ := owed.heard
        have waiting := ties _ (mem_parties.mpr ⟨_, inCompanies, rfl⟩) _
          (Multiset.mem_map_of_mem Berth.post inside) (List.mem_singleton_self t)
        obtain ⟨rfl⟩ := waiting
        have cancelled : σ.store.isCancelled env.token = true := owed.token
        exact ⟨_, step.owed h (caused.traced.owed h whole mem₀ inside rfl (around _) cancelled),
          step.departed departed⟩
      · exact (unrefused t aborted).elim
  · obtain mem | ⟨same, env, token, inCrew⟩ := step.move.left mem event
    · exact caused.log m mem own c event
    · rw [same]
      subst own
      exact token ▸ caused.fibers _ inCrew

theorem Discreetly.caused (steps : Discreetly {} σ) (whole : ¬ σ.Failed run)
    (unrefused : ∀ t, σ.store.joined? t ≠ some .aborted) : σ.Caused run := by
  induction steps with
  | refl =>
    refine ⟨fun u held => ?_, by simp [crew_empty], by simp, by simp⟩
    obtain ⟨π, mem, -⟩ := held
    cases mem
  | @tail σ₁ σ₂ steps discreet ih =>
    have reach : Reachable σ₁ := Discreetly.steps steps
    have step := discreet.step
    have unrefused₁ : ∀ t, σ₁.store.joined? t ≠ some .aborted := fun t aborted =>
      unrefused t (step.joined? reach.booked aborted)
    have caused := ih (fun failed => whole (step.failure failed)) unrefused₁
    exact Step.caused reach caused discreet whole unrefused₁

/-! ## What ends with a cancellation -/

/-- Nothing in a run ends with `canceled` but what was cancelled itself. -/
structure Provoked (σ : Runtime) (run : TokenId) : Prop where
  /-- The run ends with `canceled` only after its token was cancelled. -/
  outcome : ⟨run, .root, .ended .canceled⟩ ∈ σ.strands → σ.Departed run run
  /-- So does the task of a parallel operand, or of the rest of a loop behind a shift.  Its token
  is that which whoever waits for the task has given it. -/
  task : ∀ t, ⟨run, .task t, .ended .canceled⟩ ∈ σ.strands →
    ∃ c, σ.Heard run (.task t) [] c ∧ σ.Departed run c
  /-- So does every other loop, that of an operand of a race among them. -/
  loops : ∀ m ∈ σ.log, m.run = run → ∀ c, m.event = .left c .canceled → m.cancelled = true
  /-- A race inside of a loop that is not cancelled does not come to `canceled`, whatever its
  operands do. -/
  race : ∀ loop doing, (run, ⟨loop, doing⟩) ∈ σ.crew →
    (∃ tokens, doing = .racing tokens) ∨ (∃ side x, doing = .settling side x) ∨
      (∃ side, doing = .remaining side) →
    σ.store.isCancelled loop.env.token = false → ∀ σ', Step σ σ' → ∀ loop' x,
      (run, ⟨loop', .unwinding x⟩) ∈ σ'.crew → loop'.env.token = loop.env.token → x ≠ .canceled
  /-- Nor does a parallel group, also if it has cancelled its operands. -/
  group : ∀ loop g, (run, ⟨loop, .gathering g⟩) ∈ σ.crew →
    σ.store.isCancelled loop.env.token = false → ∀ σ', Step σ σ' → ∀ loop' x,
      (run, ⟨loop', .unwinding x⟩) ∈ σ'.crew → loop'.env.token = loop.env.token →
        (∃ v, x = .succeeded v) ∨ ∃ e, x = .errored e

/-- A loop that is not cancelled does not come to `canceled`. -/
theorem Caused.unwinds (h : Reachable σ) (caused : σ.Caused run)
    (unrefused : ∀ t, σ.store.joined? t ≠ some .aborted) (step : Step σ σ')
    (mem : (run, φ) ∈ σ.crew) (live : σ.store.isCancelled φ.token = false) {x : Exit}
    (mem' : (run, ⟨loop, .unwinding x⟩) ∈ σ'.crew) (token : loop.env.token = φ.token) :
    x ≠ .canceled := by
  rintro rfl
  have cancelled : σ.store.isCancelled loop.env.token = true :=
    caused.goes h unrefused step mem mem' token
  rw [token] at cancelled
  exact Bool.noConfusion (live.symm.trans cancelled)

/-- A run in which nothing panics ends with `canceled` only after it was cancelled, and so does
everything in it.  Races and groups keep the cancellations of their operands to themselves. -/
theorem Discreetly.provoked (steps : Discreetly {} σ) (whole : ¬ σ.Failed run)
    (unrefused : ∀ t, σ.store.joined? t ≠ some .aborted) : σ.Provoked run := by
  have reach : Reachable σ := Discreetly.steps steps
  have caused := Discreetly.caused steps whole unrefused
  refine ⟨fun ended => ?_, fun t ended => ?_, caused.log, fun loop doing mem _ live σ' step loop' x
    mem' token => ?_, fun loop g mem live σ' step loop' x mem' token => ?_⟩
  · obtain ⟨c, owed, departed⟩ := caused.hands _ ended rfl [] rfl
    obtain rfl : c = run := owed.heard
    exact departed
  · obtain ⟨c, owed, departed⟩ := caused.hands _ ended rfl [] rfl
    exact ⟨c, owed.heard, departed⟩
  · exact caused.unwinds reach unrefused step mem live mem' token
  · have other := caused.unwinds reach unrefused step mem live mem' token
    cases x with
    | succeeded v => exact .inl ⟨v, rfl⟩
    | errored e => exact .inr ⟨e, rfl⟩
    | canceled => exact (other rfl).elim

/-- Where one loop is all there is, no token is known to the run loops only. -/
theorem Step.discreet {s : Store} {τ : Strand} {log : List Moment} {σ' : Runtime}
    (step : Step ⟨s, τ ::ₘ 0, log⟩ σ') (own : τ.posts.map Post.owned ≤ {[τ.run]}) :
    Discreet ⟨s, τ ::ₘ 0, log⟩ σ' := by
  refine ⟨step, ?_⟩
  rintro t - ⟨run, ⟨π, mem, rfl, p, inside, owned⟩, ne⟩
  obtain rfl := Multiset.mem_singleton.mp mem
  have single := Multiset.mem_of_le own (Multiset.mem_map_of_mem Post.owned inside)
  rw [Multiset.mem_singleton.mp single] at owned
  exact (ne (List.mem_singleton.mp owned)).elim

/-- A run that waits for ever ends when it is cancelled. -/
theorem provoked_never : ∃ σ, Discreetly {} σ ∧ ¬ σ.Failed 0 ∧
    (∀ t, σ.store.joined? t ≠ some .aborted) ∧ σ.Provoked 0 ∧
    ⟨0, .root, .ended .canceled⟩ ∈ σ.strands ∧ σ.Departed 0 0 := by
  let worker : Worker := ⟨1, "main"⟩
  let s₀ := (starting .never Context.home).store
  let s := s₀.cancel 0
  let s₁ := s.emit (.left 0 .canceled)
  let m : Moment := .of 0 s (.left 0 .canceled)
  let σ : Runtime := ⟨s₁, ⟨0, .root, .ended .canceled⟩ ::ₘ 0, [m]⟩
  have cancelled : s.isCancelled 0 = true := by
    change (s₀.cancel 0).tokens.isCancelled 0 = true
    rw [Store.tokens_cancel]
    exact Forest.isCancelled_cancel_self (Nat.zero_lt_succ 0)
  have began : Discreet {} (starting .never Context.home) := by
    refine ⟨.begin {} .never [] Context.home, ?_⟩
    rintro t - ⟨run, ⟨π, mem, -⟩, -⟩
    cases mem
  have polled : Discreet (starting .never Context.home)
      (lone s₀ ⟨.resume (.start outermost .never), []⟩ []) :=
    Step.discreet (.poll s₀ 0 [] 0 .root _) (le_of_eq rfl)
  have asked : Discreet (lone s₀ ⟨.resume (.start outermost .never), []⟩ [])
      (lone s ⟨.resume (.start outermost .never), []⟩ []) :=
    Step.discreet (.cancel _ 0) (le_of_eq rfl)
  have taken : Config.step worker ⟨.resume (.start outermost .never), []⟩ s
      = (.next ⟨.eval outermost .never, []⟩, s) := rfl
  have resumed : Discreet (lone s ⟨.resume (.start outermost .never), []⟩ [])
      (lone s ⟨.eval outermost .never, []⟩ []) :=
    Step.discreet (step_lone taken (List.nil_append _).symm rfl) (le_of_eq rfl)
  have point : Config.step worker ⟨.eval outermost .never, []⟩ s
      = (.next ⟨.unwind outermost .canceled, []⟩, s) := by
    simp [Config.step, Effect.never, Machine.evalStep, Machine.atPoint, outermost, cancelled,
      Machine.unwind]
  have refused : Discreet (lone s ⟨.eval outermost .never, []⟩ [])
      (lone s ⟨.unwind outermost .canceled, []⟩ []) :=
    Step.discreet (step_lone point (List.nil_append _).symm rfl) (le_of_eq rfl)
  have leaving : Config.step worker ⟨.unwind outermost .canceled, []⟩ s
      = (.next ⟨.leave .canceled, []⟩, s₁) := rfl
  have marked : s₁.trace = [.left 0 .canceled] ++ s.trace := rfl
  have left : Discreet (lone s ⟨.unwind outermost .canceled, []⟩ [])
      (lone s₁ ⟨.leave .canceled, []⟩ [m]) :=
    Step.discreet (step_lone leaving marked rfl) (le_of_eq rfl)
  have ending : Config.step worker ⟨.leave .canceled, []⟩ s₁ = (.ended .canceled, s₁) := rfl
  have ended : Discreet (lone s₁ ⟨.leave .canceled, []⟩ [m]) σ :=
    Step.discreet (.turn_eq ending (List.nil_append _).symm (List.nil_append _).symm)
      (Multiset.zero_le _)
  have steps : Discreetly {} σ := (((((((Relation.ReflTransGen.single began).tail polled).tail
    asked).tail resumed).tail refused).tail left).tail ended)
  have whole : ¬ σ.Failed 0 := by
    rintro ⟨τ, mem, -, failed⟩
    obtain rfl := Multiset.mem_singleton.mp mem
    exact failed
  have unrefused : ∀ t, σ.store.joined? t ≠ some .aborted := fun t aborted => by
    have none : σ.store.joined? t = none := by
      cases t <;> rfl
    exact Option.some_ne_none _ (aborted.symm.trans none)
  have inStrands : ⟨0, .root, .ended .canceled⟩ ∈ σ.strands := Multiset.mem_singleton_self _
  have provoked := Discreetly.provoked steps whole unrefused
  exact ⟨σ, steps, whole, unrefused, provoked, inStrands, provoked.outcome inStrands⟩

end Runtime

end EffectFibers
