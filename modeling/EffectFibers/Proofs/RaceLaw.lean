import EffectFibers.Proofs.Observation
import EffectFibers.Proofs.RacePolls

/-!
# The law of races

A race is decided by the operand that is ready first, and its exit is fixed from there on: the
other operand is cancelled, is polled until it has ended, and has no say any more.  An operand that
was cancelled by itself while the loop of the race was not decides nothing; it leaves the race to
the other one, which is not cancelled.

Both ends of this are put together here: what the polls of a race come to (`Race.Verdict`), and
what happens in the run around it under any schedule.

## Main statements

* `Runtime.Reachable.late_below`: what releases below a cancelled token are given.
* `Runtime.Reachable.race_law`: the law.
-/

namespace EffectFibers.Runtime

variable {σ σ' : Runtime} {run : TokenId} {loop : Loop} {tokens : RaceTokens} {side : Side}
  {x : Exit} {t : TokenId}

/-! ## Releases below a cancelled token -/

/-- As long as no part of a run has failed, a release that begins below a cancelled token of the
run is given `canceled`. -/
theorem Reachable.late_below (h : Reachable σ) (whole : ¬ σ.Failed run) (step : Step σ σ')
    (cancelled : σ.store.isCancelled t = true) (inner : run ≤ t) :
    ∃ new, σ'.log = new ++ σ.log ∧ ∀ m ∈ new, m.run = run → ∀ k b y,
      m.event = .releaseStarted k b y → σ.store.Below t k → y = .canceled := by
  obtain ⟨run', ms, log, marks⟩ := step.move.marks
  refine ⟨_, log, fun m mem own k b y event below => ?_⟩
  obtain ⟨e, inMarks, rfl⟩ := List.mem_map.mp mem
  obtain rfl : run' = run := own
  obtain rfl : e = .releaseStarted k b y := event
  obtain ⟨⟨_, φ⟩, inCrew, rfl, token⟩ := marks _ inMarks
  obtain rfl : k = φ.token := Option.some.inj token
  have now := h.cancelled_below whole (holds_of_mem_crew inCrew) inner below cancelled
  have late := Reachable.late (.tail h step)
  exact late _ (log ▸ List.mem_append_left _ mem) _ b y rfl now

/-! ## The decision -/

/-- What it means for a run that the race of a loop is won on a side. -/
structure Wins (σ σ' : Runtime) (run : TokenId) (loop : Loop) (tokens : RaceTokens) (side : Side)
    (x : Exit) : Prop where
  /-- The winner has ended with the exit, and was not cancelled by itself. -/
  winner : σ.Left (tokens.of side) x
  wins : ¬ Race.Forfeits loop σ.store x
  /-- The other operand is cancelled at that moment, and nothing else is. -/
  loser : Settles σ σ' run loop tokens side

theorem Step.wins (h : Reachable σ) (whole : ¬ σ.Failed run) (step : Step σ σ')
    (mem : (run, ⟨loop, .racing tokens⟩) ∈ σ.crew)
    (mem' : (run, ⟨loop, .settling side x⟩) ∈ σ'.crew) : Wins σ σ' run loop tokens side x := by
  refine ⟨?_, ?_, step.settles h whole mem mem' rfl⟩
  all_goals
    obtain same | ⟨role, side', x', other, callers, inStrands, same⟩ := step.decides h mem mem' rfl
    · cases same
    have decided : loop.decided σ.store side' x' = .settling side x :=
      (congrArg Fiber.doing same).symm
    unfold Loop.decided at decided
    split at decided
    · cases decided
  · cases decided
    obtain ⟨c, left, heard⟩ := h.handed inStrands rfl
    obtain rfl : c = tokens.of side := by cases side <;> exact heard
    exact left
  · next undecided =>
    cases decided
    rintro ⟨rfl, live⟩
    exact undecided (by simp [live, Outcome.isCanceled])

/-- From the decision on the exit of a race is fixed. -/
theorem Steps.exit_fixed (h : Reachable σ) (mem : (run, ⟨loop, .settling side x⟩) ∈ σ.crew)
    (steps : Steps σ σ') {φ : Fiber} (mem' : (run, φ) ∈ σ'.crew)
    (token : φ.token = loop.env.token) :
    NodeCourse run σ'.store loop (· = .settling side x) (· = side.tag x) φ := by
  refine Steps.node_course (fun _ => (· = .settling side x)) (fun _ => (· = side.tag x)) h mem rfl
    (fun _ _ _ _ _ => id) ?_ steps mem' token
  rintro σ₁ σ₂ steps step _ φ rfl mem₁ mem₂ token
  obtain same | acts | ⟨effect, other, -⟩ := step.deed (.trans h steps) mem₁ mem₂ token
  · exact .inl ⟨_, same, rfl⟩
  · obtain ⟨ms, acts⟩ := acts.step
    cases acts
    exact .inr ⟨_, rfl, rfl⟩
  · cases other

/-! ## The law -/

/-- What holds of the race of a loop that is not decided yet, however the run goes on. -/
structure RaceLaw (σ : Runtime) (run : TokenId) (loop : Loop) (tokens : RaceTokens) : Prop where
  /-- The poll in which the loop begins a race is the first poll of the operands. -/
  begins : ∀ worker callers s left right, ∃ c s' tokens,
    Config.step worker ⟨.eval loop (.race left right), callers⟩ s = (.next c, s') ∧
    ∀ z, Race.Goes loop callers worker c s' z ↔ Race.Poll loop ⟨worker, callers, s'⟩
      (.racing loop tokens (.start ⟨loop.env.withToken tokens.left, []⟩ left)
        (.start ⟨loop.env.withToken tokens.right, []⟩ right)) z
  /-- In each poll the left operand is polled first.  What the race comes to is determined by the
  polls of the operands: the one that is ready first decides. -/
  polls : ∀ left right turns z, Race.Polled loop (.racing loop tokens left right) turns z ↔
    Race.Verdict loop tokens left right turns z
  /-- The exit of the race is that of the winner.  It is given when the loser has ended, which is
  polled under a cancelled token from the decision on, and it is the same whatever that comes
  to. -/
  won : ∀ left right before turn later side x loser s z,
    Race.Decides turn side x loser s left right before → ¬ Race.Forfeits loop s x →
    Race.Polled loop (.racing loop tokens left right) (before ++ turn :: later) (.gives z) →
      z = side.tag x ∧ ∃ y, Race.Alone loser
        ({ turn with store := s.cancel (tokens.of side.other) } :: later) (.ended y)
  /-- An operand that was cancelled by itself leaves the race to the other one, and nothing is
  cancelled. -/
  left : ∀ left right before turn later side x other s z,
    Race.Decides turn side x other s left right before → Race.Forfeits loop s x →
    Race.Polled loop (.racing loop tokens left right) (before ++ turn :: later) (.gives z) →
      ∃ y, z = side.other.tag y ∧ Race.Alone other ({ turn with store := s } :: later) (.ended y)
  /-- When the race is won, the winner has ended and the loser is cancelled in the same step. -/
  wins : ∀ σ₁ σ₂ side x, Steps σ σ₁ → Step σ₁ σ₂ → ¬ σ₁.Failed run →
    (run, ⟨loop, .racing tokens⟩) ∈ σ₁.crew → (run, ⟨loop, .settling side x⟩) ∈ σ₂.crew →
      Wins σ₁ σ₂ run loop tokens side x
  /-- From then on the race waits for the loser, or its loop has gone on with that exit. -/
  exit : ∀ σ₁ σ₂ side x φ, Steps σ σ₁ → (run, ⟨loop, .settling side x⟩) ∈ σ₁.crew →
    Steps σ₁ σ₂ → (run, φ) ∈ σ₂.crew → φ.token = loop.env.token →
      NodeCourse run σ₂.store loop (· = .settling side x) (· = side.tag x) φ
  /-- Every release that begins below the token of a cancelled operand is given `canceled`. -/
  releases : ∀ σ₁ σ₂ side, Steps σ σ₁ → Step σ₁ σ₂ → ¬ σ₁.Failed run →
    σ₁.store.isCancelled (tokens.of side) = true → ∃ new, σ₂.log = new ++ σ₁.log ∧
      ∀ m ∈ new, m.run = run → ∀ k b y, m.event = .releaseStarted k b y →
        σ₁.store.Below (tokens.of side) k → y = .canceled

/-- The tokens of the operands are inside of the run. -/
theorem Reachable.race_inner (h : Reachable σ) (mem : (run, ⟨loop, .racing tokens⟩) ∈ σ.crew)
    (side : Side) : run ≤ tokens.of side := by
  obtain ⟨κ, inCompanies, rfl, l, here⟩ := mem_crew_iff.mp mem
  have parent := ((h.orderly κ inCompanies).tokens l loop tokens here).2 side
  exact Nat.le_trans (h.separate.rooted _ _ (holds_of_mem_crew mem)) (Nat.le_of_lt parent.lt)

/-- The operand of a race that is ready first wins it, unless it was cancelled by itself, and its
exit is that of the race whatever the other one does. -/
theorem Reachable.race_law (h : Reachable σ) (mem : (run, ⟨loop, .racing tokens⟩) ∈ σ.crew) :
    RaceLaw σ run loop tokens where
  begins _ _ _ _ _ := Race.exists_begins
  polls _ _ _ _ := Race.polled_iff
  won _ _ _ _ _ _ _ _ _ _ decides wins polled := decides.won wins polled
  left _ _ _ _ _ _ _ _ _ _ decides forfeits polled := decides.left forfeits polled
  wins _ _ _ _ steps step whole mem₁ mem₂ := step.wins (.trans h steps) whole mem₁ mem₂
  exit _ _ _ _ _ steps mem₁ later mem₂ token :=
    Steps.exit_fixed (.trans h steps) mem₁ later mem₂ token
  releases _ _ side steps step whole cancelled :=
    Reachable.late_below (.trans h steps) whole step cancelled (h.race_inner mem side)

/-- Both operands of a race are ready on the first poll, the right one with a failure.  The left
one has won by then. -/
theorem race_law_loser_fails : ∃ σ left right turn, Reachable σ ∧
    (0, ⟨outermost, .racing ⟨1, 2⟩⟩) ∈ σ.crew ∧ RaceLaw σ 0 outermost ⟨1, 2⟩ ∧
    turn.store = σ.store ∧
    Race.Polled outermost (.racing outermost ⟨1, 2⟩ left right) [turn]
      (.gives (.succeeded (.left .null))) ∧
    ∀ later z, Race.Polled outermost (.racing outermost ⟨1, 2⟩ left right) (turn :: later)
      (.gives z) → z = .succeeded (.left .null) := by
  obtain ⟨s₀, s, log, began, begins⟩ := race_begins (.pure .null) (.fail .null)
  let left : Segment := .start (operandLoop 1) (.pure .null)
  let right : Segment := .start (operandLoop 2) (.fail .null)
  let turn : Race.Occasion := ⟨⟨1, "main"⟩, [], s⟩
  have reach : Reachable (lone s _ log) := .tail began begins
  have inRace : outermost.berth .outer (.racing ⟨1, 2⟩)
      ∈ Config.berths ⟨.eval (operandLoop 1) (.pure .null),
        [.racingLeft outermost ⟨1, 2⟩ right]⟩ := by simp [Caller.berths]
  have law := reach.race_law (mem_crew_lone inRace)
  let ended := s.emit (.left 1 (.succeeded .null))
  have ready : Race.FirstReady turn left right .left (.succeeded .null) right ended :=
    .left ⟨by simp, 5, rfl⟩
  have wins : ¬ Race.Forfeits outermost ended (.succeeded .null) := by
    simp [Race.Forfeits]
  have alone : Race.Alone right [{ turn with store := ended.cancel 2 }] (.ended (.errored .null)) :=
    .last ⟨by simp, 5, rfl⟩
  refine ⟨_, left, right, turn, reach, mem_crew_lone inRace, law, rfl, ?_, fun later z polled => ?_⟩
  · exact (law.polls _ _ _ _).mpr (.won ready wins alone (.ended _))
  · exact (law.won _ _ [] _ later _ _ _ _ _ (.now ready) wins polled).1

/-- The left operand of a race is ready first: it goes on in a closed context, which cancels it.
Nothing else is cancelled, and the race is given the success of the right operand. -/
theorem race_law_operand_canceled : ∃ context s turn left right z, context.isOpen = false ∧
    Config.step turn.worker ⟨.eval outermost (.race (.shift context) (.pure (.bool true))), []⟩
        (starting (.race (.shift context) (.pure (.bool true))) Context.home).store
      = (.next ⟨.eval (operandLoop 1) (.shift context), [.racingLeft outermost ⟨1, 2⟩ right]⟩,
          turn.store) ∧
    Race.Decides turn .left .canceled right s left right [] ∧
    s.isCancelled outermost.env.token = false ∧
    Race.Polled outermost (.racing outermost ⟨1, 2⟩ left right) [turn] (.gives z) ∧
    z ≠ Side.tag .left .canceled := by
  let dead : Context := { thread := "dead", isOpen := false }
  let s₀ := (starting (.race (.shift dead) (.pure (.bool true))) Context.home).store
  let left : Segment := .start (operandLoop 1) (.shift dead)
  let right : Segment := .start (operandLoop 2) (.pure (.bool true))
  let turn : Race.Occasion := ⟨⟨1, "main"⟩, [], ((s₀.childToken 0).2.childToken 0).2⟩
  obtain ⟨s, polls, live⟩ : ∃ s, left.Polls turn.worker turn.store (.ended .canceled) s ∧
      s.isCancelled outermost.env.token = false := ⟨_, ⟨nofun, 10, rfl⟩, rfl⟩
  have ready : Race.FirstReady turn left right .left .canceled right s := .left polls
  have alone : Race.Alone right [{ turn with store := s }] (.ended (.succeeded (.bool true))) :=
    .last ⟨nofun, 5, rfl⟩
  have gives : Race.Polled outermost (.racing outermost ⟨1, 2⟩ left right) [turn]
      (.gives (.succeeded (.right (.bool true)))) :=
    Race.polled_iff.mpr (.left ready ⟨rfl, live⟩ alone (.ended _))
  exact ⟨dead, s, turn, left, right, _, rfl, rfl, .now ready, live, gives, nofun⟩

end EffectFibers.Runtime
