import EffectFibers.Proofs.Masks
import EffectFibers.Proofs.Trampoline

/-!
# Polls of a race

An operand of a race is a part of a fiber that is polled again and again until it has ended, each
time in the state that the world has by then.  Whatever waits for it, and whatever else the fiber
is made of, has no influence on what its poll comes to (`goes_onto_iff`).  So a poll of a race is
made up of polls of its operands: the left one is polled first, the right one if the left one can
only wait, and once an operand has ended the other one is all that is polled.

## Main definitions

* `Config.Polls`: what a poll comes to, whatever the bound on its steps.
* `Race.Polled`: what a sequence of polls of a race comes to, on the machine.
* `Race.Verdict`: what a race comes to by the polls of its operands.

## Main statements

* `Race.polled_iff`: the polls of a race are those of its operands, and its exit is that of the
  winner.
* `Race.Decides.won`: once a race is won its exit is fixed, whatever the loser does.
-/

namespace EffectFibers

/-! ## What a poll comes to -/

/-- The poll comes to a result. -/
def Config.Polls (worker : Worker) (c : Config) (s : Store) (r : Config.Result) (s' : Store) :
    Prop :=
  r ≠ .unfinished ∧ ∃ bound, c.run worker bound s = (r, s')

def Segment.Polls (worker : Worker) (g : Segment) (s : Store) (r : Config.Result) (s' : Store) :
    Prop :=
  Config.Polls worker ⟨.resume g, []⟩ s r s'

namespace Config

variable {worker : Worker} {c c₁ : Config} {s s₁ s' : Store} {r r' : Result}

theorem Polls.unique {s'' : Store} (h : c.Polls worker s r s') (h' : c.Polls worker s r' s'') :
    r' = r ∧ s'' = s' := by
  obtain ⟨done, bound, run⟩ := h
  obtain ⟨done', bound', run'⟩ := h'
  have most := run_of_le worker (Nat.le_max_left bound bound') run done
  have most' := run_of_le worker (Nat.le_max_right bound bound') run' done'
  exact Prod.mk.inj (most'.symm.trans most)

theorem polls_next (step : c.step worker s = (.next c₁, s₁)) :
    c.Polls worker s r s' ↔ c₁.Polls worker s₁ r s' := by
  refine and_congr_right fun done => ⟨?_, ?_⟩
  · rintro ⟨bound, run⟩
    cases bound with
    | zero =>
      cases run
      exact (done rfl).elim
    | succ bound => exact ⟨bound, by rwa [Config.run, step] at run⟩
  · rintro ⟨bound, run⟩
    exact ⟨bound + 1, by rwa [Config.run, step]⟩

/-- A poll that ends with a step comes to what the step comes to. -/
theorem polls_last {p : Progress} (step : c.step worker s = (p, s₁))
    (last : p.result ≠ .unfinished) : c.Polls worker s r s' ↔ r = p.result ∧ s' = s₁ := by
  have polls : c.Polls worker s p.result s₁ := ⟨last, 1, by rw [run_one, step]⟩
  exact ⟨fun h => polls.unique h, fun ⟨same, same'⟩ => same ▸ same' ▸ polls⟩

end Config

namespace Race

/-! ## Polls of a race -/

/-- What a poll of a race comes to. -/
inductive Upshot where
  | waits (segment : Segment)
  /-- The race is over, and its loop goes on with the exit. -/
  | gives (exit : Exit)
  | fails (fault : Fault)

/-- The poll goes on inside the race, until the race can only wait or is over.  Whoever waits for
the loop of the race is not reached before. -/
inductive Goes (loop : Loop) (callers : List Caller) (worker : Worker) :
    Config → Store → Upshot → Prop
  | step {c c₁ : Config} {s s₁ : Store} {o : Upshot} (deep : callers.length < c.callers.length)
      (step : c.step worker s = (.next c₁, s₁)) (rest : Goes loop callers worker c₁ s₁ o) :
      Goes loop callers worker c s o
  | fault {c : Config} {s s₁ : Store} {f : Fault} (deep : callers.length < c.callers.length)
      (step : c.step worker s = (.faulted f, s₁)) : Goes loop callers worker c s (.fails f)
  | waits (g : Segment) (s : Store) : Goes loop callers worker ⟨.park g, callers⟩ s (.waits g)
  | gives (x : Exit) (s : Store) :
      Goes loop callers worker ⟨.unwind loop x, callers⟩ s (.gives x)

/-- By whom a race is polled, for whom, and in which state of the world. -/
structure Occasion where
  worker : Worker
  callers : List Caller
  store : Store

/-- A poll of the race of a loop, which is waiting as a segment. -/
def Poll (loop : Loop) (turn : Occasion) (g : Segment) (o : Upshot) : Prop :=
  ∃ c s, Config.step turn.worker ⟨.resume g, turn.callers⟩ turn.store = (.next c, s) ∧
    Goes loop turn.callers turn.worker c s o

/-- A race is polled on one occasion after the other, as long as it waits. -/
inductive Polled (loop : Loop) : Segment → List Occasion → Upshot → Prop
  | last {g : Segment} {turn : Occasion} {o : Upshot} (poll : Poll loop turn g o) :
      Polled loop g [turn] o
  | wait {g g' : Segment} {turn : Occasion} {later : List Occasion} {o : Upshot}
      (poll : Poll loop turn g (.waits g')) (rest : Polled loop g' later o) :
      Polled loop g (turn :: later) o

/-! ## Polls of the operands -/

/-- On an occasion both operands can only wait, the left one and then the right one. -/
def BothWait (turn : Occasion) (left right left' right' : Segment) : Prop :=
  ∃ s s', left.Polls turn.worker turn.store (.parked left') s ∧
    right.Polls turn.worker s (.parked right') s'

/-- On an occasion the operand on a side is ready and the one polled before it is not. -/
inductive FirstReady (turn : Occasion) (left right : Segment) :
    Side → Exit → (other : Segment) → Store → Prop
  | left {x : Exit} {s : Store} (h : left.Polls turn.worker turn.store (.ended x) s) :
      FirstReady turn left right .left x right s
  | right {left' : Segment} {x : Exit} {s s' : Store}
      (h : left.Polls turn.worker turn.store (.parked left') s)
      (h' : right.Polls turn.worker s (.ended x) s') : FirstReady turn left right .right x left' s'

/-- On an occasion an operand panics before one is ready. -/
inductive Panics (turn : Occasion) (left right : Segment) : Fault → Prop
  | left {f : Fault} {s : Store} (h : left.Polls turn.worker turn.store (.faulted f) s) :
      Panics turn left right f
  | right {left' : Segment} {f : Fault} {s s' : Store}
      (h : left.Polls turn.worker turn.store (.parked left') s)
      (h' : right.Polls turn.worker s (.faulted f) s') : Panics turn left right f

/-- An operand is polled on one occasion after the other, as long as it waits. -/
inductive Alone : Segment → List Occasion → Config.Result → Prop
  | last {g : Segment} {turn : Occasion} {r : Config.Result} {s : Store}
      (poll : g.Polls turn.worker turn.store r s) : Alone g [turn] r
  | wait {g g' : Segment} {turn : Occasion} {later : List Occasion} {r : Config.Result} {s : Store}
      (poll : g.Polls turn.worker turn.store (.parked g') s) (rest : Alone g' later r) :
      Alone g (turn :: later) r

/-- An operand that was cancelled by itself leaves the race to the other one. -/
def Forfeits (loop : Loop) (s : Store) (x : Exit) : Prop :=
  x = .canceled ∧ s.isCancelled loop.env.token = false

/-- How a race goes on with the only operand that is left. -/
inductive Stage where
  | settling (winner : Side) (exit : Exit)
  | remaining (side : Side)

namespace Stage

def caller (loop : Loop) : Stage → Caller
  | settling winner x => .settling loop winner x
  | remaining side => .remaining loop side

def around (loop : Loop) : Stage → Segment → Segment
  | settling winner x => .settling loop winner x
  | remaining side => .remaining loop side

/-- The exit of the race when the operand that is left has ended with the given one. -/
def gives : Stage → Exit → Exit
  | settling winner x, _ => winner.tag x
  | remaining side, y => side.tag y

/-- What the race comes to when its last operand does. -/
inductive Passes (loop : Loop) (stage : Stage) : Config.Result → Upshot → Prop
  | ended (y : Exit) : Passes loop stage (.ended y) (.gives (stage.gives y))
  | parked (g : Segment) : Passes loop stage (.parked g) (.waits (stage.around loop g))
  | faulted (f : Fault) : Passes loop stage (.faulted f) (.fails f)

end Stage

/-- What a race comes to by the polls of its operands.  The first one that is ready, the left one
before the right one, wins, unless it was cancelled by itself; the other one is cancelled and is
polled until it has ended, and its exit is dropped. -/
inductive Verdict (loop : Loop) (tokens : RaceTokens) :
    (left right : Segment) → List Occasion → Upshot → Prop
  | waits {l r l' r' : Segment} {turn : Occasion} (wait : BothWait turn l r l' r') :
      Verdict loop tokens l r [turn] (.waits (.racing loop tokens l' r'))
  | later {l r l' r' : Segment} {turn : Occasion} {turns : List Occasion} {z : Upshot}
      (wait : BothWait turn l r l' r') (rest : Verdict loop tokens l' r' turns z) :
      Verdict loop tokens l r (turn :: turns) z
  | fails {l r : Segment} {turn : Occasion} {f : Fault} (panics : Panics turn l r f) :
      Verdict loop tokens l r [turn] (.fails f)
  | won {l r loser : Segment} {turn : Occasion} {turns : List Occasion} {side : Side} {x : Exit}
      {s : Store} {res : Config.Result} {z : Upshot} (ready : FirstReady turn l r side x loser s)
      (wins : ¬ Forfeits loop s x)
      (alone : Alone loser ({ turn with store := s.cancel (tokens.of side.other) } :: turns) res)
      (passes : (Stage.settling side x).Passes loop res z) :
      Verdict loop tokens l r (turn :: turns) z
  | left {l r other : Segment} {turn : Occasion} {turns : List Occasion} {side : Side} {x : Exit}
      {s : Store} {res : Config.Result} {z : Upshot} (ready : FirstReady turn l r side x other s)
      (forfeits : Forfeits loop s x) (alone : Alone other ({ turn with store := s } :: turns) res)
      (passes : (Stage.remaining side.other).Passes loop res z) :
      Verdict loop tokens l r (turn :: turns) z

/-! ## The poll of a part of a race -/

section

variable {loop : Loop} {callers : List Caller} {worker : Worker} {caller : Caller} {s s' : Store}
  {z : Upshot} {tokens : RaceTokens}

/-- What is left of the poll when the part inside the innermost caller has come to something. -/
inductive After (loop : Loop) (callers : List Caller) (worker : Worker) (caller : Caller) :
    Config.Result → Store → Upshot → Prop
  | ended {x : Exit} {s : Store} {z : Upshot}
      (h : Goes loop callers worker ⟨.leave x, caller :: callers⟩ s z) :
      After loop callers worker caller (.ended x) s z
  | parked {g : Segment} {s : Store} {z : Upshot}
      (h : Goes loop callers worker ⟨.park g, caller :: callers⟩ s z) :
      After loop callers worker caller (.parked g) s z
  | faulted (f : Fault) (s : Store) : After loop callers worker caller (.faulted f) s (.fails f)

theorem onto_deep (c : Config) :
    callers.length < (c.onto (caller :: callers)).callers.length := by
  simp [Config.onto]
  omega

theorem goes_onto_end {c : Config} (done : c.AtEnd) :
    Goes loop callers worker (c.onto (caller :: callers)) s z ↔
      ∃ r s', c.Polls worker s r s' ∧ After loop callers worker caller r s' z := by
  obtain ⟨focus, cs⟩ := c
  obtain ⟨rfl, ⟨x, rfl⟩ | ⟨g, rfl⟩⟩ := done
  · have polls : Config.Polls worker ⟨.leave x, []⟩ s (.ended x) s := ⟨nofun, 1, rfl⟩
    refine ⟨fun h => ⟨_, _, polls, .ended h⟩, fun ⟨r, s', polls', after⟩ => ?_⟩
    obtain ⟨rfl, rfl⟩ := polls.unique polls'
    cases after with
    | ended h => exact h
  · have polls : Config.Polls worker ⟨.park g, []⟩ s (.parked g) s := ⟨nofun, 1, rfl⟩
    refine ⟨fun h => ⟨_, _, polls, .parked h⟩, fun ⟨r, s', polls', after⟩ => ?_⟩
    obtain ⟨rfl, rfl⟩ := polls.unique polls'
    cases after with
    | parked h => exact h

/-- The poll of a part inside a race does not depend on what is around. -/
theorem goes_onto_iff {c : Config} : Goes loop callers worker (c.onto (caller :: callers)) s z ↔
    ∃ r s', c.Polls worker s r s' ∧ After loop callers worker caller r s' z := by
  constructor
  · intro h
    generalize whole : c.onto (caller :: callers) = c' at h
    induction h generalizing c with
    | waits g s | gives x s =>
      have deep : callers.length < (c.onto (caller :: callers)).callers.length := onto_deep c
      rw [whole] at deep
      exact (Nat.lt_irrefl _ deep).elim
    | @step c' c₁ s s₁ z deep step rest ih =>
      subst whole
      by_cases done : c.AtEnd
      · exact (goes_onto_end done).mp (.step deep step rest)
      · have onto := Config.step_onto done worker (caller :: callers) s
        generalize inner : c.step worker s = p at onto
        rw [step] at onto
        cases onto with
        | next f cs s₁ =>
          obtain ⟨r, s', polls, after⟩ := @ih ⟨f, cs⟩ rfl
          exact ⟨r, s', (Config.polls_next inner).mpr polls, after⟩
    | @fault c' s s₁ f deep step =>
      subst whole
      by_cases done : c.AtEnd
      · exact (goes_onto_end done).mp (.fault deep step)
      · have onto := Config.step_onto done worker (caller :: callers) s
        generalize inner : c.step worker s = p at onto
        rw [step] at onto
        cases onto with
        | faulted f s₁ =>
          exact ⟨.faulted f, s₁, (Config.polls_last inner nofun).mpr ⟨rfl, rfl⟩, .faulted f s₁⟩
  · rintro ⟨r, s', ⟨finished, bound, run⟩, after⟩
    induction bound generalizing c s with
    | zero =>
      cases run
      exact (finished rfl).elim
    | succ bound ih =>
      by_cases done : c.AtEnd
      · exact (goes_onto_end done).mpr ⟨r, s', ⟨finished, _, run⟩, after⟩
      · have onto := Config.step_onto done worker (caller :: callers) s
        generalize outer : (c.onto (caller :: callers)).step worker s = q at onto
        generalize inner : c.step worker s = p at onto
        rw [Config.run, inner] at run
        cases onto with
        | next f cs s₁ => exact .step (onto_deep c) outer (ih run)
        | faulted f s₁ =>
          cases run
          cases after with
          | faulted => exact .fault (onto_deep c) outer

/-- A step of a poll inside a race. -/
theorem goes_step {c c₁ : Config} (deep : callers.length < c.callers.length)
    (step : c.step worker s = (.next c₁, s')) :
    Goes loop callers worker c s z ↔ Goes loop callers worker c₁ s' z := by
  refine ⟨fun h => ?_, .step deep step⟩
  cases h with
  | step _ step' rest =>
    cases step.symm.trans step'
    exact rest
  | fault _ step' => cases step.symm.trans step'
  | waits | gives => exact (Nat.lt_irrefl _ deep).elim

theorem goes_park {g : Segment} :
    Goes loop callers worker ⟨.park g, callers⟩ s z ↔ z = .waits g := by
  refine ⟨fun h => ?_, fun same => same ▸ .waits g s⟩
  cases h with
  | step deep | fault deep => exact (Nat.lt_irrefl _ deep).elim
  | waits => rfl

theorem goes_unwind {x : Exit} :
    Goes loop callers worker ⟨.unwind loop x, callers⟩ s z ↔ z = .gives x := by
  refine ⟨fun h => ?_, fun same => same ▸ .gives x s⟩
  cases h with
  | step deep | fault deep => exact (Nat.lt_irrefl _ deep).elim
  | gives => rfl

end

/-! ## The only operand that is left -/

section

variable {loop : Loop} {callers : List Caller} {worker : Worker} {s : Store} {z : Upshot}
  {stage : Stage} {g : Segment} {turn : Occasion} {turns : List Occasion}

theorem Stage.after_iff {r : Config.Result} :
    After loop callers worker (stage.caller loop) r s z ↔ stage.Passes loop r z := by
  have deep : callers.length < (stage.caller loop :: callers).length := Nat.lt_succ_self _
  have ended (y : Exit) : Goes loop callers worker ⟨.leave y, stage.caller loop :: callers⟩ s z ↔
      z = .gives (stage.gives y) := by
    cases stage <;> exact (goes_step deep rfl).trans goes_unwind
  have parked (g : Segment) : Goes loop callers worker ⟨.park g, stage.caller loop :: callers⟩ s z ↔
      z = .waits (stage.around loop g) := by
    cases stage <;> exact (goes_step deep rfl).trans goes_park
  constructor
  · intro after
    cases after with
    | ended h => exact (ended _).mp h ▸ .ended _
    | parked h => exact (parked _).mp h ▸ .parked _
    | faulted f => exact .faulted f
  · intro passes
    cases passes with
    | ended y => exact .ended ((ended y).mpr rfl)
    | parked g => exact .parked ((parked g).mpr rfl)
    | faulted f => exact .faulted f s

theorem Stage.goes_iff :
    Goes loop callers worker ⟨.resume g, stage.caller loop :: callers⟩ s z ↔
      ∃ r s', g.Polls worker s r s' ∧ stage.Passes loop r z :=
  (@goes_onto_iff loop callers worker (stage.caller loop) s z ⟨.resume g, []⟩).trans
    (exists₂_congr fun _ _ => and_congr_right fun _ => Stage.after_iff)

theorem Stage.poll_iff : Poll loop turn (stage.around loop g) z ↔
    ∃ r s, g.Polls turn.worker turn.store r s ∧ stage.Passes loop r z := by
  rw [← @Stage.goes_iff loop turn.callers]
  constructor
  · rintro ⟨c, s, step, goes⟩
    cases stage <;>
      · cases step
        exact goes
  · intro goes
    cases stage <;> exact ⟨_, _, rfl, goes⟩

/-- A race with one operand left waits as long as that one does. -/
theorem Stage.polled_iff :
    Polled loop (stage.around loop g) turns z ↔ ∃ r, Alone g turns r ∧ stage.Passes loop r z := by
  constructor
  · intro h
    generalize whole : stage.around loop g = g' at h
    induction h generalizing g with
    | last poll =>
      subst whole
      obtain ⟨r, s, polls, passes⟩ := Stage.poll_iff.mp poll
      exact ⟨r, .last polls, passes⟩
    | wait poll rest ih =>
      subst whole
      obtain ⟨r, s, polls, passes⟩ := Stage.poll_iff.mp poll
      cases passes with
      | parked g₁ =>
        obtain ⟨r, alone, passes⟩ := ih rfl
        exact ⟨r, .wait polls alone, passes⟩
  · rintro ⟨r, alone, passes⟩
    induction alone with
    | last poll => exact .last (Stage.poll_iff.mpr ⟨_, _, poll, passes⟩)
    | wait poll rest ih =>
      exact .wait (Stage.poll_iff.mpr ⟨_, _, poll, .parked _⟩) (ih passes)

end

/-! ## Both operands -/

section

variable {loop : Loop} {tokens : RaceTokens} {callers : List Caller} {worker : Worker}
  {s s' : Store} {z : Upshot} {l r l' r' other : Segment} {side : Side} {x : Exit}
  {turn : Occasion} {turns : List Occasion}

/-- How a race goes on when an operand is ready first, and in which state of the world. -/
def onward (loop : Loop) (tokens : RaceTokens) (side : Side) (x : Exit) (s : Store) :
    Stage × Store :=
  if x.isCanceled && !s.isCancelled loop.env.token then (.remaining side.other, s)
  else (.settling side x, s.cancel (tokens.of side.other))

theorem onward_of_wins (wins : ¬ Forfeits loop s x) :
    onward loop tokens side x s = (.settling side x, s.cancel (tokens.of side.other)) := by
  refine if_neg fun decided => wins ?_
  simpa [Forfeits, Outcome.isCanceled_iff] using decided

theorem onward_of_forfeits (forfeits : Forfeits loop s x) :
    onward loop tokens side x s = (.remaining side.other, s) :=
  if_pos (by simpa [Forfeits, Outcome.isCanceled_iff] using forfeits)

theorem settle_eq : Machine.settle loop tokens side x other callers s
    = (.next ⟨.resume other, (onward loop tokens side x s).1.caller loop :: callers⟩,
      (onward loop tokens side x s).2) := by
  unfold Machine.settle onward
  split <;> rfl

/-- What a race comes to by an operand that is left when the other one is ready. -/
def Onward (loop : Loop) (tokens : RaceTokens) (worker : Worker) (side : Side) (x : Exit)
    (other : Segment) (s : Store) (z : Upshot) : Prop :=
  ∃ r s', other.Polls worker (onward loop tokens side x s).2 r s' ∧
    (onward loop tokens side x s).1.Passes loop r z

theorem goes_settle {c : Config} (deep : callers.length < c.callers.length)
    (step : c.step worker s = Machine.settle loop tokens side x other callers s) :
    Goes loop callers worker c s z ↔ Onward loop tokens worker side x other s z :=
  (goes_step deep (step.trans settle_eq)).trans Stage.goes_iff

/-- What a poll of a race with two operands comes to. -/
inductive Round (loop : Loop) (tokens : RaceTokens) (turn : Occasion) (l r : Segment) :
    Upshot → Prop
  | waits {l' r' : Segment} (wait : BothWait turn l r l' r') :
      Round loop tokens turn l r (.waits (.racing loop tokens l' r'))
  | fails {f : Fault} (panics : Panics turn l r f) : Round loop tokens turn l r (.fails f)
  | ready {side : Side} {x : Exit} {other : Segment} {s : Store} {z : Upshot}
      (ready : FirstReady turn l r side x other s)
      (onward : Onward loop tokens turn.worker side x other s z) : Round loop tokens turn l r z

/-- In a poll of the race the left operand is polled first. -/
theorem poll_iff : Poll loop turn (.racing loop tokens l r) z ↔ Round loop tokens turn l r z := by
  have deep (caller : Caller) : turn.callers.length < (caller :: turn.callers).length :=
    Nat.lt_succ_self _
  have begins : Poll loop turn (.racing loop tokens l r) z ↔
      Goes loop turn.callers turn.worker ⟨.resume l, .racingLeft loop tokens r :: turn.callers⟩
        turn.store z := by
    refine ⟨fun ⟨c, s, step, goes⟩ => ?_, fun goes => ⟨_, _, rfl, goes⟩⟩
    cases step
    exact goes
  have left := @goes_onto_iff loop turn.callers turn.worker (.racingLeft loop tokens r) turn.store z
    ⟨.resume l, []⟩
  have right (l' : Segment) (s : Store) := @goes_onto_iff loop turn.callers turn.worker
    (.racingRight loop tokens l') s z ⟨.resume r, []⟩
  refine begins.trans (left.trans ⟨?_, ?_⟩)
  · rintro ⟨res, s, polls, after⟩
    cases after with
    | ended h => exact .ready (.left polls) ((goes_settle (deep _) rfl).mp h)
    | faulted f => exact .fails (.left polls)
    | @parked l' s _ h =>
      obtain ⟨res, s', polls', after⟩ := (right l' s).mp ((goes_step (deep _) rfl).mp h)
      cases after with
      | ended h => exact .ready (.right polls polls') ((goes_settle (deep _) rfl).mp h)
      | faulted f => exact .fails (.right polls polls')
      | parked h =>
        obtain rfl := goes_park.mp ((goes_step (deep _) rfl).mp h)
        exact .waits ⟨s, s', polls, polls'⟩
  · intro round
    have turnsTo {l' : Segment} {s : Store} (polls : l.Polls turn.worker turn.store (.parked l') s)
        (h : ∃ res s', r.Polls turn.worker s res s' ∧
          After loop turn.callers turn.worker (.racingRight loop tokens l') res s' z) :
        ∃ res s, l.Polls turn.worker turn.store res s ∧
          After loop turn.callers turn.worker (.racingLeft loop tokens r) res s z :=
      ⟨_, s, polls, .parked ((goes_step (deep _) rfl).mpr ((right l' s).mpr h))⟩
    cases round with
    | waits wait =>
      obtain ⟨s, s', polls, polls'⟩ := wait
      exact turnsTo polls
        ⟨_, s', polls', .parked ((goes_step (deep _) rfl).mpr (goes_park.mpr rfl))⟩
    | fails panics =>
      cases panics with
      | left polls => exact ⟨_, _, polls, .faulted _ _⟩
      | right polls polls' => exact turnsTo polls ⟨_, _, polls', .faulted _ _⟩
    | ready ready onward =>
      cases ready with
      | left polls => exact ⟨_, _, polls, .ended ((goes_settle (deep _) rfl).mpr onward)⟩
      | right polls polls' =>
        exact turnsTo polls ⟨_, _, polls', .ended ((goes_settle (deep _) rfl).mpr onward)⟩

/-- The poll in which a race begins is the first poll of its operands. -/
theorem exists_begins {left right : Effect} : ∃ c s' tokens,
    Config.step worker ⟨.eval loop (.race left right), callers⟩ s = (.next c, s') ∧
    ∀ z, Goes loop callers worker c s' z ↔ Poll loop ⟨worker, callers, s'⟩
      (.racing loop tokens (.start ⟨loop.env.withToken tokens.left, []⟩ left)
        (.start ⟨loop.env.withToken tokens.right, []⟩ right)) z := by
  let first := s.childToken loop.env.token
  let second := first.2.childToken loop.env.token
  let operand (t : TokenId) : Loop := ⟨loop.env.withToken t, []⟩
  let racing : Caller :=
    .racingLeft loop ⟨first.1, second.1⟩ (.start (operand second.1) right)
  have taken (z : Upshot) : Goes loop callers worker ⟨.resume (.start (operand first.1) left),
      racing :: callers⟩ second.2 z ↔
      Goes loop callers worker ⟨.eval (operand first.1) left, racing :: callers⟩ second.2 z :=
    goes_step (Nat.lt_succ_self _) rfl
  refine ⟨⟨.eval (operand first.1) left, racing :: callers⟩, second.2, ⟨first.1, second.1⟩, rfl,
    fun z => ⟨fun goes => ⟨_, _, rfl, (taken z).mpr goes⟩, ?_⟩⟩
  rintro ⟨c, s, step, goes⟩
  cases step
  exact (taken z).mp goes

theorem Verdict.of_ready {res : Config.Result} (ready : FirstReady turn l r side x other s)
    (alone : Alone other ({ turn with store := (onward loop tokens side x s).2 } :: turns) res)
    (passes : (onward loop tokens side x s).1.Passes loop res z) :
    Verdict loop tokens l r (turn :: turns) z := by
  by_cases forfeits : Forfeits loop s x
  · rw [onward_of_forfeits forfeits] at alone passes
    exact .left ready forfeits alone passes
  · rw [onward_of_wins forfeits] at alone passes
    exact .won ready forfeits alone passes

theorem Polled.of_ready {res : Config.Result} (ready : FirstReady turn l r side x other s)
    (alone : Alone other ({ turn with store := (onward loop tokens side x s).2 } :: turns) res)
    (passes : (onward loop tokens side x s).1.Passes loop res z) :
    Polled loop (.racing loop tokens l r) (turn :: turns) z := by
  have poll {res : Config.Result} {s' : Store} {z : Upshot}
      (polls : other.Polls turn.worker (onward loop tokens side x s).2 res s')
      (passes : (onward loop tokens side x s).1.Passes loop res z) :
      Poll loop turn (.racing loop tokens l r) z :=
    poll_iff.mpr (.ready ready ⟨res, s', polls, passes⟩)
  cases alone with
  | last polls => exact .last (poll polls passes)
  | wait polls alone =>
    exact .wait (poll polls (.parked _)) (Stage.polled_iff.mpr ⟨res, alone, passes⟩)

/-- What a race comes to is determined by the polls of its operands. -/
theorem polled_iff :
    Polled loop (.racing loop tokens l r) turns z ↔ Verdict loop tokens l r turns z := by
  constructor
  · intro h
    generalize whole : Segment.racing loop tokens l r = g at h
    induction h generalizing l r with
    | last poll =>
      subst whole
      cases poll_iff.mp poll with
      | waits wait => exact .waits wait
      | fails panics => exact .fails panics
      | ready ready onward =>
        obtain ⟨res, s', polls, passes⟩ := onward
        exact .of_ready ready (.last polls) passes
    | wait poll rest ih =>
      subst whole
      cases poll_iff.mp poll with
      | waits wait => exact .later wait (ih rfl)
      | ready ready onward =>
        obtain ⟨res, s', polls, passes⟩ := onward
        cases passes with
        | parked g =>
          obtain ⟨res, alone, passes⟩ := Stage.polled_iff.mp rest
          exact .of_ready ready (.wait polls alone) passes
  · intro h
    induction h with
    | waits wait => exact .last (poll_iff.mpr (.waits wait))
    | later wait rest ih => exact .wait (poll_iff.mpr (.waits wait)) ih
    | fails panics => exact .last (poll_iff.mpr (.fails panics))
    | won ready wins alone passes =>
      exact .of_ready ready (by rwa [onward_of_wins wins]) (by rwa [onward_of_wins wins])
    | left ready forfeits alone passes =>
      exact .of_ready ready (by rwa [onward_of_forfeits forfeits])
        (by rwa [onward_of_forfeits forfeits])

/-! ## The decision -/

theorem BothWait.unique {l₁ r₁ : Segment} (h : BothWait turn l r l' r')
    (h' : BothWait turn l r l₁ r₁) : l₁ = l' ∧ r₁ = r' := by
  obtain ⟨s, s', left, right⟩ := h
  obtain ⟨s₁, s₁', left', right'⟩ := h'
  obtain ⟨same, rfl⟩ := left.unique left'
  obtain ⟨same', -⟩ := right.unique right'
  cases same
  cases same'
  exact ⟨rfl, rfl⟩

/-- If the left operand can only wait, the right one is polled in what it leaves. -/
theorem right_unique {s₁ s₂ s₂' : Store} {l₁ : Segment} {res res' : Config.Result}
    (left : l.Polls worker s (.parked l') s') (right : r.Polls worker s' res s₂)
    (left' : l.Polls worker s (.parked l₁) s₁) (right' : r.Polls worker s₁ res' s₂') :
    l₁ = l' ∧ res' = res ∧ s₂' = s₂ := by
  obtain ⟨same, rfl⟩ := left.unique left'
  cases same
  exact ⟨rfl, right.unique right'⟩

theorem FirstReady.not_wait (h : FirstReady turn l r side x other s) :
    ¬ BothWait turn l r l' r' := by
  rintro ⟨s₁, s₂, left, right⟩
  cases h with
  | left ended => cases (ended.unique left).1
  | right parked ended => cases (right_unique parked ended left right).2.1

theorem FirstReady.not_panics {f : Fault} (h : FirstReady turn l r side x other s) :
    ¬ Panics turn l r f := by
  intro panics
  cases h with
  | left ended =>
    cases panics with
    | left faulted => cases (ended.unique faulted).1
    | right parked faulted => cases (ended.unique parked).1
  | right parked ended =>
    cases panics with
    | left faulted => cases (parked.unique faulted).1
    | right parked' faulted => cases (right_unique parked ended parked' faulted).2.1

theorem FirstReady.unique {side' : Side} {x' : Exit} {other' : Segment}
    (h : FirstReady turn l r side x other s) (h' : FirstReady turn l r side' x' other' s') :
    side' = side ∧ x' = x ∧ other' = other ∧ s' = s := by
  cases h with
  | left ended =>
    cases h' with
    | left ended' =>
      obtain ⟨same, rfl⟩ := ended.unique ended'
      cases same
      exact ⟨rfl, rfl, rfl, rfl⟩
    | right parked ended' => cases (ended.unique parked).1
  | right parked ended =>
    cases h' with
    | left ended' => cases (parked.unique ended').1
    | right parked' ended' =>
      obtain ⟨rfl, same, rfl⟩ := right_unique parked ended parked' ended'
      cases same
      exact ⟨rfl, rfl, rfl, rfl⟩

/-- Both operands wait on the earlier occasions, and on the given one an operand is ready first. -/
inductive Decides (turn : Occasion) (side : Side) (x : Exit) (other : Segment) (s : Store) :
    (left right : Segment) → (before : List Occasion) → Prop
  | now {l r : Segment} (ready : FirstReady turn l r side x other s) :
      Decides turn side x other s l r []
  | later {l r l' r' : Segment} {first : Occasion} {before : List Occasion}
      (wait : BothWait first l r l' r') (rest : Decides turn side x other s l' r' before) :
      Decides turn side x other s l r (first :: before)

/-- What a race comes to after the decision is up to the decision and the operand that is left. -/
theorem Decides.verdict {before later : List Occasion}
    (h : Decides turn side x other s l r before)
    (verdict : Verdict loop tokens l r (before ++ turn :: later) z) :
    ∃ res, Alone other ({ turn with store := (onward loop tokens side x s).2 } :: later) res ∧
      (onward loop tokens side x s).1.Passes loop res z := by
  induction h with
  | now ready =>
    cases verdict with
    | waits wait | later wait => exact (ready.not_wait wait).elim
    | fails panics => exact (ready.not_panics panics).elim
    | won ready' wins alone passes =>
      obtain ⟨rfl, rfl, rfl, rfl⟩ := ready.unique ready'
      exact ⟨_, by rwa [onward_of_wins wins], by rwa [onward_of_wins wins]⟩
    | left ready' forfeits alone passes =>
      obtain ⟨rfl, rfl, rfl, rfl⟩ := ready.unique ready'
      exact ⟨_, by rwa [onward_of_forfeits forfeits], by rwa [onward_of_forfeits forfeits]⟩
  | @later l r l' r' first before wait rest ih =>
    obtain ⟨turns, eq⟩ : ∃ turns, turns = before ++ turn :: later := ⟨_, rfl⟩
    rw [List.cons_append, ← eq] at verdict
    cases verdict with
    | waits | fails => simp at eq
    | won ready | left ready => exact (ready.not_wait wait).elim
    | later wait' verdict =>
      obtain ⟨rfl, rfl⟩ := wait.unique wait'
      exact ih (eq ▸ verdict)

/-- Once a race is won its exit is that of the winner, whatever the loser does; it is over when
the loser has ended. -/
theorem Decides.won {before later : List Occasion} {y : Exit}
    (h : Decides turn side x other s l r before) (wins : ¬ Forfeits loop s x)
    (polled : Polled loop (.racing loop tokens l r) (before ++ turn :: later) (.gives y)) :
    y = side.tag x ∧ ∃ y', Alone other
      ({ turn with store := s.cancel (tokens.of side.other) } :: later) (.ended y') := by
  obtain ⟨res, alone, passes⟩ := h.verdict (polled_iff.mp polled)
  rw [onward_of_wins wins] at alone passes
  cases passes with
  | ended y' => exact ⟨rfl, y', alone⟩

/-- If the operand that is ready first was cancelled by itself, the exit is that of the other. -/
theorem Decides.left {before later : List Occasion} {y : Exit}
    (h : Decides turn side x other s l r before) (forfeits : Forfeits loop s x)
    (polled : Polled loop (.racing loop tokens l r) (before ++ turn :: later) (.gives y)) :
    ∃ y', y = side.other.tag y' ∧ Alone other ({ turn with store := s } :: later) (.ended y') := by
  obtain ⟨res, alone, passes⟩ := h.verdict (polled_iff.mp polled)
  rw [onward_of_forfeits forfeits] at alone passes
  cases passes with
  | ended y' => exact ⟨y', rfl, alone⟩

end

end Race

end EffectFibers
