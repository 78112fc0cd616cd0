import EffectFibers.Proofs.RacedSleeps

/-!
# Sleeping with a time limit

The left operand of a race against a sleep goes through the same polls as on its own until the time
limit (`TimeLimit`).  If it has ended by then, the race ends with it, also if the limit is reached
in the same poll.  If not, it is cancelled at the limit, and the race ends when the operand does.

## Main definitions

* `TimeLimit.Outcome`: what the operand does on its own when the race comes to an exit.

## Main statements

* `TimeLimit.naps_iff`, `TimeLimit.spans_iff`: the race comes to an exit in these ways, and in no
  other.
-/

namespace EffectFibers

/-! ## A loop that is not cancelled -/

section

variable {free out : TokenId → Prop} {t : TokenId} {worker : Worker} {g g' : Segment}
  {w w' w₁ w₂ : Sight} {r r' : Config.Result} {time m : Nat} {z : Exit}

/-- A segment that only sleeps, and is not cancelled, can be polled. -/
def Segment.Ready (free out : TokenId → Prop) (t : TokenId) (g : Segment) (w : Sight) : Prop :=
  ∃ s : Store, s.sight = w ∧ g.Tended free out s ∧ g.token = t ∧ s.isCancelled t = false

/-- It waits for later times. -/
structure Segment.Dozes (free out : TokenId → Prop) (t : TokenId) (g : Segment) (w : Sight) :
    Prop where
  ready : g.Ready free out t w
  rests : g.Rests w.now false

/-- What its poll has come to. -/
structure Config.Result.Came (free out : TokenId → Prop) (t : TokenId) (r : Result) (w : Sight) :
    Prop where
  store : ∃ s : Store, s.sight = w ∧ ∀ u, out u → s.isCancelled u = false ∧ u < s.size
  parked : ∀ g, r = .parked g → g.Dozes free out t w
  ended : r ≠ .ended .canceled

theorem Segment.Ready.runs (h : g.Ready free out t w) (run : g.Runs worker w r w') :
    r.Came free out t w' := by
  obtain ⟨s, same, tended, rfl, live⟩ := h
  obtain ⟨s', polls, rfl⟩ := run.polls tended.code same
  obtain ⟨parked, ended, steady, around⟩ := tended.polls polls
  have live' : s'.isCancelled g.token = false := steady.trans live
  refine ⟨⟨s', rfl, fun u outside => ⟨around.live u outside, around.known u outside⟩⟩,
    fun g' wait => ?_, fun canceled => ?_⟩
  · obtain ⟨tended', token, rests⟩ := parked g' wait
    exact ⟨⟨s', rfl, tended', token, live'⟩, live' ▸ rests⟩
  · exact Bool.noConfusion (live'.symm.trans (ended canceled))

theorem Segment.Ready.atTime (h : g.Ready free out t w) (time : Nat) :
    g.Ready free out t (w.atTime time) := by
  obtain ⟨s, rfl, tended, token, live⟩ := h
  have later := s.sight_advanceTo time
  refine ⟨s.advanceTo time, later, tended.advanceTo time, token, ?_⟩
  exact (congrArg (fun w : Sight => w.isCancelled t) later).trans live

theorem Segment.Dozes.idles (h : g.Dozes free out t w) (worker : Worker) : g.Idles worker w := by
  obtain ⟨⟨s, rfl, tended, rfl, live⟩, rests⟩ := h
  have rests : g.Rests s.now (s.isCancelled g.token) := live ▸ rests
  exact tended.idles rests worker

/-- Two segments whose polls come to the same now do so for as long as they wait. -/
theorem Segment.Spans.congr (same : ∀ r w', g.Runs worker w r w' ↔ g'.Runs worker w₁ r w') :
    g.Spans worker w r w' ↔ g'.Spans worker w₁ r w' := by
  constructor <;> intro h
  · cases h with
    | ends run ends => exact .ends ((same _ _).mp run) ends
    | naps run rest => exact .naps ((same _ _).mp run) rest
  · cases h with
    | ends run ends => exact .ends ((same _ _).mpr run) ends
    | naps run rest => exact .naps ((same _ _).mpr run) rest

theorem Segment.Dozes.stays (h : g.Dozes free out t w) (worker : Worker) :
    g.Naps worker w (.parked g) w :=
  .stays (Nat.le_refl _) h.rests.lt (h.idles worker)

theorem Segment.Naps.lt_now (h : g.Naps worker w r w') (ends : r.Over) : w.now < w'.now := by
  cases h with
  | stays => exact (ends _ rfl).elim
  | wakes idle lt due least run => exact Nat.lt_of_lt_of_eq lt run.1.symm
  | sleeps idle lt due least run rest =>
    exact Nat.lt_of_lt_of_le lt (Nat.le_trans (Nat.le_of_eq run.1.symm) rest.now_le)

/-- A segment that naps may as well be polled at a time at which nothing is due before. -/
theorem Segment.naps_iff_spans (idle : g.Idles worker w) (lt : w.now < m)
    (least : ∀ u ∈ g.deadlines, m ≤ u) (long : r.Over ∨ m ≤ w'.now) :
    g.Naps worker w r w' ↔ g.Spans worker (w.atTime m) r w' := by
  have le := Nat.le_of_lt lt
  have stays {g₁ : Segment} {time : Nat} (waits : r = .parked g₁) (here : w'.now = time) :
      m ≤ time := here ▸ long.resolve_left fun ends => ends _ waits
  by_cases due : m ∈ g.deadlines
  · refine ⟨fun h => ?_, fun h => ?_⟩
    · cases h with
      | stays _ early => exact absurd (stays rfl rfl) (Nat.not_le.mpr (early m due))
      | @wakes _ _ _ _ m' _ _ due' least' run ends =>
        obtain rfl : m' = m := Nat.le_antisymm (least' m due) (least m' due')
        exact .ends run ends
      | @sleeps _ _ _ _ _ _ m' _ _ due' least' run rest =>
        obtain rfl : m' = m := Nat.le_antisymm (least' m due) (least m' due')
        exact .naps run rest
    · cases h with
      | ends run ends => exact .wakes idle lt due least run ends
      | naps run rest => exact .sleeps idle lt due least run rest
  · have early : ∀ u ∈ g.deadlines, m < u := fun u mem =>
      Nat.lt_of_le_of_ne (least u mem) fun same => due (same ▸ mem)
    have run := idle m le early
    have idle' : g.Idles worker (w.atTime m) := fun time later early =>
      idle time (Nat.le_trans le later) early
    refine ⟨fun h => .naps run ?_, fun h => ?_⟩
    · cases h with
      | stays _ early' => exact .stays (stays rfl rfl) early' idle'
      | wakes _ _ due' least' run' ends => exact .wakes idle' (early _ due') due' least' run' ends
      | sleeps _ _ due' least' run' rest => exact .sleeps idle' (early _ due') due' least' run' rest
    · cases h with
      | ends run' ends => exact (ends _ (run.unique run').1).elim
      | naps run' rest =>
        obtain ⟨same, rfl⟩ := run.unique run'
        cases same
        exact rest.earlier le idle

end

namespace TimeLimit

/-! ## Unwinding -/

section

variable {L : TimeLimit} {worker : Worker} {g g' : Segment} {w w' : Sight} {y : Exit}

theorem runs_unwinding_ended : (L.unwinding g).Runs worker w (.ended y) w' ↔
    y = .errored L.error ∧ ∃ z, g.Runs worker w (.ended z) w' := by
  refine runs_unwinding.trans ⟨fun ⟨r, poll, same⟩ => ?_, ?_⟩
  · cases r with
    | ended z =>
      cases same
      exact ⟨rfl, z, poll⟩
    | parked | faulted | unfinished => cases same
  · rintro ⟨rfl, z, poll⟩
    exact ⟨_, poll, rfl⟩

theorem runs_unwinding_parked : (L.unwinding g).Runs worker w (.parked g') w' ↔
    ∃ g₁, g' = L.unwinding g₁ ∧ g.Runs worker w (.parked g₁) w' := by
  refine runs_unwinding.trans ⟨fun ⟨r, poll, same⟩ => ?_, ?_⟩
  · cases r with
    | parked g₁ =>
      cases same
      exact ⟨g₁, rfl, poll⟩
    | ended | faulted | unfinished => cases same
  · rintro ⟨g₁, rfl, poll⟩
    exact ⟨_, poll, rfl⟩

theorem idles_unwinding : (L.unwinding g).Idles worker w ↔ g.Idles worker w := by
  refine forall₃_congr fun time le early => runs_unwinding_parked.trans ⟨?_, fun run => ?_⟩
  · rintro ⟨g', same, run⟩
    cases same
    exact run
  · exact ⟨g, rfl, run⟩

/-- After the limit the race ends when the operand does, whatever its exit is. -/
theorem naps_unwinding : (L.unwinding g).Naps worker w (.ended y) w' ↔
    y = .errored L.error ∧ ∃ z, g.Naps worker w (.ended z) w' := by
  constructor
  · intro h
    generalize whole : L.unwinding g = g' at h
    generalize came : Config.Result.ended y = r at h
    induction h generalizing g with
    | stays => cases came
    | wakes idle lt due least run ends =>
      subst whole came
      obtain ⟨exit, z, run⟩ := runs_unwinding_ended.mp run
      exact ⟨exit, z, .wakes (idles_unwinding.mp idle) lt due least run nofun⟩
    | sleeps idle lt due least run rest ih =>
      subst whole came
      obtain ⟨g', rfl, poll⟩ := runs_unwinding_parked.mp run
      obtain ⟨exit, z, naps⟩ := ih rfl rfl
      exact ⟨exit, z, .sleeps (idles_unwinding.mp idle) lt due least poll naps⟩
  · rintro ⟨rfl, z, h⟩
    generalize came : Config.Result.ended z = r at h
    induction h with
    | stays => cases came
    | wakes idle lt due least run ends =>
      subst came
      exact .wakes (idles_unwinding.mpr idle) lt due least
        (runs_unwinding_ended.mpr ⟨rfl, z, run⟩) nofun
    | sleeps idle lt due least run rest ih =>
      exact .sleeps (idles_unwinding.mpr idle) lt due least
        (runs_unwinding_parked.mpr ⟨_, rfl, run⟩) (ih came)

theorem spans_unwinding : (L.unwinding g).Spans worker w (.ended y) w' ↔
    y = .errored L.error ∧ ∃ z, g.Spans worker w (.ended z) w' := by
  constructor
  · intro h
    cases h with
    | ends run ends =>
      obtain ⟨exit, z, run⟩ := runs_unwinding_ended.mp run
      exact ⟨exit, z, .ends run nofun⟩
    | naps run rest =>
      obtain ⟨g', rfl, poll⟩ := runs_unwinding_parked.mp run
      obtain ⟨exit, z, naps⟩ := naps_unwinding.mp rest
      exact ⟨exit, z, .naps poll naps⟩
  · rintro ⟨rfl, z, h⟩
    cases h with
    | ends run ends => exact .ends (runs_unwinding_ended.mpr ⟨rfl, z, run⟩) nofun
    | naps run rest =>
      exact .naps (runs_unwinding_parked.mpr ⟨_, rfl, run⟩) (naps_unwinding.mpr ⟨rfl, z, rest⟩)

end

/-! ## A poll of the race -/

section

variable {L : TimeLimit} {free out : TokenId → Prop} {worker : Worker} {g g' right : Segment}
  {w w₁ w' : Sight} {r : Config.Result} {y : Exit}

/-- The worker's timers are enabled. -/
def Timers (worker : Worker) (w : Sight) : Prop :=
  w.timed = true ∨ worker.thread ≠ Context.home.thread

section

variable (ready : g.Ready free out L.left w) (outside : out L.right)
  (rings : L.Rings worker w.now right) (timers : Timers worker w)
include ready outside rings

theorem runs_inTime (run : g.Runs worker w (.ended y) w₁) :
    (L.racing g right).Runs worker w (.ended y) (w₁.cancel L.right) := by
  have came := ready.runs run
  have other : y ≠ .canceled := fun same => came.ended (same ▸ rfl)
  obtain ⟨s₁, rfl, around⟩ := came.store
  have now : (s₁.cancel L.right).now = w.now := by
    have clock := congrArg Prod.fst (s₁.clock_cancel L.right)
    exact clock.trans run.1
  have cancelled : (s₁.cancel L.right).isCancelled L.right = true := by
    rw [Store.isCancelled, Store.tokens_cancel]
    exact Forest.isCancelled_cancel_self (around _ outside).2
  obtain ⟨z, stops⟩ := rings.stops (s₁.cancel L.right) now cancelled
  rw [Store.sight_cancel] at stops
  exact runs_ended run other (rings.code free) stops

include timers

theorem runs_early (early : w.now < L.time) (run : g.Runs worker w (.parked g') w₁) :
    (L.racing g right).Runs worker w (.parked (L.racing g' L.asleep)) w₁ := by
  obtain ⟨s₁, rfl, around⟩ := (ready.runs run).store
  have timers₁ : Timers worker s₁.sight := by
    rw [Timers, run.2.1]
    exact timers
  exact runs_parked run (rings.code free)
    (rings.waits s₁ run.1 (around _ outside).1 early timers₁)

theorem runs_limit (due : L.time ≤ w.now) (run : g.Runs worker w (.parked g') w₁) :
    (L.racing g right).Runs worker w r w' ↔
      (L.unwinding g').Runs worker (w₁.cancel L.left) r w' := by
  have came := ready.runs run
  obtain ⟨s₁, rfl, around⟩ := came.store
  obtain ⟨_, -, tended, -⟩ := (came.parked g' rfl).ready
  have timers₁ : Timers worker s₁.sight := by
    rw [Timers, run.2.1]
    exact timers
  exact runs_late run (rings.code free) tended.code
    (rings.fails s₁ run.1 (around _ outside).1 due timers₁)

end

/-- A poll of the race is one of its left operand, to begin with. -/
theorem exists_run (ready : g.Ready free out L.left w)
    (run : (L.racing g right).Runs worker w r w') : ∃ r₁ w₁, g.Runs worker w r₁ w₁ := by
  obtain ⟨s, rfl, tended, -⟩ := ready
  obtain ⟨-, -, s', polls, -⟩ := run
  obtain ⟨r₁, s₁, polls₁, -⟩ := polls_racing.mp polls
  have sleeps : Config.Sleeps free ⟨.resume g, []⟩ := ⟨.resume tended.code, by simp⟩
  obtain ⟨-, t', polls', -⟩ := Config.Polls.alike sleeps s.sight_store polls₁
  exact ⟨_, _, Segment.Polls.runs polls' tended.code⟩

end

/-! ## The whole race -/

/-- When the race comes to an exit, its left operand has ended by the time limit, or it was
cancelled at the limit and has ended since.  `goes` says what it comes to on its own. -/
inductive Outcome (L : TimeLimit) (worker : Worker) (goes : Config.Result → Sight → Prop) :
    Exit → Sight → Prop
  | inTime {y : Exit} {w : Sight} (ends : goes (.ended y) w) (le : w.now ≤ L.time) :
      Outcome L worker goes y (w.cancel L.right)
  | late {g : Segment} {w w' : Sight} {z : Exit} (waits : goes (.parked g) w)
      (limit : w.now = L.time) (unwinds : g.Spans worker (w.cancel L.left) (.ended z) w') :
      Outcome L worker goes (.errored L.error) w'

section

variable {L : TimeLimit} {free out : TokenId → Prop} {worker : Worker} {g right : Segment}
  {w w' : Sight} {y : Exit}

theorem Outcome.mono {goes goes' : Config.Result → Sight → Prop}
    (h : L.Outcome worker goes y w)
    (le : ∀ r w, r.Over ∨ w.now = L.time → goes r w → goes' r w) : L.Outcome worker goes' y w := by
  cases h with
  | inTime ends time => exact .inTime (le _ _ (.inl nofun) ends) time
  | late waits limit unwinds => exact .late (le _ _ (.inr limit) waits) limit unwinds

theorem idles_racing (dozes : g.Dozes free out L.left w) (outside : out L.right)
    (timers : Timers worker w) : (L.racing g L.asleep).Idles worker w := by
  intro time le early
  obtain ⟨early, before⟩ := List.forall_mem_append.mp early
  have run := dozes.idles worker time le early
  exact runs_early (dozes.ready.atTime time) outside (L.rings_asleep worker time) timers
    (before _ (List.mem_singleton_self _)) run

/-- The race comes to an exit as its operand does on its own, if this is so from the end of the first
poll on. -/
theorem spans_iff_of (ready : g.Ready free out L.left w) (outside : out L.right)
    (rings : L.Rings worker w.now right) (timers : Timers worker w) (le : w.now ≤ L.time)
    (rest : ∀ g' w₁, g'.Dozes free out L.left w₁ → Timers worker w₁ → w₁.now = w.now →
      w.now < L.time → ((L.racing g' L.asleep).Naps worker w₁ (.ended y) w' ↔
        L.Outcome worker (g'.Naps worker w₁) y w')) :
    (L.racing g right).Spans worker w (.ended y) w' ↔ L.Outcome worker (g.Spans worker w) y w' := by
  have timers' {r : Config.Result} {w₁ : Sight} (run : g.Runs worker w r w₁) :
      Timers worker w₁ := by
    rw [Timers, run.2.1]
    exact timers
  constructor
  · intro h
    obtain ⟨_, _, run⟩ : ∃ r w₁, (L.racing g right).Runs worker w r w₁ := by
      cases h with
      | ends run | naps run => exact ⟨_, _, run⟩
    obtain ⟨r, w₁, first⟩ := exists_run ready run
    cases r with
    | ended x =>
      have whole := runs_inTime ready outside rings first
      cases h with
      | ends run =>
        obtain ⟨same, rfl⟩ := whole.unique run
        cases same
        exact .inTime (.ends first nofun) (first.1 ▸ le)
      | naps run => cases (whole.unique run).1
    | parked g' =>
      have dozes := (ready.runs first).parked g' rfl
      by_cases early : w.now < L.time
      · have whole := runs_early ready outside rings timers early first
        cases h with
        | ends run => cases (whole.unique run).1
        | naps run naps =>
          obtain ⟨same, rfl⟩ := whole.unique run
          cases same
          exact ((rest g' _ dozes (timers' first) first.1 early).mp naps).mono
            fun _ _ _ => .naps first
      · have late := Nat.le_of_not_lt early
        have same (r w') : (L.racing g right).Runs worker w r w' ↔
            (L.unwinding g').Runs worker (w₁.cancel L.left) r w' :=
          runs_limit ready outside rings timers late first
        obtain ⟨rfl, z, unwinds⟩ := spans_unwinding.mp ((Segment.Spans.congr same).mp h)
        exact .late (.naps first (dozes.stays worker))
          (first.1.trans (Nat.le_antisymm le late)) unwinds
    | faulted f =>
      have whole : (L.racing g right).Runs worker w (.faulted f) w₁ := runs_faulted first
      cases h with
      | ends run | naps run => cases (whole.unique run).1
    | unfinished =>
      obtain ⟨-, -, _, polls, -⟩ := first
      exact (polls.1 rfl).elim
  · intro h
    cases h with
    | inTime ends le' =>
      cases ends with
      | ends run => exact .ends (runs_inTime ready outside rings run) nofun
      | naps run naps =>
        have dozes := (ready.runs run).parked _ rfl
        have early : w.now < L.time :=
          Nat.lt_of_lt_of_le (run.1 ▸ naps.lt_now nofun) le'
        exact .naps (runs_early ready outside rings timers early run)
          ((rest _ _ dozes (timers' run) run.1 early).mpr (.inTime naps le'))
    | late waits limit unwinds =>
      cases waits with
      | ends _ ends => exact (ends _ rfl).elim
      | @naps g' w₁ run naps =>
        have dozes := (ready.runs run).parked _ rfl
        by_cases early : w.now < L.time
        · exact .naps (runs_early ready outside rings timers early run)
            ((rest _ _ dozes (timers' run) run.1 early).mpr (.late naps limit unwinds))
        · have late := Nat.le_of_not_lt early
          have same (r w') : (L.racing g right).Runs worker w r w' ↔
              (L.unwinding g').Runs worker (w₁.cancel L.left) r w' :=
            runs_limit ready outside rings timers late run
          have here : w₁.now = L.time := run.1.trans (Nat.le_antisymm le late)
          obtain ⟨rfl, rfl⟩ := (dozes.stays worker).once naps (limit.trans here.symm)
          exact (Segment.Spans.congr same).mpr (spans_unwinding.mpr ⟨rfl, _, unwinds⟩)

/-- As long as it waits the race comes to an exit as its operand does on its own. -/
theorem naps_iff (dozes : g.Dozes free out L.left w) (outside : out L.right)
    (timers : Timers worker w) (early : w.now < L.time) :
    (L.racing g L.asleep).Naps worker w (.ended y) w' ↔ L.Outcome worker (g.Naps worker w) y w' := by
  generalize left : L.time - w.now = n
  induction n using Nat.strongRecOn generalizing g w with
  | ind n ih =>
    have rests : (L.racing g L.asleep).Rests w.now false := .racing dozes.rests (.future early)
    obtain ⟨m, due, least⟩ := rests.exists_due
    have lt := rests.lt m due
    obtain ⟨leastLeft, leastRight⟩ := List.forall_mem_append.mp least
    have le : m ≤ L.time := leastRight _ (List.mem_singleton_self _)
    have idle := dozes.idles worker
    have both : (L.racing g L.asleep).Spans worker (w.atTime m) (.ended y) w' ↔
        L.Outcome worker (g.Spans worker (w.atTime m)) y w' :=
      spans_iff_of (dozes.ready.atTime m) outside (L.rings_asleep worker m) timers le
        fun g' w₁ dozes' timers' here early' => by
          have now : w₁.now = m := here
          exact ih (L.time - w₁.now) (by omega) dozes' timers' (now ▸ early') rfl
    have ends : (Config.Result.ended y).Over := nofun
    refine (Segment.naps_iff_spans (idles_racing dozes outside timers) lt least
      (.inl ends)).trans (both.trans ⟨fun h => ?_, fun h => ?_⟩)
    · exact h.mono fun r w₁ long =>
        (Segment.naps_iff_spans idle lt leastLeft (long.imp_right fun here => here ▸ le)).mpr
    · exact h.mono fun r w₁ long =>
        (Segment.naps_iff_spans idle lt leastLeft (long.imp_right fun here => here ▸ le)).mp

/-- The race comes to an exit as its operand does on its own. -/
theorem spans_iff (ready : g.Ready free out L.left w) (outside : out L.right)
    (rings : L.Rings worker w.now right) (timers : Timers worker w) (le : w.now ≤ L.time) :
    (L.racing g right).Spans worker w (.ended y) w' ↔ L.Outcome worker (g.Spans worker w) y w' :=
  spans_iff_of ready outside rings timers le fun _ _ dozes timers here early =>
    naps_iff dozes outside timers (here ▸ early)

end

end TimeLimit

end EffectFibers
