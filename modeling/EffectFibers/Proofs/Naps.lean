import EffectFibers.Proofs.SleepTokens

/-!
# Sleeping on a virtual clock

A task that only sleeps is polled again and again while the clock goes on.  The clock may stop at any
time in between, and the task may be polled when nothing is due, but the clock never jumps over the
end of a sleep that somebody waits for (`Segment.Timed`).  A poll at a time at which nothing is due
changes nothing (`Segment.Rests.idle`).  So the polls that count are those at the ends of sleeps, and
what the task comes to, and when, does not depend on where else the clock has stopped
(`Segment.Naps`).

## Main definitions

* `Segment.Timed`: what a task comes to on a virtual clock.

## Main statements

* `Segment.Timed.spans`, `Segment.Spans.timed`: only the polls count at which something is due.
* `Segment.Spans.over`: a task that ends does so at one time and with one exit.
-/

namespace EffectFibers

/-- The times at which sleeps end that the segment waits for. -/
def Segment.deadlines : Segment → List Nat
  | .future _ (.deadline time _) => [time]
  | .acquiring _ _ _ g | .releasing _ _ _ g | .settling _ _ _ g | .remaining _ _ g => g.deadlines
  | .racing _ _ left right => left.deadlines ++ right.deadlines
  | .start .. | .callback .. | .future .. | .shifted .. | .gathering .. => []

/-- A segment is polled now, and for as long as it waits again when the clock has moved on, never
beyond the end of a sleep. -/
inductive Segment.Timed (worker : Worker) : Segment → Store → Config.Result → Store → Prop
  | last {g : Segment} {s s' : Store} {r : Config.Result} (poll : g.Polls worker s r s') :
      Timed worker g s r s'
  | wait {g g' : Segment} {s s₁ s' : Store} {r : Config.Result} {time : Nat}
      (poll : g.Polls worker s (.parked g') s₁) (le : s₁.now ≤ time)
      (due : ∀ u ∈ g'.deadlines, time ≤ u) (rest : Timed worker g' (s₁.advanceTo time) r s') :
      Timed worker g s r s'

/-! ## Polls at which nothing is due -/

section

variable {free out : TokenId → Prop} {g g' : Segment} {now time : Nat} {b : Bool} {s s₀ s' : Store}
  {worker : Worker} {r : Config.Result}

theorem Segment.Rests.lt (h : g.Rests now b) : ∀ u ∈ g.deadlines, now < u := by
  induction h with
  | future later => simpa [deadlines] using later
  | acquiring h ih | releasing h ih | settling h ih => exact ih
  | racing h h' ih ih' => exact List.forall_mem_append.mpr ⟨ih, ih'⟩

theorem Segment.Rests.later (h : g.Rests now b) (early : ∀ u ∈ g.deadlines, time < u) :
    g.Rests time b := by
  induction h with
  | future later => exact .future (early _ (List.mem_singleton_self _))
  | acquiring h ih => exact .acquiring (ih early)
  | releasing h ih => exact .releasing (ih early)
  | settling h ih => exact .settling (ih early)
  | racing h h' ih ih' =>
    obtain ⟨left, right⟩ := List.forall_mem_append.mp early
    exact .racing (ih left) (ih' right)

/-- What waits at all waits for some time. -/
theorem Segment.Rests.exists_due (h : g.Rests now b) :
    ∃ m ∈ g.deadlines, ∀ u ∈ g.deadlines, m ≤ u := by
  have some : g.deadlines ≠ [] := by
    induction h with
    | future later => exact List.cons_ne_nil _ _
    | acquiring h ih | releasing h ih | settling h ih => exact ih
    | racing h h' ih ih' => exact fun none => ih (List.append_eq_nil_iff.mp none).1
  obtain ⟨m, least⟩ := Option.ne_none_iff_exists'.mp
    (mt List.min?_eq_none_iff.mp some)
  exact ⟨m, List.min?_mem least, fun u mem => (List.le_min?_iff least).mp (Nat.le_refl m) u mem⟩

/-- A poll of a segment that rests goes all the way through it and leaves it as it is. -/
theorem Segment.Rests.through (h : g.Rests now b) (sound : g.Sound s₀) (same : s.sight = s₀.sight)
    (still : s₀.now = now) (status : s₀.isCancelled g.token = b) (worker : Worker)
    (ks : List Caller) : ∃ s', s'.sight = s.sight ∧ ∀ r s'',
      Config.Polls worker ⟨.resume g, ks⟩ s r s'' ↔ Config.Polls worker ⟨.park g, ks⟩ s' r s'' := by
  induction h generalizing s ks with
  | @future loop time result later =>
    have early : ¬ time ≤ s.now := by
      rw [Store.now_of_sight same.symm]
      omega
    have live : ¬ s.isCancelled loop.env.token = true := by
      rw [Store.isCancelled_of_sight same.symm]
      exact Bool.eq_false_iff.mp status
    have step : Config.step worker ⟨.resume (.future loop (.deadline time result)), ks⟩ s
        = (.next ⟨.park (.future loop (.deadline time result)), ks⟩,
          (s.watchTime time worker.task).watchToken loop.env.token worker.task) := by
      simp [Config.step, Machine.resumeStep, Machine.Wait.result?, early, live, Machine.park,
        Machine.watch]
    exact ⟨_, by simp, fun r s'' => Config.polls_next step⟩
  | acquiring h ih =>
    cases sound with
    | acquiring apart sound =>
      obtain ⟨s', alike, iff⟩ := ih sound same apart.live (.acquiring _ _ _ :: ks)
      exact ⟨s', alike, fun r s'' =>
        (Config.polls_next rfl).trans ((iff r s'').trans (Config.polls_next rfl))⟩
  | releasing h ih =>
    cases sound with
    | releasing caused apart sound =>
      obtain ⟨s', alike, iff⟩ := ih sound same apart.live (.releasing _ _ _ :: ks)
      exact ⟨s', alike, fun r s'' =>
        (Config.polls_next rfl).trans ((iff r s'').trans (Config.polls_next rfl))⟩
  | settling h ih =>
    cases sound with
    | settling caused lt lost sound =>
      obtain ⟨s', alike, iff⟩ := ih sound same lost (.settling _ _ _ :: ks)
      exact ⟨s', alike, fun r s'' =>
        (Config.polls_next rfl).trans ((iff r s'').trans (Config.polls_next rfl))⟩
  | @racing b loop tokens left right h h' ih ih' =>
    cases sound with
    | racing onLeft onRight sound sound' =>
      have here : s₀.isCancelled loop.env.token = b := status
      obtain ⟨s₁, alike, iff⟩ := ih sound same (onLeft.same.trans here)
        (.racingLeft loop ⟨left.token, right.token⟩ right :: ks)
      obtain ⟨s₂, alike', iff'⟩ := ih' sound' (alike.trans same) (onRight.same.trans here)
        (.racingRight loop ⟨left.token, right.token⟩ left :: ks)
      exact ⟨s₂, alike'.trans alike, fun r s'' =>
        (Config.polls_next rfl).trans ((iff r s'').trans ((Config.polls_next rfl).trans
          ((iff' r s'').trans (Config.polls_next rfl))))⟩

/-- A poll at which nothing is due changes nothing. -/
theorem Segment.Rests.idle (h : g.Rests s.now (s.isCancelled g.token)) (sound : g.Sound s)
    (worker : Worker) : ∃ s', g.Polls worker s (.parked g) s' ∧ s'.sight = s.sight := by
  obtain ⟨s', same, iff⟩ := h.through sound rfl rfl rfl worker []
  have step : Config.step worker ⟨.park g, []⟩ s' = (.parked g, s') := rfl
  exact ⟨s', (iff _ _).mpr ((Config.polls_last step nofun).mpr ⟨rfl, rfl⟩), same⟩

end

/-! ## What a poll comes to -/

/-- A store that looks like that. -/
def Sight.store (w : Sight) : Store :=
  { memory := w.memory, tokens := w.tokens, brackets := w.brackets, now := w.now, timed := w.timed
    trace := w.deeds }

theorem Store.sight_store (s : Store) : s.sight.store.sight = s.sight := by
  simp [Store.sight, Sight.store, Store.deeds]

theorem Store.sight_advanceTo (s : Store) (time : Nat) :
    (s.advanceTo time).sight = s.sight.atTime time :=
  (sight_of_bare (bare_wakeAll _ _)).trans rfl

/-- In a store that looks like that the poll of the segment comes to the result, in no time. -/
def Segment.Runs (worker : Worker) (g : Segment) (w : Sight) (r : Config.Result) (w' : Sight) :
    Prop :=
  w'.now = w.now ∧ w'.timed = w.timed ∧ ∃ s', g.Polls worker w.store r s' ∧ s'.sight = w'

/-- The poll has come to an end, also if that is a panic. -/
def Config.Result.Over (r : Config.Result) : Prop := ∀ g, r ≠ .parked g

section

variable {free out : TokenId → Prop} {g g' : Segment} {s s' : Store} {worker : Worker}
  {r r' : Config.Result} {w w' w'' w₁ w₂ : Sight} {time m : Nat}

theorem Segment.Polls.runs (polls : g.Polls worker s r s') (code : g.Sleeps free) :
    g.Runs worker s.sight r s'.sight := by
  have sleeps : Config.Sleeps free ⟨.resume g, []⟩ := ⟨.resume code, by simp⟩
  have alike : s.sight = s.sight.store.sight := s.sight_store.symm
  obtain ⟨⟨-, clock⟩, t', polls', same⟩ := Config.Polls.alike sleeps alike polls
  exact ⟨congrArg Prod.fst clock, congrArg Prod.snd clock, t', polls', same.symm⟩

theorem Segment.Runs.polls (h : g.Runs worker w r w') (code : g.Sleeps free) (same : s.sight = w) :
    ∃ s', g.Polls worker s r s' ∧ s'.sight = w' := by
  obtain ⟨-, -, s₁, polls, rfl⟩ := h
  have sleeps : Config.Sleeps free ⟨.resume g, []⟩ := ⟨.resume code, by simp⟩
  have back : w.store.sight = s.sight := by rw [← same, Store.sight_store]
  obtain ⟨-, s', polls', alike⟩ := Config.Polls.alike sleeps back polls
  exact ⟨s', polls', alike.symm⟩

theorem Segment.Runs.unique (h : g.Runs worker w r w') (h' : g.Runs worker w r' w'') :
    r' = r ∧ w'' = w' := by
  obtain ⟨-, -, s', polls, rfl⟩ := h
  obtain ⟨-, -, s'', polls', rfl⟩ := h'
  obtain ⟨rfl, rfl⟩ := Config.Polls.unique polls polls'
  exact ⟨rfl, rfl⟩

/-! ## Naps -/

/-- As long as nothing is due a poll changes nothing. -/
def Segment.Idles (worker : Worker) (g : Segment) (w : Sight) : Prop :=
  ∀ time, w.now ≤ time → (∀ u ∈ g.deadlines, time < u) →
    g.Runs worker (w.atTime time) (.parked g) (w.atTime time)

/-- A segment that waits is polled at the ends of its sleeps, as far as the clock goes on. -/
inductive Segment.Naps (worker : Worker) : Segment → Sight → Config.Result → Sight → Prop
  /-- Nothing has been due yet. -/
  | stays {g : Segment} {w : Sight} {time : Nat} (le : w.now ≤ time)
      (early : ∀ u ∈ g.deadlines, time < u) (idle : g.Idles worker w) :
      Naps worker g w (.parked g) (w.atTime time)
  | wakes {g : Segment} {w w' : Sight} {r : Config.Result} {m : Nat} (idle : g.Idles worker w)
      (lt : w.now < m)
      (due : m ∈ g.deadlines) (least : ∀ u ∈ g.deadlines, m ≤ u)
      (run : g.Runs worker (w.atTime m) r w') (ends : r.Over) : Naps worker g w r w'
  | sleeps {g g' : Segment} {w w₁ w' : Sight} {r : Config.Result} {m : Nat}
      (idle : g.Idles worker w) (lt : w.now < m)
      (due : m ∈ g.deadlines) (least : ∀ u ∈ g.deadlines, m ≤ u)
      (run : g.Runs worker (w.atTime m) (.parked g') w₁) (rest : Naps worker g' w₁ r w') :
      Naps worker g w r w'

/-- A segment is polled now, and if it has to wait at the ends of its sleeps. -/
inductive Segment.Spans (worker : Worker) (g : Segment) (w : Sight) (r : Config.Result)
    (w' : Sight) : Prop
  | ends (run : g.Runs worker w r w') (ends : r.Over)
  | naps {g' : Segment} {w₁ : Sight} (run : g.Runs worker w (.parked g') w₁)
      (rest : g'.Naps worker w₁ r w')

theorem Segment.Naps.now_le (h : g.Naps worker w r w') : w.now ≤ w'.now := by
  induction h with
  | stays le => exact le
  | wakes idle lt due least run => exact Nat.le_trans (Nat.le_of_lt lt) (Nat.le_of_eq run.1.symm)
  | sleeps idle lt due least run rest ih =>
    exact Nat.le_trans (Nat.le_of_lt lt) (Nat.le_trans (Nat.le_of_eq run.1.symm) ih)

theorem Segment.Naps.earlier (h : g.Naps worker (w.atTime time) r w') (le : w.now ≤ time)
    (idle : g.Idles worker w) : g.Naps worker w r w' := by
  generalize later : w.atTime time = v at h
  cases h with
  | stays le' early =>
    subst later
    exact .stays (Nat.le_trans le le') early idle
  | wakes _ lt due least run ends =>
    subst later
    exact .wakes idle (Nat.lt_of_le_of_lt le lt) due least run ends
  | sleeps _ lt due least run rest =>
    subst later
    exact .sleeps idle (Nat.lt_of_le_of_lt le lt) due least run rest

/-- Two naps from the same state go the same way, as far as the shorter one goes. -/
theorem Segment.Naps.over (h : g.Naps worker w r w₁) (ends : r.Over)
    (h' : g.Naps worker w r' w₂) :
    r' = r ∧ w₂ = w₁ ∨ (∃ g', r' = .parked g') ∧ w₂.now < w₁.now := by
  induction h generalizing r' w₂ with
  | stays => exact (ends _ rfl).elim
  | @wakes g w w₁ r m idle lt due least run _ =>
    cases h' with
    | stays le early => exact .inr ⟨⟨_, rfl⟩, Nat.lt_of_lt_of_eq (early m due) run.1.symm⟩
    | @wakes _ _ _ _ m' _ _ due' least' run' _ =>
      obtain rfl : m' = m := Nat.le_antisymm (least' m due) (least m' due')
      exact .inl (run.unique run')
    | @sleeps _ _ _ _ _ _ m' _ _ due' least' run' _ =>
      obtain rfl : m' = m := Nat.le_antisymm (least' m due) (least m' due')
      exact (ends _ (run.unique run').1.symm).elim
  | @sleeps g g₁ w v w₁ r m idle lt due least run rest ih =>
    have later := rest.now_le
    cases h' with
    | stays le early =>
      refine .inr ⟨⟨_, rfl⟩, Nat.lt_of_lt_of_le (early m due) ?_⟩
      exact Nat.le_trans (Nat.le_of_eq run.1.symm) later
    | @wakes _ _ _ _ m' _ _ due' least' run' ends' =>
      obtain rfl : m' = m := Nat.le_antisymm (least' m due) (least m' due')
      exact (ends' _ (run.unique run').1).elim
    | @sleeps _ _ _ _ _ _ m' _ _ due' least' run' rest' =>
      obtain rfl : m' = m := Nat.le_antisymm (least' m due) (least m' due')
      obtain ⟨same, rfl⟩ := run.unique run'
      cases same
      exact ih ends rest'

/-- At one time a segment that naps waits in one way. -/
theorem Segment.Naps.once {g₁ g₂ : Segment} (h : g.Naps worker w (.parked g₁) w₁)
    (h' : g.Naps worker w (.parked g₂) w₂) (same : w₂.now = w₁.now) : g₂ = g₁ ∧ w₂ = w₁ := by
  generalize waits : Config.Result.parked g₁ = r at h
  induction h with
  | @stays g w time le early idle =>
    cases waits
    generalize waits' : Config.Result.parked g₂ = r' at h'
    cases h' with
    | @stays _ _ time' =>
      cases waits'
      obtain rfl : time' = time := same
      exact ⟨rfl, rfl⟩
    | wakes idle lt due least run ends => exact (ends _ waits'.symm).elim
    | @sleeps _ _ _ _ _ _ m _ lt due least run rest =>
      have soon : time < m := early m due
      have later := rest.now_le
      have clock : _ = m := run.1
      have here : w₂.now = time := same
      omega
  | wakes idle lt due least run ends => exact (ends _ waits.symm).elim
  | @sleeps g g' w v w₁ r m idle lt due least run rest ih =>
    subst waits
    generalize waits' : Config.Result.parked g₂ = r' at h'
    cases h' with
    | @stays _ _ time' le early =>
      have soon : time' < m := early m due
      have later := rest.now_le
      have clock : _ = m := run.1
      have here : time' = w₁.now := same
      omega
    | wakes idle lt due least run ends => exact (ends _ waits'.symm).elim
    | @sleeps _ _ _ _ _ _ m' _ _ due' least' run' rest' =>
      subst waits'
      obtain rfl : m' = m := Nat.le_antisymm (least' m due) (least m' due')
      obtain ⟨parked, rfl⟩ := run.unique run'
      cases parked
      exact ih rest' same rfl

/-- A segment that naps beyond a time waits at that time. -/
theorem Segment.Naps.stop {limit : Nat} (h : g.Naps worker w r w') (le : w.now ≤ limit)
    (lt : limit < w'.now) : ∃ g' w₁, g.Naps worker w (.parked g') w₁ ∧ w₁.now = limit := by
  have waits {g : Segment} {w : Sight} {m : Nat} (idle : g.Idles worker w) (le : w.now ≤ limit)
      (early : limit < m) (least : ∀ u ∈ g.deadlines, m ≤ u) :
      ∃ g' w₁, g.Naps worker w (.parked g') w₁ ∧ w₁.now = limit :=
    ⟨g, w.atTime limit, .stays le (fun u mem => Nat.lt_of_lt_of_le early (least u mem)) idle, rfl⟩
  induction h with
  | stays _ early idle => exact waits idle le lt fun u mem => Nat.le_of_lt (early u mem)
  | wakes idle _ due least run _ => exact waits idle le (Nat.lt_of_lt_of_eq lt run.1) least
  | @sleeps g g' w w₁ w' r m idle lt' due least run rest ih =>
    by_cases early : limit < m
    · exact waits idle le early least
    · have now : w₁.now = m := run.1
      obtain ⟨g'', w'', rest', stop⟩ := ih (by omega) lt
      exact ⟨g'', w'', .sleeps idle lt' due least run rest', stop⟩

/-! ## Naps and the virtual clock -/

theorem Segment.Tended.idles (h : g.Tended free out s)
    (rests : g.Rests s.now (s.isCancelled g.token)) (worker : Worker) :
    g.Idles worker s.sight := by
  intro time le early
  have later := s.sight_advanceTo time
  have rests' : g.Rests (s.advanceTo time).now ((s.advanceTo time).isCancelled g.token) := by
    have now : (s.advanceTo time).now = time := congrArg Sight.now later
    have cancelled : (s.advanceTo time).isCancelled g.token = s.isCancelled g.token :=
      congrArg (fun w : Sight => w.tokens.isCancelled g.token) later
    rw [now, cancelled]
    exact rests.later early
  obtain ⟨s', polls, same⟩ := rests'.idle (h.advanceTo time).sound worker
  have runs := polls.runs h.code
  rwa [same, later] at runs

/-- Only the polls count at which something is due. -/
theorem Segment.Timed.spans (h : g.Timed worker s r s') (tended : g.Tended free out s) :
    g.Spans worker s.sight r s'.sight ∧ r.Kept free out g.token s s' := by
  induction h with
  | @last g s s' r poll =>
    have kept := tended.polls poll
    have run := Segment.Polls.runs poll tended.code
    refine ⟨?_, kept⟩
    by_cases ends : r.Over
    · exact .ends run ends
    · obtain ⟨g', rfl⟩ : ∃ g', r = .parked g' := by simpa [Config.Result.Over] using ends
      obtain ⟨tended', token, rests⟩ := kept.parked g' rfl
      rw [← token] at rests
      exact .naps run (.stays (Nat.le_refl _) rests.lt (tended'.idles rests worker))
  | @wait g g' s s₁ s' r time poll le due rest ih =>
    have first := tended.polls poll
    have run := Segment.Polls.runs poll tended.code
    obtain ⟨tended₁, token, rests⟩ := first.parked g' rfl
    obtain ⟨spans, kept⟩ := ih (tended₁.advanceTo time)
    have later := s₁.sight_advanceTo time
    rw [token] at kept
    rw [← token] at rests
    have idles := tended₁.idles rests worker
    have steady : (s₁.advanceTo time).isCancelled g.token = s₁.isCancelled g.token :=
      congrArg (fun w : Sight => w.tokens.isCancelled g.token) later
    refine ⟨.naps run ?_, kept.parked, kept.ended, kept.steady.trans (steady.trans first.steady),
      kept.outskirts⟩
    rw [later] at spans
    by_cases early : ∀ u ∈ g'.deadlines, time < u
    · have idle := idles time le early
      cases spans with
      | ends run' ends => exact (ends _ (idle.unique run').1).elim
      | naps run' rest' =>
        obtain ⟨same, rfl⟩ := idle.unique run'
        cases same
        exact rest'.earlier le idles
    · obtain ⟨u, mem, late⟩ : ∃ u ∈ g'.deadlines, u ≤ time := by simpa using early
      obtain rfl : u = time := Nat.le_antisymm late (due u mem)
      have lt : s₁.sight.now < u := rests.lt u mem
      cases spans with
      | ends run' ends => exact .wakes idles lt mem due run' ends
      | naps run' rest' => exact .sleeps idles lt mem due run' rest'

/-- The clock can go on like that. -/
theorem Segment.Naps.timed (h : g.Naps worker w r w') (tended : g.Tended free out s)
    (same : s.sight = w) : ∃ time, s.now ≤ time ∧ (∀ u ∈ g.deadlines, time ≤ u) ∧
      ∃ s', g.Timed worker (s.advanceTo time) r s' ∧ s'.sight = w' := by
  induction h generalizing s with
  | @stays g w time le early idle =>
    subst same
    obtain ⟨s', polls, same'⟩ := (idle time le early).polls (tended.advanceTo time).code
      (s.sight_advanceTo time)
    exact ⟨time, le, fun u mem => Nat.le_of_lt (early u mem), s', .last polls, same'⟩
  | @wakes g w w' r m idle lt due least run ends =>
    subst same
    obtain ⟨s', polls, same'⟩ := run.polls (tended.advanceTo m).code (s.sight_advanceTo m)
    exact ⟨m, Nat.le_of_lt lt, least, s', .last polls, same'⟩
  | @sleeps g g' w w₁ w' r m idle lt due least run rest ih =>
    subst same
    obtain ⟨s₁, polls, same₁⟩ := run.polls (tended.advanceTo m).code (s.sight_advanceTo m)
    obtain ⟨tended₁, -⟩ := ((tended.advanceTo m).polls polls).parked g' rfl
    obtain ⟨time, le, due', s', timed, same'⟩ := ih tended₁ same₁
    exact ⟨m, Nat.le_of_lt lt, least, s', .wait polls le due' timed, same'⟩

theorem Segment.Spans.timed (h : g.Spans worker w r w') (tended : g.Tended free out s)
    (same : s.sight = w) : ∃ s', g.Timed worker s r s' ∧ s'.sight = w' := by
  cases h with
  | ends run ends =>
    obtain ⟨s', polls, same'⟩ := run.polls tended.code same
    exact ⟨s', .last polls, same'⟩
  | @naps g' w₁ run rest =>
    obtain ⟨s₁, polls, same₁⟩ := run.polls tended.code same
    obtain ⟨tended₁, -⟩ := (tended.polls polls).parked g' rfl
    obtain ⟨time, le, due, s', timed, same'⟩ := rest.timed tended₁ same₁
    exact ⟨s', .wait polls le due timed, same'⟩

/-- A task comes to an end at one time and in one way, wherever else the clock has stopped; until then
it waits. -/
theorem Segment.Spans.over (h : g.Spans worker w r w₁) (ends : r.Over)
    (h' : g.Spans worker w r' w₂) :
    r' = r ∧ w₂ = w₁ ∨ (∃ g', r' = .parked g') ∧ w₂.now < w₁.now := by
  cases h with
  | ends run _ =>
    cases h' with
    | ends run' _ => exact .inl (run.unique run')
    | naps run' _ => exact (ends _ (run.unique run').1.symm).elim
  | naps run rest =>
    cases h' with
    | ends run' ends' => exact (ends' _ (run.unique run').1).elim
    | naps run' rest' =>
      obtain ⟨same, rfl⟩ := run.unique run'
      cases same
      exact rest.over ends rest'

theorem Segment.Spans.once {g₁ g₂ : Segment} (h : g.Spans worker w (.parked g₁) w₁)
    (h' : g.Spans worker w (.parked g₂) w₂) (same : w₂.now = w₁.now) : g₂ = g₁ ∧ w₂ = w₁ := by
  cases h with
  | ends _ ends => exact (ends _ rfl).elim
  | naps run rest =>
    cases h' with
    | ends _ ends => exact (ends _ rfl).elim
    | naps run' rest' =>
      obtain ⟨waits, rfl⟩ := run.unique run'
      cases waits
      exact rest.once rest' same

theorem Segment.Spans.stop {limit : Nat} (h : g.Spans worker w r w') (le : w.now ≤ limit)
    (lt : limit < w'.now) : ∃ g' w₁, g.Spans worker w (.parked g') w₁ ∧ w₁.now = limit := by
  cases h with
  | ends run _ =>
    have now := run.1
    omega
  | naps run rest =>
    have now := run.1
    obtain ⟨g', w₁, rest', stop⟩ := rest.stop (by omega) lt
    exact ⟨g', w₁, .naps run rest', stop⟩

end

end EffectFibers
