import EffectFibers.Proofs.Stations

/-!
# The scope of a shift

The segments of a run are its loops: the run itself, every acquisition, every release, every
operand of a race and every parallel operand.  A shift leads the rest of its own segment to
another context, and no other segment; and behind a source that has failed there is no shift.

## Main statements

* `Fiber.Path.flatMap`: the continuation of a sequence is taken up when its source has succeeded.
* `Located.Reachable.scoping`: where every segment is carried out, and when a shift takes place.
-/

namespace EffectFibers

/-! ## Sequences -/

/-- How far a fiber has come that evaluates a sequence: it is about to, its source goes on as it
would by itself, the source has come to an exit, or the fiber goes on behind that exit. -/
inductive Fiber.Sequel (run : TokenId) (now : Store) (source : Effect) (next : Value → Effect)
    (env : Env) (rest : List Frame) : List Moment → Fiber → Prop
  | before : Sequel run now source next env rest [] ⟨⟨env, rest⟩, .evaluating (source.flatMap next)⟩
  | inside {own : List Moment} {φ : Fiber}
      (path : Path run now ⟨⟨env, []⟩, .evaluating source⟩ own φ) (busy : ¬ φ.Over) :
      Sequel run now source next env rest own (φ.above (.bind next :: rest))
  | between {own : List Moment} {env' : Env} {x : Exit}
      (path : Path run now ⟨⟨env, []⟩, .evaluating source⟩ own ⟨⟨env', []⟩, .unwinding x⟩) :
      Sequel run now source next env rest own ⟨⟨env', .bind next :: rest⟩, .unwinding x⟩
  | succeeded {own later : List Moment} {env' : Env} {v : Value} {φ' : Fiber}
      (path : Path run now ⟨⟨env, []⟩, .evaluating source⟩ own
        ⟨⟨env', []⟩, .unwinding (.succeeded v)⟩)
      (onward : Path run now ⟨⟨env', rest⟩, .evaluating (next v)⟩ later φ') :
      Sequel run now source next env rest (later ++ own) φ'
  /-- The continuation is passed over. -/
  | failed {own later : List Moment} {env' : Env} {x : Exit} {φ' : Fiber}
      (path : Path run now ⟨⟨env, []⟩, .evaluating source⟩ own ⟨⟨env', []⟩, .unwinding x⟩)
      (failed : x.isSucceeded = false)
      (onward : Path run now ⟨⟨env', rest⟩, .unwinding x⟩ later φ') :
      Sequel run now source next env rest (later ++ own) φ'

/-- A path that begins with a sequence follows it. -/
theorem Fiber.Path.flatMap {run : TokenId} {now : Store} {source : Effect} {next : Value → Effect}
    {env : Env} {rest : List Frame} {own : List Moment} {φ' : Fiber}
    (path : Path run now ⟨⟨env, rest⟩, .evaluating (source.flatMap next)⟩ own φ') :
    Sequel run now source next env rest own φ' := by
  obtain ⟨rfl, rfl⟩ | ⟨s, ms, φ₁, own₁, step, -, path, rfl⟩ := path.head
  · exact .before
  cases step with
  | refused h => cases h
  | bind =>
    have above : Path run now
        (Fiber.above (.bind next :: rest) ⟨⟨env, []⟩, .evaluating source⟩) own₁ φ' := path
    rw [List.map_nil, List.append_nil]
    obtain ⟨φ, own, byItself, ⟨busy, rfl, rfl⟩ | ⟨spent, later, rfl, onward⟩⟩ := above.of_above
    · exact .inside byItself busy
    obtain ⟨⟨env', frames⟩, doing⟩ := φ
    obtain ⟨rfl, x, rfl⟩ := spent
    obtain ⟨rfl, rfl⟩ | ⟨s, ms, φ₁, own₁, step, -, onward, rfl⟩ := onward.head
    · exact .between byItself
    cases step with
    | bound =>
      rw [List.map_nil, List.append_nil]
      exact .succeeded byItself onward
    | skipped skips =>
      rw [List.map_nil, List.append_nil]
      exact .failed byItself (by simpa [Frame.skips] using skips) onward

/-! ## What has become of a fiber -/

namespace Runtime

/-- A fiber is still there, or has parted with its last marks. -/
inductive Fate (σ' : Runtime) (run : TokenId) (φ' : Fiber) : List Moment → Prop
  | there (mem : (run, φ') ∈ σ'.crew) : Fate σ' run φ' []
  | parted {last : List Moment} (parting : Parting σ' run φ' last)
      (gone : φ'.token ∉ badges σ'.crew) : Fate σ' run φ' last

theorem Course.fate {σ' : Runtime} {run : TokenId} {φ : Fiber} {new : List Moment}
    (course : Course σ' run φ new) : ∃ own last φ', ownOf φ.token new = last ++ own ∧
      φ.Path run σ'.store own φ' ∧ Fate σ' run φ' last := by
  cases course with
  | there path mem => exact ⟨_, [], _, rfl, path, .there mem⟩
  | parted path parting marks gone =>
    rw [← path.token] at gone
    exact ⟨_, _, _, marks, path, .parted parting gone⟩

end Runtime

namespace Located

variable {L L' : Located}

/-- A poll on a thread of the station that comes to something is a run of steps. -/
theorem steps_of_poll {worker : Worker} {bound : Nat} {c : Config} {s s' : Store} {p : Placed}
    (runs : p.strand.state = .running c) (there : worker.thread = p.station.thread)
    (rest : Multiset Placed) (log : List Moment) {result : Config.Result} {state : Strand.State}
    (came : result.state? = some state) (poll : c.run worker bound s = (result, s')) :
    ∃ new es marks, s'.spawned = new ++ s.spawned ∧ s'.trace = es ++ s.trace ∧
      Runtime.Logged p.strand.run es marks ∧ Steps ⟨s, p ::ₘ rest, log⟩
        ⟨s', p.become state ::ₘ (Placed.ofSpawns p.strand.run new + rest), marks ++ log⟩ := by
  induction bound generalizing c s p rest log with
  | zero =>
    cases poll
    cases came
  | succ bound ih =>
    obtain ⟨-, es, new, trace, spawned, -⟩ := c.step_reacts worker s
    have logged := Runtime.logged_of p.strand.run s es
    have step : Step ⟨s, p ::ₘ rest, log⟩ ⟨(c.step worker s).2,
        p.become (c.step worker s).1.state ::ₘ (Placed.ofSpawns p.strand.run new + rest),
        (es.filter Event.isMark).map (.of p.strand.run s) ++ log⟩ := by
      have turned := Step.turn s rest log p c worker runs there
      rwa [Located.turn, Store.started_eq spawned, Store.since_eq trace] at turned
    rw [Config.run] at poll
    split at poll
    · next c₁ s₁ found =>
      rw [found] at spawned trace step
      have turned : (p.become (.running c₁)).strand.state = .running c₁ := rfl
      obtain ⟨new', es', marks, spawned', trace', logged', steps⟩ :=
        ih turned there (Placed.ofSpawns p.strand.run new + rest)
          ((es.filter Event.isMark).map (.of p.strand.run s) ++ log) poll
      refine ⟨new' ++ new, es' ++ es, _, ?_, ?_, logged'.append logged, ?_⟩
      · rw [spawned', spawned, List.append_assoc]
      · rw [trace', trace, List.append_assoc]
      · rw [Placed.ofSpawns_append, add_assoc, List.append_assoc]
        exact .head step steps
    all_goals
      next found =>
      rw [found] at spawned trace step
      cases poll
      cases came
      exact ⟨new, es, _, spawned, trace, logged, .single step⟩

end Located

end EffectFibers
