import EffectFibers.Proofs.Direct
import Mathlib

/-!
# The run loop and the direct reading

A run loop goes down into an effect and leaves frames behind, and it comes back through them; a
poll that can only wait is followed by another one.  `Config.Comes` is what all its polls come to.
For a sequential effect the machine follows the direct reading (`Effect.Sequential.meets`): under
any frames and below any callers that wait for one loop alone, it gets from the effect to the exit
that the direct reading gives.  The frames are not looked at before that.

The other direction counts steps: where the direct reading meets its bound on rounds, the machine
has made as many steps, so a machine that comes to something stays within some bound.

## Main statements

* `Effect.Sequential.meets`: the machine reads along with the direct reading.
* `Effect.Sequential.trampoline`: the run loop refines the direct reading, and with frames it goes
  on to unwind them.
-/

namespace EffectFibers

variable {c c' c₁ c₂ : Config} {sc sc' sc₁ sc₂ : Scene} {r : Except Stop Exit} {n m : Nat}

/-! ## A run loop over its polls -/

namespace Progress

/-- What a poll of this one step comes to. -/
def result : Progress → Config.Result
  | .next _ => .unfinished
  | .ended x => .ended x
  | .parked segment => .parked segment
  | .faulted f => .faulted f

variable {p : Progress}

theorem result_eq_ended {x : Exit} : p.result = .ended x ↔ p = .ended x := by
  cases p <;> simp [result]

theorem result_eq_parked {segment : Segment} :
    p.result = .parked segment ↔ p = .parked segment := by
  cases p <;> simp [result]

theorem result_eq_faulted {f : Fault} : p.result = .faulted f ↔ p = .faulted f := by
  cases p <;> simp [result]

end Progress

namespace Config

/-- What the polls of a run loop come to.  A poll that can only wait is followed by the next
one. -/
inductive Comes : Config → Scene → Except Stop Exit → Scene → Prop
  | ended {c : Config} {sc : Scene} {bound : Nat} {x : Exit} {s : Store}
      (h : c.run sc.worker bound sc.store = (.ended x, s)) :
      Comes c sc (.ok x) { sc with store := s }
  | faulted {c : Config} {sc : Scene} {bound : Nat} {f : Fault} {s : Store}
      (h : c.run sc.worker bound sc.store = (.faulted f, s)) :
      Comes c sc (.error (.faulted f)) { sc with store := s }
  | waiting {c : Config} {sc : Scene} {bound : Nat} {segment : Segment} {s : Store}
      (h : c.run sc.worker bound sc.store = (.parked segment, s)) (none : sc.polls = []) :
      Comes c sc (.error .waiting) { sc with store := s }
  | polled {c : Config} {sc sc' : Scene} {bound : Nat} {segment : Segment} {s : Store} {poll : Poll}
      {polls : List Poll} {r : Except Stop Exit}
      (h : c.run sc.worker bound sc.store = (.parked segment, s)) (next : sc.polls = poll :: polls)
      (later : Comes ⟨.resume segment, []⟩ ⟨poll.worker, polls, poll.meanwhile s⟩ r sc') :
      Comes c sc r sc'

/-- One step of a run loop, over its polls. -/
inductive Strides (c : Config) (sc : Scene) : Config → Scene → Prop
  | step {c' : Config} {s : Store} (h : c.step sc.worker sc.store = (.next c', s)) :
      Strides c sc c' { sc with store := s }
  | poll {segment : Segment} {s : Store} {poll : Poll} {polls : List Poll}
      (h : c.step sc.worker sc.store = (.parked segment, s)) (next : sc.polls = poll :: polls) :
      Strides c sc ⟨.resume segment, []⟩ ⟨poll.worker, polls, poll.meanwhile s⟩

/-- A run loop has come to something. -/
inductive Halts (c : Config) (sc : Scene) : Except Stop Exit → Scene → Prop
  | ended {x : Exit} {s : Store} (h : c.step sc.worker sc.store = (.ended x, s)) :
      Halts c sc (.ok x) { sc with store := s }
  | faulted {f : Fault} {s : Store} (h : c.step sc.worker sc.store = (.faulted f, s)) :
      Halts c sc (.error (.faulted f)) { sc with store := s }
  | waiting {segment : Segment} {s : Store}
      (h : c.step sc.worker sc.store = (.parked segment, s)) (none : sc.polls = []) :
      Halts c sc (.error .waiting) { sc with store := s }

/-- A number of steps of a run loop, over its polls. -/
inductive Takes : Nat → Config → Scene → Config → Scene → Prop
  | refl {c : Config} {sc : Scene} : Takes 0 c sc c sc
  | head {n : Nat} {c c₁ c' : Config} {sc sc₁ sc' : Scene} (stride : Strides c sc c₁ sc₁)
      (rest : Takes n c₁ sc₁ c' sc') : Takes (n + 1) c sc c' sc'

theorem Takes.trans (h : Takes n c sc c₁ sc₁) (h' : Takes m c₁ sc₁ c' sc') :
    Takes (n + m) c sc c' sc' := by
  induction h with
  | refl => rwa [Nat.zero_add]
  | head stride rest ih =>
    rw [Nat.succ_add]
    exact .head stride (ih h')

/-! ## Steps are deterministic -/

theorem Strides.unique (h : Strides c sc c₁ sc₁) (h' : Strides c sc c₂ sc₂) :
    c₁ = c₂ ∧ sc₁ = sc₂ := by
  cases h with
  | step h =>
    cases h' with
    | step h' => cases h.symm.trans h'; exact ⟨rfl, rfl⟩
    | poll h' => cases h.symm.trans h'
  | poll h next =>
    cases h' with
    | step h' => cases h.symm.trans h'
    | poll h' next' =>
      cases h.symm.trans h'
      cases next.symm.trans next'
      exact ⟨rfl, rfl⟩

theorem Halts.still (h : Halts c sc r sc') : ¬ Strides c sc c₁ sc₁ := by
  intro stride
  cases stride with
  | step h' => cases h with | ended h | faulted h | waiting h => cases h.symm.trans h'
  | poll h' next =>
    cases h with
    | ended h | faulted h => cases h.symm.trans h'
    | waiting h none => cases none.symm.trans next

theorem Halts.unique {r' : Except Stop Exit} (h : Halts c sc r sc₁) (h' : Halts c sc r' sc₂) :
    r = r' ∧ sc₁ = sc₂ := by
  cases h with
  | ended h | faulted h | waiting h =>
    cases h' with | ended h' | faulted h' | waiting h' =>
      cases h.symm.trans h' <;> exact ⟨rfl, rfl⟩

/-- A run loop that has come to something takes no more steps. -/
theorem Takes.le (h : Takes n c sc c₁ sc₁) (h' : Takes m c sc c₂ sc₂) (halts : Halts c₂ sc₂ r sc') :
    n ≤ m := by
  induction h generalizing m with
  | refl => exact Nat.zero_le _
  | head stride rest ih =>
    cases h' with
    | refl => exact (halts.still stride).elim
    | head stride' rest' =>
      obtain ⟨rfl, rfl⟩ := stride.unique stride'
      exact Nat.succ_le_succ (ih rest')

/-- What comes behind the first steps comes behind fewer of them. -/
theorem Takes.rest (h : Takes n c sc c₁ sc₁) (h' : Takes m c sc c₂ sc₂)
    (halts : Halts c₂ sc₂ r sc') : ∃ k, Takes k c₁ sc₁ c₂ sc₂ := by
  induction h generalizing m with
  | refl => exact ⟨m, h'⟩
  | head stride rest ih =>
    cases h' with
    | refl => exact (halts.still stride).elim
    | head stride' rest' =>
      obtain ⟨rfl, rfl⟩ := stride.unique stride'
      exact ih rest'

theorem Takes.final (h : Takes n c sc c₁ sc₁) {r' : Except Stop Exit} (halts : Halts c₁ sc₁ r sc')
    (halts' : Halts c sc r' sc₂) : r = r' ∧ sc' = sc₂ := by
  cases h with
  | refl => exact halts.unique halts'
  | head stride => exact (halts'.still stride).elim

theorem Comes.head (stride : Strides c sc c₁ sc₁) (h : Comes c₁ sc₁ r sc') : Comes c sc r sc' := by
  cases stride with
  | step step =>
    have run : ∀ bound, c.run sc.worker (bound + 1) sc.store = c₁.run sc.worker bound _ :=
      fun bound => by rw [Config.run, step]
    cases h with
    | ended h => exact .ended ((run _).trans h)
    | faulted h => exact .faulted ((run _).trans h)
    | waiting h none => exact .waiting ((run _).trans h) none
    | polled h next later => exact .polled ((run _).trans h) next later
  | @poll segment s poll polls step next =>
    have run : c.run sc.worker 1 sc.store = (.parked segment, s) := by rw [Config.run, step]
    exact .polled run next h

theorem Comes.steps (takes : Takes n c sc c₁ sc₁) (h : Comes c₁ sc₁ r sc') : Comes c sc r sc' := by
  induction takes with
  | refl => exact h
  | head stride rest ih => exact .head stride (ih h)

theorem run_one (c : Config) (worker : Worker) (s : Store) :
    c.run worker 1 s = ((c.step worker s).1.result, (c.step worker s).2) := by
  rw [Config.run]
  split <;> simp_all [Config.run, Progress.result]

theorem Halts.comes (h : Halts c sc r sc') : Comes c sc r sc' := by
  cases h with
  | ended h => exact .ended ((run_one ..).trans (by rw [h]; rfl))
  | faulted h => exact .faulted ((run_one ..).trans (by rw [h]; rfl))
  | waiting h none => exact .waiting ((run_one ..).trans (by rw [h]; rfl)) none

/-- A poll that comes to something is a number of steps. -/
theorem exists_takes_of_run {worker : Worker} {bound : Nat} {result : Result} {s s' : Store}
    (polls : List Poll) (h : c.run worker bound s = (result, s'))
    (finished : result ≠ .unfinished) :
    ∃ n c' s₁ p, Takes n c ⟨worker, polls, s⟩ c' ⟨worker, polls, s₁⟩ ∧
      c'.step worker s₁ = (p, s') ∧ p.result = result := by
  induction bound generalizing c s with
  | zero => cases h; exact (finished rfl).elim
  | succ bound ih =>
    rw [Config.run] at h
    split at h
    · next c₁ s₁ step =>
      obtain ⟨n, c', s₂, p, takes, last, same⟩ := ih h
      exact ⟨n + 1, c', s₂, p, .head (.step step) takes, last, same⟩
    all_goals
      next step =>
      cases h
      exact ⟨0, c, s, _, .refl, step, rfl⟩

theorem comes_iff : Comes c sc r sc' ↔ ∃ n c₁ sc₁, Takes n c sc c₁ sc₁ ∧ Halts c₁ sc₁ r sc' := by
  constructor
  · intro h
    induction h with
    | @ended c sc bound x s h =>
      obtain ⟨n, c₁, s₁, p, takes, last, same⟩ := exists_takes_of_run sc.polls h nofun
      cases Progress.result_eq_ended.mp same
      exact ⟨n, c₁, _, takes, .ended last⟩
    | @faulted c sc bound f s h =>
      obtain ⟨n, c₁, s₁, p, takes, last, same⟩ := exists_takes_of_run sc.polls h nofun
      cases Progress.result_eq_faulted.mp same
      exact ⟨n, c₁, _, takes, .faulted last⟩
    | @waiting c sc bound segment s h none =>
      obtain ⟨n, c₁, s₁, p, takes, last, same⟩ := exists_takes_of_run sc.polls h nofun
      cases Progress.result_eq_parked.mp same
      exact ⟨n, c₁, _, takes, .waiting last none⟩
    | @polled c sc sc' bound segment s poll polls r h next later ih =>
      obtain ⟨n, c₁, s₁, p, takes, last, same⟩ := exists_takes_of_run sc.polls h nofun
      obtain ⟨m, c₂, sc₂, rest, halts⟩ := ih
      cases Progress.result_eq_parked.mp same
      exact ⟨_, c₂, sc₂, takes.trans (.head (.poll last next) rest), halts⟩
  · rintro ⟨n, c₁, sc₁, takes, halts⟩
    exact .steps takes halts.comes

/-- What a run loop comes to does not depend on where one begins to look. -/
theorem Takes.comes_iff (h : Takes n c sc c₁ sc₁) : Comes c sc r sc' ↔ Comes c₁ sc₁ r sc' := by
  refine ⟨fun comes => ?_, .steps h⟩
  obtain ⟨m, c₂, sc₂, takes, halts⟩ := Config.comes_iff.mp comes
  obtain ⟨k, rest⟩ := h.rest takes halts
  exact Config.comes_iff.mpr ⟨k, c₂, sc₂, rest, halts⟩

theorem Halts.comes_iff {r' : Except Stop Exit} (h : Halts c sc r sc₁) :
    Comes c sc r' sc' ↔ r' = r ∧ sc' = sc₁ := by
  constructor
  · intro comes
    obtain ⟨m, c₂, sc₂, takes, halts⟩ := Config.comes_iff.mp comes
    exact takes.final halts h
  · rintro ⟨rfl, rfl⟩
    exact h.comes

end Config

theorem Config.step_eval (worker : Worker) (loop : Loop) (effect : Effect) (callers : List Caller)
    (s : Store) : Config.step worker ⟨.eval loop effect, callers⟩ s
      = Machine.evalStep worker loop callers s effect := rfl

/-! ## Waiting below callers -/

/-- The caller waits for one loop alone. -/
def Caller.Single : Caller → Prop
  | .acquiring .. | .releasing .. => True
  | .racingLeft .. | .racingRight .. | .settling .. | .remaining .. => False

open Config

/-- A segment that parks below callers comes back below the same callers at the next poll. -/
theorem takes_of_park {callers : List Caller} (single : ∀ k ∈ callers, k.Single)
    (segment : Segment) (worker : Worker) (poll : Poll) (polls : List Poll) (s : Store) :
    ∃ n, Takes n ⟨.park segment, callers⟩ ⟨worker, poll :: polls, s⟩ ⟨.resume segment, callers⟩
      ⟨poll.worker, polls, poll.meanwhile s⟩ := by
  induction callers generalizing segment with
  | nil => exact ⟨1, .head (.poll rfl rfl) .refl⟩
  | cons k callers ih =>
    have rest := ih fun k mem => single k (List.mem_cons_of_mem _ mem)
    cases k with
    | acquiring loop use release =>
      obtain ⟨n, takes⟩ := rest (.acquiring loop use release segment)
      exact ⟨_, .head (.step rfl) (takes.trans (.head (.step rfl) .refl))⟩
    | releasing loop bracket outcome =>
      obtain ⟨n, takes⟩ := rest (.releasing loop bracket outcome segment)
      exact ⟨_, .head (.step rfl) (takes.trans (.head (.step rfl) .refl))⟩
    | racingLeft | racingRight | settling | remaining =>
      exact (single _ (List.mem_cons_self ..)).elim

theorem halts_of_park {callers : List Caller} (single : ∀ k ∈ callers, k.Single)
    (segment : Segment) (worker : Worker) (s : Store) :
    ∃ n c, Takes n ⟨.park segment, callers⟩ ⟨worker, [], s⟩ c ⟨worker, [], s⟩ ∧
      Halts c ⟨worker, [], s⟩ (.error .waiting) ⟨worker, [], s⟩ := by
  induction callers generalizing segment with
  | nil => exact ⟨0, _, .refl, .waiting rfl rfl⟩
  | cons k callers ih =>
    have rest := ih fun k mem => single k (List.mem_cons_of_mem _ mem)
    cases k with
    | acquiring loop use release =>
      obtain ⟨n, c, takes, halts⟩ := rest (.acquiring loop use release segment)
      exact ⟨_, c, .head (.step rfl) takes, halts⟩
    | releasing loop bracket outcome =>
      obtain ⟨n, c, takes, halts⟩ := rest (.releasing loop bracket outcome segment)
      exact ⟨_, c, .head (.step rfl) takes, halts⟩
    | racingLeft | racingRight | settling | remaining =>
      exact (single _ (List.mem_cons_self ..)).elim

/-! ## Reading along -/

/-- The machine does what the direct reading says: it comes to the exit, or stops with it, or
makes at least as many steps as the bound on rounds. -/
def Meets (bound : Nat) (c : Config) (sc : Scene) (goal : Exit → Config) :
    Except Stop Exit × Scene → Prop
  | (.ok x, sc') => ∃ n, Takes n c sc (goal x) sc'
  | (.error .unfinished, _) => ∃ n c' sc', bound ≤ n ∧ Takes n c sc c' sc'
  | (.error e, sc') => ∃ n c' sc₁, Takes n c sc c' sc₁ ∧ Halts c' sc₁ (.error e) sc'

namespace Meets

variable {bound : Nat} {goal goal' : Exit → Config} {result : Except Stop Exit × Scene}

theorem mono (h : Meets n c sc goal result) (le : m ≤ n) : Meets m c sc goal result := by
  obtain ⟨x | e, sc'⟩ := result
  · cases x with
    | unfinished =>
      obtain ⟨k, c', sc', bound, takes⟩ := h
      exact ⟨k, c', sc', Nat.le_trans le bound, takes⟩
    | faulted | waiting | outside => exact h
  · exact h

theorem after (takes : Takes m c sc c₁ sc₁) (h : Meets n c₁ sc₁ goal result) :
    Meets (m + n) c sc goal result := by
  obtain ⟨x | e, sc'⟩ := result
  · cases x with
    | unfinished =>
      obtain ⟨k, c', sc', bound, rest⟩ := h
      exact ⟨m + k, c', sc', Nat.add_le_add_left bound m, takes.trans rest⟩
    | faulted | waiting | outside =>
      obtain ⟨k, c', sc₁, rest, halts⟩ := h
      exact ⟨m + k, c', sc₁, takes.trans rest, halts⟩
  · obtain ⟨k, rest⟩ := h
    exact ⟨m + k, takes.trans rest⟩

/-- The first steps are followed by the rest. -/
theorem follow (takes : Takes m c sc c₁ sc₁) (h : Meets n c₁ sc₁ goal result) :
    Meets n c sc goal result :=
  (after takes h).mono (Nat.le_add_left n m)

theorem step {s : Store} (h : c.step sc.worker sc.store = (.next c₁, s))
    (rest : Meets n c₁ { sc with store := s } goal result) : Meets n c sc goal result :=
  follow (.head (.step h) .refl) rest

theorem reach {x : Exit} {s : Store} (h : c.step sc.worker sc.store = (.next (goal x), s)) :
    Meets n c sc goal (.ok x, { sc with store := s }) :=
  ⟨1, .head (.step h) .refl⟩

theorem here {x : Exit} : Meets n (goal x) sc goal (.ok x, sc) := ⟨0, .refl⟩

theorem fault {f : Fault} {s : Store} (h : c.step sc.worker sc.store = (.faulted f, s)) :
    Meets n c sc goal (.error (.faulted f), { sc with store := s }) :=
  ⟨0, c, sc, .refl, .faulted h⟩

/-- What is read one after the other is done one after the other. -/
theorem bind {x : Direct Exit} {f : Exit → Direct Exit} (first : Meets n c sc goal (x sc₁))
    (rest : ∀ y sc', Meets n (goal y) sc' goal' (f y sc')) :
    Meets n c sc goal' ((x >>= f) sc₁) := by
  rw [Direct.bind_apply]
  generalize x sc₁ = came at first
  obtain ⟨e | y, sc'⟩ := came
  · cases e <;> exact first
  · obtain ⟨k, takes⟩ := first
    exact follow takes (rest y sc')

end Meets

variable {loop : Loop} {env : Env} {frames : List Frame} {callers : List Caller} {rounds : Nat}

/-- The loop goes on with the exit. -/
def Loop.unwinding (loop : Loop) (callers : List Caller) (x : Exit) : Config :=
  ⟨.unwind loop x, callers⟩

/-- A loop that waits is asked once in each poll. -/
theorem meets_wait {ask : Worker → Store → Direct.Answer × Store} {segment : Segment}
    (single : ∀ k ∈ callers, k.Single)
    (asks : ∀ worker s, Config.step worker ⟨.resume segment, callers⟩ s =
      match ask worker s with
      | (.exit x, s) => (.next (loop.unwinding callers x), s)
      | (.fault f, s) => (.faulted f, s)
      | (.later, s) => (.next ⟨.park segment, callers⟩, s)) :
    Meets n ⟨.resume segment, callers⟩ sc (loop.unwinding callers) (Direct.wait ask sc) := by
  obtain ⟨worker, polls, s⟩ := sc
  show Meets n _ _ _ (Direct.waitOn ask polls worker s)
  induction polls generalizing worker s with
  | nil =>
    have asked := asks worker s
    rw [Direct.waitOn]
    generalize ask worker s = answer at asked
    obtain ⟨x | f | _, s'⟩ := answer
    · exact .reach asked
    · exact .fault asked
    · obtain ⟨k, c, takes, halts⟩ := halts_of_park single segment worker s'
      exact ⟨k + 1, c, _, .head (.step asked) takes, halts⟩
  | cons poll polls ih =>
    have asked := asks worker s
    rw [Direct.waitOn]
    generalize ask worker s = answer at asked
    obtain ⟨x | f | _, s'⟩ := answer
    · exact .reach asked
    · exact .fault asked
    · obtain ⟨k, takes⟩ := takes_of_park single segment worker poll polls s'
      exact .step asked (.follow takes (ih _ _))

/-- A nested loop without frames ends with the exit of what it evaluates. -/
theorem meets_masked {body : Env → Direct Exit} {effect : Effect} (env : Env) (sc : Scene)
    (reads : ∀ env sc, Meets n ⟨.eval ⟨env, []⟩ effect, callers⟩ sc
      (Loop.unwinding ⟨env, []⟩ callers) (body env sc)) :
    Meets n ⟨.eval ⟨env.withToken sc.store.freshToken.1, []⟩ effect, callers⟩
      { sc with store := sc.store.freshToken.2 } (fun x => ⟨.leave x, callers⟩)
      (Direct.masked env body sc) := by
  refine Meets.bind (reads _ _) fun x sc' => ?_
  exact .reach rfl

/-- A release frame shows the release what the use has come to. -/
theorem meets_finalize {bracket : BracketId} {release : ExitCase Value → Effect}
    {body : ExitCase Value → Env → Direct Exit} {x : Exit}
    (reads : ∀ exitCase env sc callers, (∀ k ∈ callers, k.Single) →
      Meets n ⟨.eval ⟨env, []⟩ (release exitCase), callers⟩ sc (Loop.unwinding ⟨env, []⟩ callers)
        (body exitCase env sc)) (single : ∀ k ∈ callers, k.Single) :
    Meets n (Loop.unwinding ⟨env, .release bracket release :: frames⟩ callers x) sc
      (Loop.unwinding ⟨env, frames⟩ callers)
      (Direct.finalize env bracket (fun exitCase => (release exitCase).fault?) body x sc) := by
  have observed : Direct.observe env x sc
      = (.ok (if sc.store.isCancelled env.token then .canceled else x), sc) := by
    show (if sc.store.isCancelled env.token then pure .canceled else pure x : Direct Exit) sc = _
    split <;> rfl
  have frame : Config.step sc.worker
      (Loop.unwinding ⟨env, .release bracket release :: frames⟩ callers x) sc.store
        = Machine.frameStep ⟨env, frames⟩ callers sc.store (.release bracket release) x := rfl
  dsimp only [Machine.frameStep] at frame
  -- both sides show the release this outcome
  generalize (if sc.store.isCancelled env.token then Outcome.canceled else x) = outcome
    at observed frame
  rw [Direct.finalize, Direct.bind_apply, observed]
  dsimp only
  generalize (release outcome.exitCase).fault? = fault? at frame ⊢
  cases fault? with
  | some f => exact .fault frame
  | none =>
    refine .step frame ?_
    have inner : ∀ k ∈ Caller.releasing ⟨env, frames⟩ bracket outcome :: callers, k.Single :=
      List.forall_mem_cons.mpr ⟨trivial, single⟩
    let started := sc.store.emit (.releaseStarted env.token bracket outcome)
    have first := meets_masked env ⟨sc.worker, sc.polls, started⟩ fun env sc =>
      reads outcome.exitCase env sc _ inner
    refine .bind first fun y sc' => ?_
    cases y with
    | errored e => cases outcome <;> exact .reach rfl
    | succeeded | canceled => exact .reach rfl

/-- A change of the store that may end in a fault is one step. -/
theorem meets_tryDraw {α : Type} {f : Worker → Store → Except Fault α × Store} {s : Store}
    {goal : Exit → Config} {g : α → Direct Exit} (next : α → Config)
    (step : Config.step sc.worker c sc.store = match f sc.worker s with
      | (.ok a, s) => (.next (next a), s)
      | (.error e, s) => (.faulted e, s))
    (rest : ∀ a sc', Meets n (next a) sc' goal (g a sc')) :
    Meets n c sc goal ((Direct.tryDraw f >>= g) { sc with store := s }) := by
  rw [Direct.bind_apply, Direct.tryDraw]
  dsimp only
  generalize f sc.worker s = result at step
  obtain ⟨a | e, s'⟩ := result
  · exact .fault step
  · exact .step step (rest _ _)

/-- What is done only under a token that is not cancelled is done in the step that looks at it. -/
theorem meets_guarded {mark : Event} {go : Direct Exit} {s : Store}
    (going : Store → Progress × Store)
    (step : Config.step sc.worker c sc.store = if s.isCancelled loop.env.token then
      (.next (loop.unwinding callers .canceled), s) else going (s.emit mark))
    (rest : Config.step sc.worker c sc.store = going (s.emit mark) →
      Meets n c sc (loop.unwinding callers) (go { sc with store := s.emit mark })) :
    Meets n c sc (loop.unwinding callers)
      (Direct.guarded loop.env mark go { sc with store := s }) := by
  rw [Direct.guarded_apply]
  split at step
  · next cancelled =>
    rw [if_pos cancelled]
    exact .reach step
  · next live =>
    rw [if_neg live]
    exact rest step

theorem meets_point {point : Point} {go : Direct Exit} {going : Store → Progress × Store}
    (step : Config.step sc.worker c sc.store = Machine.atPoint sc.store loop callers point going)
    (rest : Config.step sc.worker c sc.store
        = going (sc.store.emit (.entered loop.env.token point)) →
      Meets n c sc (loop.unwinding callers)
        (go { sc with store := sc.store.emit (.entered loop.env.token point) })) :
    Meets n c sc (loop.unwinding callers)
      (Direct.guarded loop.env (.entered loop.env.token point) go sc) :=
  meets_guarded going step rest

theorem resume_callback (loop : Loop) (slot : Nat) (callers : List Caller) (worker : Worker)
    (s : Store) : Config.step worker ⟨.resume (.callback loop slot), callers⟩ s =
      match Direct.askCallback loop.env.token slot worker s with
      | (.exit x, s) => (.next (loop.unwinding callers x), s)
      | (.fault f, s) => (.faulted f, s)
      | (.later, s) => (.next ⟨.park (.callback loop slot), callers⟩, s) := by
  rw [Direct.askCallback]
  simp only [Config.step, Machine.resumeStep]
  cases (s.slot slot).callback.poll with
  | delivered | dropped => rfl
  | waiting => cases s.isCancelled loop.env.token <;> rfl

theorem resume_future (loop : Loop) (pending : Wait) (callers : List Caller) (worker : Worker)
    (s : Store) : Config.step worker ⟨.resume (.future loop pending), callers⟩ s =
      match Direct.askFuture loop.env.token pending worker s with
      | (.exit x, s) => (.next (loop.unwinding callers x), s)
      | (.fault f, s) => (.faulted f, s)
      | (.later, s) => (.next ⟨.park (.future loop pending), callers⟩, s) := by
  rw [Direct.askFuture]
  simp only [Config.step, Machine.resumeStep]
  cases Machine.Wait.result? s pending with
  | some result => rfl
  | none => cases s.isCancelled loop.env.token <;> rfl

/-- Each round of a loop is at least one step. -/
theorem meets_iterate {again : Value → Except Fault Bool} {body : Value → Effect} {v : Value}
    (reads : ∀ v frames sc, Meets rounds ⟨.eval ⟨env, frames⟩ (body v), callers⟩ sc
      (Loop.unwinding ⟨env, frames⟩ callers) ((body v).evaluate rounds env sc)) (left : Nat)
    (le : left ≤ rounds) :
    Meets left ⟨.eval ⟨env, frames⟩ (.loop again body v), callers⟩ sc
      (Loop.unwinding ⟨env, frames⟩ callers)
      (Direct.iterate again (fun v => (body v).evaluate rounds env) left v sc) := by
  induction left generalizing v sc with
  | zero => exact ⟨0, _, _, Nat.le_refl 0, .refl⟩
  | succ left ih =>
    have step := step_eval sc.worker ⟨env, frames⟩ (.loop again body v) callers sc.store
    rw [Machine.evalStep] at step
    rw [Direct.iterate]
    generalize again v = asked at step
    obtain f | more := asked
    · exact .fault step
    · cases more with
      | false => exact .reach step
      | true =>
        rw [Nat.add_comm]
        refine Meets.after (.head (.step step) .refl) ?_
        refine .bind ((reads v _ _).mono (Nat.le_of_succ_le le)) fun y sc' => ?_
        cases y with
        | succeeded w => exact .step rfl (ih (Nat.le_of_succ_le le))
        | errored | canceled => exact .reach rfl

/-- The machine reads an effect along with the direct reading, whatever the frames and the
callers. -/
theorem Effect.Sequential.meets {effect : Effect} (h : effect.Sequential)
    (single : ∀ k ∈ callers, k.Single) :
    Meets rounds ⟨.eval ⟨env, frames⟩ effect, callers⟩ sc (Loop.unwinding ⟨env, frames⟩ callers)
      (effect.evaluate rounds env sc) := by
  induction effect generalizing env frames callers sc with
  | pure v => exact .reach rfl
  | fail e => exact .reach rfl
  | fault f => exact .fault rfl
  | perform act next ih =>
    rw [evaluate]
    refine meets_tryDraw (fun reply => ⟨.eval ⟨env, frames⟩ (next reply), callers⟩) ?_
      fun reply _ => ih reply (h reply) single
    dsimp only [Config.step, Machine.evalStep]
    generalize act ⟨sc.worker.thread, sc.store.time⟩ sc.store.memory = replied
    obtain ⟨f | reply, memory⟩ := replied <;> rfl
  | cancel t => exact .reach rfl
  | isCancelled t => exact .reach rfl
  | map source f ih =>
    rw [evaluate]
    refine .step rfl (.bind (ih h single) fun y sc' => ?_)
    cases y with
    | succeeded v =>
      refine meets_tryDraw (fun w => Loop.unwinding ⟨env, frames⟩ callers (.succeeded w)) ?_
        fun w sc => .here
      dsimp only [Config.step, Loop.unwinding, Loop.push, Machine.unwindStep, Machine.frameStep]
      cases f v <;> rfl
    | errored | canceled => exact .reach rfl
  | flatMap source f ih ih' =>
    rw [evaluate]
    refine .step rfl (.bind (ih h.1 single) fun y sc' => ?_)
    cases y with
    | succeeded v => exact .step rfl (ih' v (h.2 v) single)
    | errored | canceled => exact .reach rfl
  | handleErrorWith source handler ih ih' =>
    rw [evaluate]
    refine .step rfl (.bind (ih h.1 single) fun y sc' => ?_)
    cases y with
    | errored e => exact .step rfl (ih' e (h.2 e) single)
    | succeeded | canceled => exact .reach rfl
  | loop again body v ih =>
    rw [evaluate]
    exact meets_iterate (fun v frames sc => ih v (h v) single) rounds (Nat.le_refl rounds)
  | async registration =>
    rw [evaluate]
    have point := step_eval sc.worker ⟨env, frames⟩ (.async registration) callers sc.store
    rw [Machine.evalStep] at point
    refine meets_point point fun step =>
      meets_tryDraw (fun slot => ⟨.resume (.callback ⟨env, frames⟩ slot), callers⟩)
        (step.trans ?_) fun slot _ =>
          meets_wait single (resume_callback ⟨env, frames⟩ slot callers)
    generalize Machine.register sc.worker registration _ = registered
    obtain ⟨f | slot, s⟩ := registered <;> rfl
  | await future =>
    rw [evaluate]
    have point := step_eval sc.worker ⟨env, frames⟩ (.await future) callers sc.store
    rw [Machine.evalStep] at point
    refine meets_point point fun step =>
      meets_tryDraw (fun pending => ⟨.resume (.future ⟨env, frames⟩ pending), callers⟩)
        (step.trans ?_) fun pending _ =>
          meets_wait single (resume_future ⟨env, frames⟩ pending callers)
    cases Machine.start sc.worker _ future <;> rfl
  | bracket acquire use release ih ih' ih'' =>
    rw [evaluate]
    have point := step_eval sc.worker ⟨env, frames⟩ (.bracket acquire use release) callers sc.store
    rw [Machine.evalStep] at point
    refine meets_point point fun step => .step step ?_
    have inner : ∀ k ∈ Caller.acquiring ⟨env, frames⟩ use release :: callers, k.Single :=
      List.forall_mem_cons.mpr ⟨trivial, single⟩
    refine .bind (meets_masked env _ fun env sc => ih h.1 inner) fun y sc' => ?_
    cases y with
    | errored | canceled => exact .reach rfl
    | succeeded v =>
      let bracket := sc'.store.brackets
      let held : Loop := ⟨env, .release bracket (release v) :: frames⟩
      let acquired :=
        { sc'.store with brackets := bracket + 1 }.emit (.acquired env.token bracket v)
      have step : Config.step sc'.worker
          ⟨.leave (.succeeded v), .acquiring ⟨env, frames⟩ use release :: callers⟩ sc'.store
            = if acquired.isCancelled env.token then
              (.next (held.unwinding callers .canceled), acquired)
            else (Machine.eval held (use v) callers,
              acquired.emit (.useStarted env.token bracket)) := rfl
      have used := meets_guarded (fun s => (Machine.eval held (use v) callers, s)) step
        fun step => .step step (ih' v (h.2.1 v) single)
      refine Meets.bind used fun x sc => meets_finalize ?_ single
      exact fun exitCase env sc callers => ih'' v exitCase (h.2.2 v exitCase)
  | shift | race | parallel => exact h.elim

/-! ## The refinement -/

/-- What the machine comes to is what the direct reading comes to, within some bound, and then
what the goal comes to. -/
theorem comes_iff_of_meets {goal : Exit → Config} {read : Nat → Except Stop Exit × Scene}
    (meets : ∀ rounds, Meets rounds c sc goal (read rounds)) :
    Comes c sc r sc' ↔
      (∃ rounds e, r = .error e ∧ read rounds = (.error e, sc') ∧ e ≠ .unfinished) ∨
      ∃ rounds x sc₁, read rounds = (.ok x, sc₁) ∧ Comes (goal x) sc₁ r sc' := by
  constructor
  · intro comes
    obtain ⟨k, c₁, sc₁, takes, halts⟩ := Config.comes_iff.mp comes
    have met := meets (k + 1)
    generalize same : read (k + 1) = came at met
    obtain ⟨e | x, sc₂⟩ := came
    · cases e with
      | unfinished =>
        obtain ⟨n, c₂, sc₂, bound, other⟩ := met
        exact (Nat.not_succ_le_self k (Nat.le_trans bound (other.le takes halts))).elim
      | faulted | waiting | outside =>
        obtain ⟨n, c₂, sc₃, other, halts'⟩ := met
        obtain ⟨m, rest⟩ := other.rest takes halts
        obtain ⟨rfl, rfl⟩ := rest.final halts halts'
        exact .inl ⟨k + 1, _, rfl, same, nofun⟩
    · obtain ⟨n, other⟩ := met
      exact .inr ⟨k + 1, x, sc₂, same, other.comes_iff.mp comes⟩
  · rintro (⟨rounds, e, rfl, same, finished⟩ | ⟨rounds, x, sc₁, same, comes⟩)
    · have met := meets rounds
      rw [same] at met
      cases e with
      | unfinished => exact (finished rfl).elim
      | faulted | waiting | outside =>
        obtain ⟨n, c₂, sc₃, takes, halts⟩ := met
        exact takes.comes_iff.mpr halts.comes
    · have met := meets rounds
      rw [same] at met
      obtain ⟨n, takes⟩ := met
      exact takes.comes_iff.mpr comes

/-- A run loop, from its begin. -/
def Loop.begin (loop : Loop) (effect : Effect) : Config := ⟨.resume (.start loop effect), []⟩

theorem Effect.Sequential.comes_iff {effect : Effect} (h : effect.Sequential) :
    Comes (Loop.begin ⟨env, frames⟩ effect) sc r sc' ↔
      (∃ rounds e, r = .error e ∧ effect.evaluate rounds env sc = (.error e, sc') ∧
        e ≠ .unfinished) ∨
      ∃ rounds x sc₁, effect.evaluate rounds env sc = (.ok x, sc₁) ∧
        Comes (Loop.unwinding ⟨env, frames⟩ [] x) sc₁ r sc' :=
  comes_iff_of_meets fun _ => .step rfl (h.meets nofun)

/-- A loop without frames ends with the exit. -/
theorem comes_unwinding_nil {x : Exit} : Comes (Loop.unwinding ⟨env, []⟩ [] x) sc r sc' ↔
    r = .ok x ∧ sc' = { sc with store := sc.store.emit (.left env.token x) } := by
  have takes : Takes 1 (Loop.unwinding ⟨env, []⟩ [] x) sc ⟨.leave x, []⟩
    { sc with store := sc.store.emit (.left env.token x) } := .head (.step rfl) .refl
  exact takes.comes_iff.trans (Halts.comes_iff (.ended rfl))

theorem Effect.Sequential.comes_nil_iff {effect : Effect} (h : effect.Sequential) :
    Comes (Loop.begin ⟨env, []⟩ effect) sc r sc' ↔
      ∃ rounds, Direct.toEnd env (effect.evaluate rounds) sc = (r, sc') ∧
        r ≠ .error .unfinished := by
  refine h.comes_iff.trans ⟨?_, ?_⟩
  · rintro (⟨rounds, e, rfl, same, finished⟩ | ⟨rounds, x, sc₁, same, comes⟩)
    · refine ⟨rounds, ?_, by simpa using finished⟩
      rw [Direct.toEnd, Direct.bind_apply, same]
    · obtain ⟨rfl, rfl⟩ := comes_unwinding_nil.mp comes
      refine ⟨rounds, ?_, nofun⟩
      rw [Direct.toEnd, Direct.bind_apply, same]
      rfl
  · rintro ⟨rounds, same, finished⟩
    rw [Direct.toEnd, Direct.bind_apply] at same
    generalize came : effect.evaluate rounds env sc = result at same
    obtain ⟨e | x, sc₁⟩ := result
    · cases same
      exact .inl ⟨rounds, e, rfl, came, by simpa using finished⟩
    · cases same
      exact .inr ⟨rounds, x, sc₁, came, comes_unwinding_nil.mpr ⟨rfl, rfl⟩⟩

theorem emit_injective {e : Event} (h : { sc with store := sc.store.emit e }
    = { sc' with store := sc'.store.emit e }) : sc = sc' := by
  obtain ⟨worker, polls, s⟩ := sc
  obtain ⟨worker', polls', s'⟩ := sc'
  cases s
  cases s'
  simpa [Store.emit] using h

/-- What a run loop comes to from the empty frame stack is what the direct reading comes to: the
same exit, and the same store with all marks in it.  With any frame stack it goes on to unwind the
frames from that exit.  Without loops in the effect it comes to something. -/
theorem Effect.Sequential.trampoline {effect : Effect} (h : effect.Sequential) (env : Env)
    (sc : Scene) :
    (∀ r sc', Comes (Loop.begin ⟨env, []⟩ effect) sc r sc' ↔
      ∃ rounds, Direct.toEnd env (effect.evaluate rounds) sc = (r, sc') ∧
        r ≠ .error .unfinished) ∧
    (∀ frames r sc', Comes (Loop.begin ⟨env, frames⟩ effect) sc r sc' ↔
      (∃ e, r = .error e ∧ Comes (Loop.begin ⟨env, []⟩ effect) sc r sc') ∨
      ∃ x sc₁, Comes (Loop.begin ⟨env, []⟩ effect) sc (.ok x)
          { sc₁ with store := sc₁.store.emit (.left env.token x) } ∧
        Comes (Loop.unwinding ⟨env, frames⟩ [] x) sc₁ r sc') ∧
    (effect.Loopless → ∃ r sc', Comes (Loop.begin ⟨env, []⟩ effect) sc r sc') := by
  refine ⟨fun r sc' => h.comes_nil_iff, fun frames r sc' => h.comes_iff.trans ⟨?_, ?_⟩,
    fun loopless => ?_⟩
  · rintro (⟨rounds, e, rfl, same, finished⟩ | ⟨rounds, x, sc₁, same, comes⟩)
    · exact .inl ⟨e, rfl, h.comes_iff.mpr (.inl ⟨rounds, e, rfl, same, finished⟩)⟩
    · refine .inr ⟨x, sc₁, h.comes_iff.mpr (.inr ⟨rounds, x, sc₁, same, ?_⟩), comes⟩
      exact comes_unwinding_nil.mpr ⟨rfl, rfl⟩
  · rintro (⟨e, rfl, comes⟩ | ⟨x, sc₁, first, comes⟩)
    · obtain ⟨rounds, e', same⟩ | ⟨rounds, x, sc₁, -, rest⟩ := h.comes_iff.mp comes
      · exact .inl ⟨rounds, e', same⟩
      · cases (comes_unwinding_nil.mp rest).1
    · obtain ⟨rounds, e', other, -⟩ | ⟨rounds, x', sc₂, same, rest⟩ := h.comes_iff.mp first
      · cases other
      · obtain ⟨sameExit, sameScene⟩ := comes_unwinding_nil.mp rest
        cases sameExit
        cases emit_injective sameScene
        exact .inr ⟨rounds, x, sc₁, same, comes⟩
  · have finished := Direct.Finishes.toEnd env (loopless.finishes 0 env) sc
    exact ⟨_, _, h.comes_nil_iff.mpr ⟨0, rfl, finished⟩⟩

/-- The token is cancelled while the use of a bracket waits: the release is shown the cancellation,
and the frame behind the bracket, which is for values, is passed over. -/
theorem trampoline_abandoned_use : ∃ effect : Effect, ∃ env sc sc', effect.Sequential ∧
    effect.Loopless ∧ Comes (Loop.begin ⟨env, []⟩ effect) sc (.ok .canceled) sc' ∧
    sc'.store.trace = [.left 0 .canceled, .releaseFinished 0 0 (.succeeded .null),
      .left 2 (.succeeded .null), .releaseStarted 0 0 .canceled, .futureAbandoned,
      .entered 0 .future, .useStarted 0 0, .acquired 0 0 .null, .left 1 (.succeeded .null),
      .entered 0 .acquisition] := by
  let effect : Effect :=
    .flatMap (.bracket Effect.unit (fun _ => .await .never) fun _ _ => Effect.unit)
      fun _ => .cancel 0
  have sequential : effect.Sequential :=
    ⟨⟨trivial, fun _ => trivial, fun _ _ => trivial⟩, fun _ => trivial⟩
  have loopless : effect.Loopless :=
    ⟨⟨trivial, fun _ => trivial, fun _ _ => trivial⟩, fun _ => trivial⟩
  let env : Env := ⟨0, Context.home, []⟩
  let worker : Worker := ⟨1, "main"⟩
  let sc : Scene := ⟨worker, [⟨worker, fun s => s.cancel 0⟩], (Store.freshToken {}).2⟩
  let read := Direct.toEnd env (effect.evaluate 0) sc
  have canceled : read.1 = .ok .canceled := by
    dsimp only [read, effect, env, sc, worker]
    cbv
  have comes := ((sequential.trampoline env sc).1 (.ok .canceled) read.2).mpr
    ⟨0, Prod.ext canceled rfl, by simp⟩
  refine ⟨effect, env, sc, read.2, sequential, loopless, comes, ?_⟩
  dsimp only [read, effect, env, sc, worker]
  cbv

end EffectFibers
