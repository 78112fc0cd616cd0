import EffectFibers.Proofs.Relocation

/-!
# A run that is alone

The steps of a run that is alone and is not cancelled (`Runtime.Alone`): its strands are polled, the
clock moves, and whoever holds a clone of a callback deals with it.  A loop that goes on in its own
strand does so whatever callers there are behind it, and a strand can always be brought to where its
loop stands.

## Main definitions

* `Runtime.Alone`: the steps of a run that is alone and is not cancelled.
* `Config.below`: the poll with more callers behind its own.

## Main statements

* `Config.Inner.apart`: callers behind have no part in what a loop does.
* `Runtime.quietly_settle`: a strand that has not ended can be brought to where it stands.
-/

namespace EffectFibers

/-! ## Further callers -/

/-- The poll with more callers behind its own. -/
def Config.below (c : Config) (cs : List Caller) : Config := ⟨c.focus, c.callers ++ cs⟩

def Standing.below : Standing → List Caller → Standing
  | .stands c, cs => .stands (c.below cs)
  | st, _ => st

/-- What a loop can be doing that neither races nor starts groups, nor goes to a closed context. -/
def Focus.Plain : Focus → Prop
  | .eval _ (.race ..) | .eval _ (.parallel ..) => False
  | .eval _ (.shift context) => context.isOpen = true
  | .eval .. | .unwind .. | .leave _ => True
  | .resume (.callback ..) | .resume (.future ..) => True
  | .resume _ | .park _ => False

structure Config.Plain (c : Config) : Prop where
  focus : c.focus.Plain
  single : ∀ k ∈ c.callers, k.Single

def Standing.Plain : Standing → Prop
  | .stands c => c.Plain
  | .faulted _ => True
  | .dropped => False

/-- The loop in control goes on, in the same strand. -/
structure Config.Inner (c : Config) : Prop where
  plain : c.focus.Plain
  stays : ∀ loop context, c.focus ≠ .eval loop (.shift context)
  stacked : ∀ x, c.focus = .leave x → c.callers ≠ []

/-- The poll has the same ahead of it with more callers behind, or has failed. -/
inductive Progress.Below (cs : List Caller) : Progress → Progress → Prop
  | next (c : Config) : Below cs (.next c) (.next (c.below cs))
  | faulted (f : Fault) : Below cs (.faulted f) (.faulted f)

/-- A step in which more callers behind have no part, and which starts no part of a run. -/
structure Machine.Apart (cs : List Caller) (s : Store) (a b : Progress × Store) : Prop where
  progress : a.1.Below cs b.1
  store : b.2 = a.2
  quiet : ∃ new, a.2.spawned = new ++ s.spawned ∧ ∀ x ∈ new, x.segment? = none

theorem Segment.unroll_append (segment : Segment) (callers cs : List Caller) :
    segment.unroll (callers ++ cs) = (segment.unroll callers).below cs := by
  induction segment generalizing callers with
  | acquiring loop use release inner ih => exact ih (.acquiring loop use release :: callers)
  | releasing loop bracket outcome inner ih => exact ih (.releasing loop bracket outcome :: callers)
  | start | callback | future | shifted | racing | settling | remaining | gathering => rfl

theorem Standing.below_nil (st : Standing) : st.below [] = st := by
  cases st with
  | stands c => simp [Standing.below, Config.below]
  | faulted | dropped => rfl

/-- What a poll comes to stands below the same callers. -/
theorem Progress.Below.standing {cs : List Caller} {p p' : Progress} (h : p.Below cs p') :
    p'.state.standing = p.state.standing.below cs := by
  cases h with
  | faulted f => rfl
  | next c =>
    obtain ⟨focus, callers⟩ := c
    cases focus with
    | resume segment | park segment =>
      exact congrArg Standing.stands (segment.unroll_append callers cs)
    | eval | unwind | leave => rfl

section

variable {c : Config} {cs : List Caller} {s s' : Store}

theorem Machine.Apart.on (d : Config) (quiet : s'.spawned = s.spawned) :
    Apart cs s (.next d, s') (.next (d.below cs), s') :=
  ⟨.next d, rfl, [], quiet, fun x mem => by cases mem⟩

theorem Machine.Apart.fault (f : Fault) (quiet : s'.spawned = s.spawned) :
    Apart cs s (.faulted f, s') (.faulted f, s') :=
  ⟨.faulted f, rfl, [], quiet, fun x mem => by cases mem⟩

open Machine.Apart in
/-- More callers behind have no part in a step of a loop that goes on. -/
theorem Config.Inner.apart (h : c.Inner) (cs : List Caller) (worker : Worker) (s : Store) :
    Machine.Apart cs s (c.step worker s) ((c.below cs).step worker s) := by
  obtain ⟨focus, callers⟩ := c
  obtain ⟨plain, stays, stacked⟩ := h
  cases focus with
  | eval loop effect =>
    simp only [Config.below, Config.step]
    cases effect with
    | pure | fail | isCancelled | map | flatMap | handleErrorWith => exact on _ rfl
    | cancel t => exact on _ (s.spawned_cancel t)
    | fault f => exact fault f rfl
    | perform act next =>
      simp only [Machine.evalStep]
      split
      · exact on _ rfl
      · exact fault _ rfl
    | loop again body v =>
      simp only [Machine.evalStep]
      split
      · exact on _ rfl
      · exact on _ rfl
      · exact fault _ rfl
    | async r =>
      have quiet := (Machine.register_quiet worker r
        (s.emit (.entered loop.env.token .registration))).spawned
      simp only [Machine.evalStep, Machine.atPoint]
      split
      · exact on _ rfl
      · split
        · next found => exact ⟨.next _, rfl, by rwa [found] at quiet⟩
        · next found => exact ⟨.faulted _, rfl, by rwa [found] at quiet⟩
    | await future =>
      simp only [Machine.evalStep, Machine.atPoint]
      split
      · exact on _ rfl
      · split
        · exact on _ rfl
        · exact fault _ rfl
    | shift context => exact (stays loop context rfl).elim
    | bracket acquire use release =>
      simp only [Machine.evalStep, Machine.atPoint]
      split <;> exact on _ rfl
    | race | parallel => exact plain.elim
  | unwind loop x =>
    obtain ⟨env, frames⟩ := loop
    cases frames with
    | nil => exact on _ rfl
    | cons frame frames =>
      simp only [Config.below, Config.step, Machine.unwindStep]
      cases frame with
      | map f =>
        cases x with
        | succeeded v =>
          simp only [Machine.frameStep]
          split
          · exact on _ rfl
          · exact fault _ rfl
        | errored | canceled => exact on _ rfl
      | bind | handle | again => cases x <;> exact on _ rfl
      | release bracket finalizer =>
        simp only [Machine.frameStep]
        split
        · exact fault _ rfl
        · exact on _ rfl
  | leave x =>
    cases callers with
    | nil => exact (stacked x rfl rfl).elim
    | cons caller callers =>
      simp only [Config.below, Config.step, Machine.leaveStep, List.cons_append]
      cases caller with
      | acquiring =>
        cases x with
        | succeeded v =>
          simp only [Machine.returnStep]
          split <;> exact on _ rfl
        | errored | canceled => exact on _ rfl
      | releasing loop bracket outcome => cases x <;> cases outcome <;> exact on _ rfl
      | racingLeft | racingRight =>
        simp only [Machine.returnStep, Machine.settle]
        split
        · exact on _ rfl
        · exact on _ (s.spawned_cancel _)
      | settling | remaining => exact on _ rfl
  | resume segment =>
    cases segment with
    | callback loop slot =>
      have watched := ((s.same_watchCallback slot worker.task).trans
        (Store.same_watchToken _ loop.env.token worker.task)).spawned
      simp only [Config.below, Config.step, Machine.resumeStep]
      split
      · exact on _ rfl
      · exact fault _ rfl
      · split
        · exact on _ rfl
        · exact on _ watched
    | future loop wait =>
      have watched := ((Machine.same_watch worker s wait).trans
        (Store.same_watchToken _ loop.env.token worker.task)).spawned
      simp only [Config.below, Config.step, Machine.resumeStep]
      split
      · exact on _ rfl
      · split
        · exact on _ rfl
        · exact on _ watched
    | start | shifted | acquiring | releasing | racing | settling | remaining | gathering =>
      exact plain.elim
  | park segment => exact plain.elim

/-- The stride below more callers is the step of the loop. -/
theorem Config.Inner.stride (h : c.Inner) (cs : List Caller) (worker : Worker) (s : Store) :
    ((c.below cs).stride worker s).1.state.standing
      = (c.step worker s).1.state.standing.below cs ∧
    ((c.below cs).stride worker s).2 = (c.step worker s).2 := by
  have apart := h.apart cs worker s
  have same : (c.below cs).stride worker s = (c.below cs).step worker s := by
    obtain ⟨focus, callers⟩ := c
    simp only [Config.stride, Config.below]
    split
    · next loop context => exact (h.stays loop context rfl).elim
    · rfl
  rw [same]
  exact ⟨apart.progress.standing, apart.store⟩

/-- A step that only tightens or loosens the grip of a poll. -/
def Config.Slack (c : Config) : Prop := ∃ p : Progress, p.state.standing = .stands c.settled ∧
  ∀ worker s, c.step worker s = (p, s)

theorem Config.slack_leave (x : Exit) : Config.Slack ⟨.leave x, []⟩ :=
  ⟨.ended x, rfl, fun _ _ => rfl⟩

theorem Config.slack_resume {segment : Segment} {callers : List Caller}
    (nested : segment.unroll callers ≠ ⟨.resume segment, callers⟩) :
    Config.Slack ⟨.resume segment, callers⟩ := by
  cases segment with
  | start loop effect => exact ⟨.next ⟨.eval loop effect, callers⟩, rfl, fun _ _ => rfl⟩
  | acquiring loop use release inner =>
    exact ⟨.next ⟨.resume inner, .acquiring loop use release :: callers⟩, rfl, fun _ _ => rfl⟩
  | releasing loop bracket outcome inner =>
    exact ⟨.next ⟨.resume inner, .releasing loop bracket outcome :: callers⟩, rfl, fun _ _ => rfl⟩
  | callback | future | shifted | racing | settling | remaining | gathering =>
    exact (nested rfl).elim

theorem Config.slack_park {segment : Segment} {callers : List Caller}
    (single : ∀ k ∈ (segment.unroll callers).callers, k.Single) :
    Config.Slack ⟨.park segment, callers⟩ := by
  cases callers with
  | nil => exact ⟨.parked segment, rfl, fun _ _ => rfl⟩
  | cons k callers =>
    have mem : k ∈ (segment.unroll (k :: callers)).callers := by
      have split := congrArg Config.callers (segment.unroll_append [] (k :: callers))
      rw [List.nil_append] at split
      rw [split]
      exact List.mem_append_right _ (List.mem_cons_self ..)
    cases k with
    | acquiring loop use release =>
      exact ⟨.next ⟨.park (.acquiring loop use release segment), callers⟩, rfl, fun _ _ => rfl⟩
    | releasing loop bracket outcome =>
      exact ⟨.next ⟨.park (.releasing loop bracket outcome segment), callers⟩, rfl, fun _ _ => rfl⟩
    | racingLeft | racingRight | settling | remaining => exact (single _ mem).elim

/-- Where a loop does not stand in a poll as it is, the poll only has to get there. -/
theorem Config.slack_of_settled (single : ∀ k ∈ c.settled.callers, k.Single)
    (moves : c.settled ≠ c) : c.Slack := by
  obtain ⟨focus, callers⟩ := c
  cases focus with
  | resume segment => exact Config.slack_resume moves
  | park segment => exact Config.slack_park single
  | eval | unwind | leave => exact (moves rfl).elim

end

/-! ## A run that is alone -/

/-- What the surroundings of a run do that is alone: the clock moves, and whoever holds a clone of a
callback deals with it. -/
inductive Influence where
  | tick (time : Nat)
  | deal (slot : Nat) (d : Dealing)

def Influence.on : Influence → Store → Store
  | .tick time, s => s.advanceTo time
  | .deal slot d, s => (s.deal slot d).2

theorem Influence.same (i : Influence) (s : Store) : s.Same (i.on s) := by
  cases i with
  | tick time =>
    have told : s.Same { s with now := time, alarms := (s.alarms.span (·.time ≤ time)).2 } :=
      ⟨rfl, rfl, rfl, rfl, rfl, fun _ => rfl⟩
    exact told.trans (Store.same_wakeAll _ _)
  | deal slot d => exact s.same_deal slot d

namespace Runtime

/-- The steps of a run that is alone and is not cancelled, with what the surroundings do.  It is
left open which thread polls which strand. -/
inductive Alone (who : Strand → Worker → Prop) : Option Influence → Runtime → Runtime → Prop
  | poll (s : Store) (rest : Multiset Strand) (log : List Moment) (run : TokenId)
      (role : Strand.Role) (segment : Segment) :
      Alone who none ⟨s, ⟨run, role, .waiting segment⟩ ::ₘ rest, log⟩
        ⟨s, ⟨run, role, .running ⟨.resume segment, []⟩⟩ ::ₘ rest, log⟩
  | turn (s : Store) (rest : Multiset Strand) (log : List Moment) (run : TokenId)
      (role : Strand.Role) (c : Config) (worker : Worker)
      (polls : who ⟨run, role, .running c⟩ worker) :
      Alone who none ⟨s, ⟨run, role, .running c⟩ ::ₘ rest, log⟩
        (turn worker run role c ⟨s, rest, log⟩)
  | report (s : Store) (rest : Multiset Strand) (log : List Moment) (run : TokenId) (t : TaskId)
      (state : Strand.State) (result : Joined) (h : state.joined? = some result) :
      Alone who none ⟨s, ⟨run, .task t, state⟩ ::ₘ rest, log⟩
        ⟨s.finish t result, ⟨run, .task t, state⟩ ::ₘ rest, log⟩
  /-- Something happens elsewhere that has nothing to do with the run. -/
  | aside (σ : Runtime) (s : Store) (h : σ.Outside s) (record : s.record = σ.store.record) :
      Alone who none σ { σ with store := s }
  | influence (σ : Runtime) (i : Influence) :
      Alone who (some i) σ { σ with store := i.on σ.store }

variable {who : Strand → Worker → Prop} {σ σ' : Runtime}

theorem Alone.step {i : Option Influence} (h : Alone who i σ σ') : Step σ σ' := by
  cases h with
  | poll => exact .poll ..
  | turn => exact .turn ..
  | report _ _ _ _ _ _ _ joined => exact .report _ _ _ _ _ _ _ joined
  | aside _ s outside => exact .outside _ s outside
  | influence _ i => exact .outside _ _ (outside_of_same (i.same _))

/-- Steps in which the surroundings do nothing. -/
abbrev Quietly (who : Strand → Worker → Prop) : Runtime → Runtime → Prop :=
  Relation.ReflTransGen (Alone who none)

/-- The run has come to a result. -/
def Resolves (σ : Runtime) (result : Joined) : Prop :=
  ∃ τ ∈ σ.strands, τ.role = .root ∧ τ.state.joined? = some result

/-! ## One strand -/

theorem Alone.still {c : Config} {p : Progress} {worker : Worker} {s : Store}
    (step : c.step worker s = (p, s)) (rest : Multiset Strand) (log : List Moment) {run : TokenId}
    {role : Strand.Role} (polls : who ⟨run, role, .running c⟩ worker) :
    Alone who none ⟨s, ⟨run, role, .running c⟩ ::ₘ rest, log⟩
      ⟨s, ⟨run, role, p.state⟩ ::ₘ rest, log⟩ :=
  turn_still step rest log run role ▸ .turn s rest log run role c worker polls

variable (total : ∀ τ, ∃ worker, who τ worker)
include total

/-- A poll goes down to the loop that is to be resumed. -/
theorem quietly_resume (s : Store) (rest : Multiset Strand) (log : List Moment) (run : TokenId)
    (role : Strand.Role) (segment : Segment) (callers : List Caller) :
    Quietly who ⟨s, ⟨run, role, .running ⟨.resume segment, callers⟩⟩ ::ₘ rest, log⟩
      ⟨s, ⟨run, role, .running (segment.unroll callers)⟩ ::ₘ rest, log⟩ := by
  have steps : ∀ {c d : Config}, (∀ worker, c.step worker s = (.next d, s)) →
      Alone who none ⟨s, ⟨run, role, .running c⟩ ::ₘ rest, log⟩
        ⟨s, ⟨run, role, .running d⟩ ::ₘ rest, log⟩ := fun {c d} step => by
    obtain ⟨worker, polls⟩ := total ⟨run, role, .running c⟩
    exact .still (step worker) rest log polls
  induction segment generalizing callers with
  | start loop effect => exact .single (steps fun _ => rfl)
  | acquiring loop use release inner ih => exact .head (steps fun _ => rfl) (ih _)
  | releasing loop bracket outcome inner ih => exact .head (steps fun _ => rfl) (ih _)
  | callback | future | shifted | racing | settling | remaining | gathering => exact .refl

/-- A strand that waits is polled. -/
theorem quietly_wait (s : Store) (rest : Multiset Strand) (log : List Moment) (run : TokenId)
    (role : Strand.Role) (segment : Segment) :
    Quietly who ⟨s, ⟨run, role, .waiting segment⟩ ::ₘ rest, log⟩
      ⟨s, ⟨run, role, .running (segment.unroll [])⟩ ::ₘ rest, log⟩ :=
  .head (.poll s rest log run role segment) (quietly_resume total s rest log run role segment [])

/-- A poll that has nothing left to do ends, and another one comes back to the loop. -/
theorem quietly_park (s : Store) (rest : Multiset Strand) (log : List Moment) (run : TokenId)
    (role : Strand.Role) (segment : Segment) (callers : List Caller)
    (single : ∀ k ∈ callers, k.Single) :
    Quietly who ⟨s, ⟨run, role, .running ⟨.park segment, callers⟩⟩ ::ₘ rest, log⟩
      ⟨s, ⟨run, role, .running (segment.unroll callers)⟩ ::ₘ rest, log⟩ := by
  induction callers generalizing segment with
  | nil =>
    obtain ⟨worker, polls⟩ := total ⟨run, role, .running ⟨.park segment, []⟩⟩
    have parks : Alone who none ⟨s, ⟨run, role, .running ⟨.park segment, []⟩⟩ ::ₘ rest, log⟩
        ⟨s, ⟨run, role, .waiting segment⟩ ::ₘ rest, log⟩ :=
      .still (p := .parked segment) rfl rest log polls
    exact .head parks (quietly_wait total s rest log run role segment)
  | cons k callers ih =>
    obtain ⟨worker, polls⟩ := total ⟨run, role, .running ⟨.park segment, k :: callers⟩⟩
    have rest_single := fun k' mem => single k' (List.mem_cons_of_mem k mem)
    cases k with
    | acquiring loop use release =>
      have parks : Alone who none _ ⟨s, ⟨run, role,
          .running ⟨.park (.acquiring loop use release segment), callers⟩⟩ ::ₘ rest, log⟩ :=
        .still (p := .next _) rfl rest log polls
      exact .head parks (ih _ rest_single)
    | releasing loop bracket outcome =>
      have parks : Alone who none _ ⟨s, ⟨run, role,
          .running ⟨.park (.releasing loop bracket outcome segment), callers⟩⟩ ::ₘ rest, log⟩ :=
        .still (p := .next _) rfl rest log polls
      exact .head parks (ih _ rest_single)
    | racingLeft | racingRight | settling | remaining => exact (single _ (List.mem_cons_self ..)).elim

/-- A strand that has not ended can be brought to where it stands. -/
theorem quietly_settle {d : Config} {state : Strand.State} (stands : state.standing = .stands d)
    (live : state.joined? = none) (single : ∀ k ∈ d.callers, k.Single) (s : Store)
    (rest : Multiset Strand) (log : List Moment) (run : TokenId) (role : Strand.Role) :
    Quietly who ⟨s, ⟨run, role, state⟩ ::ₘ rest, log⟩
      ⟨s, ⟨run, role, .running d⟩ ::ₘ rest, log⟩ := by
  cases state with
  | waiting segment =>
    cases stands
    exact quietly_wait total s rest log run role segment
  | running c =>
    obtain ⟨focus, callers⟩ := c
    cases stands
    cases focus with
    | eval | unwind | leave => exact .refl
    | resume segment => exact quietly_resume total s rest log run role segment callers
    | park segment =>
      have split := congrArg Config.callers (segment.unroll_append [] callers)
      refine quietly_park total s rest log run role segment callers fun k mem => single k ?_
      show k ∈ (segment.unroll callers).callers
      rw [List.nil_append] at split
      rw [split]
      exact List.mem_append_right _ mem
  | ended x => cases live
  | faulted f => cases live
  | dropped => cases stands

end Runtime

end EffectFibers
