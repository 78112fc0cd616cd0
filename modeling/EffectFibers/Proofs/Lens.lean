import EffectFibers.Proofs.ForestAgreement
import EffectFibers.Proofs.Runtime

/-!
# Runs that mirror each other

Two runs of the same loops may differ in numbers: a task or a bracket may have another number on
the other side, when something else has taken one in between.  A `Lens` says which numbers stand
for each other, and which tokens the effects may look at.  Loops, segments, callers and polls
mirror each other through a lens if they are the same up to these numbers, and what is still to be
evaluated looks at no other token.

The memories of the two sides look the same to the effects, but need not be the same: others may
have written to what the effects do not look at.

Nothing that a run loop does depends on such a number.  So a step of one side is a step of the
other side, as long as the stores agree on what is shown (`EffectFibers.Proofs.LensStores`,
`EffectFibers.Proofs.LensSteps`).

## Main definitions

* `View`, `Effect.Reads`: what effects may look at, and that an effect looks at nothing else.
* `Lens`, `Config.Mirrors`, `Strand.Mirrors`: sameness up to numbers.
-/

namespace EffectFibers

/-! ## What effects look at -/

structure View where
  /-- The tokens that effects may look at. -/
  named : TokenId → Prop
  /-- Memories that look the same. -/
  memory : Memory → Memory → Prop
  equivalence : Equivalence memory
  write : ∀ {m m'} (entry : Entry), memory m m' → memory (m.write entry) (m'.write entry)

variable (V : View)

def Future.Reads : Future → Prop
  | .cancellation t => V.named t
  | .never | .timer .. => True

/-- The effect looks at nothing that is not in view.  It may cancel any token, and may write what
it cannot see. -/
def Effect.Reads : Effect → Prop
  | .pure _ | .fail _ | .fault _ | .cancel _ | .async _ | .shift _ => True
  | .perform act next =>
    (∀ site m m', V.memory m m' →
      (act site m).1 = (act site m').1 ∧ V.memory (act site m).2 (act site m').2) ∧
    ∀ reply, (next reply).Reads
  | .isCancelled t => V.named t
  | .map source _ => source.Reads
  | .flatMap source f => source.Reads ∧ ∀ v, (f v).Reads
  | .handleErrorWith source handler => source.Reads ∧ ∀ e, (handler e).Reads
  | .loop _ body _ => ∀ v, (body v).Reads
  | .await future => future.Reads V
  | .bracket acquire use release =>
    acquire.Reads ∧ (∀ v, (use v).Reads) ∧ ∀ v x, (release v x).Reads
  | .race left right => left.Reads ∧ right.Reads
  | .parallel _ operands => ∀ i, (operands i).Reads

variable {V}

/-- Where all is in view, no effect looks at anything else. -/
theorem Effect.reads_all (all : ∀ t, V.named t) (same : ∀ {m m'}, V.memory m m' → m = m')
    (effect : Effect) : effect.Reads V := by
  induction effect with
  | pure | fail | fault | cancel | async | shift => trivial
  | isCancelled t => exact all t
  | perform act next ih =>
    refine ⟨fun site m m' looks => ?_, ih⟩
    cases same looks
    exact ⟨rfl, V.equivalence.refl _⟩
  | map source f ih => exact ih
  | flatMap source f ih ih' | handleErrorWith source f ih ih' => exact ⟨ih, ih'⟩
  | loop again body v ih => exact ih
  | await future =>
    cases future with
    | cancellation t => exact all t
    | never | timer => trivial
  | bracket acquire use release ih ih' ih'' => exact ⟨ih, ih', ih''⟩
  | race left right ih ih' => exact ⟨ih, ih'⟩
  | parallel n operands ih => exact ih

/-! ## Numbers that stand for each other -/

structure Lens extends View where
  task : TaskId → TaskId → Prop
  bracket : BracketId → BracketId → Prop
  /-- No task stands for two. -/
  single : ∀ {t t' u u'}, task t t' → task u u' → (t = u ↔ t' = u')

variable (L : Lens)

/-! ## Loops, segments and callers -/

inductive Frame.Mirrors : Frame → Frame → Prop
  | map (f : Value → Except Fault Value) : Mirrors (.map f) (.map f)
  | bind {f : Value → Effect} (h : ∀ v, (f v).Reads L.toView) : Mirrors (.bind f) (.bind f)
  | handle {f : Value → Effect} (h : ∀ e, (f e).Reads L.toView) : Mirrors (.handle f) (.handle f)
  | again (again : Value → Except Fault Bool) {body : Value → Effect}
      (h : ∀ v, (body v).Reads L.toView) : Mirrors (.again again body) (.again again body)
  | release {b b' : BracketId} (number : L.bracket b b') {f : ExitCase Value → Effect}
      (h : ∀ x, (f x).Reads L.toView) : Mirrors (.release b f) (.release b' f)

inductive Loop.Mirrors : Loop → Loop → Prop
  | mk (env : Env) {fs fs' : List Frame} (frames : List.Forall₂ (Frame.Mirrors L) fs fs') :
      Mirrors ⟨env, fs⟩ ⟨env, fs'⟩

inductive Wait.Shown : Wait → Prop
  | never : Shown .never
  | deadline (time : Nat) (result : Result) : Shown (.deadline time result)
  | cancellation {t : TokenId} (h : L.named t) : Shown (.cancellation t)

/-- The operands of groups whose tasks stand for each other. -/
abbrev Group.Pending : List (Nat × TaskId) → List (Nat × TaskId) → Prop :=
  List.Forall₂ fun x x' => x.1 = x'.1 ∧ L.task x.2 x'.2

inductive Group.Mirrors : Group → Group → Prop
  | mk (token : TokenId) {pending pending' : List (Nat × TaskId)}
      (operands : Group.Pending L pending pending') (values : List (Nat × Value))
      (failure : Option (Nat × Value)) (canceled : Bool) :
      Mirrors ⟨token, pending, values, failure, canceled⟩
        ⟨token, pending', values, failure, canceled⟩

inductive Segment.Mirrors : Segment → Segment → Prop
  | start {l l' : Loop} {effect : Effect} (loop : l.Mirrors L l') (h : effect.Reads L.toView) :
      Mirrors (.start l effect) (.start l' effect)
  | callback {l l' : Loop} (loop : l.Mirrors L l') (slot : Nat) :
      Mirrors (.callback l slot) (.callback l' slot)
  | future {l l' : Loop} {wait : Wait} (loop : l.Mirrors L l') (shown : wait.Shown L) :
      Mirrors (.future l wait) (.future l' wait)
  | shifted (env : Env) {t t' : TaskId} (task : L.task t t') :
      Mirrors (.shifted env t) (.shifted env t')
  | acquiring {l l' : Loop} {use : Value → Effect} {release : Value → ExitCase Value → Effect}
      {inner inner' : Segment} (loop : l.Mirrors L l') (used : ∀ v, (use v).Reads L.toView)
      (released : ∀ v x, (release v x).Reads L.toView) (nested : Mirrors inner inner') :
      Mirrors (.acquiring l use release inner) (.acquiring l' use release inner')
  | releasing {l l' : Loop} {b b' : BracketId} {inner inner' : Segment} (loop : l.Mirrors L l')
      (number : L.bracket b b') (outcome : Exit) (nested : Mirrors inner inner') :
      Mirrors (.releasing l b outcome inner) (.releasing l' b' outcome inner')
  | racing {l l' : Loop} {left left' right right' : Segment} (loop : l.Mirrors L l')
      (tokens : RaceTokens) (onLeft : Mirrors left left') (onRight : Mirrors right right') :
      Mirrors (.racing l tokens left right) (.racing l' tokens left' right')
  | settling {l l' : Loop} {loser loser' : Segment} (loop : l.Mirrors L l') (winner : Side)
      (exit : Exit) (nested : Mirrors loser loser') :
      Mirrors (.settling l winner exit loser) (.settling l' winner exit loser')
  | remaining {l l' : Loop} {operand operand' : Segment} (loop : l.Mirrors L l') (side : Side)
      (nested : Mirrors operand operand') :
      Mirrors (.remaining l side operand) (.remaining l' side operand')
  | gathering {l l' : Loop} {g g' : Group} (loop : l.Mirrors L l') (group : g.Mirrors L g') :
      Mirrors (.gathering l g) (.gathering l' g')

inductive Caller.Mirrors : Caller → Caller → Prop
  | acquiring {l l' : Loop} {use : Value → Effect} {release : Value → ExitCase Value → Effect}
      (loop : l.Mirrors L l') (used : ∀ v, (use v).Reads L.toView)
      (released : ∀ v x, (release v x).Reads L.toView) :
      Mirrors (.acquiring l use release) (.acquiring l' use release)
  | releasing {l l' : Loop} {b b' : BracketId} (loop : l.Mirrors L l') (number : L.bracket b b')
      (outcome : Exit) : Mirrors (.releasing l b outcome) (.releasing l' b' outcome)
  | racingLeft {l l' : Loop} {right right' : Segment} (loop : l.Mirrors L l')
      (tokens : RaceTokens) (other : right.Mirrors L right') :
      Mirrors (.racingLeft l tokens right) (.racingLeft l' tokens right')
  | racingRight {l l' : Loop} {left left' : Segment} (loop : l.Mirrors L l')
      (tokens : RaceTokens) (other : left.Mirrors L left') :
      Mirrors (.racingRight l tokens left) (.racingRight l' tokens left')
  | settling {l l' : Loop} (loop : l.Mirrors L l') (winner : Side) (exit : Exit) :
      Mirrors (.settling l winner exit) (.settling l' winner exit)
  | remaining {l l' : Loop} (loop : l.Mirrors L l') (side : Side) :
      Mirrors (.remaining l side) (.remaining l' side)

/-- The callers of two polls, from the inside to the outside. -/
abbrev Caller.AllMirror : List Caller → List Caller → Prop := List.Forall₂ (Caller.Mirrors L)

/-! ## Polls and strands -/

inductive Config.Mirrors : Config → Config → Prop
  | eval {l l' : Loop} {effect : Effect} {cs cs' : List Caller} (loop : l.Mirrors L l')
      (h : effect.Reads L.toView) (callers : Caller.AllMirror L cs cs') :
      Mirrors ⟨.eval l effect, cs⟩ ⟨.eval l' effect, cs'⟩
  | unwind {l l' : Loop} {cs cs' : List Caller} (loop : l.Mirrors L l') (x : Exit)
      (callers : Caller.AllMirror L cs cs') : Mirrors ⟨.unwind l x, cs⟩ ⟨.unwind l' x, cs'⟩
  | leave {cs cs' : List Caller} (x : Exit) (callers : Caller.AllMirror L cs cs') :
      Mirrors ⟨.leave x, cs⟩ ⟨.leave x, cs'⟩
  | resume {g g' : Segment} {cs cs' : List Caller} (segment : g.Mirrors L g')
      (callers : Caller.AllMirror L cs cs') : Mirrors ⟨.resume g, cs⟩ ⟨.resume g', cs'⟩
  | park {g g' : Segment} {cs cs' : List Caller} (segment : g.Mirrors L g')
      (callers : Caller.AllMirror L cs cs') : Mirrors ⟨.park g, cs⟩ ⟨.park g', cs'⟩

inductive Progress.Mirrors : Progress → Progress → Prop
  | next {c c' : Config} (h : c.Mirrors L c') : Mirrors (.next c) (.next c')
  | ended (x : Exit) : Mirrors (.ended x) (.ended x)
  | parked {g g' : Segment} (h : g.Mirrors L g') : Mirrors (.parked g) (.parked g')
  | faulted (f : Fault) : Mirrors (.faulted f) (.faulted f)

inductive Strand.State.Mirrors : Strand.State → Strand.State → Prop
  | waiting {g g' : Segment} (h : g.Mirrors L g') : Mirrors (.waiting g) (.waiting g')
  | running {c c' : Config} (h : c.Mirrors L c') : Mirrors (.running c) (.running c')
  | ended (x : Exit) : Mirrors (.ended x) (.ended x)
  | faulted (f : Fault) : Mirrors (.faulted f) (.faulted f)
  | dropped : Mirrors .dropped .dropped

/-! ## Events and tasks -/

/-- The same event, up to the number of its bracket. -/
inductive Event.Mirrors : Event → Event → Prop
  | same (e : Event) : Mirrors e e
  | acquired (t : TokenId) {b b' : BracketId} (number : L.bracket b b') (v : Value) :
      Mirrors (.acquired t b v) (.acquired t b' v)
  | useStarted (t : TokenId) {b b' : BracketId} (number : L.bracket b b') :
      Mirrors (.useStarted t b) (.useStarted t b')
  | releaseStarted (t : TokenId) {b b' : BracketId} (number : L.bracket b b') (x : Exit) :
      Mirrors (.releaseStarted t b x) (.releaseStarted t b' x)
  | releaseFailed {b b' : BracketId} (number : L.bracket b b') (x : Exit) :
      Mirrors (.releaseFailed b x) (.releaseFailed b' x)
  | releaseFinished (t : TokenId) {b b' : BracketId} (number : L.bracket b b') (x : Exit) :
      Mirrors (.releaseFinished t b x) (.releaseFinished t b' x)

/-- Tasks that stand for each other, with work that mirrors each other if it is a part of a run. -/
structure Spawn.Mirrors (x x' : Spawn) : Prop where
  task : L.task x.task x'.task
  segment : Option.Rel (Segment.Mirrors L) x.segment? x'.segment?

variable {L}

theorem Loop.Mirrors.env {l l' : Loop} (h : l.Mirrors L l') : l.env = l'.env := by
  cases h
  rfl

theorem Loop.Mirrors.push {l l' : Loop} {f f' : Frame} (h : l.Mirrors L l')
    (frame : f.Mirrors L f') : (l.push f).Mirrors L (l'.push f') := by
  obtain ⟨env, frames⟩ := h
  exact .mk env (.cons frame frames)

theorem Strand.State.Mirrors.of_progress {p p' : Progress} (h : p.Mirrors L p') :
    p.state.Mirrors L p'.state := by
  cases h with
  | next h => exact .running h
  | ended x => exact .ended x
  | parked h => exact .waiting h
  | faulted f => exact .faulted f

theorem Strand.State.Mirrors.joined? {state state' : Strand.State} (h : state.Mirrors L state') :
    state.joined? = state'.joined? := by
  cases h <;> rfl

end EffectFibers
