import EffectFibers.Effect.Combinators
import EffectFibers.Fiber.Store
import EffectFibers.Proofs.Fibers

/-!
# Laws of effects

The laws of monads and functors, as pairs of effects.  `Effect.Alike` is their compatible closure:
two effects are alike if one comes from the other when sides of laws are put for each other in any
number of places, wherever effects stand in effects.

Loops that evaluate the two sides of a law differ in their frames for a while.  So stacks of frames
are alike if they are so frame by frame, but for stretches that amount to the same
(`Frame.Fused`), and loops, segments, callers and tasks are alike if they differ in alike effects
and frames only.

A finalizer may give up while it is built, and then its release does not begin at all.  The two
sides of a law are put for each other in a finalizer only if both are built, or both give up with
the same fault.

## Main definitions

* `Effect.Law`, `Effect.Alike`: the laws, and effects that differ by them.
* `Frame.Stacked`: stacks of frames that amount to the same.
* `Segment.Alike`: segments that differ in alike effects and frames.

## Main statements

* `Segment.Alike.bare`: segments that are alike wait for the same.
-/

namespace EffectFibers

/-! ## Effects -/

namespace Effect

/-- One function of a `map` after another one. -/
def after (g f : Value → Except Fault Value) (v : Value) : Except Fault Value := (f v).bind g

/-- The laws of monads and functors, left side and right side. -/
inductive Law : Effect → Effect → Prop
  | pure_flatMap (a : Value) (f : Value → Effect) : Law ((succeed a).flatMap f) (f a)
  | flatMap_pure (m : Effect) : Law (m.flatMap succeed) m
  | flatMap_assoc (m : Effect) (f g : Value → Effect) :
      Law ((m.flatMap f).flatMap g) (m.flatMap fun v => (f v).flatMap g)
  | map_id (m : Effect) : Law (m.mapValue id) m
  | map_comp (m : Effect) (f g : Value → Except Fault Value) :
      Law ((m.map f).map g) (m.map (after g f))

/-- The left side of a law is always built, so a law may be used in a finalizer where the right side
is built. -/
theorem Law.built {e e' : Effect} (h : Law e e') (right : e'.fault? = none) :
    e.fault? = e'.fault? := by
  rw [right]
  cases h <;> rfl

mutual

/-- Effects that differ by laws, at the top or further inside. -/
inductive Alike : Effect → Effect → Prop
  | inside {e e' : Effect} (h : Within e e') : Alike e e'
  | law {e e' : Effect} (h : Law e e') : Alike e e'
  | flip {e e' : Effect} (h : Law e e') : Alike e' e

/-- Effects with the same constructor at the top, and parts that are alike. -/
inductive Within : Effect → Effect → Prop
  | pure (v : Value) : Within (.pure v) (.pure v)
  | fail (e : Value) : Within (.fail e) (.fail e)
  | fault (f : Fault) : Within (.fault f) (.fault f)
  | perform (act : Site → Memory → Except Fault Reply × Memory) {next next' : Reply → Effect}
      (h : ∀ r, Alike (next r) (next' r)) : Within (.perform act next) (.perform act next')
  | cancel (t : TokenId) : Within (.cancel t) (.cancel t)
  | isCancelled (t : TokenId) : Within (.isCancelled t) (.isCancelled t)
  | map {m m' : Effect} (h : Alike m m') (f : Value → Except Fault Value) :
      Within (.map m f) (.map m' f)
  | flatMap {m m' : Effect} {f f' : Value → Effect} (h : Alike m m')
      (next : ∀ v, Alike (f v) (f' v)) : Within (.flatMap m f) (.flatMap m' f')
  | handleErrorWith {m m' : Effect} {f f' : Value → Effect} (h : Alike m m')
      (handler : ∀ v, Alike (f v) (f' v)) :
      Within (.handleErrorWith m f) (.handleErrorWith m' f')
  | loop (again : Value → Except Fault Bool) {body body' : Value → Effect}
      (h : ∀ v, Alike (body v) (body' v)) (v : Value) :
      Within (.loop again body v) (.loop again body' v)
  | async (r : Registration) : Within (.async r) (.async r)
  | await (f : Future) : Within (.await f) (.await f)
  | shift (c : Context) : Within (.shift c) (.shift c)
  | bracket {acquire acquire' : Effect} {use use' : Value → Effect}
      {release release' : Value → ExitCase Value → Effect} (h : Alike acquire acquire')
      (used : ∀ v, Alike (use v) (use' v)) (released : ∀ v x, Alike (release v x) (release' v x))
      (built : ∀ v x, (release v x).fault? = (release' v x).fault?) :
      Within (.bracket acquire use release) (.bracket acquire' use' release')
  | race {left left' right right' : Effect} (h : Alike left left') (h' : Alike right right') :
      Within (.race left right) (.race left' right')
  | parallel (n : Nat) {operands operands' : Fin n → Effect}
      (h : ∀ i, Alike (operands i) (operands' i)) :
      Within (.parallel n operands) (.parallel n operands')

end

theorem Within.refl : (e : Effect) → Within e e
  | .pure v => .pure v
  | .fail e => .fail e
  | .fault f => .fault f
  | .perform act next => .perform act fun r => .inside (Within.refl (next r))
  | .cancel t => .cancel t
  | .isCancelled t => .isCancelled t
  | .map m f => .map (.inside (Within.refl m)) f
  | .flatMap m f => .flatMap (.inside (Within.refl m)) fun v => .inside (Within.refl (f v))
  | .handleErrorWith m f =>
    .handleErrorWith (.inside (Within.refl m)) fun v => .inside (Within.refl (f v))
  | .loop again body v => .loop again (fun v => .inside (Within.refl (body v))) v
  | .async r => .async r
  | .await f => .await f
  | .shift c => .shift c
  | .bracket acquire use release =>
    .bracket (.inside (Within.refl acquire)) (fun v => .inside (Within.refl (use v)))
      (fun v x => .inside (Within.refl (release v x))) fun _ _ => rfl
  | .race left right => .race (.inside (Within.refl left)) (.inside (Within.refl right))
  | .parallel n operands => .parallel n fun i => .inside (Within.refl (operands i))

theorem Alike.refl (e : Effect) : Alike e e := .inside (.refl e)

mutual

theorem Alike.symm {e e' : Effect} : Alike e e' → Alike e' e
  | .inside h => .inside h.symm
  | .law h => .flip h
  | .flip h => .law h

theorem Within.symm {e e' : Effect} : Within e e' → Within e' e
  | .pure v => .pure v
  | .fail e => .fail e
  | .fault f => .fault f
  | .perform act h => .perform act fun r => (h r).symm
  | .cancel t => .cancel t
  | .isCancelled t => .isCancelled t
  | .map h f => .map h.symm f
  | .flatMap h next => .flatMap h.symm fun v => (next v).symm
  | .handleErrorWith h handler => .handleErrorWith h.symm fun v => (handler v).symm
  | .loop again h v => .loop again (fun v => (h v).symm) v
  | .async r => .async r
  | .await f => .await f
  | .shift c => .shift c
  | .bracket h used released built =>
    .bracket h.symm (fun v => (used v).symm) (fun v x => (released v x).symm)
      fun v x => (built v x).symm
  | .race h h' => .race h.symm h'.symm
  | .parallel n h => .parallel n fun i => (h i).symm

end

end Effect

/-! ## Frames -/

namespace Frame

inductive Alike : Frame → Frame → Prop
  | map (f : Value → Except Fault Value) : Alike (.map f) (.map f)
  | bind {f f' : Value → Effect} (h : ∀ v, (f v).Alike (f' v)) : Alike (.bind f) (.bind f')
  | handle {f f' : Value → Effect} (h : ∀ v, (f v).Alike (f' v)) : Alike (.handle f) (.handle f')
  | again (again : Value → Except Fault Bool) {body body' : Value → Effect}
      (h : ∀ v, (body v).Alike (body' v)) : Alike (.again again body) (.again again body')
  | release (b : BracketId) {f f' : ExitCase Value → Effect} (h : ∀ x, (f x).Alike (f' x))
      (built : ∀ x, (f x).fault? = (f' x).fault?) : Alike (.release b f) (.release b f')

/-- The frames that the two sides of a law leave behind. -/
inductive Fused : List Frame → List Frame → Prop
  | flatMap_pure : Fused [.bind Effect.succeed] []
  | flatMap_assoc (f g : Value → Effect) :
      Fused [.bind f, .bind g] [.bind fun v => (f v).flatMap g]
  | map_id : Fused [.map fun v => .ok (id v)] []
  | map_comp (f g : Value → Except Fault Value) :
      Fused [.map f, .map g] [.map (Effect.after g f)]

/-- Stacks of frames that amount to the same. -/
inductive Stacked : List Frame → List Frame → Prop
  | nil : Stacked [] []
  | cons {f f' : Frame} {fs fs' : List Frame} (h : Alike f f') (rest : Stacked fs fs') :
      Stacked (f :: fs) (f' :: fs')
  | law {p p' fs fs' : List Frame} (h : Fused p p') (rest : Stacked fs fs') :
      Stacked (p ++ fs) (p' ++ fs')
  | flip {p p' fs fs' : List Frame} (h : Fused p p') (rest : Stacked fs fs') :
      Stacked (p' ++ fs) (p ++ fs')

theorem Alike.refl (f : Frame) : Alike f f := by
  cases f with
  | map f => exact .map f
  | bind f => exact .bind fun v => .refl _
  | handle f => exact .handle fun v => .refl _
  | again again body => exact .again again fun v => .refl _
  | release b f => exact .release b (fun x => .refl _) fun _ => rfl

theorem Alike.symm {f f' : Frame} (h : Alike f f') : Alike f' f := by
  cases h with
  | map f => exact .map f
  | bind h => exact .bind fun v => (h v).symm
  | handle h => exact .handle fun v => (h v).symm
  | again again h => exact .again again fun v => (h v).symm
  | release b h built => exact .release b (fun x => (h x).symm) fun x => (built x).symm

theorem Stacked.refl (fs : List Frame) : Stacked fs fs := by
  induction fs with
  | nil => exact .nil
  | cons f fs ih => exact .cons (.refl f) ih

theorem Stacked.symm {fs fs' : List Frame} (h : Stacked fs fs') : Stacked fs' fs := by
  induction h with
  | nil => exact .nil
  | cons h rest ih => exact .cons h.symm ih
  | law h rest ih => exact .flip h ih
  | flip h rest ih => exact .law h ih

end Frame

/-! ## Loops, segments and callers -/

inductive Loop.Alike : Loop → Loop → Prop
  | mk (env : Env) {fs fs' : List Frame} (stack : Frame.Stacked fs fs') :
      Alike ⟨env, fs⟩ ⟨env, fs'⟩

theorem Loop.Alike.refl (loop : Loop) : loop.Alike loop := .mk loop.env (.refl loop.frames)

theorem Loop.Alike.symm {l l' : Loop} (h : l.Alike l') : l'.Alike l := by
  obtain ⟨env, stack⟩ := h
  exact .mk env stack.symm

theorem Loop.Alike.env {l l' : Loop} (h : l.Alike l') : l.env = l'.env := by
  obtain ⟨env, stack⟩ := h
  rfl

theorem Loop.Alike.push {l l' : Loop} {f f' : Frame} (h : l.Alike l') (frame : f.Alike f') :
    (l.push f).Alike (l'.push f') := by
  obtain ⟨env, stack⟩ := h
  exact .mk env (.cons frame stack)

inductive Segment.Alike : Segment → Segment → Prop
  | start {l l' : Loop} {e e' : Effect} (loop : l.Alike l') (effect : e.Alike e') :
      Alike (.start l e) (.start l' e')
  | callback {l l' : Loop} (loop : l.Alike l') (slot : Nat) :
      Alike (.callback l slot) (.callback l' slot)
  | future {l l' : Loop} (loop : l.Alike l') (wait : Wait) :
      Alike (.future l wait) (.future l' wait)
  | shifted (env : Env) (task : TaskId) : Alike (.shifted env task) (.shifted env task)
  | acquiring {l l' : Loop} {use use' : Value → Effect}
      {release release' : Value → ExitCase Value → Effect} {inner inner' : Segment}
      (loop : l.Alike l') (used : ∀ v, (use v).Alike (use' v))
      (released : ∀ v x, (release v x).Alike (release' v x))
      (built : ∀ v x, (release v x).fault? = (release' v x).fault?) (nested : Alike inner inner') :
      Alike (.acquiring l use release inner) (.acquiring l' use' release' inner')
  | releasing {l l' : Loop} {inner inner' : Segment} (loop : l.Alike l') (bracket : BracketId)
      (outcome : Exit) (nested : Alike inner inner') :
      Alike (.releasing l bracket outcome inner) (.releasing l' bracket outcome inner')
  | racing {l l' : Loop} {left left' right right' : Segment} (loop : l.Alike l')
      (tokens : RaceTokens) (onLeft : Alike left left') (onRight : Alike right right') :
      Alike (.racing l tokens left right) (.racing l' tokens left' right')
  | settling {l l' : Loop} {loser loser' : Segment} (loop : l.Alike l') (winner : Side)
      (exit : Exit) (nested : Alike loser loser') :
      Alike (.settling l winner exit loser) (.settling l' winner exit loser')
  | remaining {l l' : Loop} {operand operand' : Segment} (loop : l.Alike l') (side : Side)
      (nested : Alike operand operand') :
      Alike (.remaining l side operand) (.remaining l' side operand')
  | gathering {l l' : Loop} (loop : l.Alike l') (group : Group) :
      Alike (.gathering l group) (.gathering l' group)

inductive Caller.Alike : Caller → Caller → Prop
  | acquiring {l l' : Loop} {use use' : Value → Effect}
      {release release' : Value → ExitCase Value → Effect} (loop : l.Alike l')
      (used : ∀ v, (use v).Alike (use' v))
      (released : ∀ v x, (release v x).Alike (release' v x))
      (built : ∀ v x, (release v x).fault? = (release' v x).fault?) :
      Alike (.acquiring l use release) (.acquiring l' use' release')
  | releasing {l l' : Loop} (loop : l.Alike l') (bracket : BracketId) (outcome : Exit) :
      Alike (.releasing l bracket outcome) (.releasing l' bracket outcome)
  | racingLeft {l l' : Loop} {right right' : Segment} (loop : l.Alike l') (tokens : RaceTokens)
      (other : right.Alike right') :
      Alike (.racingLeft l tokens right) (.racingLeft l' tokens right')
  | racingRight {l l' : Loop} {left left' : Segment} (loop : l.Alike l') (tokens : RaceTokens)
      (other : left.Alike left') :
      Alike (.racingRight l tokens left) (.racingRight l' tokens left')
  | settling {l l' : Loop} (loop : l.Alike l') (winner : Side) (exit : Exit) :
      Alike (.settling l winner exit) (.settling l' winner exit)
  | remaining {l l' : Loop} (loop : l.Alike l') (side : Side) :
      Alike (.remaining l side) (.remaining l' side)

namespace Segment

theorem Alike.refl (segment : Segment) : segment.Alike segment := by
  induction segment with
  | start loop effect => exact .start (.refl loop) (.refl effect)
  | callback loop slot => exact .callback (.refl loop) slot
  | future loop wait => exact .future (.refl loop) wait
  | shifted env task => exact .shifted env task
  | acquiring loop use release inner ih =>
    exact .acquiring (.refl loop) (fun v => .refl _) (fun v x => .refl _) (fun _ _ => rfl) ih
  | releasing loop bracket outcome inner ih => exact .releasing (.refl loop) bracket outcome ih
  | racing loop tokens left right ihl ihr => exact .racing (.refl loop) tokens ihl ihr
  | settling loop winner exit loser ih => exact .settling (.refl loop) winner exit ih
  | remaining loop side operand ih => exact .remaining (.refl loop) side ih
  | gathering loop group => exact .gathering (.refl loop) group

theorem Alike.symm {s s' : Segment} (h : s.Alike s') : s'.Alike s := by
  induction h with
  | start loop effect => exact .start loop.symm effect.symm
  | callback loop slot => exact .callback loop.symm slot
  | future loop wait => exact .future loop.symm wait
  | shifted env task => exact .shifted env task
  | acquiring loop used released built nested ih =>
    exact .acquiring loop.symm (fun v => (used v).symm) (fun v x => (released v x).symm)
      (fun v x => (built v x).symm) ih
  | releasing loop bracket outcome nested ih => exact .releasing loop.symm bracket outcome ih
  | racing loop tokens onLeft onRight ihl ihr => exact .racing loop.symm tokens ihl ihr
  | settling loop winner exit nested ih => exact .settling loop.symm winner exit ih
  | remaining loop side nested ih => exact .remaining loop.symm side ih
  | gathering loop group => exact .gathering loop.symm group

end Segment

theorem Caller.Alike.refl (c : Caller) : c.Alike c := by
  cases c with
  | acquiring loop use release =>
    exact .acquiring (.refl loop) (fun v => .refl _) (fun v x => .refl _) fun _ _ => rfl
  | releasing loop bracket outcome => exact .releasing (.refl loop) bracket outcome
  | racingLeft loop tokens right => exact .racingLeft (.refl loop) tokens (.refl right)
  | racingRight loop tokens left => exact .racingRight (.refl loop) tokens (.refl left)
  | settling loop winner exit => exact .settling (.refl loop) winner exit
  | remaining loop side => exact .remaining (.refl loop) side

theorem Caller.Alike.symm {c c' : Caller} (h : c.Alike c') : c'.Alike c := by
  cases h with
  | acquiring loop used released built =>
    exact .acquiring loop.symm (fun v => (used v).symm) (fun v x => (released v x).symm)
      fun v x => (built v x).symm
  | releasing loop bracket outcome => exact .releasing loop.symm bracket outcome
  | racingLeft loop tokens other => exact .racingLeft loop.symm tokens other.symm
  | racingRight loop tokens other => exact .racingRight loop.symm tokens other.symm
  | settling loop winner exit => exact .settling loop.symm winner exit
  | remaining loop side => exact .remaining loop.symm side

/-- The callers of two polls, from the inside to the outside. -/
abbrev Caller.AllAlike : List Caller → List Caller → Prop := List.Forall₂ Caller.Alike

theorem Caller.AllAlike.refl (cs : List Caller) : AllAlike cs cs :=
  List.forall₂_same.mpr fun c _ => .refl c

theorem Caller.AllAlike.symm {cs cs' : List Caller} (h : AllAlike cs cs') : AllAlike cs' cs :=
  (List.Forall₂.imp (fun _ _ h => h.symm) h.flip)

/-! ## Tasks -/

inductive Job.Alike : Job → Job → Prop
  | segment {s s' : Segment} (h : s.Alike s') : Alike (.segment s) (.segment s')
  | detached {s s' : Segment} (h : s.Alike s') : Alike (.detached s) (.detached s')
  | same (job : Job) : Alike job job

inductive Spawn.Alike : Spawn → Spawn → Prop
  | mk (task : TaskId) (context : Context) {job job' : Job} (h : job.Alike job') :
      Alike ⟨task, context, job⟩ ⟨task, context, job'⟩

theorem Spawn.Alike.refl (x : Spawn) : x.Alike x := .mk x.task x.context (.same x.job)

theorem Spawn.Alike.symm {x x' : Spawn} (h : x.Alike x') : x'.Alike x := by
  obtain ⟨task, context, h⟩ := h
  cases h with
  | segment h => exact .mk task context (.segment h.symm)
  | detached h => exact .mk task context (.detached h.symm)
  | same => exact .mk task context (.same _)

/-! ## What can be seen of a loop -/

/-- Without the effects that are still to come. -/
def Doing.bare : Doing → Doing
  | .evaluating _ => .evaluating Effect.unit
  | .acquiring _ _ => .acquiring (fun _ => Effect.unit) fun _ _ => Effect.unit
  | other => other

/-- Without the frames and the effects that are still to come. -/
def Post.bare (p : Post) : Post :=
  ⟨p.link, match p.piece with
    | .fiber φ => .fiber ⟨⟨φ.loop.env, []⟩, φ.doing.bare⟩
    | .away env task => .away env task⟩

/-- Segments that are alike wait for the same, in the same nest of loops. -/
theorem Segment.Alike.bare {s s' : Segment} (h : s.Alike s') (l : Link) :
    (s.posts l).map Post.bare = (s'.posts l).map Post.bare := by
  induction h generalizing l with
  | start loop effect | callback loop slot | future loop wait | gathering loop group =>
    cases loop
    rfl
  | shifted env task => rfl
  | acquiring loop used released built nested ih =>
    cases loop
    simp [Segment.posts, ih, Post.bare, Doing.bare, Loop.at]
  | releasing loop _ _ nested ih | settling loop _ _ nested ih | remaining loop _ nested ih =>
    cases loop
    simp [Segment.posts, ih, Post.bare, Doing.bare, Loop.at, Loop.below]
  | racing loop tokens onLeft onRight ihl ihr =>
    cases loop
    simp [Segment.posts, ihl, ihr, Post.bare, Doing.bare, Loop.at, Loop.below]

end EffectFibers
