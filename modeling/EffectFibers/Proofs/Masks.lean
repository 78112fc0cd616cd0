import EffectFibers.Proofs.Runtime

/-!
# Where a masked part stands

An acquisition and a release are loops of their own under a token without a parent: they are
masked.  A `Mask` is such a place in a fiber, with the loop that waits there.  The masked part may
be in the middle of a poll; then it is the innermost part of the poll, and whatever is around the
mask waits.  Or it can only wait; then its segment is held somewhere in the segment of the strand,
or in a poll of it that is busy with something else (`Config.Holds`).

## Main statements

* `Config.step_onto`: a step of a poll does not depend on what is further out.
* `Config.Holds.step`: a poll that is busy elsewhere leaves the masked part alone, until it takes
  it up.
-/

namespace EffectFibers

/-! ## Masks -/

inductive Mask where
  | acquiring (loop : Loop) (use : Value → Effect) (release : Value → ExitCase Value → Effect)
  | releasing (loop : Loop) (bracket : BracketId) (outcome : Exit)

namespace Mask

/-- The loop of the fiber that waits for the masked part. -/
def loop : Mask → Loop
  | .acquiring loop .. | .releasing loop .. => loop

def caller : Mask → Caller
  | .acquiring loop use release => .acquiring loop use release
  | .releasing loop bracket outcome => .releasing loop bracket outcome

/-- The segment of the fiber around a masked part that can only wait. -/
def around : Mask → Segment → Segment
  | .acquiring loop use release, inner => .acquiring loop use release inner
  | .releasing loop bracket outcome, inner => .releasing loop bracket outcome inner

theorem parkStep (m : Mask) (g : Segment) (callers : List Caller) :
    Machine.parkStep g (m.caller :: callers) = Machine.park (m.around g) callers := by
  cases m <;> rfl

theorem resumeStep (m : Mask) (worker : Worker) (g : Segment) (callers : List Caller) (s : Store) :
    Machine.resumeStep worker callers s (m.around g)
      = (Machine.resume g (m.caller :: callers), s) := by
  cases m <;> rfl

end Mask

/-! ## What is further out -/

/-- The poll with more callers on the outside. -/
def Config.onto (c : Config) (outer : List Caller) : Config := ⟨c.focus, c.callers ++ outer⟩

/-- The poll has come to its end: what it has come to is handed on, or it can only wait. -/
def Config.AtEnd (c : Config) : Prop :=
  c.callers = [] ∧ ((∃ x, c.focus = .leave x) ∨ ∃ g, c.focus = .park g)

namespace Machine

/-- The same step of two polls, one of which has more callers on the outside. -/
inductive Onto (outer : List Caller) : Progress × Store → Progress × Store → Prop
  | next (f : Focus) (cs : List Caller) (s : Store) :
      Onto outer (.next ⟨f, cs⟩, s) (.next ⟨f, cs ++ outer⟩, s)
  | faulted (f : Fault) (s : Store) : Onto outer (.faulted f, s) (.faulted f, s)

variable {outer : List Caller}

theorem Onto.progress {r r' : Progress × Store} (h : Onto outer r r') :
    (∃ f cs, r'.1 = .next ⟨f, cs ++ outer⟩) ∨ ∃ f, r'.1 = .faulted f := by
  cases h with
  | next f cs s => exact .inl ⟨f, cs, rfl⟩
  | faulted f s => exact .inr ⟨f, rfl⟩

variable (l : Loop) (cs : List Caller) (s : Store)

theorem atPoint_onto (point : Point) {go go' : Store → Progress × Store}
    (on : ∀ s, Onto outer (go s) (go' s)) :
    Onto outer (atPoint s l cs point go) (atPoint s l (cs ++ outer) point go') := by
  unfold atPoint
  split
  · exact .next _ cs s
  · exact on _

theorem evalStep_onto (worker : Worker) (effect : Effect) :
    Onto outer (evalStep worker l cs s effect) (evalStep worker l (cs ++ outer) s effect) := by
  cases effect with
  | pure | fail | cancel | isCancelled | map | flatMap | handleErrorWith => exact .next _ cs _
  | fault f => exact .faulted f s
  | perform act next =>
    simp only [evalStep]
    split
    · exact .next _ cs _
    · exact .faulted _ _
  | loop again body v =>
    simp only [evalStep]
    split
    · exact .next _ cs _
    · exact .next _ cs _
    · exact .faulted _ _
  | async registration =>
    simp only [evalStep]
    refine atPoint_onto l cs s .registration fun s => ?_
    split
    · exact .next _ cs _
    · exact .faulted _ _
  | await future =>
    simp only [evalStep]
    refine atPoint_onto l cs s .future fun s => ?_
    split
    · exact .next _ cs _
    · exact .faulted _ _
  | shift context => exact atPoint_onto l cs s .shift fun s => .next _ cs _
  | bracket acquire use release =>
    exact atPoint_onto l cs s .acquisition fun s => .next _ (.acquiring l use release :: cs) _
  | race left right => exact .next _ (.racingLeft .. :: cs) _
  | parallel n operands => exact .next _ cs _

theorem frameStep_onto (f : Frame) (x : Exit) :
    Onto outer (frameStep l cs s f x) (frameStep l (cs ++ outer) s f x) := by
  have skipped : Onto outer (unwind l x cs, s) (unwind l x (cs ++ outer), s) := .next _ cs s
  cases f with
  | map f =>
    cases x with
    | succeeded v =>
      simp only [frameStep]
      split
      · exact .next _ cs _
      · exact .faulted _ _
    | errored | canceled => exact skipped
  | bind | again =>
    cases x with
    | succeeded v => exact .next _ cs _
    | errored | canceled => exact skipped
  | handle =>
    cases x with
    | errored e => exact .next _ cs _
    | succeeded | canceled => exact skipped
  | release b finalizer =>
    simp only [frameStep]
    split
    · exact .faulted _ _
    · exact .next _ (.releasing .. :: cs) _

theorem unwindStep_onto (x : Exit) :
    Onto outer (unwindStep l x cs s) (unwindStep l x (cs ++ outer) s) := by
  obtain ⟨env, frames⟩ := l
  cases frames with
  | nil => exact .next _ cs _
  | cons frame frames => exact frameStep_onto _ cs s frame x

theorem settle_onto (tokens : RaceTokens) (side : Side) (x : Exit) (other : Segment) :
    Onto outer (settle l tokens side x other cs s)
      (settle l tokens side x other (cs ++ outer) s) := by
  unfold settle
  split
  · exact .next _ (.remaining .. :: cs) _
  · exact .next _ (.settling .. :: cs) _

theorem returnStep_onto (x : Exit) (caller : Caller) :
    Onto outer (returnStep x cs s caller) (returnStep x (cs ++ outer) s caller) := by
  cases caller with
  | acquiring loop use release =>
    cases x with
    | succeeded v =>
      simp only [returnStep]
      split
      · exact .next _ cs _
      · exact .next _ cs _
    | errored | canceled => exact .next _ cs _
  | releasing loop bracket outcome =>
    simp only [returnStep]
    split
    · exact .next _ cs _
    · exact .next _ cs _
    · exact .next _ cs _
  | racingLeft loop tokens other => exact settle_onto loop cs s tokens .left x other
  | racingRight loop tokens other => exact settle_onto loop cs s tokens .right x other
  | settling | remaining => exact .next _ cs _

theorem resumeStep_onto (worker : Worker) (g : Segment) :
    Onto outer (resumeStep worker cs s g) (resumeStep worker (cs ++ outer) s g) := by
  cases g with
  | start => exact .next _ cs _
  | callback loop slot =>
    simp only [resumeStep]
    split
    · exact .next _ cs _
    · exact .faulted _ _
    · split
      · exact .next _ cs _
      · exact .next _ cs _
  | future loop wait =>
    simp only [resumeStep]
    split
    · exact .next _ cs _
    · split
      · exact .next _ cs _
      · exact .next _ cs _
  | shifted env task =>
    simp only [resumeStep]
    split
    · split
      · exact .next _ cs _
      · exact .faulted _ _
    · exact .next _ cs _
  | gathering loop group =>
    simp only [resumeStep]
    split
    · exact .faulted _ _
    · split
      · exact .next _ cs _
      · exact .next _ cs _
  | acquiring | releasing | racing | settling | remaining => exact .next _ (_ :: cs) _

end Machine

/-- A step of a poll does not depend on what is further out. -/
theorem Config.step_onto {c : Config} (busy : ¬ c.AtEnd) (worker : Worker) (outer : List Caller)
    (s : Store) : Machine.Onto outer (c.step worker s) ((c.onto outer).step worker s) := by
  obtain ⟨focus, cs⟩ := c
  cases focus with
  | eval loop effect => exact Machine.evalStep_onto loop cs s worker effect
  | unwind loop x => exact Machine.unwindStep_onto loop cs s x
  | resume g => exact Machine.resumeStep_onto cs s worker g
  | leave x =>
    cases cs with
    | nil => exact (busy ⟨rfl, .inl ⟨x, rfl⟩⟩).elim
    | cons caller cs => exact Machine.returnStep_onto cs s x caller
  | park g =>
    cases cs with
    | nil => exact (busy ⟨rfl, .inr ⟨g, rfl⟩⟩).elim
    | cons caller cs =>
      cases caller with
      | racingLeft loop tokens right => exact .next _ (.racingRight loop tokens g :: cs) s
      | _ => exact .next _ cs s

/-! ## Where a masked part waits -/

section

variable (m : Mask) (g : Segment)

/-- The segment `g` is held behind the mask in another one. -/
inductive Segment.Held : Segment → Prop
  | here : Held (m.around g)
  | acquiring {l : Loop} {use : Value → Effect} {release : Value → ExitCase Value → Effect}
      {inner : Segment} (h : Held inner) : Held (.acquiring l use release inner)
  | releasing {l : Loop} {b : BracketId} {outcome : Exit} {inner : Segment} (h : Held inner) :
      Held (.releasing l b outcome inner)
  | onLeft {l : Loop} {tokens : RaceTokens} {left right : Segment} (h : Held left) :
      Held (.racing l tokens left right)
  | onRight {l : Loop} {tokens : RaceTokens} {left right : Segment} (h : Held right) :
      Held (.racing l tokens left right)
  | settling {l : Loop} {winner : Side} {x : Exit} {loser : Segment} (h : Held loser) :
      Held (.settling l winner x loser)
  | remaining {l : Loop} {side : Side} {operand : Segment} (h : Held operand) :
      Held (.remaining l side operand)

/-- The poll holds `g` behind the mask, and is busy with something else. -/
inductive Config.Holds : Config → Prop
  | resume (cs : List Caller) {g' : Segment} (h : g.Held m g') : Holds ⟨.resume g', cs⟩
  | park (cs : List Caller) {g' : Segment} (h : g.Held m g') : Holds ⟨.park g', cs⟩
  | onRight (f : Focus) (cs cs' : List Caller) (l : Loop) (tokens : RaceTokens) {right : Segment}
      (h : g.Held m right) : Holds ⟨f, cs ++ .racingLeft l tokens right :: cs'⟩
  | onLeft (f : Focus) (cs cs' : List Caller) (l : Loop) (tokens : RaceTokens) {left : Segment}
      (h : g.Held m left) : Holds ⟨f, cs ++ .racingRight l tokens left :: cs'⟩

inductive Strand.State.Holds : Strand.State → Prop
  | waiting {g' : Segment} (h : g.Held m g') : Holds (.waiting g')
  | running {c : Config} (h : c.Holds m g) : Holds (.running c)

end

variable {m : Mask} {g : Segment}

/-- A parked segment that holds the masked part is handed on to the callers. -/
theorem Segment.Held.parked {g' : Segment} (h : g.Held m g') (cs : List Caller) :
    (Machine.parkStep g' cs).state.Holds m g := by
  cases cs with
  | nil => exact .waiting h
  | cons caller cs =>
    cases caller with
    | acquiring => exact .running (.park cs h.acquiring)
    | releasing => exact .running (.park cs h.releasing)
    | racingLeft loop tokens right => exact .running (.onLeft _ [] cs loop tokens h)
    | racingRight => exact .running (.park cs h.onRight)
    | settling => exact .running (.park cs h.settling)
    | remaining => exact .running (.park cs h.remaining)

/-- The masked part is taken up, or a step comes closer to it. -/
theorem Segment.Held.resumed {g' : Segment} (h : g.Held m g') (worker : Worker)
    (cs : List Caller) (s : Store) : g' = m.around g ∨
      (Machine.resumeStep worker cs s g').1.state.Holds m g := by
  cases h with
  | here => exact .inl rfl
  | acquiring h | releasing h | onLeft h | settling h | remaining h =>
    exact .inr (.running (.resume _ h))
  | onRight h => exact .inr (.running (.onRight _ [] cs _ _ h))

/-- A poll that is busy elsewhere leaves the masked part alone, until it takes it up.  A panic
elsewhere ends the poll. -/
theorem Config.Holds.step {c : Config} (h : c.Holds m g) (worker : Worker) (s : Store) :
    (∃ cs, c = ⟨.resume (m.around g), cs⟩) ∨ (c.step worker s).1.state.Holds m g ∨
      ∃ f, (c.step worker s).1 = .faulted f := by
  have settled (l : Loop) (tokens : RaceTokens) (side : Side) (x : Exit) {other : Segment}
      (cs : List Caller) (h : g.Held m other) :
      (Machine.settle l tokens side x other cs s).1.state.Holds m g := by
    unfold Machine.settle
    split
    · exact .running (.resume _ h)
    · exact .running (.resume _ h)
  cases h with
  | resume cs h =>
    obtain rfl | held := h.resumed worker cs s
    · exact .inl ⟨cs, rfl⟩
    · exact .inr (.inl held)
  | park cs h => exact .inr (.inl (h.parked cs))
  | @onRight f cs cs' l tokens other h =>
    right
    by_cases done : Config.AtEnd ⟨f, cs⟩
    · obtain ⟨rfl, ⟨x, rfl⟩ | ⟨g', rfl⟩⟩ := done
      · exact .inl (settled l tokens .left x cs' h)
      · exact .inl (.running (.resume _ h))
    · have onto := Config.step_onto done worker (.racingLeft l tokens other :: cs') s
      refine onto.progress.imp_left ?_
      rintro ⟨f', cs'', next⟩
      rw [Config.onto] at next
      exact next ▸ .running (.onRight f' cs'' cs' l tokens h)
  | @onLeft f cs cs' l tokens other h =>
    right
    by_cases done : Config.AtEnd ⟨f, cs⟩
    · obtain ⟨rfl, ⟨x, rfl⟩ | ⟨g', rfl⟩⟩ := done
      · exact .inl (settled l tokens .right x cs' h)
      · exact .inl (.running (.park cs' h.onLeft))
    · have onto := Config.step_onto done worker (.racingRight l tokens other :: cs') s
      refine onto.progress.imp_left ?_
      rintro ⟨f', cs'', next⟩
      rw [Config.onto] at next
      exact next ▸ .running (.onLeft f' cs'' cs' l tokens h)

/-! ## What is held stays what it is -/

/-- How a loop is linked to what is around it makes no difference to its loops. -/
theorem Segment.pieces (g : Segment) (l l' : Link) :
    (g.posts l).map Post.piece = (g.posts l').map Post.piece := by
  cases g <;> simp [posts, Loop.at]

theorem Caller.pieces (c : Caller) (l l' : Link) :
    (c.posts l).map Post.piece = (c.posts l').map Post.piece := by
  cases c <;> simp [posts, Loop.at]

theorem Focus.pieces (f : Focus) (l l' : Link) :
    (f.posts l).map Post.piece = (f.posts l').map Post.piece := by
  cases f with
  | eval | unwind | leave => rfl
  | resume g | park g => exact g.pieces l l'

theorem Caller.allPieces_append (cs outer : List Caller) :
    (allPosts (cs ++ outer)).map Post.piece
      = (allPosts cs).map Post.piece + (allPosts outer).map Post.piece := by
  induction cs with
  | nil => simp
  | cons c cs ih =>
    rw [List.cons_append, allPosts_cons, allPosts_cons, Multiset.map_add, Multiset.map_add, ih,
      add_assoc, c.pieces]

theorem Config.pieces_onto (c : Config) (outer : List Caller) :
    (c.onto outer).posts.map Post.piece
      = c.posts.map Post.piece + (Caller.allPosts outer).map Post.piece := by
  unfold posts onto
  rw [Multiset.map_add, Multiset.map_add, Caller.allPieces_append, add_assoc, c.focus.pieces]

/-- The loops of a segment that is held are there. -/
theorem Segment.Held.pieces {g' : Segment} (h : g.Held m g') (l l' : Link) :
    (g.posts l).map Post.piece ≤ (g'.posts l').map Post.piece := by
  induction h generalizing l' with
  | here =>
    cases m <;>
      simp only [Mask.around, posts, Multiset.map_cons, g.pieces l .apart] <;>
      exact Multiset.le_cons_self _ _
  | acquiring h ih | releasing h ih | settling h ih | remaining h ih =>
    simp only [posts, Multiset.map_cons]
    exact (ih _).trans (Multiset.le_cons_self _ _)
  | onLeft h ih =>
    simp only [posts, Multiset.map_cons, Multiset.map_add]
    exact ((ih _).trans (Multiset.le_add_right _ _)).trans (Multiset.le_cons_self _ _)
  | onRight h ih =>
    simp only [posts, Multiset.map_cons, Multiset.map_add]
    exact ((ih _).trans (Multiset.le_add_left _ _)).trans (Multiset.le_cons_self _ _)

theorem Config.Holds.pieces {c : Config} (h : c.Holds m g) (l : Link) :
    (g.posts l).map Post.piece ≤ c.posts.map Post.piece := by
  have behind (f : Focus) (cs cs' : List Caller) {caller : Caller}
      (le : (g.posts l).map Post.piece
        ≤ (caller.posts (Caller.innermost cs')).map Post.piece) :
      (g.posts l).map Post.piece ≤ (Config.posts ⟨f, cs ++ caller :: cs'⟩).map Post.piece := by
    rw [posts, Multiset.map_add, Caller.allPieces_append, Caller.allPosts_cons, Multiset.map_add]
    refine le.trans ((Multiset.le_add_right _ ((Caller.allPosts cs').map Post.piece)).trans ?_)
    exact (Multiset.le_add_left _ _).trans (Multiset.le_add_left _ _)
  cases h with
  | resume cs h | park cs h =>
    simp only [posts_resume, posts_park, Multiset.map_add]
    exact (h.pieces l _).trans (Multiset.le_add_right _ _)
  | onRight f cs cs' loop tokens h | onLeft f cs cs' loop tokens h =>
    refine behind f cs cs' ?_
    simp only [Caller.posts, Multiset.map_cons]
    exact (h.pieces l _).trans (Multiset.le_cons_self _ _)

end EffectFibers
