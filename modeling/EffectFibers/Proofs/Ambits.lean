import EffectFibers.Proofs.Surroundings

/-!
# Effects by themselves

What an effect comes to depends on what it finds in the memory, on the clock and on its callbacks,
and these may be changed around it.  A `Ambit` says what an effect relies on: how it finds the
store when the program begins, and what may be done around it from then on, given what was done so
far and by whom.

An effect is by itself (`Effect.Alone`) when nothing is told of its surroundings but the changes of
the store that they make: the strands that carry it out go on, or the store changes as the ambit
allows.  Any frames may be below the effect; it has come to an exit when its loop has come back to
these frames.

## Main definitions

* `Face`, `Transition`, `Ambit`: what can be seen of a store, and what an effect relies on.
* `Effect.Alone`: what becomes of an effect by itself.
* `Effect.ComesTo`: what an effect comes to does not depend on the schedule.
* `Effect.Respects`: what an effect does is allowed by the ambit of another one.
-/

namespace EffectFibers

/-! ## Ambits -/

/-- What can be seen of a store, besides its tokens. -/
structure Face where
  memory : Memory
  callbacks : Array Callback
  now : Nat
  timed : Bool

def Store.face (s : Store) : Face := ⟨s.memory, s.slots.map Slot.callback, s.now, s.timed⟩

/-- A step, as it can be seen. -/
structure Transition where
  /-- The step is one of those in question, and not one around them. -/
  own : Prop
  before : Face
  after : Face

/-- What is seen from an effect in a step that was made around it. -/
def Transition.around (s s' : Store) : Transition := ⟨False, s.face, s'.face⟩

/-- What an effect relies on. -/
structure Ambit where
  /-- The tokens that it looks at.  Nobody else cancels them. -/
  named : TokenId → Prop
  /-- How it finds the store when the program begins. -/
  opens : Store → Prop
  /-- What may be done around it, after what was done so far. -/
  allows : List Transition → Face → Face → Prop
  /-- It does not rely on being the only one that makes steps. -/
  idle : ∀ deeds face, allows deeds face face

namespace Ambit

/-- A change of the store that does not touch what the effect relies on. -/
structure Spares (S : Ambit) (deeds : List Transition) (s s' : Store) : Prop where
  face : S.allows deeds s.face s'.face
  named : ∀ t, S.named t → s'.isCancelled t = s.isCancelled t

theorem spares_of_face (S : Ambit) (deeds : List Transition) {s s' : Store}
    (face : s'.face = s.face)
    (named : ∀ t, S.named t → s'.isCancelled t = s.isCancelled t) : S.Spares deeds s s' :=
  ⟨face ▸ S.idle deeds s.face, named⟩

/-- A store in which a program begins, with the tokens that the effect looks at. -/
structure Begins (S : Ambit) (s : Store) : Prop where
  opens : S.opens s
  known : ∀ t, S.named t → t < s.size

end Ambit

/-- A strand holds on to the token. -/
def Strand.Owns (own : Multiset Strand) (t : TokenId) : Prop :=
  ∃ μ ∈ own, ∃ p ∈ μ.posts, t ∈ p.owned

/-! ## Effects by themselves -/

/-- Where an effect is evaluated: in which strand, in which loop, and how many tokens there are
then. -/
structure Outset where
  run : TokenId
  role : Strand.Role
  loop : Loop
  size : Nat

def Outset.token (o : Outset) : TokenId := o.loop.env.token

/-- A strand is about to evaluate an effect in a loop that nothing waits for. -/
inductive Strand.State.Before (loop : Loop) (effect : Effect) : Strand.State → Prop
  | waiting : Before loop effect (.waiting (.start loop effect))
  | resumed : Before loop effect (.running ⟨.resume (.start loop effect), []⟩)
  | running : Before loop effect (.running ⟨.eval loop effect, []⟩)

/-- The loop is back at the frames below the effect, with an exit. -/
def Outset.Over (o : Outset) (P : Multiset Post) (x : Exit) : Prop :=
  ∃ env, env.token = o.token ∧ ⟨⟨env, o.loop.frames⟩, .unwinding x⟩ ∈ Post.fibers P

/-- The strands are still busy with the effect, or there is nothing below it. -/
def Outset.Busy (o : Outset) (own : Multiset Strand) : Prop :=
  o.loop.frames = [] ∨ ∀ μ ∈ own, ∀ x, ¬ o.Over μ.posts x

/-- A change of the store around some strands: what they rely on is spared, and no token of theirs
is cancelled or cut loose but that of their loop. -/
structure Ambit.Around (S : Ambit) (token : TokenId) (deeds : List Transition) (π : Runtime)
    (s : Store) : Prop where
  elsewhere : Runtime.Drifts π.strands π.store s ∨ ∃ held,
    (∀ t, Strand.Owns π.strands t → t ≠ token → held t = true) ∧
      s = { π.store with tokens := π.store.tokens.prune held }
  ages : π.store.Ages s
  spares : S.Spares deeds π.store s
  calm : ∀ t, Strand.Owns π.strands t → t ≠ token → s.isCancelled t = true →
    π.store.isCancelled t = true

/-- What becomes of an effect by itself: the strands that carry it out, and what was done since the
program began.  The strand of its loop is no longer one of them when it goes on below the effect. -/
inductive Effect.Alone (S : Ambit) (effect : Effect) :
    Runtime → List Transition → Option Outset → Prop
  | opens {s : Store} {log : List Moment} (h : S.Begins s) : Alone S effect ⟨s, 0, log⟩ [] none
  | waits {s s' : Store} {log : List Moment} {deeds : List Transition}
      (before : Alone S effect ⟨s, 0, log⟩ deeds none) (size : s.size ≤ s'.size)
      (spares : S.Spares deeds s s') :
      Alone S effect ⟨s', 0, log⟩ (.around s s' :: deeds) none
  | begins {σ : Runtime} {log : List Moment} {deeds : List Transition} {state : Strand.State}
      {o : Outset} (before : Alone S effect ⟨σ.store, 0, log⟩ deeds none)
      (reached : σ.Reachable) (about : state.Before o.loop effect)
      (size : o.size = σ.store.size) :
      Alone S effect ⟨σ.store, {⟨o.run, o.role, state⟩}, log⟩ deeds (some o)
  | own {π π' : Runtime} {deeds : List Transition} {o : Outset}
      (before : Alone S effect π deeds (some o)) (busy : o.Busy π.strands)
      (act : Runtime.Act π π') :
      Alone S effect π' (⟨True, π.store.face, π'.store.face⟩ :: deeds) (some o)
  | around {π : Runtime} {s : Store} {deeds : List Transition} {o : Outset}
      (before : Alone S effect π deeds (some o)) (h : S.Around o.token deeds π s) :
      Alone S effect { π with store := s } (.around π.store s :: deeds) (some o)
  | yields {s : Store} {μ : Strand} {own : Multiset Strand} {log : List Moment}
      {deeds : List Transition} {o : Outset} {x : Exit}
      (before : Alone S effect ⟨s, μ ::ₘ own, log⟩ deeds (some o)) (past : o.Over μ.posts x) :
      Alone S effect ⟨s, own, log⟩ deeds (some o)

namespace Effect

/-- The effect comes to the exit whenever it comes to any: wherever it is evaluated, in whatever
order its strands go on, and whatever happens in between that its ambit allows, as long as nothing
panics, no context is closed, and its loop is not cancelled. -/
def ComesTo (S : Ambit) (effect : Effect) (x : Exit) : Prop :=
  ∀ π deeds o y, effect.Alone S π deeds (some o) → (∀ μ ∈ π.strands, ¬ μ.failed) →
    (∀ t, π.store.joined? t ≠ some .aborted) → (o.token < o.size ∨ π.store.size ≤ o.token) →
    π.store.isCancelled o.token = false → (∃ μ ∈ π.strands, o.Over μ.posts y) → y = x

/-- One view of what was done is that of somebody else than another one. -/
def Apart : List Transition → List Transition → Prop :=
  List.Forall₂ fun d d' => d.before = d'.before ∧ d.after = d'.after ∧ ¬ (d.own ∧ d'.own)

/-- What the effect does by itself is allowed by the ambit of another one, in whatever way the
other one has come to be where it is. -/
def Respects (S : Ambit) (effect : Effect) (S' : Ambit) : Prop :=
  ∀ π π' deeds o, effect.Alone S π deeds (some o) → o.Busy π.strands → Runtime.Act π π' →
    ∀ deeds', Apart deeds deeds' → S'.Spares deeds' π.store π'.store

end Effect

end EffectFibers
