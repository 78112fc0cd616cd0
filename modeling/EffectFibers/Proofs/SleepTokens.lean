import EffectFibers.Proofs.Sleeping
import EffectFibers.Proofs.Spreading

/-!
# The tokens of loops that sleep

The loops that evaluate an effect that only sleeps are nested in one task.  An operand of a race is
cancelled with the loop around it, and by the race when the other one has won; an acquisition and a
release are never cancelled.  Nobody else can cancel any of them.  So in a task that is not
cancelled a loop that waits is not cancelled either, unless it is inside of the loser of a race that
is settled, and there it is in an acquisition or a release.

## Main definitions

* `Segment.Sound`: which loops of a segment are cancelled.
* `Segment.Rests`: every loop of the segment waits for a time to come, and is not cancelled.

## Main statements

* `Config.Sound.step`: what a step keeps of that.
* `Segment.Tended.polls`: what a segment is like after a poll.
-/

namespace EffectFibers

/-! ## Loops and their tokens -/

/-- The token of the outermost loop. -/
def Segment.token : Segment → TokenId
  | .start loop _ | .callback loop _ | .future loop _ | .acquiring loop _ _ _ | .releasing loop _ _ _
  | .racing loop _ _ _ | .settling loop _ _ _ | .remaining loop _ _ | .gathering loop _ =>
    loop.env.token
  | .shifted env _ => env.token

/-- The tokens of the loops inside of the outermost one. -/
def Segment.inner : Segment → List TokenId
  | .acquiring _ _ _ g | .releasing _ _ _ g | .settling _ _ _ g | .remaining _ _ g =>
    g.token :: g.inner
  | .racing _ _ left right => left.token :: (left.inner ++ right.token :: right.inner)
  | .start .. | .callback .. | .future .. | .shifted .. | .gathering .. => []

namespace Caller

/-- The loop that waits. -/
def loop : Caller → Loop
  | .acquiring loop _ _ | .releasing loop _ _ | .racingLeft loop _ _ | .racingRight loop _ _
  | .settling loop _ _ | .remaining loop _ => loop

/-- The tokens of the loops that are laid by. -/
def laid : Caller → List TokenId
  | .racingLeft _ _ g | .racingRight _ _ g => g.token :: g.inner
  | .acquiring .. | .releasing .. | .settling .. | .remaining .. => []

/-- The tokens of all loops around the one in control. -/
def around : List Caller → List TokenId
  | [] => []
  | k :: ks => k.loop.env.token :: (k.laid ++ around ks)

/-- The token of the outermost loop, if the one in control has the given one. -/
def outermost (t : TokenId) : List Caller → TokenId
  | [] => t
  | k :: ks => outermost k.loop.env.token ks

end Caller

/-- The tokens of the loops inside of the one in control. -/
def Focus.inner : Focus → List TokenId
  | .resume g | .park g => g.inner
  | .eval .. | .unwind .. | .leave _ => []

/-! ## Who is cancelled -/

namespace Store

/-- A loop has begun another one under a token without a parent. -/
structure Shelters (s : Store) (p t : TokenId) : Prop where
  lt : p < t
  live : s.isCancelled t = false
  root : ∀ q, ¬ s.Derived q t

/-- A token is cancelled with its parent, and not without it. -/
structure Follows (s : Store) (p t : TokenId) : Prop where
  parent : s.Parent p t
  hangs : s.tokens.Hangs p t
  live : s.isCancelled t = true → s.isCancelled p = true

variable {s s' : Store} {own : TokenId → Prop} {p t : TokenId}

/-- A change of the store in which only some tokens are cancelled, and what was derived from
them. -/
structure Spares (s s' : Store) (own : TokenId → Prop) : Prop where
  grows : s.Grows s'
  family : s.Family
  spreads : s.Spreads s' own

theorem Shelters.mono (h : s.Shelters p t) (change : s.Spares s' own) (lt : t < s.size)
    (other : ¬ own t) : s'.Shelters p t := by
  have root : ∀ q, ¬ s'.Derived q t := fun q derived => by
    obtain old | new := change.grows.ages.young q t derived
    · exact h.root q old
    · exact absurd lt (Nat.not_lt.mpr new.le)
  refine ⟨h.lt, ?_, root⟩
  cases cancelled : s'.isCancelled t with
  | false => rfl
  | true =>
    obtain before | here | ⟨q, parent, -⟩ := change.spreads t cancelled
    · exact before.symm.trans h.live
    · exact (other here).elim
    · exact (root q parent.derived).elim

theorem Follows.mono (h : s.Follows p t) (change : s.Spares s' own) (other : ¬ own t) :
    s'.Follows p t := by
  have ages := change.grows.ages
  have parent := h.parent.mono ages
  refine ⟨parent, change.grows.hangs change.family parent fun _ => h.hangs, fun cancelled => ?_⟩
  obtain before | here | ⟨q, parent', above⟩ := change.spreads t cancelled
  · exact ages.isCancelled p (h.live before)
  · exact (other here).elim
  · rwa [(change.grows.family change.family).unique p q t parent.derived parent'.derived]

/-- A derived token follows the one that it was derived from. -/
theorem follows_child (lt : p < s.size) :
    (s.childToken p).2.Follows p s.size where
  parent := ⟨by simp [Derived], lt⟩
  hangs := Forest.hangs_child lt
  live cancelled := by
    have beyond : s.tokens.isCancelled s.tokens.nodes.size = false := by simp [Forest.isCancelled]
    have whole : ((s.tokens.child p).2.isCancelled s.tokens.nodes.size) = true := cancelled
    rw [Forest.isCancelled_child, beyond] at whole
    have above : s.tokens.isCancelled p = true := by simpa using whole
    exact (Grows.ages (.single (.child s p))).isCancelled p above

theorem Follows.same (h : s.Follows p t) : s.isCancelled t = s.isCancelled p := by
  cases cancelled : s.isCancelled p with
  | true => exact h.hangs.cancelled cancelled
  | false =>
    refine Bool.eq_false_iff.mpr fun above => ?_
    exact Bool.noConfusion (cancelled.symm.trans (h.live above))

end Store

/-- Which loops of a segment are cancelled: an operand of a race with the loop of the race, the loser
of a settled race in any case, an acquisition or a release never.  And a loop holds `canceled` back,
as the exit of a race or behind a release, only if it is cancelled. -/
inductive Segment.Sound (s : Store) : Segment → Prop
  | start (loop : Loop) (e : Effect) : Sound s (.start loop e)
  | future (loop : Loop) (wait : Wait) : Sound s (.future loop wait)
  | acquiring {loop : Loop} {use : Value → Effect} {release : Value → ExitCase Value → Effect}
      {g : Segment} (apart : s.Shelters loop.env.token g.token) (h : Sound s g) :
      Sound s (.acquiring loop use release g)
  | releasing {loop : Loop} {b : BracketId} {x : Exit} {g : Segment}
      (caused : x = .canceled → s.isCancelled loop.env.token = true)
      (apart : s.Shelters loop.env.token g.token) (h : Sound s g) : Sound s (.releasing loop b x g)
  | racing {loop : Loop} {left right : Segment} (onLeft : s.Follows loop.env.token left.token)
      (onRight : s.Follows loop.env.token right.token) (h : Sound s left) (h' : Sound s right) :
      Sound s (.racing loop ⟨left.token, right.token⟩ left right)
  | settling {loop : Loop} {winner : Side} {x : Exit} {g : Segment}
      (caused : x = .canceled → s.isCancelled loop.env.token = true)
      (lt : loop.env.token < g.token) (lost : s.isCancelled g.token = true) (h : Sound s g) :
      Sound s (.settling loop winner x g)

/-- Every loop of the segment that waits at all waits for a later time, and is not cancelled.  The
outermost loop is cancelled or not as said. -/
inductive Segment.Rests (now : Nat) : Bool → Segment → Prop
  | future {loop : Loop} {time : Nat} {result : Result} (later : now < time) :
      Rests now false (.future loop (.deadline time result))
  | acquiring {b : Bool} {loop : Loop} {use : Value → Effect}
      {release : Value → ExitCase Value → Effect} {g : Segment} (h : Rests now false g) :
      Rests now b (.acquiring loop use release g)
  | releasing {b : Bool} {loop : Loop} {id : BracketId} {x : Exit} {g : Segment}
      (h : Rests now false g) : Rests now b (.releasing loop id x g)
  | racing {b : Bool} {loop : Loop} {tokens : RaceTokens} {left right : Segment}
      (h : Rests now b left) (h' : Rests now b right) : Rests now b (.racing loop tokens left right)
  | settling {b : Bool} {loop : Loop} {winner : Side} {x : Exit} {g : Segment}
      (h : Rests now true g) : Rests now b (.settling loop winner x g)

/-- The same of a loop that waits for the one with the given token. -/
inductive Caller.Sound (s : Store) (t : TokenId) : Caller → Prop
  | acquiring {loop : Loop} {use : Value → Effect} {release : Value → ExitCase Value → Effect}
      (apart : s.Shelters loop.env.token t) : Sound s t (.acquiring loop use release)
  | releasing {loop : Loop} {b : BracketId} {x : Exit}
      (caused : x = .canceled → s.isCancelled loop.env.token = true)
      (apart : s.Shelters loop.env.token t) : Sound s t (.releasing loop b x)
  | racingLeft {loop : Loop} {right : Segment} (onLeft : s.Follows loop.env.token t)
      (onRight : s.Follows loop.env.token right.token) (h : right.Sound s) :
      Sound s t (.racingLeft loop ⟨t, right.token⟩ right)
  | racingRight {loop : Loop} {left : Segment} (onLeft : s.Follows loop.env.token left.token)
      (onRight : s.Follows loop.env.token t) (h : left.Sound s)
      (rests : left.Rests s.now (s.isCancelled loop.env.token)) :
      Sound s t (.racingRight loop ⟨left.token, t⟩ left)
  | settling {loop : Loop} {winner : Side} {x : Exit}
      (caused : x = .canceled → s.isCancelled loop.env.token = true) (lt : loop.env.token < t)
      (lost : s.isCancelled t = true) : Sound s t (.settling loop winner x)

inductive Caller.AllSound (s : Store) : TokenId → List Caller → Prop
  | nil (t : TokenId) : AllSound s t []
  | cons {t : TokenId} {k : Caller} {ks : List Caller} (head : k.Sound s t)
      (rest : AllSound s k.loop.env.token ks) : AllSound s t (k :: ks)

/-- The same of the loop in control, which has the given token. -/
inductive Focus.Sound (s : Store) : TokenId → Focus → Prop
  | eval (loop : Loop) (e : Effect) : Sound s loop.env.token (.eval loop e)
  | unwind (loop : Loop) {x : Exit} (caused : x = .canceled → s.isCancelled loop.env.token = true) :
      Sound s loop.env.token (.unwind loop x)
  | leave {t : TokenId} {x : Exit} (caused : x = .canceled → s.isCancelled t = true) :
      Sound s t (.leave x)
  | resume {g : Segment} (h : g.Sound s) : Sound s g.token (.resume g)
  | park {g : Segment} (h : g.Sound s) (rests : g.Rests s.now (s.isCancelled g.token)) :
      Sound s g.token (.park g)

section

variable {s s' : Store} {own : TokenId → Prop} {t : TokenId} {g : Segment} {ks : List Caller}

/-- Where the tokens of a segment are not touched, its loops are cancelled as before. -/
theorem Segment.Sound.mono (h : g.Sound s) (change : s.Spares s' own)
    (other : ∀ u ∈ g.inner, u < s.size ∧ ¬ own u) : g.Sound s' := by
  have ages := change.grows.ages
  induction h with
  | start loop e => exact .start loop e
  | future loop wait => exact .future loop wait
  | acquiring apart h ih =>
    obtain ⟨⟨lt, here⟩, inside⟩ := List.forall_mem_cons.mp other
    exact .acquiring (apart.mono change lt here) (ih inside)
  | releasing caused apart h ih =>
    obtain ⟨⟨lt, here⟩, inside⟩ := List.forall_mem_cons.mp other
    exact .releasing (fun same => ages.isCancelled _ (caused same)) (apart.mono change lt here)
      (ih inside)
  | racing onLeft onRight h h' ih ih' =>
    obtain ⟨⟨-, here⟩, inside⟩ := List.forall_mem_cons.mp other
    obtain ⟨left, right⟩ := List.forall_mem_append.mp inside
    obtain ⟨⟨-, here'⟩, inside'⟩ := List.forall_mem_cons.mp right
    exact .racing (onLeft.mono change here) (onRight.mono change here') (ih left) (ih' inside')
  | settling caused lt lost h ih =>
    obtain ⟨-, inside⟩ := List.forall_mem_cons.mp other
    exact .settling (fun same => ages.isCancelled _ (caused same)) lt (ages.isCancelled _ lost)
      (ih inside)

/-- Where the tokens of the loops around are not touched, nor what the outermost one hangs below, they
and the loop in control are cancelled as before. -/
theorem Caller.AllSound.mono (h : AllSound s t ks) (change : s.Spares s' own)
    (now : s'.now = s.now) (other : ∀ u ∈ t :: around ks, u < s.size ∧ ¬ own u)
    (steady : s'.isCancelled (outermost t ks) = s.isCancelled (outermost t ks)) :
    AllSound s' t ks ∧ s'.isCancelled t = s.isCancelled t := by
  have ages := change.grows.ages
  induction h with
  | nil t => exact ⟨.nil t, steady⟩
  | @cons t k ks head rest ih =>
    obtain ⟨⟨lt, here⟩, outside⟩ := List.forall_mem_cons.mp other
    obtain ⟨around, same⟩ := ih (fun u mem => outside u (by
      obtain rfl | mem := List.mem_cons.mp mem
      · exact List.mem_cons_self ..
      · exact List.mem_cons_of_mem _ (List.mem_append_right _ mem))) steady
    have laid : ∀ u ∈ k.laid, u < s.size ∧ ¬ own u := fun u mem =>
      outside u (List.mem_cons_of_mem _ (List.mem_append_left _ mem))
    cases head with
    | acquiring apart =>
      have apart' := apart.mono change lt here
      exact ⟨.cons (.acquiring apart') around, apart'.live.trans apart.live.symm⟩
    | releasing caused apart =>
      have apart' := apart.mono change lt here
      exact ⟨.cons (.releasing (fun same => ages.isCancelled _ (caused same)) apart') around,
        apart'.live.trans apart.live.symm⟩
    | racingLeft onLeft onRight h =>
      obtain ⟨⟨-, there⟩, inside⟩ := List.forall_mem_cons.mp laid
      have onLeft' := onLeft.mono change here
      exact ⟨.cons (.racingLeft onLeft' (onRight.mono change there) (h.mono change inside)) around,
        onLeft'.same.trans (same.trans onLeft.same.symm)⟩
    | @racingRight loop left onLeft onRight h rests =>
      obtain ⟨⟨-, there⟩, inside⟩ := List.forall_mem_cons.mp laid
      have onRight' := onRight.mono change here
      refine ⟨.cons (.racingRight (onLeft.mono change there) onRight' (h.mono change inside) ?_)
        around, onRight'.same.trans (same.trans onRight.same.symm)⟩
      have still : s'.isCancelled loop.env.token = s.isCancelled loop.env.token := same
      rwa [now, still]
    | settling caused lt lost =>
      have lost' := ages.isCancelled _ lost
      exact ⟨.cons (.settling (fun same => ages.isCancelled _ (caused same)) lt lost') around,
        lost'.trans lost.symm⟩

end

/-! ## What is around -/

/-- What the outermost loop hangs below is not cancelled, nor a few more tokens, and none of them
is one that the loops may cancel. -/
structure Store.Outskirts (free out : TokenId → Prop) (s : Store) (t : TokenId) : Prop where
  up : ∀ u q, out u → s.Parent q u → out q
  parent : ∀ q, s.Parent q t → out q
  live : ∀ u, out u → s.isCancelled u = false
  known : ∀ u, out u → u < s.size
  spared : ∀ u, free u → ¬ out u ∧ u < s.size

section

variable {free out own : TokenId → Prop} {s s' : Store} {t : TokenId}

theorem Store.Outskirts.mono (h : s.Outskirts free out t) (change : s.Spares s' own)
    (lt : t < s.size) (other : ∀ u, own u → ¬ out u) : s'.Outskirts free out t := by
  have ages := change.grows.ages
  have old : ∀ u q, u < s.size → s'.Parent q u → s.Parent q u := fun u q lt parent =>
    ⟨(ages.young q u parent.derived).resolve_right fun new => absurd lt (Nat.not_lt.mpr new.le),
      parent.lt⟩
  have live : ∀ u, out u → s'.isCancelled u = false := fun u outside => by
    induction u using Nat.strongRecOn with
    | ind u ih =>
      refine Bool.eq_false_iff.mpr fun cancelled => ?_
      obtain before | here | ⟨q, parent, above⟩ := change.spreads u cancelled
      · exact Bool.noConfusion ((h.live u outside).symm.trans before)
      · exact other u here outside
      · have before := h.up u q outside (old u q (h.known u outside) parent)
        exact Bool.noConfusion ((ih q parent.lt before).symm.trans above)
  exact ⟨fun u q outside parent => h.up u q outside (old u q (h.known u outside) parent),
    fun q parent => h.parent q (old t q lt parent), live,
    fun u outside => Nat.lt_of_lt_of_le (h.known u outside) ages.size,
    fun u may => ⟨(h.spared u may).1, Nat.lt_of_lt_of_le (h.spared u may).2 ages.size⟩⟩

/-- What hangs below nothing else is cancelled by nobody else. -/
theorem Store.Outskirts.steady (h : s.Outskirts free out t) (change : s.Spares s' own)
    (lt : t < s.size) (other : ∀ u, own u → ¬ out u ∧ u ≠ t) :
    s'.isCancelled t = s.isCancelled t := by
  have outskirts := h.mono change lt fun u here => (other u here).1
  cases before : s.isCancelled t with
  | true => exact change.grows.ages.isCancelled t before
  | false =>
    refine Bool.eq_false_iff.mpr fun cancelled => ?_
    obtain again | here | ⟨q, parent, above⟩ := change.spreads t cancelled
    · exact Bool.noConfusion (before.symm.trans again)
    · exact (other t here).2 rfl
    · exact Bool.noConfusion
        ((outskirts.live q (outskirts.parent q parent)).symm.trans above)

end

/-- The tokens of all loops, if the one in control has the given one. -/
def Config.loops (t : TokenId) (c : Config) : List TokenId :=
  t :: (c.focus.inner ++ Caller.around c.callers)

/-- The loops of a poll that only sleeps, if the outermost one and the one in control have the given
tokens. -/
structure Config.Sound (free out : TokenId → Prop) (s : Store) (top t : TokenId) (c : Config) :
    Prop where
  code : c.Sleeps free
  focus : c.focus.Sound s t
  callers : Caller.AllSound s t c.callers
  outermost : Caller.outermost t c.callers = top
  distinct : (c.loops t).Nodup
  known : ∀ u ∈ c.loops t, u < s.size ∧ ¬ free u ∧ ¬ out u
  outskirts : s.Outskirts free out top
  family : s.Family
  listed : s.Listed

/-- The loops of a segment that only sleeps. -/
structure Segment.Tended (free out : TokenId → Prop) (s : Store) (g : Segment) : Prop where
  code : g.Sleeps free
  sound : g.Sound s
  distinct : (g.token :: g.inner).Nodup
  known : ∀ u ∈ g.token :: g.inner, u < s.size ∧ ¬ free u ∧ ¬ out u
  outskirts : s.Outskirts free out g.token
  family : s.Family
  listed : s.Listed

theorem Caller.outermost_mem (t : TokenId) (ks : List Caller) : outermost t ks ∈ t :: around ks := by
  induction ks generalizing t with
  | nil => exact List.mem_singleton_self t
  | cons k ks ih =>
    refine List.mem_cons_of_mem _ ?_
    obtain same | mem := List.mem_cons.mp (ih k.loop.env.token)
    · exact same ▸ List.mem_cons_self ..
    · exact List.mem_cons_of_mem _ (List.mem_append_right _ mem)

namespace Config.Sound

variable {free out : TokenId → Prop} {s s' : Store} {top t t' : TokenId} {c c' : Config}
  {worker : Worker}

theorem change (h : c.Sound free out s top t) (worker : Worker) :
    s.Spares (c.step worker s).2 (c.Targets s) :=
  ⟨(c.step_reacts worker s).1, h.family, c.step_spreads worker h.listed⟩

/-- A step of the poll cancels a token that it may cancel, or that of the operand of a race that has
lost. -/
theorem targets (h : c.Sound free out s top t) {u : TokenId} (target : c.Targets s u) :
    (free u ∧ ∀ x, c.focus ≠ .leave x) ∨
      ∃ (x : Exit) (k : Caller) (ks : List Caller) (g : Segment), c = ⟨.leave x, k :: ks⟩ ∧
        k.laid = g.token :: g.inner ∧ u = g.token := by
  obtain ⟨code, focus, callers, -, -, -, -, -, -⟩ := h
  cases target with
  | asked =>
    cases code.focus with
    | eval frames effect =>
      cases effect with
      | cancel spare => exact .inl ⟨spare, nofun⟩
  | @settled loop tokens other side x ks decided =>
    refine .inr ⟨x, _, ks, other, rfl, ?_, ?_⟩
    · cases side <;> rfl
    · cases callers with
      | cons head rest =>
        cases side <;> cases head <;> rfl
  | failed | panicked =>
    cases code.focus with
    | resume inner => cases inner

/-- What is laid by is not further out. -/
theorem laid_inside {x : Exit} {k : Caller} {ks : List Caller} {u : TokenId}
    (h : Config.Sound free out s top t ⟨.leave x, k :: ks⟩) (mem : u ∈ k.laid) :
    u ∉ k.loop.env.token :: Caller.around ks := by
  have distinct := h.distinct
  simp only [Config.loops, Focus.inner, Caller.around, List.nil_append, List.nodup_cons,
    List.nodup_append, List.mem_append] at distinct
  obtain ⟨-, notLaid, -, -, apart⟩ := distinct
  rw [List.mem_cons]
  rintro (rfl | further)
  · exact notLaid (.inl mem)
  · exact apart u mem u further rfl

theorem top_mem (h : c.Sound free out s top t) : top ∈ c.loops t := by
  rw [← h.outermost]
  obtain same | mem := List.mem_cons.mp (Caller.outermost_mem t c.callers)
  · rw [same]
    exact List.mem_cons_self ..
  · exact List.mem_cons_of_mem _ (List.mem_append_right _ mem)

theorem spared (h : c.Sound free out s top t) {u : TokenId} (target : c.Targets s u) :
    ¬ out u ∧ u ≠ top := by
  obtain ⟨may, -⟩ | ⟨x, k, ks, g, rfl, laid, rfl⟩ := h.targets target
  · refine ⟨(h.outskirts.spared u may).1, ?_⟩
    rintro rfl
    exact (h.known u h.top_mem).2.1 may
  · have inside : g.token ∈ k.laid := laid ▸ List.mem_cons_self ..
    have mem : g.token ∈ Config.loops t ⟨.leave x, k :: ks⟩ :=
      List.mem_cons_of_mem _ (List.mem_cons_of_mem _ (List.mem_append_left _ inside))
    refine ⟨(h.known _ mem).2.2, fun same => h.laid_inside inside ?_⟩
    have outer : Caller.outermost k.loop.env.token ks = top := h.outermost
    rw [same, ← outer]
    exact Caller.outermost_mem _ _

/-- What is around a poll that only sleeps stays uncancelled, and the outermost loop is cancelled or
not as before. -/
theorem steady (h : c.Sound free out s top t) (worker : Worker) :
    (c.step worker s).2.Outskirts free out top ∧
      (c.step worker s).2.isCancelled top = s.isCancelled top := by
  have lt := (h.known top h.top_mem).1
  exact ⟨h.outskirts.mono (h.change worker) lt fun _ target => (h.spared target).1,
    h.outskirts.steady (h.change worker) lt fun _ target => h.spared target⟩

/-- The loops around the one in control, after a step in which that goes on. -/
theorem stays (h : c.Sound free out s top t) (worker : Worker) (goes : ∀ x, c.focus ≠ .leave x) :
    Caller.AllSound (c.step worker s).2 t c.callers ∧
      (c.step worker s).2.isCancelled t = s.isCancelled t := by
  have now : (c.step worker s).2.now = s.now := congrArg Prod.fst (c.step_clock h.code worker s)
  refine h.callers.mono (h.change worker) now (fun u mem => ?_) (h.outermost ▸ (h.steady worker).2)
  have inLoops : u ∈ c.loops t := by
    obtain rfl | mem := List.mem_cons.mp mem
    · exact List.mem_cons_self ..
    · exact List.mem_cons_of_mem _ (List.mem_append_right _ mem)
  obtain ⟨lt, kept, -⟩ := h.known u inLoops
  refine ⟨lt, fun target => ?_⟩
  obtain ⟨may, -⟩ | ⟨x, k, ks, g, rfl, -, -⟩ := h.targets target
  · exact kept may
  · exact goes x rfl

/-- The loops around the one that is handed an exit, after the step. -/
theorem returns {x : Exit} {k : Caller} {ks : List Caller}
    (h : Config.Sound free out s top t ⟨.leave x, k :: ks⟩) (worker : Worker) :
    Caller.AllSound (Config.step worker ⟨.leave x, k :: ks⟩ s).2 k.loop.env.token ks ∧
      (Config.step worker ⟨.leave x, k :: ks⟩ s).2.isCancelled k.loop.env.token
        = s.isCancelled k.loop.env.token := by
  have now : (Config.step worker ⟨.leave x, k :: ks⟩ s).2.now = s.now :=
    congrArg Prod.fst (Config.step_clock h.code worker s)
  have outer : Caller.outermost k.loop.env.token ks = top := h.outermost
  obtain ⟨head, rest⟩ : k.Sound s t ∧ Caller.AllSound s k.loop.env.token ks := by
    cases h.callers with
    | cons head rest => exact ⟨head, rest⟩
  refine rest.mono (h.change worker) now (fun u mem => ?_) (outer ▸ (h.steady worker).2)
  have inLoops : u ∈ Config.loops t ⟨.leave x, k :: ks⟩ := by
    refine List.mem_cons_of_mem _ ?_
    obtain rfl | mem := List.mem_cons.mp mem
    · exact List.mem_cons_self ..
    · exact List.mem_cons_of_mem _ (List.mem_append_right _ mem)
  refine ⟨(h.known u inLoops).1, fun target => ?_⟩
  obtain ⟨-, goes⟩ | ⟨x', k', ks', g, same, laid, rfl⟩ := h.targets target
  · exact goes x rfl
  · cases same
    exact h.laid_inside (laid ▸ List.mem_cons_self ..) mem

/-- What is left to show for the next step of the poll. -/
theorem goes (h : c.Sound free out s top t) (step : c.step worker s = (.next c', s'))
    (focus : c'.focus.Sound s' t') (callers : Caller.AllSound s' t' c'.callers)
    (outermost : Caller.outermost t' c'.callers = top) (distinct : (c'.loops t').Nodup)
    (old : ∀ u ∈ c'.loops t', u ∈ c.loops t ∨ Within s.size s'.size u) :
    c'.Sound free out s' top t' := by
  have change := h.change worker
  have around := (h.steady worker).1
  have alike := c.step_alike h.code worker (t := s) rfl
  rw [step] at change around alike
  have code : c'.Sleeps free := by
    cases alike with
    | next sleeps same => exact sleeps
  refine ⟨code, focus, callers, outermost, distinct, fun u mem => ?_, around,
    change.grows.family h.family, change.grows.listed h.listed⟩
  obtain mem | new := old u mem
  · obtain ⟨lt, kept⟩ := h.known u mem
    exact ⟨Nat.lt_of_lt_of_le lt change.grows.ages.size, kept⟩
  · exact ⟨new.lt, fun may => absurd (h.outskirts.spared u may).2 (Nat.not_lt.mpr new.le),
      fun outside => absurd (h.outskirts.known u outside) (Nat.not_lt.mpr new.le)⟩

section

variable {F F' : Focus} {k : Caller} {ks : List Caller} {x : Exit}

/-- The loop in control goes on, with nothing inside of it. -/
theorem moves (h : Config.Sound free out s top t ⟨F, ks⟩) (busy : ∀ x, F ≠ .leave x)
    (step : Config.step worker ⟨F, ks⟩ s = (.next ⟨F', ks⟩, s')) (flat : F'.inner = [])
    (focus : F'.Sound s' t) : Config.Sound free out s' top t ⟨F', ks⟩ := by
  have callers := (h.stays worker busy).1
  rw [step] at callers
  have sub : (Config.loops t ⟨F', ks⟩).Sublist (Config.loops t ⟨F, ks⟩) := by
    simp only [Config.loops, flat, List.nil_append]
    exact .cons_cons t (List.sublist_append_right _ _)
  exact h.goes step focus callers h.outermost (h.distinct.sublist sub)
    fun u mem => .inl (sub.mem mem)

/-- The loop that is handed an exit goes on, with nothing inside of it. -/
theorem hands (h : Config.Sound free out s top t ⟨.leave x, k :: ks⟩)
    (step : Config.step worker ⟨.leave x, k :: ks⟩ s = (.next ⟨F', ks⟩, s'))
    (flat : F'.inner = []) (focus : F'.Sound s' k.loop.env.token) :
    Config.Sound free out s' top k.loop.env.token ⟨F', ks⟩ := by
  have callers := (h.returns worker).1
  rw [step] at callers
  have sub : (Config.loops k.loop.env.token ⟨F', ks⟩).Sublist
      (Config.loops t ⟨.leave x, k :: ks⟩) := by
    have left : (Focus.leave x).inner = [] := rfl
    simp only [Config.loops, flat, left, List.nil_append, Caller.around]
    exact .cons _ (.cons_cons _ (List.sublist_append_right _ _))
  exact h.goes step focus callers h.outermost (h.distinct.sublist sub)
    fun u mem => .inl (sub.mem mem)

/-- Control goes over within the loops that there are. -/
theorem turns (h : Config.Sound free out s top t ⟨F, ks⟩) {ks' : List Caller}
    (step : Config.step worker ⟨F, ks⟩ s = (.next ⟨F', ks'⟩, s)) (focus : F'.Sound s t')
    (callers : Caller.AllSound s t' ks') (outermost : Caller.outermost t' ks' = top)
    (same : (Config.loops t' ⟨F', ks'⟩).Perm (Config.loops t ⟨F, ks⟩)) :
    Config.Sound free out s top t' ⟨F', ks'⟩ :=
  h.goes step focus callers outermost (same.nodup_iff.mpr h.distinct)
    fun _ mem => .inl (same.mem_iff.mp mem)

/-- The loop in control begins an acquisition or a release. -/
theorem shelters (h : Config.Sound free out s top t ⟨F, ks⟩) (busy : ∀ x, F ≠ .leave x)
    (flat : F.inner = []) {env : Env} {e : Effect} {event : Event} (plain : event.isPlain = true)
    (own : k.loop.env.token = t) (none : k.laid = [])
    (step : Config.step worker ⟨F, ks⟩ s = (.next ⟨.eval ⟨env.withToken s.size, []⟩ e, k :: ks⟩,
      (s.emit event).freshToken.2))
    (waits : (s.emit event).freshToken.2.Shelters t s.size →
      k.Sound (s.emit event).freshToken.2 s.size) :
    Config.Sound free out (s.emit event).freshToken.2 top s.size
      ⟨.eval ⟨env.withToken s.size, []⟩ e, k :: ks⟩ := by
  subst own
  have callers := (h.stays worker busy).1
  rw [step] at callers
  have lt : k.loop.env.token < s.size := (h.known _ (List.mem_cons_self ..)).1
  have shelters : (s.emit event).freshToken.2.Shelters k.loop.env.token s.size := by
    refine ⟨lt, ?_, fun q derived => ?_⟩
    · have beyond : s.tokens.isCancelled s.tokens.nodes.size = false := by
        simp [Forest.isCancelled]
      exact Forest.isCancelled_fresh.trans beyond
    · have old : s.Derived q s.size := Store.derived_emit plain derived
      exact Nat.lt_irrefl _ (h.family.bound q _ old)
  have loops : Config.loops s.size ⟨.eval ⟨env.withToken s.size, []⟩ e, k :: ks⟩
      = s.size :: Config.loops k.loop.env.token ⟨F, ks⟩ := by
    have inside : (Focus.eval ⟨env.withToken s.size, []⟩ e).inner = [] := rfl
    simp only [Config.loops, flat, inside, Caller.around, none, List.nil_append]
  refine h.goes step (.eval ⟨env.withToken s.size, []⟩ e) (.cons (waits shelters) callers)
    h.outermost ?_ fun u mem => ?_
  · rw [loops]
    exact List.nodup_cons.mpr
      ⟨fun mem => Nat.lt_irrefl _ (h.known _ mem).1, h.distinct⟩
  · rw [loops] at mem
    obtain rfl | mem := List.mem_cons.mp mem
    · exact .inr ⟨Nat.le_refl _, by simp⟩
    · exact .inl mem

/-- The loop in control begins a race. -/
theorem races {loop : Loop} {first second : Effect}
    (h : Config.Sound free out s top loop.env.token ⟨.eval loop (.race first second), ks⟩)
    (step : Config.step worker ⟨.eval loop (.race first second), ks⟩ s = (.next c', s')) :
    ∃ t', c'.Sound free out s' top t' := by
  let p := loop.env.token
  let s₁ := (s.childToken p).2
  let s₂ := (s₁.childToken p).2
  have came : Config.step worker ⟨.eval loop (.race first second), ks⟩ s
      = (.next ⟨.eval ⟨loop.env.withToken s.size, []⟩ first, .racingLeft loop ⟨s.size, s₁.size⟩
          (.start ⟨loop.env.withToken s₁.size, []⟩ second) :: ks⟩, s₂) := by
    simp only [Config.step, Machine.evalStep, Store.childToken_fst]
    rfl
  obtain ⟨same, rfl⟩ := Prod.mk.inj (came.symm.trans step)
  cases same
  have callers := (h.stays worker (by rintro _ ⟨⟩)).1
  rw [came] at callers
  have size₁ : s₁.size = s.size + 1 := s.size_childToken p
  have lt : p < s.size := (h.known _ (List.mem_cons_self ..)).1
  have family₁ : s₁.Family := Store.Change.family (.child s p) h.family
  have change : s₁.Spares s₂ fun _ => False :=
    ⟨.single (.child s₁ p), family₁, s₁.spreads_child p⟩
  have onLeft : s₂.Follows p s.size := (s.follows_child lt).mono change id
  have onRight : s₂.Follows p s₁.size := s₁.follows_child (size₁ ▸ Nat.lt_succ_of_lt lt)
  let operand : Segment := .start ⟨loop.env.withToken s₁.size, []⟩ second
  have waits : (Caller.racingLeft loop ⟨s.size, operand.token⟩ operand).Sound s₂ s.size :=
    .racingLeft onLeft onRight (.start _ _)
  have focus : Focus.Sound s₂ s.size (.eval ⟨loop.env.withToken s.size, []⟩ first) :=
    .eval ⟨loop.env.withToken s.size, []⟩ first
  have loops : Config.loops s.size ⟨.eval ⟨loop.env.withToken s.size, []⟩ first,
      .racingLeft loop ⟨s.size, s₁.size⟩ (.start ⟨loop.env.withToken s₁.size, []⟩ second) :: ks⟩
      = s.size :: p :: s₁.size :: Caller.around ks := rfl
  have old : ∀ u ∈ p :: Caller.around ks, u < s.size := fun u mem => (h.known u mem).1
  have distinct : (p :: Caller.around ks).Nodup := h.distinct
  refine ⟨s.size, h.goes came focus (.cons waits callers) h.outermost ?_ fun u mem => ?_⟩
  · rw [loops]
    simp only [List.nodup_cons, List.mem_cons] at distinct ⊢
    grind
  · rw [loops] at mem
    have size₂ : s₂.size = s.size + 2 := by simp [s₂, size₁]
    simp only [List.mem_cons] at mem
    obtain rfl | rfl | rfl | mem := mem
    · exact .inr ⟨Nat.le_refl _, by omega⟩
    · exact .inl (List.mem_cons_self ..)
    · exact .inr ⟨by omega, by omega⟩
    · exact .inl (List.mem_cons_of_mem _ mem)

/-- A race is settled, and the operand that is left goes on as the loser. -/
theorem settles {loop : Loop} {tokens : RaceTokens} {other : Segment} (side : Side)
    (worker : Worker)
    (h : Config.Sound free out s top t ⟨.leave x, .race loop tokens other side :: ks⟩)
    (laid : tokens.of side.other = other.token) (lt : loop.env.token < other.token)
    (sound : other.Sound s) (caused : x = .canceled → s.isCancelled loop.env.token = true) :
    Config.step worker ⟨.leave x, .race loop tokens other side :: ks⟩ s
        = (.next ⟨.resume other, .settling loop side x :: ks⟩, s.cancel other.token) ∧
      Config.Sound free out (s.cancel other.token) top other.token
        ⟨.resume other, .settling loop side x :: ks⟩ := by
  have decided : (x.isCanceled && !s.isCancelled loop.env.token) = false := by
    cases x with
    | succeeded | errored => rfl
    | canceled => simp [caused rfl]
  have step : Config.step worker ⟨.leave x, .race loop tokens other side :: ks⟩ s
      = (.next ⟨.resume other, .settling loop side x :: ks⟩, s.cancel other.token) := by
    cases side <;>
      simp only [Config.step, Machine.leaveStep, Caller.race, Machine.returnStep, Machine.settle,
        decided, ← laid] <;> rfl
  have own : (Caller.race loop tokens other side).loop = loop := by cases side <;> rfl
  have inner : (Caller.race loop tokens other side).laid = other.token :: other.inner := by
    cases side <;> rfl
  have callers := (h.returns worker).1
  have change := h.change worker
  rw [step, own] at callers
  rw [step] at change
  have ages := change.grows.ages
  have before : Config.loops t ⟨.leave x, .race loop tokens other side :: ks⟩
      = t :: loop.env.token :: (other.token :: other.inner ++ Caller.around ks) := by
    simp only [Config.loops, Focus.inner, Caller.around, own, inner, List.nil_append]
  have after : Config.loops other.token ⟨.resume other, .settling loop side x :: ks⟩
      = other.token :: (other.inner ++ loop.env.token :: Caller.around ks) := rfl
  have distinct := h.distinct
  rw [before] at distinct
  have known : other.token < s.size :=
    (h.known _ (before ▸ by simp)).1
  have goesOn : other.Sound (s.cancel other.token) := by
    refine sound.mono change fun u mem => ⟨(h.known u (before ▸ by simp [mem])).1, fun target => ?_⟩
    have same : u = other.token := by
      obtain ⟨-, goes⟩ | ⟨x', k', ks', g, whole, laid', rfl⟩ := h.targets target
      · exact (goes x rfl).elim
      · cases whole
        exact (List.cons.inj (laid'.symm.trans inner)).1
    simp only [List.cons_append, List.nodup_cons, List.mem_append] at distinct
    exact distinct.2.2.1 (.inl (same ▸ mem))
  have lost : (s.cancel other.token).isCancelled other.token = true := by
    rw [Store.isCancelled, Store.tokens_cancel]
    exact Forest.isCancelled_cancel_self known
  have perm : (other.token :: (other.inner ++ loop.env.token :: Caller.around ks)).Perm
      (loop.env.token :: (other.token :: other.inner ++ Caller.around ks)) :=
    @List.perm_middle _ _ (other.token :: other.inner) _
  refine ⟨step, h.goes step (.resume goesOn) (.cons (.settling
    (fun same => ages.isCancelled _ (caused same)) lt lost) callers) ?_ ?_ fun u mem => .inl ?_⟩
  · have outer := h.outermost
    simp only [Caller.outermost, own] at outer
    exact outer
  · rw [after, perm.nodup_iff]
    exact (List.nodup_cons.mp distinct).2
  · rw [after, perm.mem_iff] at mem
    exact before ▸ List.mem_cons_of_mem _ mem

end

/-! ## Steps -/

theorem next_eval {loop : Loop} {e : Effect} {ks : List Caller}
    (h : Config.Sound free out s top t ⟨.eval loop e, ks⟩)
    (step : Config.step worker ⟨.eval loop e, ks⟩ s = (.next c', s')) :
    ∃ t', c'.Sound free out s' top t' := by
  obtain ⟨frames, effect⟩ : loop.Sleeps free ∧ e.Sleeps free := by
    cases h.code.focus with
    | eval frames effect => exact ⟨frames, effect⟩
  obtain rfl : loop.env.token = t := by
    cases h.focus
    rfl
  have came := step
  cases effect with
  | pure | fail | cancel | isCancelled =>
    cases step
    exact ⟨_, h.moves (by rintro _ ⟨⟩) came rfl (.unwind loop (by rintro ⟨⟩))⟩
  | fault => cases step
  | map | flatMap | handleErrorWith =>
    cases step
    exact ⟨_, h.moves (by rintro _ ⟨⟩) came rfl (.eval (loop.push _) _)⟩
  | perform act rest =>
    simp only [Config.step, Machine.evalStep] at step
    split at step
    · cases step
      exact ⟨_, h.moves (by rintro _ ⟨⟩) came rfl (.eval loop _)⟩
    · cases step
  | loop again body v =>
    simp only [Config.step, Machine.evalStep] at step
    split at step
    · cases step
      exact ⟨_, h.moves (by rintro _ ⟨⟩) came rfl (.eval (loop.push _) _)⟩
    · cases step
      exact ⟨_, h.moves (by rintro _ ⟨⟩) came rfl (.unwind loop (by rintro ⟨⟩))⟩
    · cases step
  | timer delay result =>
    simp only [Config.step, Machine.evalStep, Machine.atPoint] at step
    split at step
    · next cancelled =>
      cases step
      exact ⟨_, h.moves (by rintro _ ⟨⟩) came rfl (.unwind loop fun _ => cancelled)⟩
    · split at step
      · next wait found =>
        cases step
        exact ⟨_, h.moves (by rintro _ ⟨⟩) came rfl (.resume (.future loop wait))⟩
      · cases step
  | @bracket acquire use release =>
    simp only [Config.step, Machine.evalStep, Machine.atPoint] at step
    split at step
    · next cancelled =>
      cases step
      exact ⟨_, h.moves (by rintro _ ⟨⟩) came rfl (.unwind loop fun _ => cancelled)⟩
    · cases step
      exact ⟨_, h.shelters (by rintro _ ⟨⟩) rfl rfl rfl rfl came .acquiring⟩
  | race => exact h.races step

theorem next_unwind {loop : Loop} {x : Exit} {ks : List Caller}
    (h : Config.Sound free out s top t ⟨.unwind loop x, ks⟩)
    (step : Config.step worker ⟨.unwind loop x, ks⟩ s = (.next c', s')) :
    ∃ t', c'.Sound free out s' top t' := by
  have caused : x = .canceled → s.isCancelled loop.env.token = true := by
    cases h.focus with
    | unwind _ caused => exact caused
  obtain rfl : loop.env.token = t := by
    cases h.focus
    rfl
  obtain ⟨env, frames⟩ := loop
  have came := step
  cases frames with
  | nil =>
    cases step
    exact ⟨_, h.moves (by rintro _ ⟨⟩) came rfl (.leave caused)⟩
  | cons f frames =>
    let loop : Loop := ⟨env, frames⟩
    have passes : Config.step worker ⟨.unwind ⟨env, f :: frames⟩ x, ks⟩ s
        = (.next ⟨.unwind loop x, ks⟩, s) → Config.Sound free out s top env.token
          ⟨.unwind loop x, ks⟩ := fun came => h.moves (by rintro _ ⟨⟩) came rfl (.unwind loop caused)
    cases f with
    | map f =>
      cases x with
      | succeeded v =>
        simp only [Config.step, Machine.unwindStep, Machine.frameStep] at step
        split at step
        · cases step
          exact ⟨_, h.moves (by rintro _ ⟨⟩) came rfl (.unwind loop (by rintro ⟨⟩))⟩
        · cases step
      | errored | canceled =>
        cases step
        exact ⟨_, passes came⟩
    | bind f | again again body =>
      cases x with
      | succeeded v =>
        cases step
        exact ⟨_, h.moves (by rintro _ ⟨⟩) came rfl (.eval loop _)⟩
      | errored | canceled =>
        cases step
        exact ⟨_, passes came⟩
    | handle f =>
      cases x with
      | errored e =>
        cases step
        exact ⟨_, h.moves (by rintro _ ⟨⟩) came rfl (.eval loop _)⟩
      | succeeded | canceled =>
        cases step
        exact ⟨_, passes came⟩
    | release b f =>
      simp only [Config.step, Machine.unwindStep, Machine.frameStep] at step
      split at step
      · cases step
      · cases step
        have still : (if s.isCancelled env.token = true then .canceled else x) = Outcome.canceled →
            (s.emit (.releaseStarted env.token b (if s.isCancelled env.token = true then .canceled
              else x))).freshToken.2.isCancelled env.token = true := fun same => by
          refine Forest.isCancelled_fresh.trans ?_
          split at same
          · next cancelled => exact cancelled
          · exact caused same
        exact ⟨_, h.shelters (by rintro _ ⟨⟩) rfl rfl rfl rfl came fun apart => .releasing still apart⟩

theorem next_leave {x : Exit} {ks : List Caller}
    (h : Config.Sound free out s top t ⟨.leave x, ks⟩)
    (step : Config.step worker ⟨.leave x, ks⟩ s = (.next c', s')) :
    ∃ t', c'.Sound free out s' top t' := by
  have caused : x = .canceled → s.isCancelled t = true := by
    cases h.focus with
    | leave caused => exact caused
  have came := step
  cases callers : h.callers with
  | nil => cases step
  | @cons _ k ks head rest =>
    cases head with
    | @acquiring loop use release apart =>
      cases x with
      | succeeded v =>
        simp only [Config.step, Machine.leaveStep, Machine.returnStep] at step
        split at step
        · next cancelled =>
          cases step
          exact ⟨_, h.hands came rfl (.unwind (loop.push _) fun _ => cancelled)⟩
        · cases step
          exact ⟨_, h.hands came rfl (.eval (loop.push _) _)⟩
      | errored e =>
        cases step
        exact ⟨_, h.hands came rfl (.unwind loop (by rintro ⟨⟩))⟩
      | canceled => exact Bool.noConfusion (apart.live.symm.trans (caused rfl))
    | @releasing loop b outcome held apart =>
      have unwound (y : Exit) (event : Event) (still : y = .canceled → outcome = .canceled) :
          Focus.Sound (s.emit event) loop.env.token (.unwind loop y) :=
        .unwind loop fun same => held (still same)
      cases x with
      | succeeded | canceled =>
        cases step
        exact ⟨_, h.hands came rfl (unwound _ _ id)⟩
      | errored e =>
        cases outcome with
        | succeeded v =>
          cases step
          exact ⟨_, h.hands came rfl (unwound _ _ (by rintro ⟨⟩))⟩
        | errored | canceled =>
          cases step
          exact ⟨_, h.hands came rfl (.unwind loop held)⟩
    | @racingLeft loop right onLeft onRight sound =>
      obtain ⟨step', sound'⟩ := h.settles .left worker rfl onRight.parent.lt
        sound fun same => onLeft.live (caused same)
      cases step'.symm.trans step
      exact ⟨_, sound'⟩
    | @racingRight loop left onLeft onRight sound rests =>
      obtain ⟨step', sound'⟩ := h.settles .right worker rfl onLeft.parent.lt
        sound fun same => onRight.live (caused same)
      cases step'.symm.trans step
      exact ⟨_, sound'⟩
    | @settling loop winner y held lt lost =>
      cases step
      refine ⟨_, h.hands came rfl (.unwind loop fun same => held ?_)⟩
      cases winner <;> cases y <;> first | rfl | cases same

theorem next_resume {g : Segment} {ks : List Caller}
    (h : Config.Sound free out s top t ⟨.resume g, ks⟩)
    (step : Config.step worker ⟨.resume g, ks⟩ s = (.next c', s')) :
    ∃ t', c'.Sound free out s' top t' := by
  have code : g.Sleeps free := by
    cases h.code.focus with
    | resume code => exact code
  obtain ⟨rfl, sound⟩ : g.token = t ∧ g.Sound s := by
    cases h.focus with
    | resume sound => exact ⟨rfl, sound⟩
  have came := step
  cases sound with
  | start loop e =>
    cases step
    exact ⟨_, h.moves (by rintro _ ⟨⟩) came rfl (.eval loop e)⟩
  | future loop wait =>
    cases code with
    | future frames time result =>
      simp only [Config.step, Machine.resumeStep, Machine.Wait.result?] at step
      split at step
      · next y found =>
        cases step
        refine ⟨_, h.moves (by rintro _ ⟨⟩) came rfl (.unwind loop fun same => ?_)⟩
        cases y <;> cases same
      · next none =>
        split at step
        · next cancelled =>
          cases step
          exact ⟨_, h.moves (by rintro _ ⟨⟩) came rfl (.unwind loop fun _ => cancelled)⟩
        · next live =>
          cases step
          have later : s.now < time := by
            by_contra due
            rw [if_pos (Nat.le_of_not_lt due)] at none
            cases none
          have clock := congrArg Prod.fst (Config.step_clock h.code worker s)
          have steady := (h.stays worker (by rintro _ ⟨⟩)).2
          rw [came] at clock steady
          refine ⟨_, h.moves (by rintro _ ⟨⟩) came rfl (.park (.future loop _) ?_)⟩
          have rests : (Segment.future loop (.deadline time result)).Rests s.now
              (s.isCancelled loop.env.token) := by
            rw [Bool.eq_false_iff.mpr live]
            exact .future later
          have cancelled : ∀ b n, n = s.now → b = s.isCancelled loop.env.token →
              (Segment.future loop (.deadline time result)).Rests n b := by
            rintro b n rfl rfl
            exact rests
          exact cancelled _ _ clock steady
  | acquiring apart sound =>
    cases step
    exact ⟨_, h.turns came (.resume sound) (.cons (.acquiring apart) h.callers) h.outermost
      (@List.perm_middle _ _ (_ :: _) _)⟩
  | releasing caused apart sound =>
    cases step
    exact ⟨_, h.turns came (.resume sound) (.cons (.releasing caused apart) h.callers) h.outermost
      (@List.perm_middle _ _ (_ :: _) _)⟩
  | @racing loop left right onLeft onRight sound sound' =>
    cases step
    refine ⟨_, h.turns came (.resume sound) (.cons (.racingLeft onLeft onRight sound') h.callers)
      h.outermost ?_⟩
    have perm := @List.perm_middle _ loop.env.token (left.token :: left.inner)
      (right.token :: right.inner ++ Caller.around ks)
    rw [← List.append_assoc] at perm
    exact perm
  | settling caused lt lost sound =>
    cases step
    exact ⟨_, h.turns came (.resume sound) (.cons (.settling caused lt lost) h.callers) h.outermost
      (@List.perm_middle _ _ (_ :: _) _)⟩

theorem next_park {g : Segment} {ks : List Caller}
    (h : Config.Sound free out s top t ⟨.park g, ks⟩)
    (step : Config.step worker ⟨.park g, ks⟩ s = (.next c', s')) :
    ∃ t', c'.Sound free out s' top t' := by
  obtain ⟨rfl, sound, rests⟩ :
      g.token = t ∧ g.Sound s ∧ g.Rests s.now (s.isCancelled g.token) := by
    cases h.focus with
    | park sound rests => exact ⟨rfl, sound, rests⟩
  have came := step
  cases callers : h.callers with
  | nil => cases step
  | @cons _ k ks head rest =>
    have outer : Caller.outermost k.loop.env.token ks = top := h.outermost
    cases head with
    | acquiring apart =>
      cases step
      rw [apart.live] at rests
      exact ⟨_, h.turns came (.park (.acquiring apart sound) (.acquiring rests)) rest outer
        (@List.perm_middle _ _ (_ :: _) _).symm⟩
    | releasing caused apart =>
      cases step
      rw [apart.live] at rests
      exact ⟨_, h.turns came (.park (.releasing caused apart sound) (.releasing rests)) rest outer
        (@List.perm_middle _ _ (_ :: _) _).symm⟩
    | @racingLeft loop right onLeft onRight sound' =>
      cases step
      rw [onLeft.same] at rests
      refine ⟨_, h.turns came (.resume sound') (.cons (.racingRight onLeft onRight sound rests) rest)
        outer ?_⟩
      have apart := (List.perm_append_comm_assoc (g.token :: g.inner) (right.token :: right.inner)
        (Caller.around ks)).symm
      exact (@List.perm_middle _ _ (right.token :: right.inner) _).trans
        ((apart.cons loop.env.token).trans (@List.perm_middle _ _ (g.token :: g.inner) _).symm)
    | @racingRight loop left onLeft onRight sound' rests' =>
      cases step
      rw [onRight.same] at rests
      refine ⟨_, h.turns came (.park (.racing onLeft onRight sound' sound) (.racing rests' rests))
        rest outer ?_⟩
      have apart := List.perm_append_comm_assoc (left.token :: left.inner) (g.token :: g.inner)
        (Caller.around ks)
      rw [← List.append_assoc] at apart
      exact (apart.cons loop.env.token).trans (@List.perm_middle _ _ (g.token :: g.inner) _).symm
    | settling caused lt lost =>
      cases step
      rw [lost] at rests
      exact ⟨_, h.turns came (.park (.settling caused lt lost sound) (.settling rests)) rest outer
        (@List.perm_middle _ _ (_ :: _) _).symm⟩

/-- A step of the poll keeps track of who is cancelled. -/
theorem next (h : c.Sound free out s top t) (step : c.step worker s = (.next c', s')) :
    ∃ t', c'.Sound free out s' top t' := by
  obtain ⟨focus, ks⟩ := c
  cases focus with
  | eval loop e => exact h.next_eval step
  | unwind loop x => exact h.next_unwind step
  | leave x => exact h.next_leave step
  | resume g => exact h.next_resume step
  | park g => exact h.next_park step

end Config.Sound

/-! ## Polls -/

/-- What a poll has come to, of loops that only sleep. -/
structure Config.Result.Kept (free out : TokenId → Prop) (top : TokenId) (s : Store) (r : Result)
    (s' : Store) : Prop where
  /-- What waits is not cancelled, and waits for a later time. -/
  parked : ∀ g, r = .parked g → g.Tended free out s' ∧ g.token = top ∧
    g.Rests s'.now (s'.isCancelled top)
  /-- What ends with `canceled` is cancelled. -/
  ended : r = .ended .canceled → s'.isCancelled top = true
  steady : s'.isCancelled top = s.isCancelled top
  outskirts : s'.Outskirts free out top

section

variable {free out : TokenId → Prop} {s s' : Store} {top t : TokenId} {c : Config} {g : Segment}
  {worker : Worker} {r : Config.Result}

theorem Config.Sound.polls (h : c.Sound free out s top t) (polls : c.Polls worker s r s') :
    r.Kept free out top s s' := by
  obtain ⟨finished, bound, run⟩ := polls
  induction bound generalizing c s t with
  | zero =>
    cases run
    exact (finished rfl).elim
  | succ bound ih =>
    by_cases done : c.AtEnd
    · obtain ⟨focus, ks⟩ := c
      obtain ⟨rfl, ⟨x, rfl⟩ | ⟨g, rfl⟩⟩ := done
      · cases run
        obtain rfl : t = top := h.outermost
        have caused : x = .canceled → s'.isCancelled t = true := by
          cases h.focus with
          | leave caused => exact caused
        refine ⟨by rintro _ ⟨⟩, fun same => ?_, rfl, h.outskirts⟩
        cases same
        exact caused rfl
      · cases run
        obtain rfl : t = top := h.outermost
        obtain ⟨rfl, sound, rests⟩ :
            g.token = t ∧ g.Sound s' ∧ g.Rests s'.now (s'.isCancelled g.token) := by
          cases h.focus with
          | park sound rests => exact ⟨rfl, sound, rests⟩
        have loops : Config.loops g.token ⟨.park g, []⟩ = g.token :: g.inner := by
          simp [Config.loops, Focus.inner, Caller.around]
        have code : g.Sleeps free := by
          cases h.code.focus with
          | park code => exact code
        refine ⟨?_, by rintro ⟨⟩, rfl, h.outskirts⟩
        rintro g' ⟨⟩
        exact ⟨⟨code, sound, loops ▸ h.distinct, loops ▸ h.known, h.outskirts, h.family, h.listed⟩,
          rfl, rests⟩
    · have onto := Config.step_onto done worker [] s
      obtain ⟨around, steady⟩ := h.steady worker
      generalize outer : (c.onto []).step worker s = q at onto
      generalize one : c.step worker s = p at onto
      rw [Config.run, one] at run
      rw [one] at around steady
      cases onto with
      | next f ks s₁ =>
        obtain ⟨t', sound⟩ := h.next one
        obtain ⟨parked, ended, still, outskirts⟩ := ih sound run
        exact ⟨parked, ended, still.trans steady, outskirts⟩
      | faulted f s₁ =>
        cases run
        exact ⟨by rintro _ ⟨⟩, by rintro ⟨⟩, steady, around⟩

/-- A segment that is polled. -/
theorem Segment.Tended.resume (h : g.Tended free out s) :
    Config.Sound free out s g.token g.token ⟨.resume g, []⟩ := by
  have loops : Config.loops g.token ⟨.resume g, []⟩ = g.token :: g.inner := by
    simp [Config.loops, Focus.inner, Caller.around]
  exact ⟨⟨.resume h.code, by simp⟩, .resume h.sound, .nil _, rfl, loops ▸ h.distinct,
    loops ▸ h.known, h.outskirts, h.family, h.listed⟩

/-- What a poll of a segment comes to that only sleeps. -/
theorem Segment.Tended.polls (h : g.Tended free out s) (polls : g.Polls worker s r s') :
    r.Kept free out g.token s s' :=
  h.resume.polls polls

/-- Where the tokens of a segment are not touched, nor what it hangs below. -/
theorem Segment.Tended.mono {own : TokenId → Prop} (h : g.Tended free out s)
    (change : s.Spares s' own) (inside : ∀ u ∈ g.inner, ¬ own u) (outside : ∀ u, own u → ¬ out u) :
    g.Tended free out s' := by
  have ages := change.grows.ages
  exact ⟨h.code, h.sound.mono change fun u mem =>
      ⟨(h.known u (List.mem_cons_of_mem _ mem)).1, inside u mem⟩, h.distinct,
    fun u mem => ⟨Nat.lt_of_lt_of_le (h.known u mem).1 ages.size, (h.known u mem).2⟩,
    h.outskirts.mono change (h.known _ (List.mem_cons_self ..)).1 outside,
    change.grows.family h.family, change.grows.listed h.listed⟩

theorem Store.same_advanceTo (s : Store) (time : Nat) : s.Same (s.advanceTo time) :=
  have same := Store.same_wakeAll
  ⟨(same _ _).tokens, (same _ _).brackets, (same _ _).trace, (same _ _).spawned, (same _ _).joins,
    (same _ _).joined⟩

/-- Nothing changes with the time. -/
theorem Segment.Tended.advanceTo (h : g.Tended free out s) (time : Nat) :
    g.Tended free out (s.advanceTo time) := by
  have same := s.same_advanceTo time
  exact h.mono ⟨.single (.same same), h.family, .of_tokens same.tokens⟩ (fun _ _ => not_false)
    (fun _ => False.elim)

/-- The segment is cancelled from outside. -/
theorem Segment.Tended.cancel (h : g.Tended free out s) :
    g.Tended free out (s.cancel g.token) := by
  have inside : ∀ u ∈ g.inner, u ≠ g.token := fun u mem same =>
    (List.nodup_cons.mp h.distinct).1 (same ▸ mem)
  refine h.mono ⟨.single (.cancel s g.token), h.family, s.spreads_cancel h.listed g.token⟩ inside ?_
  rintro _ rfl
  exact (h.known _ (List.mem_cons_self ..)).2.2

end

end EffectFibers
