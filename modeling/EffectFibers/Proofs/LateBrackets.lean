import EffectFibers.Proofs.Naps
import EffectFibers.Proofs.Reach

/-!
# The brackets of a cancelled sleeper

A task that only sleeps is cancelled while it waits.  The acquisitions and releases that are in
progress then go on until they end by themselves, and no release that begins later, in a loop that
the cancellation reaches, is given anything but `canceled`.

## Main definitions

* `Config.Deeds`: the events of brackets in a step.
* `Unwinds`: what becomes of the brackets of a cancelled task.

## Main statements

* `Segment.Timed.unwound`: this is what becomes of them on a virtual clock.
-/

namespace EffectFibers

/-! ## The events of a step -/

namespace Store

variable (s : Store)

theorem deeds_emit (e : Event) :
    (s.emit e).deeds = if e.isBracket then e :: s.deeds else s.deeds :=
  congrArg Sight.deeds (s.sight_emit e)

theorem deeds_quiet {e : Event} (quiet : e.isBracket = false) : (s.emit e).deeds = s.deeds := by
  rw [deeds_emit, if_neg (by simp [quiet])]

theorem deeds_cancel (t : TokenId) : (s.cancel t).deeds = s.deeds :=
  congrArg Sight.deeds (s.sight_cancel t)

theorem deeds_watchToken (t : TokenId) (task : TaskId) : (s.watchToken t task).deeds = s.deeds :=
  congrArg Sight.deeds (s.sight_watchToken t task)

end Store

/-- The events of brackets in a step of a poll, the newest one first. -/
inductive Config.Deeds (s : Store) : Config → List Event → Prop
  | none (c : Config) : Deeds s c []
  | release {env : Env} {b : BracketId} {f : ExitCase Value → Effect} {frames : List Frame}
      {x : Exit} {ks : List Caller} : Deeds s ⟨.unwind ⟨env, .release b f :: frames⟩ x, ks⟩
        [.releaseStarted env.token b (if s.isCancelled env.token then .canceled else x)]
  | acquired {loop : Loop} {use : Value → Effect} {release : Value → ExitCase Value → Effect}
      {v : Value} {ks : List Caller} {es : List Event}
      (begins : es = [] ∨ es = [.useStarted loop.env.token s.brackets]) :
      Deeds s ⟨.leave (.succeeded v), .acquiring loop use release :: ks⟩
        (es ++ [.acquired loop.env.token s.brackets v])
  | notAcquired {loop : Loop} {use : Value → Effect} {release : Value → ExitCase Value → Effect}
      {x : Exit} {ks : List Caller} : Deeds s ⟨.leave x, .acquiring loop use release :: ks⟩
        [.notAcquired loop.env.token x]
  | released {loop : Loop} {b : BracketId} {outcome x : Exit} {ks : List Caller} {es : List Event}
      (fails : es = [] ∨ es = [.releaseFailed b outcome]) :
      Deeds s ⟨.leave x, .releasing loop b outcome :: ks⟩
        (es ++ [.releaseFinished loop.env.token b x])

namespace Machine

variable {free : TokenId → Prop} {s : Store} {loop : Loop} {callers : List Caller} {worker : Worker}

theorem deeds_evalStep {e : Effect} (effect : e.Sleeps free) :
    (evalStep worker loop callers s e).2.deeds = s.deeds := by
  cases effect with
  | pure | fail | fault | isCancelled | map | flatMap | handleErrorWith | race => rfl
  | cancel spare => exact s.deeds_cancel _
  | perform | loop =>
    simp only [evalStep]
    split <;> rfl
  | timer delay result =>
    simp only [evalStep, atPoint]
    split
    · rfl
    · split <;> rfl
  | bracket =>
    simp only [evalStep, atPoint]
    split <;> rfl

theorem deeds_resumeStep {g : Segment} (h : g.Sleeps free) :
    (resumeStep worker callers s g).2.deeds = s.deeds := by
  cases h with
  | start | acquiring | releasing | racing | settling | remaining => rfl
  | future =>
    simp only [resumeStep]
    split
    · rfl
    · split
      · rfl
      · exact Store.deeds_watchToken _ _ _

theorem deeds_settle (tokens : RaceTokens) (side : Side) (x : Exit) (other : Segment) :
    (settle loop tokens side x other callers s).2.deeds = s.deeds := by
  unfold settle
  split
  · rfl
  · exact s.deeds_cancel _

theorem deeds_returnStep (k : Caller) (x : Exit) : ∃ es,
    (returnStep x callers s k).2.deeds = es ++ s.deeds ∧
      Config.Deeds s ⟨.leave x, k :: callers⟩ es := by
  cases k with
  | acquiring loop use release =>
    cases x with
    | succeeded v =>
      simp only [returnStep]
      split
      · exact ⟨_, rfl, .acquired (.inl rfl)⟩
      · exact ⟨_, rfl, .acquired (.inr rfl)⟩
    | errored | canceled => exact ⟨_, rfl, .notAcquired⟩
  | releasing loop b outcome =>
    cases x with
    | errored e =>
      cases outcome with
      | succeeded v => exact ⟨_, rfl, .released (.inl rfl)⟩
      | errored | canceled => exact ⟨_, rfl, .released (.inr rfl)⟩
    | succeeded | canceled => exact ⟨_, rfl, .released (.inl rfl)⟩
  | racingLeft loop tokens other | racingRight loop tokens other =>
    exact ⟨[], deeds_settle _ _ _ _, .none _⟩
  | settling | remaining => exact ⟨[], rfl, .none _⟩

theorem deeds_frameStep {env : Env} {frames : List Frame} (f : Frame) (x : Exit) : ∃ es,
    (frameStep ⟨env, frames⟩ callers s f x).2.deeds = es ++ s.deeds ∧
      Config.Deeds s ⟨.unwind ⟨env, f :: frames⟩ x, callers⟩ es := by
  cases f with
  | map f =>
    refine ⟨[], ?_, .none _⟩
    cases x with
    | succeeded v =>
      simp only [frameStep]
      split <;> rfl
    | errored | canceled => rfl
  | bind | again | handle => exact ⟨[], by cases x <;> rfl, .none _⟩
  | release b f =>
    simp only [frameStep]
    split
    · exact ⟨[], rfl, .none _⟩
    · exact ⟨_, rfl, .release⟩

end Machine

/-- What becomes of brackets in a step. -/
theorem Config.step_deeds {free : TokenId → Prop} {c : Config} (h : c.Sleeps free)
    (worker : Worker) (s : Store) :
    ∃ es, (c.step worker s).2.deeds = es ++ s.deeds ∧ c.Deeds s es := by
  obtain ⟨focus, callers⟩ := c
  cases h.focus with
  | eval frames effect => exact ⟨[], Machine.deeds_evalStep effect, .none _⟩
  | @unwind loop frames x =>
    obtain ⟨env, fs⟩ := loop
    cases fs with
    | nil => exact ⟨[], rfl, .none _⟩
    | cons f fs => exact Machine.deeds_frameStep f x
  | leave x =>
    cases callers with
    | nil => exact ⟨[], rfl, .none _⟩
    | cons k callers => exact Machine.deeds_returnStep k x
  | resume inner => exact ⟨[], Machine.deeds_resumeStep inner, .none _⟩
  | park inner => exact ⟨[], rfl, .none _⟩

/-! ## Which loops are cancelled -/

section

variable {s : Store} {t : TokenId} {k : Caller} {ks : List Caller}

theorem Caller.Sound.lt (h : k.Sound s t) : k.loop.env.token < t := by
  cases h with
  | acquiring apart | releasing _ apart => exact apart.lt
  | racingLeft onLeft => exact onLeft.parent.lt
  | racingRight _ onRight => exact onRight.parent.lt
  | settling _ lt => exact lt

theorem Caller.AllSound.outermost_le (h : AllSound s t ks) : outermost t ks ≤ t := by
  induction h with
  | nil t => exact Nat.le_refl t
  | cons head rest ih => exact Nat.le_trans ih (Nat.le_of_lt head.lt)

/-- A cancellation of the outermost loop reaches the one in control, if that is below it. -/
theorem Caller.AllSound.reaches (h : AllSound s t ks) (family : s.Family)
    (below : s.Below (outermost t ks) t) (cancelled : s.isCancelled (outermost t ks) = true) :
    s.isCancelled t = true := by
  induction h with
  | nil t => exact cancelled
  | @cons t k ks head rest ih =>
    have outer : outermost t (k :: ks) = outermost k.loop.env.token ks := rfl
    rw [outer] at below cancelled
    have ne : t ≠ outermost k.loop.env.token ks := fun same =>
      absurd (Nat.lt_of_le_of_lt rest.outermost_le head.lt) (Nat.not_lt.mpr (Nat.le_of_eq same))
    have apart (root : ∀ q, ¬ s.Derived q t) : False := by
      obtain same | ⟨q, -, parent⟩ := Relation.ReflTransGen.cases_tail below
      · exact ne same
      · exact root q parent.derived
    have follows (on : s.Follows k.loop.env.token t) : s.isCancelled t = true :=
      on.same.trans (ih (family.below_parent below ne on.parent) cancelled)
    cases head with
    | acquiring shelters | releasing _ shelters => exact (apart shelters.root).elim
    | racingLeft onLeft => exact follows onLeft
    | racingRight _ onRight => exact follows onRight
    | settling _ _ lost => exact lost

end

/-! ## Unwinding -/

/-- What the loop waits for has ended, if it is an acquisition or a release. -/
def Doing.Ends (t : TokenId) (es : List Event) : Doing → Prop
  | .acquiring _ _ => (∃ b v, .acquired t b v ∈ es) ∨ ∃ y, .notAcquired t y ∈ es
  | .releasing b _ => ∃ y, .releaseFinished t b y ∈ es
  | _ => True

/-- What becomes of the brackets of loops, when the outermost one with the given token is cancelled.
`left` says which loops are left. -/
structure Unwinds (top : TokenId) (P : Multiset Post) (left : Post → Prop) (es : List Event)
    (s' : Store) : Prop where
  /-- An acquisition or a release that is in progress goes on until it ends. -/
  progress : ∀ p ∈ P, ∀ φ, p.piece = .fiber φ → left p ∨ φ.doing.Ends φ.token es
  /-- It does not end because it is cancelled. -/
  notAcquired : ∀ k y, .notAcquired k y ∈ es → y ≠ .canceled
  released : ∀ k b y, .releaseFinished k b y ∈ es → y ≠ .canceled
  /-- A release that begins is given `canceled`, if the cancellation reaches its loop. -/
  begun : ∀ k b y, .releaseStarted k b y ∈ es → k < s'.size ∧ (s'.Below top k → y = .canceled)

/-- The loops that are left after a step. -/
def Progress.leaves : Progress → Post → Prop
  | .next c, p => p ∈ c.posts
  | .ended _, _ => False
  | .parked g, p => p ∈ g.posts .outer
  | .faulted _, _ => True

/-- The loops that are left after a poll. -/
def Config.Result.leaves : Config.Result → Post → Prop
  | .ended _, _ => False
  | .parked g, p => p ∈ g.posts .outer
  | .faulted _, _ | .unfinished, _ => True

section

variable {free out : TokenId → Prop} {top t : TokenId} {s s' s₁ : Store} {P : Multiset Post}
  {left : Post → Prop} {es es' ms : List Event} {worker : Worker} {c : Config}

theorem Doing.Ends.mono {d : Doing} (h : d.Ends t es) (sub : es ⊆ es') : d.Ends t es' := by
  cases d with
  | acquiring =>
    obtain ⟨b, v, mem⟩ | ⟨y, mem⟩ := h
    · exact .inl ⟨b, v, sub mem⟩
    · exact .inr ⟨y, sub mem⟩
  | releasing =>
    obtain ⟨y, mem⟩ := h
    exact ⟨y, sub mem⟩
  | _ => trivial

/-- In a step a loop goes on waiting, or what it waits for has ended. -/
theorem Reaction.progress {new : List Spawn} {P' : Multiset Post} (h : Reaction s s' P ms new P')
    (p : Post) (mem : p ∈ P) (φ : Fiber) (own : p.piece = .fiber φ) :
    p ∈ P' ∨ φ.doing.Ends φ.token (ms.filter Event.isBracket) := by
  cases h with
  | idle => exact .inl mem
  | act step =>
    obtain rfl | mem := Multiset.mem_cons.mp mem
    · cases own
      right
      cases step with
      | acquired => exact .inl ⟨_, _, List.mem_filter.mpr ⟨.tail _ (.head _), rfl⟩⟩
      | acquiredLate => exact .inl ⟨_, _, List.mem_singleton_self _⟩
      | notAcquired => exact .inr ⟨_, List.mem_singleton_self _⟩
      | released => exact ⟨_, List.mem_singleton_self _⟩
      | _ => trivial
    · exact .inl (Multiset.mem_cons_of_mem (Multiset.mem_add.mpr (.inr mem)))
  | fan | sent =>
    obtain rfl | mem := Multiset.mem_cons.mp mem
    · cases own
      exact .inr trivial
    · exact .inl (Multiset.mem_cons_of_mem mem)
  | back =>
    obtain rfl | mem := Multiset.mem_cons.mp mem
    · cases own
    · exact .inl mem
  | left =>
    obtain rfl | mem := Multiset.mem_cons.mp mem
    · cases own
      exact .inr trivial
    · exact .inl mem

theorem Turn.progress {new : List Spawn} {p : Progress} (h : Turn s s' P p ms new) (q : Post)
    (mem : q ∈ P) (φ : Fiber) (own : q.piece = .fiber φ) :
    p.leaves q ∨ φ.doing.Ends φ.token (ms.filter Event.isBracket) := by
  cases h with
  | next reaction => exact reaction.progress q mem φ own
  | ended none =>
    subst none
    exact (Multiset.notMem_zero _ mem).elim
  | parked same =>
    subst same
    exact .inl mem
  | faulted => exact .inl trivial

theorem Config.Sound.not_canceled {x : Exit} {k : Caller} {ks : List Caller}
    (h : Config.Sound free out s top t ⟨.leave x, k :: ks⟩)
    (live : k.Sound s t → s.isCancelled t = false) : x ≠ .canceled := by
  rintro rfl
  have cancelled : s.isCancelled t = true := by
    cases h.focus with
    | leave caused => exact caused rfl
  have head : k.Sound s t := by
    cases h.callers with
    | cons head rest => exact head
  exact Bool.noConfusion ((live head).symm.trans cancelled)

/-- What a step does to the brackets of loops that only sleep, when the outermost one is
cancelled. -/
theorem Config.Sound.unwound (h : c.Sound free out s top t) (cancelled : s.isCancelled top = true)
    (worker : Worker) : ∃ es, (c.step worker s).2.deeds = es ++ s.deeds ∧
      Unwinds top c.posts (c.step worker s).1.leaves es (c.step worker s).2 := by
  obtain ⟨es, deeds, shape⟩ := Config.step_deeds h.code worker s
  obtain ⟨grows, all, new, trace, -, turn⟩ := c.step_reacts worker s
  have same : es = all.filter Event.isBracket := by
    rw [Store.deeds, trace, List.filter_append] at deeds
    exact (List.append_cancel_right deeds).symm
  refine ⟨es, deeds, fun p mem φ own => ?_, fun k y mem => ?_, fun k b y mem => ?_,
    fun k b y mem => ?_⟩
  · refine (turn.progress p mem φ own).imp_right fun ends => ends.mono ?_
    rw [same]
    intro e mem
    simp only [List.mem_filter] at mem ⊢
    exact ⟨mem.1.1, mem.2⟩
  · cases shape with
    | notAcquired =>
      simp only [List.mem_singleton, Event.notAcquired.injEq] at mem
      obtain ⟨rfl, rfl⟩ := mem
      exact h.not_canceled fun head => by
        cases head with
        | acquiring apart => exact apart.live
    | acquired begins => obtain rfl | rfl := begins <;> simp at mem
    | released fails => obtain rfl | rfl := fails <;> simp at mem
    | _ => simp at mem
  · cases shape with
    | released fails =>
      obtain ⟨rfl, rfl, rfl⟩ : k = _ ∧ b = _ ∧ y = _ := by
        obtain rfl | rfl := fails <;> simpa using mem
      exact h.not_canceled fun head => by
        cases head with
        | releasing _ apart => exact apart.live
    | acquired begins => obtain rfl | rfl := begins <;> simp at mem
    | _ => simp at mem
  · cases shape with
    | @release env b' f frames x ks =>
      simp only [List.mem_singleton, Event.releaseStarted.injEq] at mem
      obtain ⟨rfl, rfl, rfl⟩ := mem
      obtain rfl : env.token = t := by
        cases h.focus
        rfl
      have lt := (h.known _ (List.mem_cons_self ..)).1
      refine ⟨Nat.lt_of_lt_of_le lt grows.ages.size, fun below => if_pos ?_⟩
      have outer : Caller.outermost env.token ks = top := h.outermost
      subst outer
      exact h.callers.reaches h.family (grows.ages.below below lt) cancelled
    | acquired begins => obtain rfl | rfl := begins <;> simp at mem
    | released fails => obtain rfl | rfl := fails <;> simp at mem
    | _ => simp at mem

theorem Unwinds.trans {P₁ : Multiset Post} (h : Unwinds top P (· ∈ P₁) es s₁)
    (h' : Unwinds top P₁ left es' s') (ages : s₁.Ages s') : Unwinds top P left (es' ++ es) s' where
  progress p mem φ own := by
    obtain mem | ends := h.progress p mem φ own
    · exact (h'.progress p mem φ own).imp_right fun ends =>
        ends.mono (List.subset_append_left _ _)
    · exact .inr (ends.mono (List.subset_append_right _ _))
  notAcquired k y mem := (List.mem_append.mp mem).elim (h'.notAcquired k y) (h.notAcquired k y)
  released k b y mem := (List.mem_append.mp mem).elim (h'.released k b y) (h.released k b y)
  begun k b y mem := by
    obtain mem | mem := List.mem_append.mp mem
    · exact h'.begun k b y mem
    · obtain ⟨lt, given⟩ := h.begun k b y mem
      exact ⟨Nat.lt_of_lt_of_le lt ages.size, fun below => given (ages.below below lt)⟩

theorem Config.Polls.grows {r : Config.Result} (h : c.Polls worker s r s') : s.Grows s' := by
  obtain ⟨-, bound, run⟩ := h
  induction bound generalizing c s with
  | zero =>
    cases run
    exact .refl
  | succ bound ih =>
    have grows := (c.step_reacts worker s).1
    rw [Config.run] at run
    split at run
    · next found =>
      rw [found] at grows
      exact .trans grows (ih run)
    all_goals
      next found =>
      rw [found] at grows
      cases run
      exact grows

theorem Config.Sound.unwound_polls {r : Config.Result} (h : c.Sound free out s top t)
    (cancelled : s.isCancelled top = true) (polls : c.Polls worker s r s') :
    ∃ es, s'.deeds = es ++ s.deeds ∧ Unwinds top c.posts r.leaves es s' := by
  obtain ⟨finished, bound, run⟩ := polls
  induction bound generalizing c s t with
  | zero =>
    cases run
    exact (finished rfl).elim
  | succ bound ih =>
    obtain ⟨es, deeds, one⟩ := h.unwound cancelled worker
    have steady := (h.steady worker).2
    rw [Config.run] at run
    split at run
    · next c₁ s₁ found =>
      obtain ⟨t₁, sound⟩ := h.next found
      rw [found] at deeds one steady
      obtain ⟨es', deeds', rest⟩ := ih sound (steady.trans cancelled) run
      have grows := Config.Polls.grows ⟨finished, bound, run⟩
      exact ⟨es' ++ es, by rw [deeds', deeds, List.append_assoc], one.trans rest grows.ages⟩
    all_goals
      next found =>
      rw [found] at deeds one
      cases run
      exact ⟨es, deeds, one⟩

end

/-! ## On a virtual clock -/

theorem Store.deeds_advanceTo (s : Store) (time : Nat) : (s.advanceTo time).deeds = s.deeds :=
  congrArg Sight.deeds (s.sight_advanceTo time)

theorem Segment.Timed.grows {g : Segment} {s s' : Store} {worker : Worker} {r : Config.Result}
    (h : g.Timed worker s r s') : s.Grows s' := by
  induction h with
  | last polls => exact Config.Polls.grows polls
  | @wait g g' s s₁ s' r time polls le due rest ih =>
    exact .trans (Config.Polls.grows polls)
      (.trans (.single (.same (s₁.same_advanceTo time))) ih)

/-- What becomes of the brackets of a cancelled segment that only sleeps. -/
theorem Segment.Timed.unwound {free out : TokenId → Prop} {g : Segment} {s s' : Store}
    {worker : Worker} {r : Config.Result} (h : g.Timed worker s r s') (tended : g.Tended free out s)
    (cancelled : s.isCancelled g.token = true) :
    ∃ es, s'.deeds = es ++ s.deeds ∧ Unwinds g.token (g.posts .outer) r.leaves es s' := by
  have poll {g : Segment} {s s' : Store} {r : Config.Result} (tended : g.Tended free out s)
      (cancelled : s.isCancelled g.token = true) (polls : g.Polls worker s r s') :
      ∃ es, s'.deeds = es ++ s.deeds ∧ Unwinds g.token (g.posts .outer) r.leaves es s' := by
    have posts : Config.posts ⟨.resume g, []⟩ = g.posts .outer := by simp
    exact posts ▸ tended.resume.unwound_polls cancelled polls
  induction h with
  | last polls => exact poll tended cancelled polls
  | @wait g g' s s₁ s' r time polls le due rest ih =>
    obtain ⟨es, deeds, first⟩ := poll tended cancelled polls
    have kept := tended.polls polls
    obtain ⟨tended₁, token, -⟩ := kept.parked g' rfl
    have cancelled₁ : (s₁.advanceTo time).isCancelled g'.token = true := by
      have later := congrArg (fun w : Sight => w.isCancelled g'.token) (s₁.sight_advanceTo time)
      rw [token] at later ⊢
      exact later.trans (kept.steady.trans cancelled)
    obtain ⟨es', deeds', second⟩ := ih (tended₁.advanceTo time) cancelled₁
    rw [token] at second
    have grows : s₁.Grows s' := .trans (.single (.same (s₁.same_advanceTo time))) rest.grows
    refine ⟨es' ++ es, ?_, first.trans second grows.ages⟩
    rw [deeds', s₁.deeds_advanceTo, deeds, List.append_assoc]

end EffectFibers
