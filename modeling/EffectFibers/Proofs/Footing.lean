import EffectFibers.Proofs.AlikeSteps

/-!
# Frames at the foot of a loop

A run loop does not look at the frames that it has not come to.  So a step of a poll is the same
with more frames at the foot of one loop, up to the moment when that loop has come to the end of its
own.  The loop is found by its token, wherever it stands in the poll.

## Main definitions

* `Loop.footed`, `Config.footed`: more frames at the foot of the loop with a token.

## Main statements

* `Config.step_footed`: a step of a poll does not depend on the foot of a loop.
-/

namespace EffectFibers

/-! ## Loops, segments and polls -/

section

variable (k : TokenId) (F : List Frame)

/-- The loop with more frames at its foot, if it is the one with the token. -/
def Loop.footed (l : Loop) : Loop :=
  { l with frames := l.frames ++ if l.env.token = k then F else [] }

def Segment.footed : Segment → Segment
  | .start l effect => .start (l.footed k F) effect
  | .callback l slot => .callback (l.footed k F) slot
  | .future l wait => .future (l.footed k F) wait
  | .shifted env task => .shifted env task
  | .acquiring l use release inner => .acquiring (l.footed k F) use release inner.footed
  | .releasing l b outcome inner => .releasing (l.footed k F) b outcome inner.footed
  | .racing l tokens left right => .racing (l.footed k F) tokens left.footed right.footed
  | .settling l winner x loser => .settling (l.footed k F) winner x loser.footed
  | .remaining l side operand => .remaining (l.footed k F) side operand.footed
  | .gathering l group => .gathering (l.footed k F) group

def Caller.footed : Caller → Caller
  | .acquiring l use release => .acquiring (l.footed k F) use release
  | .releasing l b outcome => .releasing (l.footed k F) b outcome
  | .racingLeft l tokens right => .racingLeft (l.footed k F) tokens (right.footed k F)
  | .racingRight l tokens left => .racingRight (l.footed k F) tokens (left.footed k F)
  | .settling l winner x => .settling (l.footed k F) winner x
  | .remaining l side => .remaining (l.footed k F) side

def Focus.footed : Focus → Focus
  | .eval l effect => .eval (l.footed k F) effect
  | .unwind l x => .unwind (l.footed k F) x
  | .leave x => .leave x
  | .resume g => .resume (g.footed k F)
  | .park g => .park (g.footed k F)

def Config.footed (c : Config) : Config := ⟨c.focus.footed k F, c.callers.map (Caller.footed k F)⟩

def Progress.footed : Progress → Progress
  | .next c => .next (c.footed k F)
  | .ended x => .ended x
  | .parked g => .parked (g.footed k F)
  | .faulted f => .faulted f

/-- A task that was started, if it is a part of a run with more frames at the foot of the loop. -/
def Spawn.footed (x : Spawn) : Spawn :=
  { x with job := match x.job with
    | .segment g => .segment (g.footed k F)
    | job => job }

def Strand.State.footed : Strand.State → Strand.State
  | .waiting g => .waiting (g.footed k F)
  | .running c => .running (c.footed k F)
  | .ended x => .ended x
  | .faulted f => .faulted f
  | .dropped => .dropped

def Strand.footed (τ : Strand) : Strand := { τ with state := τ.state.footed k F }

def Run.footed (r : Run) : Run :=
  { r with state := match r.state with
    | .live g => .live (g.footed k F)
    | state => state }

end

section

variable {k : TokenId} {F : List Frame}

/-- A loop with another token stays as it is. -/
theorem Loop.footed_of_ne {l : Loop} (ne : l.env.token ≠ k) : l.footed k F = l := by
  simp [footed, ne]

theorem Segment.isFresh_of_footed {g : Segment} (fresh : (g.footed k F).isFresh = true) :
    g.isFresh = true := by
  cases g with
  | start l effect =>
    simp only [footed, isFresh, Loop.footed, List.isEmpty_iff, List.append_eq_nil_iff] at fresh ⊢
    exact fresh.1
  | _ => cases fresh

theorem Spawn.segment?_footed (x : Spawn) :
    (x.footed k F).segment? = x.segment?.map (Segment.footed k F) := by
  obtain ⟨task, context, job⟩ := x
  cases job <;> rfl

theorem Strand.State.joined?_footed (state : State) : (state.footed k F).joined? = state.joined? := by
  cases state <;> rfl

theorem Progress.state_footed (p : Progress) : (p.footed k F).state = p.state.footed k F := by
  cases p <;> rfl

theorem Strand.ofRun_footed (r : Run) : (ofRun r).footed k F = ofRun (r.footed k F) := by
  obtain ⟨token, context, state, started⟩ := r
  cases state <;> rfl

theorem Strand.remainder_footed (r : Run) :
    (remainder r).footed k F = remainder (r.footed k F) := by
  simp only [remainder, show (r.footed k F).started = r.started from rfl,
    show (r.footed k F).context = r.context from rfl]
  split
  · exact ofRun_footed r
  · rfl

theorem Strand.ofSpawns_footed (run : TokenId) (new : List Spawn) :
    ofSpawns run (new.map (Spawn.footed k F)) = (ofSpawns run new).map (Strand.footed k F) := by
  unfold ofSpawns
  rw [List.filterMap_map, Multiset.map_coe, List.map_filterMap]
  congr 1
  refine List.filterMap_congr fun x _ => ?_
  simp only [Function.comp_apply, ofSpawn?, Spawn.segment?_footed, Option.map_map]
  rfl

end

/-- Given up, the run leaves the same behind, with the frames in what is left of it. -/
theorem Run.giveUp_footed (k : TokenId) (F : List Frame) (r : Run) (s : Store)
    (tasks : List Spawn) :
    ∃ tasks', (r.footed k F).giveUp (s.withTasks tasks) = (r.giveUp s).withTasks tasks' := by
  obtain ⟨token, context, state, started⟩ := r
  have cancelled : (s.withTasks tasks).cancel token = (s.cancel token).withTasks tasks :=
    Store.Aloof.cancel token s tasks
  cases state with
  | complete => exact ⟨tasks, rfl⟩
  | broken => exact ⟨tasks, by simp only [giveUp, footed, cancelled]; rfl⟩
  | live g =>
    simp only [giveUp, footed, cancelled]
    split
    · unfold Store.spawn
      split
      · exact ⟨_, rfl⟩
      · exact ⟨_, rfl⟩
    · exact ⟨tasks, rfl⟩

/-! ## Steps of a poll -/

/-- Stores that differ in the tasks that were started, some of which have got more frames at the
foot of the loop. -/
def Store.Footed (k : TokenId) (F : List Frame) (old old' : List Spawn) (s s' : Store) : Prop :=
  ∃ new, s.spawned = new ++ old ∧ s' = s.withTasks (new.map (Spawn.footed k F) ++ old')

namespace Store.Footed

variable {k : TokenId} {F : List Frame} {old old' : List Spawn} {s s' : Store}

theorem apply {op : Store → Store} (h : s.Footed k F old old' s') (aloof : Aloof op) :
    (op s).Footed k F old old' (op s') := by
  obtain ⟨new, spawned, rfl⟩ := h
  have same := congrArg Store.spawned (aloof s s.spawned)
  have kept : (op s).spawned = s.spawned := same
  exact ⟨new, kept.trans spawned, aloof s _⟩

/-- What does not depend on the tasks that were started is the same. -/
theorem same {α : Type} (h : s.Footed k F old old' s') (look : Store → α)
    (blind : ∀ s tasks, look (withTasks s tasks) = look s) : look s' = look s := by
  obtain ⟨new, spawned, rfl⟩ := h
  exact blind s _

theorem spawn (h : s.Footed k F old old' s') (context : Context) (job job' : Job)
    (footed : ∀ t, (⟨t, context, job'⟩ : Spawn) = Spawn.footed k F ⟨t, context, job⟩) :
    (s'.spawn context job').1 = (s.spawn context job).1 ∧
      (s.spawn context job).2.Footed k F old old' (s'.spawn context job').2 := by
  obtain ⟨new, spawned, rfl⟩ := h
  unfold Store.spawn
  split
  · refine ⟨rfl, ⟨s.joins.size, context, job⟩ :: new, by simp [spawned], ?_⟩
    rw [List.map_cons, ← footed]
    rfl
  · exact ⟨rfl, new, spawned, rfl⟩

end Store.Footed

namespace Machine

/-- The same step, with more frames at the foot of the loop. -/
structure Footed (k : TokenId) (F : List Frame) (old old' : List Spawn) (r r' : Progress × Store) :
    Prop where
  progress : r'.1 = r.1.footed k F
  store : r.2.Footed k F old old' r'.2

variable {k : TokenId} {F : List Frame} {old old' : List Spawn} {s s' : Store} {cs : List Caller}
  {l : Loop}

theorem atPoint_footed (h : s.Footed k F old old' s') (known : k < s.size) (l : Loop)
    (cs : List Caller) (point : Point) {go go' : Store → Progress × Store}
    (on : ∀ {s s'}, s.Footed k F old old' s' → k < s.size →
      Footed k F old old' (go s) (go' s')) :
    Footed k F old old' (atPoint s l cs point go)
      (atPoint s' (l.footed k F) (cs.map (Caller.footed k F)) point go') := by
  have same := h.same (Store.isCancelled · l.env.token) fun _ _ => rfl
  unfold atPoint
  rw [show (l.footed k F).env = l.env from rfl, same]
  split
  · exact ⟨rfl, h⟩
  · exact on (h.apply (.emit _)) known

theorem completeAll_footed (h : s.Footed k F old old' s') (slot : Nat)
    (completions : List Completion) :
    (completeAll slot completions s').1 = (completeAll slot completions s).1 ∧
      (completeAll slot completions s).2.Footed k F old old' (completeAll slot completions s').2 := by
  induction completions generalizing s s' with
  | nil => exact ⟨rfl, h⟩
  | cons completion rest ih =>
    have same := h.same (Store.slot · slot) fun _ _ => rfl
    cases completion with
    | error f => exact ⟨rfl, h⟩
    | ok result =>
      simp only [completeAll, Store.completeCallback, same]
      cases (s.slot slot).callback.complete result with
      | error f => exact ⟨rfl, h⟩
      | ok callback => exact ih (h.apply (.updateCallback slot callback))

theorem openCallback_footed (h : s.Footed k F old old' s') :
    s'.openCallback.1 = s.openCallback.1 ∧
      s.openCallback.2.Footed k F old old' s'.openCallback.2 := by
  obtain ⟨new, spawned, rfl⟩ := h
  exact ⟨rfl, new, spawned, rfl⟩

theorem register_footed (h : s.Footed k F old old' s') (worker : Worker) (r : Registration) :
    (register worker r s').1 = (register worker r s).1 ∧
      (register worker r s).2.Footed k F old old' (register worker r s').2 := by
  obtain ⟨same, opened⟩ := openCallback_footed h
  simp only [register, same]
  generalize s.openCallback.1 = slot
  have shown := opened.apply (aloof_showCallback r.shown slot)
  obtain ⟨fault, completed⟩ := completeAll_footed shown slot r.immediate
  revert fault completed
  rcases completeAll slot r.immediate (showCallback r.shown slot s.openCallback.2) with ⟨f, A⟩
  rcases completeAll slot r.immediate (showCallback r.shown slot s'.openCallback.2) with ⟨f', B⟩
  rintro rfl completed
  cases f' with
  | some f => exact ⟨rfl, completed⟩
  | none =>
    have again := completed.apply (aloof_showCallback r.shown slot)
    have held : Store.Footed k F old old'
        (if r.held then (showCallback r.shown slot A).holdCallback slot
          else showCallback r.shown slot A)
        (if r.held then (showCallback r.shown slot B).holdCallback slot
          else showCallback r.shown slot B) := by
      split
      · exact again.apply (.holdCallback slot)
      · exact again
    cases r.later with
    | nil => exact ⟨rfl, held.apply (.dropCallback slot)⟩
    | cons first rest => exact ⟨rfl, (held.spawn _ _ _ fun _ => rfl).2⟩

/-- A loop that begins has another token. -/
theorem footed_fresh (env : Env) {t : TokenId} (new : k < t) :
    (⟨env.withToken t, []⟩ : Loop).footed k F = ⟨env.withToken t, []⟩ :=
  Loop.footed_of_ne (Nat.ne_of_gt new)

theorem childToken_footed (h : s.Footed k F old old' s') (p : TokenId) :
    (s'.childToken p).1 = (s.childToken p).1 ∧
      (s.childToken p).2.Footed k F old old' (s'.childToken p).2 := by
  obtain ⟨new, spawned, rfl⟩ := h
  exact ⟨rfl, new, spawned, rfl⟩

theorem freshToken_footed (h : s.Footed k F old old' s') :
    s'.freshToken.1 = s.freshToken.1 ∧ s.freshToken.2.Footed k F old old' s'.freshToken.2 := by
  obtain ⟨new, spawned, rfl⟩ := h
  exact ⟨rfl, new, spawned, rfl⟩

theorem spawnOperands_footed (h : s.Footed k F old old' s') (known : k < s.size) (env : Env)
    (group : TokenId) (operands : Nat → Effect) (indices : List Nat) :
    (spawnOperands env group operands indices s').1 = (spawnOperands env group operands indices s).1 ∧
      (spawnOperands env group operands indices s).2.Footed k F old old'
        (spawnOperands env group operands indices s').2 := by
  induction indices generalizing s s' with
  | nil => exact ⟨rfl, h⟩
  | cons i rest ih =>
    obtain ⟨token, child⟩ := childToken_footed h group
    have fresh : k < (s.childToken group).1 := by simpa using known
    simp only [spawnOperands, token]
    let operand : Job := .segment (.start ⟨env.withToken (s.childToken group).1, []⟩ (operands i))
    have unchanged : ∀ t, (⟨t, env.context, operand⟩ : Spawn)
        = Spawn.footed k F ⟨t, env.context, operand⟩ := fun t => by
      simp only [Spawn.footed, Segment.footed, operand, footed_fresh env fresh]
    obtain ⟨task, begun⟩ := child.spawn env.context operand operand unchanged
    have known' : k < ((s.childToken group).2.spawn env.context operand).2.size := by
      simpa using Nat.lt_succ_of_lt known
    obtain ⟨tasks, others⟩ := ih begun known'
    rw [task, tasks]
    exact ⟨rfl, others⟩

/-! ### Evaluation -/

theorem evalStep_footed (h : s.Footed k F old old' s') (known : k < s.size) (worker : Worker)
    (l : Loop) (cs : List Caller) (effect : Effect) :
    Footed k F old old' (evalStep worker l cs s effect)
      (evalStep worker (l.footed k F) (cs.map (Caller.footed k F)) s' effect) := by
  cases effect with
  | pure | fail | fault | map | flatMap | handleErrorWith => exact ⟨rfl, h⟩
  | perform act next =>
    obtain ⟨new, spawned, rfl⟩ := h
    have same : act ⟨worker.thread, (s.withTasks (new.map (Spawn.footed k F) ++ old')).time⟩
        (s.withTasks (new.map (Spawn.footed k F) ++ old')).memory
          = act ⟨worker.thread, s.time⟩ s.memory := rfl
    simp only [evalStep, same]
    split
    · exact ⟨rfl, new, spawned, rfl⟩
    · exact ⟨rfl, new, spawned, rfl⟩
  | cancel t => exact ⟨rfl, h.apply (.cancel t)⟩
  | isCancelled t =>
    obtain ⟨new, spawned, rfl⟩ := h
    exact ⟨rfl, new, spawned, rfl⟩
  | loop again body v =>
    simp only [evalStep]
    split
    · exact ⟨rfl, h⟩
    · exact ⟨rfl, h⟩
    · exact ⟨rfl, h⟩
  | async registration =>
    simp only [evalStep]
    refine atPoint_footed h known l cs .registration fun {s s'} h known => ?_
    obtain ⟨same, registered⟩ := register_footed h worker registration
    revert same registered
    rcases register worker registration s with ⟨result, A⟩
    rcases register worker registration s' with ⟨result', B⟩
    rintro rfl registered
    cases result' with
    | ok slot => exact ⟨rfl, registered⟩
    | error f => exact ⟨rfl, registered⟩
  | await future =>
    simp only [evalStep]
    refine atPoint_footed h known l cs .future fun {s s'} h known => ?_
    have same := h.same (start worker · future) fun _ _ => rfl
    rw [same]
    split
    · exact ⟨rfl, h⟩
    · exact ⟨rfl, h⟩
  | shift context =>
    simp only [evalStep]
    refine atPoint_footed h known l cs .shift fun {s s'} h known => ?_
    let remainder : Loop := { l with env := l.env.withContext context }
    obtain ⟨task, begun⟩ := (h.apply (.emit (.shifting context.name))).spawn context
      (.segment (.start remainder Effect.unit))
      (.segment (.start (remainder.footed k F) Effect.unit)) fun t => rfl
    exact ⟨congrArg (fun t => resume (.shifted l.env t) (cs.map (Caller.footed k F))) task, begun⟩
  | bracket acquire use release =>
    simp only [evalStep]
    refine atPoint_footed h known l cs .acquisition fun {s s'} h known => ?_
    obtain ⟨token, fresh⟩ := freshToken_footed h
    have new : k < s.freshToken.1 := known
    refine ⟨?_, fresh⟩
    simp only [token, Progress.footed, eval, Config.footed, Focus.footed, footed_fresh _ new]
    rfl
  | race left right =>
    obtain ⟨token, child⟩ := childToken_footed h l.env.token
    obtain ⟨token', child'⟩ := childToken_footed child l.env.token
    have new : k < (s.childToken l.env.token).1 := by simpa using known
    have new' : k < ((s.childToken l.env.token).2.childToken l.env.token).1 := by
      simpa using Nat.lt_succ_of_lt known
    refine ⟨?_, child'⟩
    simp only [evalStep, show (l.footed k F).env = l.env from rfl, token, token', Progress.footed,
      eval, Config.footed, Focus.footed, List.map_cons, Caller.footed, Segment.footed,
      footed_fresh _ new, footed_fresh _ new']
  | parallel n operands =>
    obtain ⟨token, child⟩ := childToken_footed h l.env.token
    have known' : k < (s.childToken l.env.token).2.size := by simpa using Nat.lt_succ_of_lt known
    obtain ⟨pending, begun⟩ := spawnOperands_footed child known' l.env
      (s.childToken l.env.token).1 (operandAt operands) (List.range n)
    simp only [evalStep, show (l.footed k F).env = l.env from rfl, token, pending]
    exact ⟨rfl, begun⟩

/-! ### Unwinding -/

theorem settle_footed (h : s.Footed k F old old' s') (l : Loop) (tokens : RaceTokens) (side : Side)
    (x : Exit) (other : Segment) (cs : List Caller) :
    Footed k F old old' (settle l tokens side x other cs s)
      (settle (l.footed k F) tokens side x (other.footed k F) (cs.map (Caller.footed k F)) s') := by
  have same := h.same (Store.isCancelled · l.env.token) fun _ _ => rfl
  simp only [settle, show (l.footed k F).env = l.env from rfl, same]
  split
  · exact ⟨rfl, h⟩
  · exact ⟨rfl, h.apply (.cancel _)⟩

theorem returnStep_footed (h : s.Footed k F old old' s') (x : Exit) (cs : List Caller)
    (caller : Caller) : Footed k F old old' (returnStep x cs s caller)
      (returnStep x (cs.map (Caller.footed k F)) s' (caller.footed k F)) := by
  cases caller with
  | acquiring l use release =>
    cases x with
    | succeeded v =>
      have number := h.same Store.brackets fun _ _ => rfl
      have acquired : Store.Footed k F old old'
          ({ s with brackets := s.brackets + 1 }.emit (.acquired l.env.token s.brackets v))
          ({ s' with brackets := s.brackets + 1 }.emit (.acquired l.env.token s.brackets v)) := by
        obtain ⟨new, spawned, rfl⟩ := h
        exact ⟨new, spawned, rfl⟩
      have same := acquired.same (Store.isCancelled · l.env.token) fun _ _ => rfl
      simp only [returnStep, Caller.footed, show (l.footed k F).env = l.env from rfl,
        show ∀ f, ((l.footed k F).push f).env = l.env from fun _ => rfl,
        show ∀ f, (l.push f).env = l.env from fun _ => rfl, number, same]
      split
      · exact ⟨rfl, acquired⟩
      · exact ⟨rfl, acquired.apply (.emit _)⟩
    | errored | canceled => exact ⟨rfl, h.apply (.emit _)⟩
  | releasing l b outcome =>
    have finished := h.apply (.emit (.releaseFinished l.env.token b x))
    simp only [returnStep, Caller.footed, show (l.footed k F).env = l.env from rfl]
    split
    · exact ⟨rfl, finished⟩
    · exact ⟨rfl, finished.apply (.emit _)⟩
    · exact ⟨rfl, finished⟩
  | racingLeft l tokens other => exact settle_footed h l tokens .left x other cs
  | racingRight l tokens other => exact settle_footed h l tokens .right x other cs
  | settling l winner y => exact ⟨rfl, h.apply (.emit _)⟩
  | remaining l side => exact ⟨rfl, h⟩

theorem frameStep_footed (h : s.Footed k F old old' s') (known : k < s.size) (l : Loop)
    (cs : List Caller) (f : Frame) (x : Exit) :
    Footed k F old old' (frameStep l cs s f x)
      (frameStep (l.footed k F) (cs.map (Caller.footed k F)) s' f x) := by
  cases f with
  | map f =>
    cases x with
    | succeeded v =>
      simp only [frameStep]
      split
      · exact ⟨rfl, h⟩
      · exact ⟨rfl, h⟩
    | errored | canceled => exact ⟨rfl, h⟩
  | bind | again | handle => cases x <;> exact ⟨rfl, h⟩
  | release b finalizer =>
    have same := h.same (Store.isCancelled · l.env.token) fun _ _ => rfl
    simp only [frameStep, show (l.footed k F).env = l.env from rfl, same]
    split
    · exact ⟨rfl, h⟩
    · obtain ⟨token, fresh⟩ := freshToken_footed (h.apply (.emit
        (.releaseStarted l.env.token b (if s.isCancelled l.env.token then .canceled else x))))
      refine ⟨?_, fresh⟩
      simp only [token, eval, Progress.footed, Config.footed, Focus.footed, List.map_cons,
        Caller.footed]
      rw [footed_fresh]
      exact known

theorem unwindStep_footed (h : s.Footed k F old old' s') (known : k < s.size) (l : Loop)
    (x : Exit) (cs : List Caller) (before : l.env.token = k → l.frames ≠ []) :
    Footed k F old old' (unwindStep l x cs s)
      (unwindStep (l.footed k F) x (cs.map (Caller.footed k F)) s') := by
  obtain ⟨env, frames⟩ := l
  cases frames with
  | nil =>
    have ne : env.token ≠ k := fun same => before same rfl
    rw [Loop.footed_of_ne ne]
    exact ⟨rfl, h.apply (.emit _)⟩
  | cons frame frames => exact frameStep_footed h known ⟨env, frames⟩ cs frame x

/-! ### Resuming -/

theorem gather_footed (h : s.Footed k F old old' s') (ended : List (Nat × Joined)) (group : Group) :
    (gather group ended s').1 = (gather group ended s).1 ∧
      (gather group ended s).2.Footed k F old old' (gather group ended s').2 := by
  induction ended generalizing group s s' with
  | nil => exact ⟨rfl, h⟩
  | cons first rest ih =>
    obtain ⟨i, joined⟩ := first
    simp only [gather]
    cases joined.exit with
    | error f => exact ⟨rfl, h.apply (.cancel _)⟩
    | ok exit =>
      refine ih ?_ _
      cases exit with
      | errored e =>
        simp only
        split
        · exact (h.apply (.emit _)).apply (.cancel _)
        · exact h
      | succeeded | canceled => exact h

theorem resumeStep_footed (h : s.Footed k F old old' s') (worker : Worker) (cs : List Caller)
    (g : Segment) : Footed k F old old' (resumeStep worker cs s g)
      (resumeStep worker (cs.map (Caller.footed k F)) s' (g.footed k F)) := by
  cases g with
  | start l effect => exact ⟨rfl, h⟩
  | callback l slot =>
    have same := h.same (Store.slot · slot) fun _ _ => rfl
    have same' := h.same (Store.isCancelled · l.env.token) fun _ _ => rfl
    simp only [resumeStep, Segment.footed, show (l.footed k F).env = l.env from rfl, same, same']
    split
    · exact ⟨rfl, h⟩
    · exact ⟨rfl, h⟩
    · split
      · exact ⟨rfl, h.apply (.emit _)⟩
      · exact ⟨rfl, (h.apply (.watchCallback slot worker.task)).apply (.watchToken _ _)⟩
  | future l wait =>
    have same := h.same (Wait.result? · wait) fun _ _ => rfl
    have same' := h.same (Store.isCancelled · l.env.token) fun _ _ => rfl
    simp only [resumeStep, Segment.footed, show (l.footed k F).env = l.env from rfl, same, same']
    split
    · exact ⟨rfl, h⟩
    · split
      · exact ⟨rfl, h.apply (.emit _)⟩
      · exact ⟨rfl, (h.apply (aloof_watch worker wait)).apply (.watchToken _ _)⟩
  | shifted env task =>
    have same := h.same (Store.joined? · task) fun _ _ => rfl
    simp only [resumeStep, Segment.footed, same]
    split
    · split
      · exact ⟨rfl, h⟩
      · exact ⟨rfl, h⟩
    · exact ⟨rfl, h.apply (.watchTask _ _)⟩
  | gathering l group =>
    have same := h.same (endedOperands group) fun _ _ => rfl
    obtain ⟨result, gathered⟩ := gather_footed h (endedOperands group s) group
    simp only [resumeStep, Segment.footed, same]
    revert result gathered
    rcases gather group (endedOperands group s) s with ⟨result, A⟩
    rcases gather group (endedOperands group s) s' with ⟨result', B⟩
    rintro rfl gathered
    cases result' with
    | error f => exact ⟨rfl, gathered⟩
    | ok group =>
      simp only
      split
      · exact ⟨rfl, gathered⟩
      · exact ⟨rfl, gathered.apply (.watchTasks _ _)⟩
  | acquiring | releasing | racing | settling | remaining => exact ⟨rfl, h⟩

theorem parkStep_footed (g : Segment) (cs : List Caller) :
    parkStep (g.footed k F) (cs.map (Caller.footed k F)) = (parkStep g cs).footed k F := by
  cases cs with
  | nil => rfl
  | cons caller cs => cases caller <;> rfl

end Machine

/-- A step of a poll does not depend on the foot of a loop, until the loop has come to the end of
its frames. -/
theorem Config.step_footed {k : TokenId} {F : List Frame} {old old' : List Spawn} {s s' : Store}
    (h : s.Footed k F old old' s') (known : k < s.size) (worker : Worker) {c : Config}
    (before : ∀ env x, c.focus = .unwind ⟨env, []⟩ x → env.token ≠ k) :
    Machine.Footed k F old old' (c.step worker s) ((c.footed k F).step worker s') := by
  obtain ⟨focus, cs⟩ := c
  cases focus with
  | eval l effect => exact Machine.evalStep_footed h known worker l cs effect
  | unwind l x =>
    refine Machine.unwindStep_footed h known l x cs fun same none => ?_
    obtain ⟨env, frames⟩ := l
    cases none
    exact before env x rfl same
  | leave x =>
    cases cs with
    | nil => exact ⟨rfl, h⟩
    | cons caller cs => exact Machine.returnStep_footed h x cs caller
  | resume g => exact Machine.resumeStep_footed h worker cs g
  | park g => exact ⟨Machine.parkStep_footed g cs, h⟩

end EffectFibers
