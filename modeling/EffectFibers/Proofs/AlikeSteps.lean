import EffectFibers.Proofs.Laws
import EffectFibers.Proofs.Runtime

/-!
# Steps of polls that are alike

Two polls are alike if calm steps, which neither look at the store nor change it, bring them to
where they do the same with alike parts.  The sides of a law get there by pushing and popping a few
frames.  From then on one lemma for each function of the machine says that both steps come to the
same, in stores that differ in the work of the tasks that were started only.

## Main statements

* `Effect.Alike.evals`, `Frame.Stacked.unwinds`: the sides of a law, and the frames they leave.
* `Config.Alike.turn`: a step of one poll is calm, or the other one does it after calm steps.
* `Config.Alike.run`: if one poll comes to something, so does the other, and to the same.
-/

namespace EffectFibers

/-! ## Stores -/

namespace Store

variable {s s' : Store}

/-- The store with other tasks started. -/
def withTasks (s : Store) (tasks : List Spawn) : Store := { s with spawned := tasks }

/-- Stores that differ in the work of the tasks that were started, which is alike. -/
def Alike (s s' : Store) : Prop :=
  ∃ tasks, List.Forall₂ Spawn.Alike s.spawned tasks ∧ s' = s.withTasks tasks

/-- An operation that neither starts a task nor looks at those that were started. -/
def Aloof (op : Store → Store) : Prop :=
  ∀ s tasks, op (withTasks s tasks) = (op s).withTasks tasks

namespace Alike

theorem refl (s : Store) : s.Alike s :=
  ⟨s.spawned, List.forall₂_same.mpr fun x _ => .refl x, rfl⟩

theorem symm (h : s.Alike s') : s'.Alike s := by
  obtain ⟨tasks, alike, rfl⟩ := h
  exact ⟨s.spawned, List.Forall₂.imp (fun _ _ h => h.symm) alike.flip, rfl⟩

theorem apply {op : Store → Store} (h : s.Alike s') (aloof : Aloof op) :
    (op s).Alike (op s') := by
  obtain ⟨tasks, alike, rfl⟩ := h
  have same := congrArg Store.spawned (aloof s s.spawned)
  have kept : (op s).spawned = s.spawned := same
  exact ⟨tasks, by rwa [kept], aloof s tasks⟩

end Alike

namespace Aloof

theorem comp {op op' : Store → Store} (h : Aloof op) (h' : Aloof op') :
    Aloof fun s => op' (op s) := fun s tasks => by
  simp only [h s tasks, h' (op s) tasks]

theorem emit (e : Event) : Aloof (Store.emit · e) := fun _ _ => rfl

theorem wake (t : TaskId) : Aloof (Store.wake · t) := fun s tasks => by
  simp only [Store.wake]
  split <;> rfl

theorem wakeAll (ts : List TaskId) : Aloof (Store.wakeAll · ts) := by
  induction ts with
  | nil => exact fun _ _ => rfl
  | cons t ts ih => exact (wake t).comp ih

theorem cancel (t : TokenId) : Aloof (Store.cancel · t) := fun s tasks =>
  wakeAll _ { s with
    tokens := s.tokens.cancel t
    watchers := (s.watchers.partition fun w => (s.tokens.cancel t).isCancelled w.1).2 } tasks

theorem watchToken (t : TokenId) (task : TaskId) : Aloof (Store.watchToken · t task) :=
  fun s tasks => by
    by_cases known : (t, task) ∈ s.watchers <;>
      simp [Store.watchToken, withTasks, known]

theorem updateCallback (i : Nat) (callback : Callback) :
    Aloof (Store.updateCallback · i callback) := fun s tasks =>
  wakeAll _ (s.setSlot i { callback }) tasks

theorem holdCallback (i : Nat) : Aloof (Store.holdCallback · i) := fun _ _ => rfl

theorem watchCallback (i : Nat) (task : TaskId) : Aloof (Store.watchCallback · i task) :=
  fun _ _ => rfl

theorem dropCallback (i : Nat) : Aloof (Store.dropCallback · i) := fun s tasks => by
  have same : (s.withTasks tasks).slot i = s.slot i := rfl
  simp only [Store.dropCallback, same]
  split
  · exact updateCallback i _ s tasks
  · rfl

theorem prune (held : TokenId → Bool) :
    Aloof fun s => { s with tokens := s.tokens.prune held } := fun _ _ => rfl

theorem finish (t : TaskId) (result : Joined) : Aloof (Store.finish · t result) := fun s tasks =>
  wakeAll _ { s with
    joins := s.joins.setIfInBounds t { result := some result, order := s.ended }
    ended := s.ended + 1 } tasks

theorem watchTask (t task : TaskId) : Aloof (Store.watchTask · t task) := fun _ _ => rfl

theorem watchTasks (ts : List (Nat × TaskId)) (task : TaskId) :
    Aloof fun s => ts.foldl (fun s (_, t) => s.watchTask t task) s := by
  induction ts with
  | nil => exact fun _ _ => rfl
  | cons t ts ih => exact (watchTask t.2 task).comp ih

end Aloof

/-- The same result, with stores that are alike. -/
def Both {α : Type} (a b : α × Store) : Prop :=
  ∃ v s s', a = (v, s) ∧ b = (v, s') ∧ s.Alike s'

theorem Both.store {α : Type} {a b : α × Store} (h : Both a b) : a.2.Alike b.2 := by
  obtain ⟨v, s, s', rfl, rfl, alike⟩ := h
  exact alike

namespace Alike

variable {s s' : Store} (h : s.Alike s')
include h

theorem isCancelled (t : TokenId) : s'.isCancelled t = s.isCancelled t := by
  obtain ⟨tasks, alike, rfl⟩ := h
  rfl

theorem freshToken : Both s.freshToken s'.freshToken := by
  obtain ⟨tasks, alike, rfl⟩ := h
  exact ⟨_, _, _, rfl, rfl, tasks, alike, rfl⟩

theorem childToken (p : TokenId) : Both (s.childToken p) (s'.childToken p) := by
  obtain ⟨tasks, alike, rfl⟩ := h
  exact ⟨_, _, _, rfl, rfl, tasks, alike, rfl⟩

theorem tokens : s'.tokens = s.tokens := by
  obtain ⟨tasks, alike, rfl⟩ := h
  rfl

theorem spawn (context : Context) {job job' : Job} (alike : job.Alike job') :
    Both (s.spawn context job) (s'.spawn context job') := by
  obtain ⟨tasks, tasksAlike, rfl⟩ := h
  unfold Store.spawn
  split
  · exact ⟨_, _, _, rfl, rfl, _, .cons (.mk _ context alike) tasksAlike, rfl⟩
  · exact ⟨_, _, _, rfl, rfl, _, tasksAlike, rfl⟩

end Alike

end Store

/-! ## Polls -/

/-- A step that only passes frames on: it neither looks at the store nor changes it. -/
inductive Config.Calm : Config → Config → Prop
  | pure (loop : Loop) (v : Value) (cs : List Caller) :
      Calm ⟨.eval loop (.pure v), cs⟩ ⟨.unwind loop (.succeeded v), cs⟩
  | map (loop : Loop) (m : Effect) (f : Value → Except Fault Value) (cs : List Caller) :
      Calm ⟨.eval loop (.map m f), cs⟩ ⟨.eval (loop.push (.map f)) m, cs⟩
  | flatMap (loop : Loop) (m : Effect) (f : Value → Effect) (cs : List Caller) :
      Calm ⟨.eval loop (.flatMap m f), cs⟩ ⟨.eval (loop.push (.bind f)) m, cs⟩
  | mapped {f : Value → Except Fault Value} {v w : Value} (h : f v = .ok w) (env : Env)
      (fs : List Frame) (cs : List Caller) :
      Calm ⟨.unwind ⟨env, .map f :: fs⟩ (.succeeded v), cs⟩ ⟨.unwind ⟨env, fs⟩ (.succeeded w), cs⟩
  | bound (f : Value → Effect) (v : Value) (env : Env) (fs : List Frame) (cs : List Caller) :
      Calm ⟨.unwind ⟨env, .bind f :: fs⟩ (.succeeded v), cs⟩ ⟨.eval ⟨env, fs⟩ (f v), cs⟩
  | skipped {frame : Frame} {x : Exit} (h : frame.skips x = true) (env : Env) (fs : List Frame)
      (cs : List Caller) : Calm ⟨.unwind ⟨env, frame :: fs⟩ x, cs⟩ ⟨.unwind ⟨env, fs⟩ x, cs⟩

/-- Polls that come to agree: after calm steps on either side they do the same with alike parts. -/
inductive Config.Alike : Config → Config → Prop
  | eval {l l' : Loop} {e e' : Effect} {cs cs' : List Caller} (loop : l.Alike l')
      (effect : e.Within e') (callers : Caller.AllAlike cs cs') :
      Alike ⟨.eval l e, cs⟩ ⟨.eval l' e', cs'⟩
  | unwind {f f' : Frame} {fs fs' : List Frame} {cs cs' : List Caller} (env : Env) (x : Exit)
      (frame : f.Alike f') (stack : Frame.Stacked fs fs') (callers : Caller.AllAlike cs cs') :
      Alike ⟨.unwind ⟨env, f :: fs⟩ x, cs⟩ ⟨.unwind ⟨env, f' :: fs'⟩ x, cs'⟩
  | done {cs cs' : List Caller} (env : Env) (x : Exit) (callers : Caller.AllAlike cs cs') :
      Alike ⟨.unwind ⟨env, []⟩ x, cs⟩ ⟨.unwind ⟨env, []⟩ x, cs'⟩
  /-- Both are about to panic in the function of a `map`. -/
  | panic {f g : Value → Except Fault Value} {v w : Value} {fs fs' : List Frame}
      {cs cs' : List Caller} {fault : Fault} (env : Env) (h : f v = .error fault)
      (h' : g w = .error fault) (callers : Caller.AllAlike cs cs') :
      Alike ⟨.unwind ⟨env, .map f :: fs⟩ (.succeeded v), cs⟩
        ⟨.unwind ⟨env, .map g :: fs'⟩ (.succeeded w), cs'⟩
  | leave {cs cs' : List Caller} (x : Exit) (callers : Caller.AllAlike cs cs') :
      Alike ⟨.leave x, cs⟩ ⟨.leave x, cs'⟩
  | resume {s s' : Segment} {cs cs' : List Caller} (segment : s.Alike s')
      (callers : Caller.AllAlike cs cs') : Alike ⟨.resume s, cs⟩ ⟨.resume s', cs'⟩
  | park {s s' : Segment} {cs cs' : List Caller} (segment : s.Alike s')
      (fresh : s.isFresh = s'.isFresh) (callers : Caller.AllAlike cs cs') :
      Alike ⟨.park s, cs⟩ ⟨.park s', cs'⟩
  | left {c d c' : Config} (calm : Calm c d) (h : Alike d c') : Alike c c'
  | right {c c' d : Config} (calm : Calm c' d) (h : Alike c d) : Alike c c'

inductive Progress.Alike : Progress → Progress → Prop
  | next {c c' : Config} (h : c.Alike c') : Alike (.next c) (.next c')
  | ended (x : Exit) : Alike (.ended x) (.ended x)
  | parked {s s' : Segment} (h : s.Alike s') (fresh : s.isFresh = s'.isFresh) :
      Alike (.parked s) (.parked s')
  | faulted (f : Fault) : Alike (.faulted f) (.faulted f)

/-- Steps that come to the same, in stores that stay alike. -/
structure Machine.Agree (a b : Progress × Store) : Prop where
  progress : a.1.Alike b.1
  store : a.2.Alike b.2

namespace Config

variable {c d c' : Config}

theorem Calm.step (h : Calm c d) (worker : Worker) (s : Store) :
    c.step worker s = (.next d, s) := by
  cases h with
  | pure | map | flatMap | bound => rfl
  | mapped h => simp [Config.step, Machine.unwindStep, Machine.frameStep, h, Machine.unwind]
  | @skipped frame x h =>
    cases frame <;> cases x <;> first | rfl | cases h

theorem Alike.refl (c : Config) : c.Alike c := by
  obtain ⟨focus, cs⟩ := c
  have callers := Caller.AllAlike.refl cs
  cases focus with
  | eval loop effect => exact .eval (.refl loop) (.refl effect) callers
  | unwind loop x =>
    obtain ⟨env, fs⟩ := loop
    cases fs with
    | nil => exact .done env x callers
    | cons f fs => exact .unwind env x (.refl f) (.refl fs) callers
  | leave x => exact .leave x callers
  | resume g => exact .resume (.refl g) callers
  | park g => exact .park (.refl g) rfl callers

theorem Alike.symm (h : c.Alike c') : c'.Alike c := by
  induction h with
  | eval loop effect callers => exact .eval loop.symm effect.symm callers.symm
  | unwind env x frame stack callers => exact .unwind env x frame.symm stack.symm callers.symm
  | done env x callers => exact .done env x callers.symm
  | panic env h h' callers => exact .panic env h' h callers.symm
  | leave x callers => exact .leave x callers.symm
  | resume segment callers => exact .resume segment.symm callers.symm
  | park segment fresh callers => exact .park segment.symm fresh.symm callers.symm
  | left calm h ih => exact .right calm ih
  | right calm h ih => exact .left calm ih

end Config

/-! ## Both sides of a law -/

section Laws

variable {env : Env} {cs cs' : List Caller}

/-- Frames that the two sides of a law leave behind pass an exit on alike. -/
theorem Frame.Fused.unwinds {p p' fs fs' : List Frame} (h : Fused p p') (stack : Stacked fs fs')
    (callers : Caller.AllAlike cs cs') (tail : ∀ x, Config.Alike ⟨.unwind ⟨env, fs⟩ x, cs⟩
      ⟨.unwind ⟨env, fs'⟩ x, cs'⟩) (x : Exit) :
    Config.Alike ⟨.unwind ⟨env, p ++ fs⟩ x, cs⟩ ⟨.unwind ⟨env, p' ++ fs'⟩ x, cs'⟩ := by
  cases h with
  | flatMap_pure =>
    cases x with
    | succeeded v => exact .left (.bound _ v env fs cs) (.left (.pure _ v cs) (tail _))
    | errored | canceled => exact .left (.skipped rfl env fs cs) (tail _)
  | flatMap_assoc f g =>
    cases x with
    | succeeded v =>
      refine .left (.bound f v env _ cs) (.right (.bound _ v env fs' cs') ?_)
      exact .right (.flatMap _ _ _ cs') (.eval (.mk env (.cons (.refl _) stack)) (.refl _) callers)
    | errored | canceled =>
      exact .left (.skipped rfl env _ cs) (.left (.skipped rfl env fs cs)
        (.right (.skipped rfl env fs' cs') (tail _)))
  | map_id =>
    cases x with
    | succeeded v => exact .left (.mapped rfl env fs cs) (tail _)
    | errored | canceled => exact .left (.skipped rfl env fs cs) (tail _)
  | map_comp f g =>
    cases x with
    | succeeded v =>
      cases first : f v with
      | error fault =>
        have both : Effect.after g f v = .error fault := by simp [Effect.after, first, Except.bind]
        exact .panic env first both callers
      | ok w =>
        refine .left (.mapped first env _ cs) ?_
        cases second : g w with
        | error fault =>
          have both : Effect.after g f v = .error fault := by
            simp [Effect.after, first, second, Except.bind]
          exact .panic env second both callers
        | ok u =>
          have both : Effect.after g f v = .ok u := by
            simp [Effect.after, first, second, Except.bind]
          exact .left (.mapped second env fs cs) (.right (.mapped both env fs' cs') (tail _))
    | errored | canceled =>
      exact .left (.skipped rfl env _ cs) (.left (.skipped rfl env fs cs)
        (.right (.skipped rfl env fs' cs') (tail _)))

/-- Stacks of frames that amount to the same pass an exit on alike. -/
theorem Frame.Stacked.unwinds {fs fs' : List Frame} (h : Stacked fs fs')
    (callers : Caller.AllAlike cs cs') (x : Exit) :
    Config.Alike ⟨.unwind ⟨env, fs⟩ x, cs⟩ ⟨.unwind ⟨env, fs'⟩ x, cs'⟩ := by
  induction h generalizing x with
  | nil => exact .done env x callers
  | cons h rest ih => exact .unwind env x h rest callers
  | law h rest ih => exact h.unwinds rest callers ih x
  | flip h rest ih =>
    exact (h.unwinds rest.symm callers.symm (fun x => (ih x).symm) x).symm

/-- The two sides of a law come to be alike. -/
theorem Effect.Law.evals {e e' : Effect} (h : Law e e') {l l' : Loop} (loop : l.Alike l')
    (callers : Caller.AllAlike cs cs') : Config.Alike ⟨.eval l e, cs⟩ ⟨.eval l' e', cs'⟩ := by
  have same (e : Effect) : e.Within e := .refl e
  obtain ⟨env, stack⟩ := loop
  cases h with
  | pure_flatMap a f =>
    refine .left (.flatMap _ _ _ cs) (.left (.pure _ a cs) (.left (.bound f a env _ cs) ?_))
    exact .eval (.mk env stack) (same _) callers
  | flatMap_pure m =>
    exact .left (.flatMap _ _ _ cs) (.eval (.mk env (.law .flatMap_pure stack)) (same _) callers)
  | flatMap_assoc m f g =>
    refine .left (.flatMap _ _ _ cs) (.left (.flatMap _ _ _ cs) (.right (.flatMap _ _ _ cs') ?_))
    exact .eval (.mk env (.law (.flatMap_assoc f g) stack)) (same _) callers
  | map_id m =>
    exact .left (.map _ _ _ cs) (.eval (.mk env (.law .map_id stack)) (same _) callers)
  | map_comp m f g =>
    refine .left (.map _ _ _ cs) (.left (.map _ _ _ cs) (.right (.map _ _ _ cs') ?_))
    exact .eval (.mk env (.law (.map_comp f g) stack)) (same _) callers

theorem Effect.Alike.evals {e e' : Effect} (h : e.Alike e') {l l' : Loop} (loop : l.Alike l')
    (callers : Caller.AllAlike cs cs') : Config.Alike ⟨.eval l e, cs⟩ ⟨.eval l' e', cs'⟩ := by
  cases h with
  | inside h => exact .eval loop h callers
  | law h => exact h.evals loop callers
  | flip h => exact (h.evals loop.symm callers.symm).symm

end Laws

/-! ## The steps one by one -/

namespace Machine

variable {s s' : Store} {l l' : Loop} {cs cs' : List Caller} {e e' : Effect}

theorem unwind_alike (loop : l.Alike l') (x : Exit) (callers : Caller.AllAlike cs cs') :
    (unwind l x cs).Alike (unwind l' x cs') := by
  obtain ⟨env, stack⟩ := loop
  exact .next (stack.unwinds callers x)

theorem eval_alike (loop : l.Alike l') (effect : e.Alike e') (callers : Caller.AllAlike cs cs') :
    (eval l e cs).Alike (eval l' e' cs') := .next (effect.evals loop callers)

theorem resume_alike {g g' : Segment} (segment : g.Alike g') (callers : Caller.AllAlike cs cs') :
    (resume g cs).Alike (resume g' cs') := .next (.resume segment callers)

/-! ## Suspension points -/

theorem atPoint_agrees {point : Point} {go go' : Store → Progress × Store} (loop : l.Alike l')
    (callers : Caller.AllAlike cs cs') (store : s.Alike s')
    (on : ∀ {t t' : Store}, t.Alike t' → Agree (go t) (go' t')) :
    Agree (atPoint s l cs point go) (atPoint s' l' cs' point go') := by
  unfold atPoint
  rw [← loop.env, store.isCancelled]
  split
  · exact ⟨unwind_alike loop _ callers, store⟩
  · exact on (store.apply (.emit _))

theorem completeAll_both (slot : Nat) (completions : List Completion) (store : s.Alike s') :
    Store.Both (completeAll slot completions s) (completeAll slot completions s') := by
  induction completions generalizing s s' with
  | nil => exact ⟨_, _, _, rfl, rfl, store⟩
  | cons completion rest ih =>
    unfold completeAll
    cases completion with
    | error f => exact ⟨_, _, _, rfl, rfl, store⟩
    | ok result =>
      have same : s'.slot slot = s.slot slot := by
        obtain ⟨tasks, alike, rfl⟩ := store
        rfl
      simp only [Store.completeCallback, same]
      cases (s.slot slot).callback.complete result with
      | error f => exact ⟨_, _, _, rfl, rfl, store⟩
      | ok callback => exact ih (store.apply (.updateCallback slot callback))

theorem aloof_showCallback (shown : Option Lane) (slot : Nat) :
    Store.Aloof (showCallback shown slot) := fun s tasks => by
  cases shown <;> rfl

theorem register_both (worker : Worker) (r : Registration) (store : s.Alike s') :
    Store.Both (register worker r s) (register worker r s') := by
  have same : s'.openCallback.1 = s.openCallback.1 := by
    obtain ⟨tasks, alike, rfl⟩ := store
    rfl
  have opened : s.openCallback.2.Alike s'.openCallback.2 := by
    obtain ⟨tasks, alike, rfl⟩ := store
    exact ⟨tasks, alike, rfl⟩
  simp only [register, same]
  generalize s.openCallback.1 = slot
  obtain ⟨f, t, t', came, came', alike⟩ :=
    completeAll_both slot r.immediate (opened.apply (aloof_showCallback r.shown slot))
  rw [came, came']
  cases f with
  | some f => exact ⟨_, _, _, rfl, rfl, alike⟩
  | none =>
    have shown := alike.apply (aloof_showCallback r.shown slot)
    have held : (if r.held then (showCallback r.shown slot t).holdCallback slot
        else showCallback r.shown slot t).Alike
          (if r.held then (showCallback r.shown slot t').holdCallback slot
        else showCallback r.shown slot t') := by
      split
      · exact shown.apply (.holdCallback slot)
      · exact shown
    cases later : r.later with
    | nil => exact ⟨_, _, _, rfl, rfl, held.apply (.dropCallback slot)⟩
    | cons first rest =>
      obtain ⟨task, u, u', began, began', alike⟩ :=
        held.spawn { thread := worker.thread } (.same (.completer slot none (first :: rest)))
      exact ⟨_, _, _, rfl, rfl, by rwa [began, began']⟩

theorem spawnOperands_both (env : Env) (group : TokenId) {operands operands' : Nat → Effect}
    (h : ∀ i, (operands i).Alike (operands' i)) (indices : List Nat) (store : s.Alike s') :
    Store.Both (spawnOperands env group operands indices s)
      (spawnOperands env group operands' indices s') := by
  induction indices generalizing s s' with
  | nil => exact ⟨_, _, _, rfl, rfl, store⟩
  | cons i rest ih =>
    obtain ⟨token, t, t', derived, derived', alike⟩ := store.childToken group
    have operand : Segment.Alike (.start ⟨env.withToken token, []⟩ (operands i))
        (.start ⟨env.withToken token, []⟩ (operands' i)) := .start (.mk _ .nil) (h i)
    obtain ⟨task, u, u', began, began', alike⟩ := alike.spawn env.context (.segment operand)
    obtain ⟨tasks, w, w', others, others', alike⟩ := ih alike
    simp only [spawnOperands, derived, derived', began, began', others, others']
    exact ⟨_, _, _, rfl, rfl, alike⟩

theorem operandAt_alike {n : Nat} {operands operands' : Fin n → Effect}
    (h : ∀ i, (operands i).Alike (operands' i)) (i : Nat) :
    (operandAt operands i).Alike (operandAt operands' i) := by
  unfold operandAt
  split
  · exact h _
  · exact .refl _

theorem evalStep_agrees (worker : Worker) (effect : e.Within e') (loop : l.Alike l')
    (callers : Caller.AllAlike cs cs') (store : s.Alike s') :
    Agree (evalStep worker l cs s e) (evalStep worker l' cs' s' e') := by
  cases effect with
  | pure v => exact ⟨unwind_alike loop _ callers, store⟩
  | fail e => exact ⟨unwind_alike loop _ callers, store⟩
  | fault f => exact ⟨.faulted f, store⟩
  | perform act next =>
    obtain ⟨tasks, alike, rfl⟩ := store
    rcases came : act ⟨worker.thread, s.time⟩ s.memory with ⟨f | reply, memory⟩
    · have came' : act ⟨worker.thread, (s.withTasks tasks).time⟩ (s.withTasks tasks).memory
          = (.error f, memory) := came
      simp only [evalStep, came, came']
      exact ⟨.faulted f, tasks, alike, rfl⟩
    · have came' : act ⟨worker.thread, (s.withTasks tasks).time⟩ (s.withTasks tasks).memory
          = (.ok reply, memory) := came
      simp only [evalStep, came, came']
      exact ⟨eval_alike loop (next reply) callers, tasks, alike, rfl⟩
  | cancel t => exact ⟨unwind_alike loop _ callers, store.apply (.cancel t)⟩
  | isCancelled t =>
    simp only [evalStep, store.isCancelled]
    exact ⟨unwind_alike loop _ callers, store⟩
  | map h f => exact ⟨eval_alike (loop.push (.map f)) h callers, store⟩
  | flatMap h next => exact ⟨eval_alike (loop.push (.bind next)) h callers, store⟩
  | handleErrorWith h handler => exact ⟨eval_alike (loop.push (.handle handler)) h callers, store⟩
  | loop again h v =>
    simp only [evalStep]
    split
    · exact ⟨eval_alike (loop.push (.again again h)) (h v) callers, store⟩
    · exact ⟨unwind_alike loop _ callers, store⟩
    · exact ⟨.faulted _, store⟩
  | async r =>
    simp only [evalStep]
    refine atPoint_agrees loop callers store fun store => ?_
    obtain ⟨result, t, t', came, came', alike⟩ := register_both worker r store
    rw [came, came']
    cases result with
    | ok slot => exact ⟨resume_alike (.callback loop slot) callers, alike⟩
    | error f => exact ⟨.faulted f, alike⟩
  | await future =>
    simp only [evalStep]
    refine atPoint_agrees loop callers store fun {t t'} store => ?_
    have same : start worker t' future = start worker t future := by
      obtain ⟨tasks, alike, rfl⟩ := store
      cases future <;> rfl
    rw [same]
    split
    · exact ⟨resume_alike (.future loop _) callers, store⟩
    · exact ⟨.faulted _, store⟩
  | shift c =>
    simp only [evalStep]
    refine atPoint_agrees loop callers store fun store => ?_
    obtain ⟨env, stack⟩ := loop
    have remainder := Segment.Alike.start (.mk (env.withContext c) stack) (.refl Effect.unit)
    obtain ⟨task, t, t', came, came', alike⟩ :=
      (store.apply (.emit (.shifting c.name))).spawn c (.segment remainder)
    simp only [came, came']
    exact ⟨resume_alike (.shifted env task) callers, alike⟩
  | bracket h used released built =>
    simp only [evalStep]
    refine atPoint_agrees loop callers store fun store => ?_
    obtain ⟨token, t, t', came, came', alike⟩ := store.freshToken
    simp only [came, came', ← loop.env]
    exact ⟨eval_alike (.mk _ .nil) h (.cons (.acquiring loop used released built) callers), alike⟩
  | race h h' =>
    obtain ⟨left, t, t', came, came', alike⟩ := store.childToken l.env.token
    obtain ⟨right, u, u', made, made', alike⟩ := alike.childToken l.env.token
    simp only [evalStep, ← loop.env, came, came', made, made']
    exact ⟨eval_alike (.mk _ .nil) h
      (.cons (.racingLeft loop _ (.start (.mk _ .nil) h')) callers), alike⟩
  | parallel n h =>
    obtain ⟨token, t, t', came, came', alike⟩ := store.childToken l.env.token
    obtain ⟨pending, u, u', began, began', alike⟩ :=
      spawnOperands_both l.env token (operandAt_alike h) (List.range n) alike
    simp only [evalStep, ← loop.env, came, came', began, began']
    exact ⟨resume_alike (.gathering loop _) callers, alike⟩

/-! ## Unwinding -/

theorem frameStep_agrees {f f' : Frame} (frame : f.Alike f') (loop : l.Alike l')
    (callers : Caller.AllAlike cs cs') (store : s.Alike s') (x : Exit) :
    Agree (frameStep l cs s f x) (frameStep l' cs' s' f' x) := by
  have skipped : Agree (unwind l x cs, s) (unwind l' x cs', s') :=
    ⟨unwind_alike loop x callers, store⟩
  cases frame with
  | map f =>
    cases x with
    | succeeded v =>
      simp only [frameStep]
      split
      · exact ⟨unwind_alike loop _ callers, store⟩
      · exact ⟨.faulted _, store⟩
    | errored | canceled => exact skipped
  | bind h =>
    cases x with
    | succeeded v => exact ⟨eval_alike loop (h v) callers, store⟩
    | errored | canceled => exact skipped
  | handle h =>
    cases x with
    | errored e => exact ⟨eval_alike loop (h e) callers, store⟩
    | succeeded | canceled => exact skipped
  | again again h =>
    cases x with
    | succeeded v => exact ⟨eval_alike loop (.inside (.loop again h v)) callers, store⟩
    | errored | canceled => exact skipped
  | release b h built =>
    simp only [frameStep, ← loop.env, store.isCancelled, ← built]
    generalize (if s.isCancelled l.env.token then .canceled else x : Exit) = outcome
    split
    · exact ⟨.faulted _, store⟩
    · obtain ⟨token, t, t', came, came', alike⟩ :=
        (store.apply (.emit (.releaseStarted l.env.token b outcome))).freshToken
      simp only [came, came']
      exact ⟨eval_alike (.mk _ .nil) (h _) (.cons (.releasing loop b outcome) callers), alike⟩

/-! ## The end of a nested loop -/

theorem settle_agrees {g g' : Segment} (loop : l.Alike l') (tokens : RaceTokens) (side : Side)
    (x : Exit) (other : g.Alike g') (callers : Caller.AllAlike cs cs') (store : s.Alike s') :
    Agree (settle l tokens side x g cs s) (settle l' tokens side x g' cs' s') := by
  unfold settle
  rw [← loop.env, store.isCancelled]
  split
  · exact ⟨resume_alike other (.cons (.remaining loop side.other) callers), store⟩
  · exact ⟨resume_alike other (.cons (.settling loop side x) callers), store.apply (.cancel _)⟩

theorem returnStep_agrees {c c' : Caller} (caller : c.Alike c') (x : Exit)
    (callers : Caller.AllAlike cs cs') (store : s.Alike s') :
    Agree (returnStep x cs s c) (returnStep x cs' s' c') := by
  cases caller with
  | @acquiring l l' _ _ _ _ loop used released built =>
    cases x with
    | succeeded v =>
      have number : s'.brackets = s.brackets := by
        obtain ⟨tasks, alike, rfl⟩ := store
        rfl
      have acquired : Store.Alike
          ({ s with brackets := s.brackets + 1 }.emit (.acquired l.env.token s.brackets v))
          ({ s' with brackets := s.brackets + 1 }.emit (.acquired l.env.token s.brackets v)) := by
        obtain ⟨tasks, alike, rfl⟩ := store
        exact ⟨tasks, alike, rfl⟩
      have pushed := loop.push (.release s.brackets (released v) (built v))
      simp only [returnStep, number, ← loop.env, ← pushed.env, acquired.isCancelled]
      split
      · exact ⟨unwind_alike pushed _ callers, acquired⟩
      · exact ⟨eval_alike pushed (used v) callers, acquired.apply (.emit _)⟩
    | errored | canceled =>
      simp only [returnStep, ← loop.env]
      exact ⟨unwind_alike loop _ callers, store.apply (.emit _)⟩
  | @releasing l l' loop b outcome =>
    have finished := store.apply (.emit (.releaseFinished l.env.token b x))
    simp only [returnStep, ← loop.env]
    cases x with
    | errored e =>
      cases outcome with
      | succeeded v => exact ⟨unwind_alike loop _ callers, finished⟩
      | errored | canceled =>
        exact ⟨unwind_alike loop _ callers, finished.apply (.emit _)⟩
    | succeeded | canceled => exact ⟨unwind_alike loop _ callers, finished⟩
  | racingLeft loop tokens other => exact settle_agrees loop tokens .left x other callers store
  | racingRight loop tokens other => exact settle_agrees loop tokens .right x other callers store
  | settling loop winner exit =>
    exact ⟨unwind_alike loop _ callers, store.apply (.emit _)⟩
  | remaining loop side => exact ⟨unwind_alike loop _ callers, store⟩

theorem leaveStep_agrees (x : Exit) (callers : Caller.AllAlike cs cs') (store : s.Alike s') :
    Agree (leaveStep x cs s) (leaveStep x cs' s') := by
  cases callers with
  | nil => exact ⟨.ended x, store⟩
  | cons caller callers => exact returnStep_agrees caller x callers store

/-! ## Resuming and parking -/

theorem gather_both (ended : List (Nat × Joined)) (group : Group) (store : s.Alike s') :
    Store.Both (gather group ended s) (gather group ended s') := by
  induction ended generalizing group s s' with
  | nil => exact ⟨_, _, _, rfl, rfl, store⟩
  | cons y rest ih =>
    obtain ⟨i, joined⟩ := y
    unfold gather
    split
    · exact ⟨_, _, _, rfl, rfl, store.apply (.cancel _)⟩
    · next exit _ =>
      have taken (first : Bool) :
          Store.Both (gather ((group.drop i).absorb i exit) rest
              (if first then (s.emit (.operandFailed i)).cancel group.token else s))
            (gather ((group.drop i).absorb i exit) rest
              (if first then (s'.emit (.operandFailed i)).cancel group.token else s')) := by
        cases first with
        | false => exact ih _ store
        | true => exact ih _ ((store.apply (.emit _)).apply (.cancel _))
      exact taken _

theorem aloof_watch (worker : Worker) (wait : Wait) : Store.Aloof (watch worker · wait) := by
  cases wait with
  | never => exact fun _ _ => rfl
  | deadline time result => exact fun _ _ => rfl
  | cancellation t => exact .watchToken t worker.task

theorem resumeStep_agrees (worker : Worker) {g g' : Segment} (segment : g.Alike g')
    (callers : Caller.AllAlike cs cs') (store : s.Alike s') :
    Agree (resumeStep worker cs s g) (resumeStep worker cs' s' g') := by
  cases segment with
  | start loop effect => exact ⟨eval_alike loop effect callers, store⟩
  | callback loop slot =>
    have same : s'.slot slot = s.slot slot := by
      obtain ⟨tasks, alike, rfl⟩ := store
      rfl
    simp only [resumeStep, same, ← loop.env, store.isCancelled]
    split
    · exact ⟨unwind_alike loop _ callers, store⟩
    · exact ⟨.faulted _, store⟩
    · split
      · exact ⟨unwind_alike loop _ callers, store.apply (.emit _)⟩
      · exact ⟨.next (.park (.callback loop slot) rfl callers),
          (store.apply (.watchCallback slot worker.task)).apply (.watchToken _ _)⟩
  | future loop wait =>
    have same : Wait.result? s' wait = Wait.result? s wait := by
      obtain ⟨tasks, alike, rfl⟩ := store
      cases wait <;> rfl
    simp only [resumeStep, same, ← loop.env, store.isCancelled]
    split
    · exact ⟨unwind_alike loop _ callers, store⟩
    · split
      · exact ⟨unwind_alike loop _ callers, store.apply (.emit _)⟩
      · exact ⟨.next (.park (.future loop wait) rfl callers),
          (store.apply (aloof_watch worker wait)).apply (.watchToken _ _)⟩
  | shifted env task =>
    have same : s'.joined? task = s.joined? task := by
      obtain ⟨tasks, alike, rfl⟩ := store
      rfl
    simp only [resumeStep, same]
    split
    · split
      · exact ⟨.next (.leave _ callers), store⟩
      · exact ⟨.faulted _, store⟩
    · exact ⟨.next (.park (.shifted env task) rfl callers),
        store.apply (.watchTask task worker.task)⟩
  | acquiring loop used released built nested =>
    exact ⟨resume_alike nested (.cons (.acquiring loop used released built) callers), store⟩
  | releasing loop b outcome nested =>
    exact ⟨resume_alike nested (.cons (.releasing loop b outcome) callers), store⟩
  | racing loop tokens onLeft onRight =>
    exact ⟨resume_alike onLeft (.cons (.racingLeft loop tokens onRight) callers), store⟩
  | settling loop winner exit nested =>
    exact ⟨resume_alike nested (.cons (.settling loop winner exit) callers), store⟩
  | remaining loop side nested =>
    exact ⟨resume_alike nested (.cons (.remaining loop side) callers), store⟩
  | gathering loop group =>
    have same : endedOperands group s' = endedOperands group s := by
      obtain ⟨tasks, alike, rfl⟩ := store
      rfl
    obtain ⟨result, t, t', came, came', alike⟩ := gather_both (endedOperands group s) group store
    simp only [resumeStep, same, came, came']
    cases result with
    | error f => exact ⟨.faulted f, alike⟩
    | ok group =>
      simp only
      split
      · exact ⟨unwind_alike loop _ callers, alike⟩
      · exact ⟨.next (.park (.gathering loop group) rfl callers),
          alike.apply (.watchTasks group.pending worker.task)⟩

theorem parkStep_alike {g g' : Segment} (segment : g.Alike g') (fresh : g.isFresh = g'.isFresh)
    (callers : Caller.AllAlike cs cs') : (parkStep g cs).Alike (parkStep g' cs') := by
  cases callers with
  | nil => exact .parked segment fresh
  | cons caller callers =>
    cases caller with
    | acquiring loop used released built =>
      exact .next (.park (.acquiring loop used released built segment) rfl callers)
    | releasing loop b outcome =>
      exact .next (.park (.releasing loop b outcome segment) rfl callers)
    | racingLeft loop tokens other =>
      exact .next (.resume other (.cons (.racingRight loop tokens segment) callers))
    | racingRight loop tokens other =>
      exact .next (.park (.racing loop tokens other segment) rfl callers)
    | settling loop winner exit =>
      exact .next (.park (.settling loop winner exit segment) rfl callers)
    | remaining loop side => exact .next (.park (.remaining loop side segment) rfl callers)

end Machine

/-! ## Turns and whole polls -/

namespace Config

variable {c c' : Config} {s s' : Store}

/-- Of two polls that are alike, the one makes a step.  Either it is calm, or the other one does
the same after some calm steps. -/
theorem Alike.turn (h : c.Alike c') (worker : Worker) (store : s.Alike s') :
    (∃ d, c.step worker s = (.next d, s) ∧ d.Alike c') ∨
      ∃ d', Relation.ReflTransGen Calm c' d' ∧
        Machine.Agree (c.step worker s) (d'.step worker s') := by
  induction h with
  | eval loop effect callers =>
    exact .inr ⟨_, .refl, Machine.evalStep_agrees worker effect loop callers store⟩
  | unwind env x frame stack callers =>
    exact .inr ⟨_, .refl, Machine.frameStep_agrees frame (.mk env stack) callers store x⟩
  | done env x callers => exact .inr ⟨_, .refl, .next (.leave x callers), store.apply (.emit _)⟩
  | @panic f g v w fs fs' cs cs' fault env h h' callers =>
    refine .inr ⟨_, .refl, ?_⟩
    simp only [Config.step, Machine.unwindStep, Machine.frameStep, h, h']
    exact ⟨.faulted fault, store⟩
  | leave x callers => exact .inr ⟨_, .refl, Machine.leaveStep_agrees x callers store⟩
  | resume segment callers =>
    exact .inr ⟨_, .refl, Machine.resumeStep_agrees worker segment callers store⟩
  | park segment fresh callers =>
    exact .inr ⟨_, .refl, Machine.parkStep_alike segment fresh callers, store⟩
  | left calm h ih => exact .inl ⟨_, calm.step worker s, h⟩
  | right calm h ih =>
    obtain ⟨d, step, alike⟩ | ⟨d', calms, agree⟩ := ih
    · exact .inl ⟨d, step, .right calm alike⟩
    · exact .inr ⟨d', .head calm calms, agree⟩

/-- What a whole poll has come to, up to alike parts. -/
inductive Result.Alike : Result → Result → Prop
  | ended (x : Exit) : Alike (.ended x) (.ended x)
  | parked {g g' : Segment} (h : g.Alike g') (fresh : g.isFresh = g'.isFresh) :
      Alike (.parked g) (.parked g')
  | faulted (f : Fault) : Alike (.faulted f) (.faulted f)

theorem run_next {d : Config} {worker : Worker} {t : Store}
    (step : c.step worker s = (.next d, t)) (bound : Nat) :
    c.run worker (bound + 1) s = d.run worker bound t := by
  rw [Config.run, step]

/-- A poll after calm steps is the poll, within a larger bound. -/
theorem run_of_calm {d : Config} (calms : Relation.ReflTransGen Calm c d) (worker : Worker)
    (bound : Nat) (s : Store) : ∃ bound', c.run worker bound' s = d.run worker bound s := by
  induction calms using Relation.ReflTransGen.head_induction_on with
  | refl => exact ⟨bound, rfl⟩
  | head calm _ ih =>
    obtain ⟨bound', run⟩ := ih
    exact ⟨bound' + 1, (run_next (calm.step worker s) bound').trans run⟩

/-- If a poll comes to something, one that is alike comes to the same, and the stores are alike. -/
theorem Alike.run (h : c.Alike c') (store : s.Alike s') {worker : Worker} {bound : Nat}
    {r : Result} {t : Store} (run : c.run worker bound s = (r, t)) (came : r ≠ .unfinished) :
    ∃ bound' r' t', c'.run worker bound' s' = (r', t') ∧ r.Alike r' ∧ t.Alike t' := by
  induction bound generalizing c c' s s' with
  | zero =>
    cases run
    exact absurd rfl came
  | succ bound ih =>
    obtain ⟨d, step, alike⟩ | ⟨d', calms, agree⟩ := h.turn worker store
    · rw [run_next step] at run
      exact ih alike store run
    · -- One step of the other poll, and what the rest of it comes to.
      have whole (n : Nat) {r' : Result} {t' : Store} (rest : d'.run worker (n + 1) s' = (r', t'))
          (result : r.Alike r') (after : t.Alike t') :
          ∃ bound' r' t', c'.run worker bound' s' = (r', t') ∧ r.Alike r' ∧ t.Alike t' := by
        obtain ⟨bound', run'⟩ := run_of_calm calms worker (n + 1) s'
        exact ⟨bound', r', t', run'.trans rest, result, after⟩
      rcases step : c.step worker s with ⟨progress, u⟩
      rcases step' : d'.step worker s' with ⟨progress', u'⟩
      rw [Config.run, step] at run
      rw [step, step'] at agree
      obtain ⟨progress, after⟩ := agree
      cases progress with
      | next alike =>
        obtain ⟨bound', r', t', rest, result, after⟩ := ih alike after run
        exact whole bound' ((run_next step' bound').trans rest) result after
      | ended x =>
        cases run
        exact whole 0 (by rw [Config.run, step']) (.ended x) after
      | parked segment fresh =>
        cases run
        exact whole 0 (by rw [Config.run, step']) (.parked segment fresh) after
      | faulted f =>
        cases run
        exact whole 0 (by rw [Config.run, step']) (.faulted f) after

end Config

/-! ## What loops hold on to -/

theorem Post.owned_bare (p : Post) : p.bare.owned = p.owned := by
  obtain ⟨link, ⟨loop, doing⟩ | ⟨env, task⟩⟩ := p
  · cases doing <;> rfl
  · rfl

theorem Segment.Alike.owned {g g' : Segment} (h : g.Alike g') (l : Link) :
    (g.posts l).map Post.owned = (g'.posts l).map Post.owned := by
  have bare := congrArg (Multiset.map Post.owned) (h.bare l)
  simpa only [Multiset.map_map, Function.comp_def, Post.owned_bare] using bare

theorem Caller.Alike.owned {c c' : Caller} (h : c.Alike c') (l : Link) :
    c.inner = c'.inner ∧ (c.posts l).map Post.owned = (c'.posts l).map Post.owned := by
  cases h with
  | acquiring loop | releasing loop | settling loop | remaining loop =>
    cases loop
    exact ⟨rfl, rfl⟩
  | racingLeft loop tokens other | racingRight loop tokens other =>
    cases loop
    refine ⟨rfl, ?_⟩
    simp only [Caller.posts, Multiset.map_cons, other.owned]
    rfl

theorem Caller.AllAlike.owned {cs cs' : List Caller} (h : AllAlike cs cs') :
    innermost cs = innermost cs' ∧
      (allPosts cs).map Post.owned = (allPosts cs').map Post.owned := by
  induction h with
  | nil => exact ⟨rfl, rfl⟩
  | cons caller callers ih =>
    obtain ⟨inner, rest⟩ := ih
    refine ⟨(caller.owned .outer).1, ?_⟩
    rw [allPosts_cons, allPosts_cons, Multiset.map_add, Multiset.map_add, rest, inner,
      (caller.owned _).2]

theorem Config.Calm.owned {c d : Config} (h : Calm c d) :
    c.posts.map Post.owned = d.posts.map Post.owned := by
  cases h <;> simp only [posts_eval, posts_unwind, Multiset.map_cons] <;> rfl

theorem Config.Alike.owned {c c' : Config} (h : c.Alike c') :
    c.posts.map Post.owned = c'.posts.map Post.owned := by
  induction h with
  | eval loop effect callers =>
    cases loop
    simp only [posts_eval, Multiset.map_cons, callers.owned.2]
    rfl
  | unwind env x frame stack callers | done env x callers | panic env h h' callers =>
    simp only [posts_unwind, Multiset.map_cons, callers.owned.2]
    rfl
  | leave x callers => simp only [posts_leave, callers.owned.2]
  | resume segment callers | park segment fresh callers =>
    simp only [posts_resume, posts_park, Multiset.map_add, segment.owned, callers.owned.1,
      callers.owned.2]
  | left calm h ih => exact calm.owned.trans ih
  | right calm h ih => exact ih.trans calm.owned.symm

end EffectFibers
