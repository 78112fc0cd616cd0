import EffectFibers.Fiber.World
import EffectFibers.Proofs.LensStores

/-!
# What is done with a callback

Whoever holds a clone of a callback may clone it, drop it, or complete it.  What has been done is
a history, newest first, and a callback is no more than the summary of its history: whether a
completion was made, the result of the first one, and how many clones are left.

## Main definitions

* `History.first?`, `History.held`: what a history says.
* `Callback.dealt`: the callback with a history.

## Main statements

* `Machine.register_deals`, `Job.complete_deals`: what a registration and a completing task do
  with a callback, and when they fault.
* `Config.step_callbacks`: no other step of a poll changes a callback.
-/

namespace EffectFibers

/-! ## Histories -/

/-- What somebody who holds a clone of a callback does with it. -/
inductive Dealing where
  | clone
  | drop
  | complete (result : Result)

/-- What has been done with a callback and its clones, newest first. -/
abbrev History := List Dealing

namespace Dealing

def isClone : Dealing → Bool
  | .clone => true
  | _ => false

def isDrop : Dealing → Bool
  | .drop => true
  | _ => false

def result? : Dealing → Option Result
  | .complete result => some result
  | _ => none

end Dealing

namespace History

/-- The result of the first completion, through whichever clone it was made. -/
def first? : History → Option Result
  | [] => none
  | d :: h => (first? h).or d.result?

/-- How many clones are left. -/
def held (h : History) : Nat := h.countP Dealing.isClone + 1 - h.countP Dealing.isDrop

/-- Nobody deals with a callback who holds no clone of it. -/
inductive Lawful : History → Prop
  | nil : Lawful []
  | cons {h : History} (before : Lawful h) (d : Dealing) (holds : 0 < held h) : Lawful (d :: h)

/-- Completions in a row, up to the first fault. -/
def attempt (h : History) : List Completion → Option Fault × History
  | [] => (none, h)
  | .error f :: _ => (some f, h)
  | .ok result :: rest =>
    match first? h with
    | none => attempt (.complete result :: h) rest
    | some _ => (some .callbackRepeated, .complete result :: h)

variable {h : History} {result : Result}

@[simp] theorem first?_nil : first? [] = none := rfl

@[simp] theorem held_nil : held [] = 1 := rfl

@[simp] theorem first?_clone : first? (.clone :: h) = first? h := by
  simp [first?, Dealing.result?]

@[simp] theorem first?_drop : first? (.drop :: h) = first? h := by
  simp [first?, Dealing.result?]

@[simp] theorem first?_complete : first? (.complete result :: h) = (first? h).or (some result) :=
  rfl

@[simp] theorem held_complete : held (.complete result :: h) = held h := by
  simp [held, Dealing.isClone, Dealing.isDrop]

@[simp] theorem held_drop : held (.drop :: h) = held h - 1 := by
  simp only [held, List.countP_cons, Dealing.isClone, Dealing.isDrop, if_true]
  exact (Nat.sub_sub ..).symm

theorem held_clone (holds : 0 < held h) : held (.clone :: h) = held h + 1 := by
  simp only [held, List.countP_cons, Dealing.isClone, Dealing.isDrop, if_true] at holds ⊢
  simp
  omega

/-- What was delivered first stays so, whatever else is done. -/
theorem first?_cons_of_some (d : Dealing) (first : first? h = some result) :
    first? (d :: h) = some result := by
  simp [first?, first]

theorem held_attempt (completions : List Completion) :
    held (attempt h completions).2 = held h := by
  induction completions generalizing h with
  | nil => rfl
  | cons completion rest ih =>
    cases completion with
    | error f => rfl
    | ok result =>
      simp only [attempt]
      split
      · rw [ih, held_complete]
      · exact held_complete

theorem Lawful.attempt (lawful : Lawful h) (holds : 0 < held h) (completions : List Completion) :
    Lawful (h.attempt completions).2 := by
  induction completions generalizing h with
  | nil => exact lawful
  | cons completion rest ih =>
    cases completion with
    | error f => exact lawful
    | ok result =>
      simp only [History.attempt]
      split
      · exact ih (.cons lawful _ holds) (by rwa [held_complete])
      · exact .cons lawful _ holds

end History

/-- What a registration does with the callback that it is given. -/
def Registration.dealings (r : Registration) : History :=
  match History.attempt [] r.immediate with
  | (some _, h) => h
  | (none, h) =>
    let h := if r.held then .clone :: h else h
    if r.later.isEmpty then .drop :: h else h

/-- The registration that an effect begins with. -/
def Effect.registration? : Effect → Option Registration
  | .async r => some r
  | _ => none

/-- The fault of a registration: that of computing a completion, or of making a second one. -/
def Registration.fault? (r : Registration) : Option Fault := (History.attempt [] r.immediate).1

theorem Registration.lawful_dealings (r : Registration) : r.dealings.Lawful := by
  have lawful := History.Lawful.nil.attempt Nat.one_pos r.immediate
  have held := History.held_attempt (h := []) r.immediate
  unfold dealings
  revert lawful held
  rcases History.attempt [] r.immediate with ⟨fault, h⟩
  intro lawful held
  have one : h.held = 1 := held
  have holds : 0 < h.held := one ▸ Nat.one_pos
  have kept : History.Lawful (if r.held then .clone :: h else h) ∧
      0 < History.held (if r.held then .clone :: h else h) := by
    split
    · exact ⟨.cons lawful _ holds, by rw [History.held_clone holds]; omega⟩
    · exact ⟨lawful, holds⟩
  cases fault with
  | some f => exact lawful
  | none =>
    simp only
    split
    · exact .cons kept.1 _ kept.2
    · exact kept.1

/-! ## The callback with a history -/

namespace Callback

variable {h : History}

/-- The callback with a history. -/
def dealt (h : History) : Callback := ⟨h.held, h.first?.isNone, h.first?⟩

theorem clone_dealt (holds : 0 < h.held) : (dealt h).clone = dealt (.clone :: h) := by
  simp [dealt, clone, History.held_clone holds]

theorem drop_dealt : (dealt h).drop = dealt (.drop :: h) := by
  simp [dealt, drop]

theorem complete_dealt_of_none (result : Result) (none : h.first? = none) :
    (dealt h).complete result = .ok (dealt (.complete result :: h)) := by
  simp [dealt, complete, none]

theorem complete_dealt_of_some {first : Result} (result : Result) (some : h.first? = some first) :
    (dealt h).complete result = .error .callbackRepeated := by
  simp [dealt, complete, some]

/-- A completion that comes too late leaves the callback as it is. -/
theorem dealt_complete {first : Result} (result : Result) (some : h.first? = some first) :
    dealt (.complete result :: h) = dealt h := by
  simp [dealt, some]

theorem poll_dealt : (dealt h).poll = match h.first? with
    | some result => .delivered result
    | none => if h.held = 0 then .dropped else .waiting := rfl

end Callback

/-! ## The callbacks of a store -/

namespace Store

variable (s : Store)

def callbacks : Array Callback := s.slots.map Slot.callback

theorem size_callbacks : s.callbacks.size = s.slots.size := Array.size_map

theorem callback_slot {i : Nat} {c : Callback} (found : s.callbacks[i]? = some c) :
    (s.slot i).callback = c := by
  simp only [callbacks, Array.getElem?_map, Option.map_eq_some_iff] at found
  obtain ⟨slot, found, rfl⟩ := found
  simp [Store.slot, found]

theorem callbacks_set_same {i : Nat} {c : Callback} (found : s.callbacks[i]? = some c) :
    s.callbacks.setIfInBounds i c = s.callbacks := by
  obtain ⟨lt, rfl⟩ := Array.getElem?_eq_some_iff.mp found
  rw [Array.setIfInBounds, dif_pos lt, Array.set_getElem_self]

theorem callbacks_of_bare {A B : Store} (same : A.bare = B.bare) : A.callbacks = B.callbacks := by
  have mapped := congrArg callbacks same
  simpa [callbacks, bare, Function.comp_def] using mapped

@[simp] theorem callbacks_emit (e : Event) : (s.emit e).callbacks = s.callbacks := rfl

@[simp] theorem callbacks_write (lane : Lane) (text : String) :
    (s.write lane text).callbacks = s.callbacks := rfl

@[simp] theorem callbacks_freshToken : s.freshToken.2.callbacks = s.callbacks := rfl

@[simp] theorem callbacks_childToken (t : TokenId) : (s.childToken t).2.callbacks = s.callbacks :=
  rfl

@[simp] theorem callbacks_cancel (t : TokenId) : (s.cancel t).callbacks = s.callbacks :=
  (callbacks_of_bare (s.bare_cancel t)).trans rfl

@[simp] theorem callbacks_watchToken (t : TokenId) (task : TaskId) :
    (s.watchToken t task).callbacks = s.callbacks :=
  callbacks_of_bare (s.bare_watchToken t task)

@[simp] theorem callbacks_watchCallback (i : Nat) (task : TaskId) :
    (s.watchCallback i task).callbacks = s.callbacks :=
  callbacks_of_bare (s.bare_watchCallback i task)

@[simp] theorem callbacks_watchTime (time : Nat) (task : TaskId) :
    (s.watchTime time task).callbacks = s.callbacks := rfl

@[simp] theorem callbacks_watchTask (t task : TaskId) :
    (s.watchTask t task).callbacks = s.callbacks := rfl

@[simp] theorem callbacks_watchTasks (ts : List (Nat × TaskId)) (task : TaskId) :
    (ts.foldl (fun s (_, t) => s.watchTask t task) s).callbacks = s.callbacks :=
  callbacks_of_bare (s.bare_watchTasks ts task)

@[simp] theorem callbacks_finish (t : TaskId) (result : Joined) :
    (s.finish t result).callbacks = s.callbacks :=
  (callbacks_of_bare (s.bare_finish t result)).trans rfl

@[simp] theorem callbacks_spawn (context : Context) (job : Job) :
    (s.spawn context job).2.callbacks = s.callbacks := by
  unfold spawn
  split <;> rfl

@[simp] theorem callbacks_openCallback : s.openCallback.2.callbacks = s.callbacks.push {} := by
  simp [openCallback, callbacks, Array.map_push]

theorem callbacks_setSlot (i : Nat) (c : Callback) :
    (s.setSlot i { callback := c }).callbacks = s.callbacks.setIfInBounds i c := by
  simp [setSlot, callbacks, Array.map_setIfInBounds]

theorem callbacks_updateCallback (i : Nat) (c : Callback) :
    (s.updateCallback i c).callbacks = s.callbacks.setIfInBounds i c :=
  (callbacks_of_bare (s.bare_updateCallback i c)).trans (s.callbacks_setSlot i c)

theorem callbacks_dropCallback (i : Nat) : (s.dropCallback i).callbacks
    = s.callbacks.setIfInBounds i (s.slot i).callback.drop :=
  (callbacks_of_bare (s.bare_dropCallback i)).trans (s.callbacks_setSlot i _)

theorem callbacks_holdCallback (i : Nat) : (s.holdCallback i).callbacks
    = s.callbacks.setIfInBounds i (s.slot i).callback.clone :=
  (callbacks_of_bare (s.bare_holdCallback i)).trans (s.callbacks_setSlot i _)

theorem slots_cancel (t : TokenId) : (s.cancel t).slots = s.slots := by
  obtain ⟨ready, woken, same⟩ := Store.wakeAll_eq _ _
  exact (congrArg slots same :)

theorem slots_finish (t : TaskId) (result : Joined) : (s.finish t result).slots = s.slots := by
  obtain ⟨ready, woken, same⟩ := Store.wakeAll_eq _ _
  exact (congrArg slots same :)

theorem slots_spawn (context : Context) (job : Job) :
    (s.spawn context job).2.slots = s.slots := by
  unfold spawn
  split <;> rfl

/-- Somebody deals with a callback; a completion that is a fault changes nothing. -/
def deal (s : Store) (i : Nat) : Dealing → Except Fault Unit × Store
  | .clone => (.ok (), s.holdCallback i)
  | .drop => (.ok (), s.dropCallback i)
  | .complete result =>
    match s.completeCallback i result with
    | .ok s => (.ok (), s)
    | .error f => (.error f, s)

theorem same_deal (i : Nat) (d : Dealing) : s.Same (s.deal i d).2 := by
  cases d with
  | clone => exact s.same_holdCallback i
  | drop => exact s.same_dropCallback i
  | complete result =>
    simp only [deal]
    split
    · next s' completed => exact s.same_completeCallback completed
    · exact .rfl' s

variable {s} {i : Nat} {h : History}

/-- What a dealing gives, and what it makes of the callback. -/
theorem deal_dealt (found : s.callbacks[i]? = some (.dealt h)) (d : Dealing) (holds : 0 < h.held) :
    (s.deal i d).1 = (if d.result?.isSome && h.first?.isSome then .error .callbackRepeated
      else .ok ()) ∧
    (s.deal i d).2.callbacks = s.callbacks.setIfInBounds i (.dealt (d :: h)) := by
  have here := s.callback_slot found
  cases d with
  | clone => exact ⟨rfl, by rw [deal, callbacks_holdCallback, here, Callback.clone_dealt holds]⟩
  | drop => exact ⟨rfl, by rw [deal, callbacks_dropCallback, here, Callback.drop_dealt]⟩
  | complete result =>
    simp only [deal, completeCallback, here]
    cases first : h.first? with
    | none =>
      rw [Callback.complete_dealt_of_none result first]
      exact ⟨rfl, s.callbacks_updateCallback i _⟩
    | some delivered =>
      rw [Callback.complete_dealt_of_some result first, Callback.dealt_complete result first]
      exact ⟨rfl, (s.callbacks_set_same found).symm⟩

end Store

namespace Machine

variable {s : Store} {i : Nat} {h : History}

/-- Completions in a row. -/
theorem completeAll_deals (found : s.callbacks[i]? = some (.dealt h))
    (completions : List Completion) :
    (completeAll i completions s).1 = (h.attempt completions).1 ∧
      (completeAll i completions s).2.callbacks
        = s.callbacks.setIfInBounds i (.dealt (h.attempt completions).2) := by
  induction completions generalizing s h with
  | nil => exact ⟨rfl, (s.callbacks_set_same found).symm⟩
  | cons completion rest ih =>
    cases completion with
    | error f => exact ⟨rfl, (s.callbacks_set_same found).symm⟩
    | ok result =>
      have here := s.callback_slot found
      cases first : h.first? with
      | none =>
        have delivers := Callback.complete_dealt_of_none result first
        have changed := s.callbacks_updateCallback i (.dealt (.complete result :: h))
        have lt : i < s.callbacks.size := (Array.getElem?_eq_some_iff.mp found).1
        have found' : (s.updateCallback i (.dealt (.complete result :: h))).callbacks[i]?
            = some (.dealt (.complete result :: h)) := by
          rw [changed, Array.getElem?_setIfInBounds_self_of_lt lt]
        obtain ⟨fault, after⟩ := ih found'
        rw [changed, Array.setIfInBounds_setIfInBounds] at after
        simp only [completeAll, Store.completeCallback, here, delivers, History.attempt, first]
        exact ⟨fault, after⟩
      | some delivered =>
        have repeated := Callback.complete_dealt_of_some result first
        simp only [completeAll, Store.completeCallback, here, repeated, History.attempt, first,
          Callback.dealt_complete result first, true_and]
        exact (s.callbacks_set_same found).symm

@[simp] theorem callbacks_showCallback (shown : Option Lane) (i : Nat) (s : Store) :
    (showCallback shown i s).callbacks = s.callbacks := by
  cases shown <;> rfl

/-- The callback that a registration is given, and whether the registration faults. -/
theorem register_deals (worker : Worker) (r : Registration) (s : Store) :
    (register worker r s).1 = (match r.fault? with
      | some f => .error f
      | none => .ok s.slots.size) ∧
    (register worker r s).2.callbacks = s.callbacks.push (.dealt r.dealings) := by
  have size := s.size_callbacks
  have last : ∀ c c' : Callback,
      (s.callbacks.push c).setIfInBounds s.slots.size c' = s.callbacks.push c' := fun c c' => by
    simp [← size, Array.setIfInBounds, Array.set_push]
  have found : ∀ {s' : Store} {h : History}, s'.callbacks = s.callbacks.push (.dealt h) →
      s'.callbacks[s.slots.size]? = some (.dealt h) := fun same => by simp [same, ← size]
  have opened : (showCallback r.shown s.slots.size s.openCallback.2).callbacks
      = s.callbacks.push (.dealt []) :=
    (callbacks_showCallback ..).trans s.callbacks_openCallback
  have fault : r.fault? = (History.attempt [] r.immediate).1 := rfl
  have first : s.openCallback.1 = s.slots.size := rfl
  obtain ⟨came, after⟩ := completeAll_deals (found opened) r.immediate
  rw [opened, last] at after
  have made := History.held_attempt (h := []) r.immediate
  simp only [register, Registration.dealings, fault, first]
  revert came after made
  rcases completeAll s.slots.size r.immediate
    (showCallback r.shown s.slots.size s.openCallback.2) with ⟨f, s₁⟩
  rcases History.attempt [] r.immediate with ⟨f', h⟩
  rintro rfl after one
  cases f with
  | some f => exact ⟨rfl, after⟩
  | none =>
    have holds : 0 < h.held := by
      rw [one]
      exact Nat.one_pos
    let s₂ := showCallback r.shown s.slots.size s₁
    have shown : s₂.callbacks = s.callbacks.push (.dealt h) :=
      (callbacks_showCallback ..).trans after
    have kept : (if r.held then s₂.holdCallback s.slots.size else s₂).callbacks
        = s.callbacks.push (.dealt (if r.held then .clone :: h else h)) := by
      split
      · rw [Store.callbacks_holdCallback, Store.callback_slot _ (found shown),
          Callback.clone_dealt holds, shown, last]
      · exact shown
    cases r.later with
    | nil =>
      refine ⟨rfl, ?_⟩
      rw [Store.callbacks_dropCallback, Store.callback_slot _ (found kept), Callback.drop_dealt,
        kept, last]
      rfl
    | cons first rest => exact ⟨rfl, (Store.callbacks_spawn ..).trans kept⟩

end Machine

namespace Job

/-- What is left of the completions of a task that has made those that are due. -/
def leftover (since now : Nat) (rest : List (Nat × Completion)) : List (Nat × Completion) :=
  rest.dropWhile fun x => since + x.1 ≤ now

/-- The completions that are due. -/
def due (since now : Nat) (rest : List (Nat × Completion)) : List Completion :=
  (rest.takeWhile fun x => since + x.1 ≤ now).map Prod.snd

/-- A task that completes a callback makes the completions that are due.  It faults at the first
fault among them, which a second completion is, and drops its clone when it ends. -/
theorem complete_deals {s : Store} {i : Nat} {h : History}
    (found : s.callbacks[i]? = some (.dealt h)) (worker : Worker) (since : Nat)
    (rest : List (Nat × Completion)) :
    (complete worker i since rest s).1 = (match (h.attempt (due since s.now rest)).1 with
      | some f => .faulted f none
      | none => match leftover since s.now rest with
        | [] => .ended (.succeeded .null) none
        | left => .parked (.completer i (some since) left)) ∧
    (complete worker i since rest s).2.callbacks = s.callbacks.setIfInBounds i
      (.dealt (match h.attempt (due since s.now rest), leftover since s.now rest with
        | (none, h), _ :: _ => h
        | (_, h), _ => .drop :: h)) := by
  have here := s.callback_slot found
  have dropped : (s.dropCallback i).callbacks
      = s.callbacks.setIfInBounds i (.dealt (.drop :: h)) := by
    rw [Store.callbacks_dropCallback, here, Callback.drop_dealt]
  induction rest generalizing s h with
  | nil => exact ⟨rfl, dropped⟩
  | cons x rest ih =>
    obtain ⟨delay, completion⟩ := x
    unfold complete
    by_cases now : since + delay ≤ s.now
    · have due_cons : due since s.now ((delay, completion) :: rest)
          = completion :: due since s.now rest := by simp [due, now]
      have leftover_cons : leftover since s.now ((delay, completion) :: rest)
          = leftover since s.now rest := by simp [leftover, now]
      rw [if_pos now, due_cons, leftover_cons]
      cases completion with
      | error f => exact ⟨rfl, dropped⟩
      | ok result =>
        cases first : h.first? with
        | none =>
          have delivers := Callback.complete_dealt_of_none result first
          have changed := s.callbacks_updateCallback i (.dealt (.complete result :: h))
          have lt : i < s.callbacks.size := (Array.getElem?_eq_some_iff.mp found).1
          have found' : (s.updateCallback i (.dealt (.complete result :: h))).callbacks[i]?
              = some (.dealt (.complete result :: h)) := by
            rw [changed, Array.getElem?_setIfInBounds_self_of_lt lt]
          have clock : (s.updateCallback i (.dealt (.complete result :: h))).now = s.now :=
            (congrArg Store.now (s.bare_updateCallback i (.dealt (.complete result :: h))) :)
          have here' := Store.callback_slot _ found'
          obtain ⟨came, after⟩ := ih found' here' (by
            rw [Store.callbacks_dropCallback, here', Callback.drop_dealt])
          rw [clock] at came after
          rw [changed, Array.setIfInBounds_setIfInBounds] at after
          simp only [Store.completeCallback, here, delivers, History.attempt, first]
          exact ⟨came, after⟩
        | some delivered =>
          have repeated := Callback.complete_dealt_of_some result first
          have same : Callback.dealt (.drop :: .complete result :: h)
              = Callback.dealt (.drop :: h) := by simp [Callback.dealt, first]
          simp only [Store.completeCallback, here, repeated, History.attempt, first, same, true_and]
          exact dropped
    · have due_cons : due since s.now ((delay, completion) :: rest) = [] := by simp [due, now]
      have leftover_cons : leftover since s.now ((delay, completion) :: rest)
          = (delay, completion) :: rest := by simp [leftover, now]
      rw [if_neg now, due_cons, leftover_cons]
      exact ⟨rfl, (s.callbacks_set_same found).symm⟩

end Job

namespace Machine

variable {s : Store}

/-! ## Everything else leaves the callbacks alone -/

theorem callbacks_spawnOperands (env : Env) (group : TokenId) (operands : Nat → Effect)
    (indices : List Nat) (s : Store) :
    (spawnOperands env group operands indices s).2.callbacks = s.callbacks := by
  induction indices generalizing s with
  | nil => rfl
  | cons i rest ih =>
    simp only [spawnOperands]
    rw [ih, Store.callbacks_spawn, Store.callbacks_childToken]

theorem callbacks_gather (group : Group) (ended : List (Nat × Joined)) (s : Store) :
    (gather group ended s).2.callbacks = s.callbacks := by
  induction ended generalizing group s with
  | nil => rfl
  | cons x rest ih =>
    obtain ⟨i, joined⟩ := x
    unfold gather
    split
    · exact Store.callbacks_cancel ..
    · have taken (first : Bool) :
          (if first then (s.emit (.operandFailed i)).cancel group.token else s).callbacks
            = s.callbacks := by
        cases first with
        | false => rfl
        | true => exact Store.callbacks_cancel ..
      exact (ih _ _).trans (taken _)

theorem callbacks_watch (worker : Worker) (s : Store) (wait : Wait) :
    (watch worker s wait).callbacks = s.callbacks := by
  cases wait <;> simp [watch]

theorem callbacks_atPoint {loop : Loop} {callers : List Caller} {point : Point}
    {go : Store → Progress × Store}
    (quiet : ∀ s' : Store, s'.callbacks = s.callbacks → (go s').2.callbacks = s.callbacks) :
    (atPoint s loop callers point go).2.callbacks = s.callbacks := by
  unfold atPoint
  split
  · rfl
  · exact quiet _ rfl

theorem callbacks_settle (loop : Loop) (tokens : RaceTokens) (side : Side) (exit : Exit)
    (other : Segment) (callers : List Caller) (s : Store) :
    (settle loop tokens side exit other callers s).2.callbacks = s.callbacks := by
  unfold settle
  split
  · rfl
  · exact Store.callbacks_cancel ..

theorem callbacks_returnStep (exit : Exit) (callers : List Caller) (s : Store) (caller : Caller) :
    (returnStep exit callers s caller).2.callbacks = s.callbacks := by
  cases caller with
  | acquiring loop use release =>
    cases exit with
    | succeeded v =>
      simp only [returnStep]
      split <;> rfl
    | errored | canceled => rfl
  | releasing loop bracket outcome => cases exit <;> cases outcome <;> rfl
  | racingLeft | racingRight => exact callbacks_settle ..
  | settling | remaining => rfl

theorem callbacks_frameStep (loop : Loop) (callers : List Caller) (s : Store) (frame : Frame)
    (exit : Exit) : (frameStep loop callers s frame exit).2.callbacks = s.callbacks := by
  cases frame with
  | map f =>
    cases exit with
    | succeeded v =>
      simp only [frameStep]
      split <;> rfl
    | errored | canceled => rfl
  | bind | again | handle => cases exit <;> rfl
  | release bracket finalizer =>
    simp only [frameStep]
    generalize (if s.isCancelled loop.env.token then .canceled else exit : Exit) = outcome
    split <;> rfl

theorem callbacks_resumeStep (worker : Worker) (callers : List Caller) (s : Store)
    (segment : Segment) : (resumeStep worker callers s segment).2.callbacks = s.callbacks := by
  cases segment with
  | start | acquiring | releasing | racing | settling | remaining => rfl
  | callback loop slot =>
    simp only [resumeStep]
    split
    · rfl
    · rfl
    · split
      · rfl
      · simp
  | future loop wait =>
    simp only [resumeStep]
    split
    · rfl
    · split
      · rfl
      · simp [callbacks_watch]
  | shifted env task =>
    simp only [resumeStep]
    split
    · split <;> rfl
    · rfl
  | gathering loop group =>
    have gathered := callbacks_gather group (endedOperands group s) s
    simp only [resumeStep]
    revert gathered
    rcases gather group (endedOperands group s) s with ⟨result, s₁⟩
    intro gathered
    cases result with
    | error f => exact gathered
    | ok group =>
      simp only
      split
      · exact gathered
      · rw [Store.callbacks_watchTasks]
        exact gathered

theorem callbacks_evalStep (worker : Worker) (loop : Loop) (callers : List Caller) (s : Store)
    {effect : Effect} (other : effect.registration? = none) :
    (evalStep worker loop callers s effect).2.callbacks = s.callbacks := by
  cases effect with
  | pure | fail | fault | isCancelled | map | flatMap | handleErrorWith => rfl
  | perform act next =>
    simp only [evalStep]
    split <;> rfl
  | cancel t => exact s.callbacks_cancel t
  | loop again body v =>
    simp only [evalStep]
    split <;> rfl
  | async r => cases other
  | await future =>
    refine callbacks_atPoint fun s' same => ?_
    split <;> exact same
  | shift context =>
    refine callbacks_atPoint fun s' same => ?_
    exact (Store.callbacks_spawn ..).trans same
  | bracket acquire use release => exact callbacks_atPoint fun s' same => same
  | race left right => rfl
  | parallel n operands => exact callbacks_spawnOperands ..

end Machine

/-- The registration that the next step makes. -/
def Config.registers? (c : Config) (s : Store) : Option Registration :=
  match c.focus with
  | .eval loop effect => if s.isCancelled loop.env.token then none else effect.registration?
  | _ => none

/-- A step that makes no registration changes no callback. -/
theorem Config.step_callbacks (worker : Worker) {c : Config} {s : Store}
    (none : c.registers? s = none) : (c.step worker s).2.callbacks = s.callbacks := by
  obtain ⟨focus, callers⟩ := c
  cases focus with
  | eval loop effect =>
    cases registration : effect.registration? with
    | none => exact Machine.callbacks_evalStep worker loop callers s registration
    | some r =>
      cases effect with
      | async r' =>
        have cancelled : s.isCancelled loop.env.token = true := by
          simpa [registers?, Effect.registration?] using none
        simp [step, Machine.evalStep, Machine.atPoint, cancelled]
      | _ => cases registration
  | unwind loop exit =>
    obtain ⟨env, frames⟩ := loop
    cases frames with
    | nil => rfl
    | cons frame frames => exact Machine.callbacks_frameStep _ callers s frame exit
  | leave exit =>
    cases callers with
    | nil => rfl
    | cons caller callers => exact Machine.callbacks_returnStep exit callers s caller
  | resume segment => exact Machine.callbacks_resumeStep worker callers s segment
  | park segment => rfl

/-- What a step that makes a registration comes to. -/
theorem Config.step_registers (worker : Worker) {c : Config} {s : Store} {r : Registration}
    (some : c.registers? s = some r) : ∃ loop, c.focus = .eval loop (.async r) ∧
      s.isCancelled loop.env.token = false ∧
      (c.step worker s).1 = (match r.fault? with
        | .some f => .faulted f
        | .none => .next ⟨.resume (.callback loop s.slots.size), c.callers⟩) ∧
      (c.step worker s).2.callbacks = s.callbacks.push (.dealt r.dealings) := by
  obtain ⟨focus, callers⟩ := c
  cases focus with
  | eval loop effect =>
    cases cancelled : s.isCancelled loop.env.token with
    | true => simp [registers?, cancelled] at some
    | false =>
      cases effect with
      | async r' =>
        obtain rfl : r' = r := by simpa [registers?, cancelled, Effect.registration?] using some
        let s' := s.emit (.entered loop.env.token .registration)
        obtain ⟨came, callbacks⟩ := Machine.register_deals worker r' s'
        refine ⟨loop, rfl, cancelled, ?_⟩
        simp only [step, Machine.evalStep, Machine.atPoint, cancelled, Bool.false_eq_true, if_false]
        revert came callbacks
        rcases Machine.register worker r' s' with ⟨result, s₁⟩
        intro came callbacks
        cases fault : r'.fault? with
        | none =>
          rw [fault] at came
          cases came
          exact ⟨rfl, callbacks⟩
        | some f =>
          rw [fault] at came
          cases came
          exact ⟨rfl, callbacks⟩
      | _ => simp [registers?, cancelled, Effect.registration?] at some
  | _ => cases some

end EffectFibers
