import EffectFibers.Fiber.Machine
import EffectFibers.Proofs.TokenForest
import Mathlib.Logic.Relation

/-!
# How the store grows

A run loop changes the store in few ways.  `Store.Change` lists them: a change that only
schedulers see (`Store.Same`), an event, a bracket number, a new token, a cancellation, a new
task.  `Store.Grows` is any number of changes, so what holds of every change is shown once, by
induction, for all that the machine does.

## Main statements

* `Store.Grows.isCancelled`: nothing becomes uncancelled.
* `Store.Grows.joined?`: what a task has come to is not changed by a run loop.
* `Store.Grows.trace`, `Store.Grows.spawned`: events and tasks are only added.
-/

namespace EffectFibers

/-- Whether the event names neither a new token nor a new bracket. -/
def Event.isPlain : Event → Bool
  | .derived .. | .acquired .. => false
  | _ => true

/-- A number from `first` on and below `bound`. -/
structure Within (first bound n : Nat) : Prop where
  le : first ≤ n
  lt : n < bound

theorem Within.mono {first first' bound bound' n : Nat} (h : Within first bound n)
    (le : first' ≤ first) (le' : bound ≤ bound') : Within first' bound' n :=
  ⟨Nat.le_trans le h.le, Nat.lt_of_lt_of_le h.lt le'⟩

namespace Store

/-- How many tokens there are. -/
abbrev size (s : Store) : Nat := s.tokens.nodes.size

/-- Nothing but memory, callbacks, the clock and the bookkeeping of who is woken differs. -/
structure Same (s s' : Store) : Prop where
  tokens : s'.tokens = s.tokens
  brackets : s'.brackets = s.brackets
  trace : s'.trace = s.trace
  spawned : s'.spawned = s.spawned
  joins : s'.joins.size = s.joins.size
  joined : ∀ t, s'.joined? t = s.joined? t

namespace Same

variable {s s' s'' : Store}

theorem rfl' (s : Store) : Same s s := ⟨rfl, rfl, rfl, rfl, rfl, fun _ => rfl⟩

theorem trans (h : Same s s') (h' : Same s' s'') : Same s s'' where
  tokens := h'.tokens.trans h.tokens
  brackets := h'.brackets.trans h.brackets
  trace := h'.trace.trans h.trace
  spawned := h'.spawned.trans h.spawned
  joins := h'.joins.trans h.joins
  joined t := (h'.joined t).trans (h.joined t)

theorem isCancelled (h : Same s s') (t : TokenId) : s'.isCancelled t = s.isCancelled t := by
  simp [Store.isCancelled, h.tokens]

end Same

variable (s : Store)

/-! ## What is the same after an operation -/

theorem same_wake (t : TaskId) : Same s (s.wake t) := by
  unfold wake
  split <;> exact ⟨rfl, rfl, rfl, rfl, rfl, fun _ => rfl⟩

theorem same_wakeAll (ts : List TaskId) : Same s (s.wakeAll ts) := by
  unfold wakeAll
  induction ts generalizing s with
  | nil => exact .rfl' s
  | cons t ts ih => exact (s.same_wake t).trans (ih (s.wake t))

/-- Who is woken is put down in two places. -/
theorem wakeAll_eq (ts : List TaskId) :
    ∃ ready woken, s.wakeAll ts = { s with ready := ready, mainWoken := woken } := by
  unfold wakeAll
  induction ts generalizing s with
  | nil => exact ⟨s.ready, s.mainWoken, rfl⟩
  | cons t ts ih =>
    obtain ⟨ready, woken, same⟩ := ih (s.wake t)
    refine ⟨ready, woken, same.trans ?_⟩
    unfold wake
    split <;> rfl

theorem same_watchToken (t : TokenId) (task : TaskId) : Same s (s.watchToken t task) := by
  unfold watchToken
  split <;> exact ⟨rfl, rfl, rfl, rfl, rfl, fun _ => rfl⟩

theorem same_watchTime (time : Nat) (task : TaskId) : Same s (s.watchTime time task) :=
  ⟨rfl, rfl, rfl, rfl, rfl, fun _ => rfl⟩

theorem same_setSlot (i : Nat) (slot : Slot) : Same s (s.setSlot i slot) :=
  ⟨rfl, rfl, rfl, rfl, rfl, fun _ => rfl⟩

theorem same_memory (memory : Memory) : Same s { s with memory } :=
  ⟨rfl, rfl, rfl, rfl, rfl, fun _ => rfl⟩

theorem same_openCallback : Same s s.openCallback.2 := ⟨rfl, rfl, rfl, rfl, rfl, fun _ => rfl⟩

theorem same_updateCallback (i : Nat) (callback : Callback) :
    Same s (s.updateCallback i callback) :=
  (s.same_setSlot i _).trans (same_wakeAll _ _)

theorem same_completeCallback {i : Nat} {result : Result} {s' : Store}
    (h : s.completeCallback i result = .ok s') : Same s s' := by
  unfold completeCallback at h
  split at h
  · cases h
    exact s.same_updateCallback i _
  · cases h

theorem same_dropCallback (i : Nat) : Same s (s.dropCallback i) := by
  simp only [dropCallback]
  split
  · exact s.same_updateCallback i _
  · exact s.same_setSlot i _

theorem same_holdCallback (i : Nat) : Same s (s.holdCallback i) := s.same_setSlot i _

theorem same_watchCallback (i : Nat) (task : TaskId) : Same s (s.watchCallback i task) :=
  s.same_setSlot i _

theorem same_write (lane : Lane) (text : String) : Same s (s.write lane text) := s.same_memory _

theorem same_watchTask (t task : TaskId) : Same s (s.watchTask t task) := by
  refine ⟨rfl, rfl, rfl, rfl, by simp [watchTask], fun u => ?_⟩
  simp only [joined?, join, watchTask, Array.getElem?_setIfInBounds]
  by_cases htu : t = u
  · subst htu
    by_cases ht : t < s.joins.size <;> simp [ht]
  · simp [htu]

theorem same_watchTasks (ts : List (Nat × TaskId)) (task : TaskId) :
    Same s (ts.foldl (fun s (_, t) => s.watchTask t task) s) := by
  induction ts generalizing s with
  | nil => exact .rfl' s
  | cons t ts ih => exact (s.same_watchTask t.2 task).trans (ih _)

/-! ## Growth -/

/-- One change that a run loop makes. -/
inductive Change : Store → Store → Prop
  | same {s s' : Store} (h : Same s s') : Change s s'
  | emit (s : Store) (event : Event) (h : event.isPlain = true) : Change s (s.emit event)
  | acquire (s : Store) (t : TokenId) (v : Value) :
      Change s ({ s with brackets := s.brackets + 1 }.emit (.acquired t s.brackets v))
  | fresh (s : Store) : Change s s.freshToken.2
  | child (s : Store) (parent : TokenId) : Change s (s.childToken parent).2
  | cancel (s : Store) (t : TokenId) : Change s (s.cancel t)
  | spawn (s : Store) (context : Context) (job : Job) : Change s (s.spawn context job).2

/-- Any number of changes. -/
abbrev Grows : Store → Store → Prop := Relation.ReflTransGen Change

variable {s}

theorem Same.grows {s' : Store} (h : Same s s') : Grows s s' := .single (.same h)

/-! ## The changes one by one -/

section Fields

variable (s)

@[simp] theorem trace_emit (e : Event) : (s.emit e).trace = e :: s.trace := rfl
@[simp] theorem tokens_emit (e : Event) : (s.emit e).tokens = s.tokens := rfl
@[simp] theorem brackets_emit (e : Event) : (s.emit e).brackets = s.brackets := rfl
@[simp] theorem spawned_emit (e : Event) : (s.emit e).spawned = s.spawned := rfl
@[simp] theorem joins_emit (e : Event) : (s.emit e).joins = s.joins := rfl
@[simp] theorem joined?_emit (e : Event) (t : TaskId) : (s.emit e).joined? t = s.joined? t := rfl
@[simp] theorem size_emit (e : Event) : (s.emit e).size = s.size := rfl
@[simp] theorem isCancelled_emit (e : Event) (t : TokenId) :
    (s.emit e).isCancelled t = s.isCancelled t := rfl

@[simp] theorem freshToken_fst : s.freshToken.1 = s.size := rfl
@[simp] theorem trace_freshToken : s.freshToken.2.trace = s.trace := rfl
@[simp] theorem spawned_freshToken : s.freshToken.2.spawned = s.spawned := rfl
@[simp] theorem brackets_freshToken : s.freshToken.2.brackets = s.brackets := rfl
@[simp] theorem size_freshToken : s.freshToken.2.size = s.size + 1 := by
  simp [size, freshToken, Forest.fresh]

@[simp] theorem childToken_fst (p : TokenId) : (s.childToken p).1 = s.size := by
  unfold childToken Forest.child
  by_cases h : s.tokens.isCancelled p <;> simp [h]
@[simp] theorem trace_childToken (p : TokenId) :
    (s.childToken p).2.trace = .derived p s.size :: s.trace := by
  unfold childToken Forest.child
  by_cases h : s.tokens.isCancelled p <;> simp [h]
@[simp] theorem spawned_childToken (p : TokenId) : (s.childToken p).2.spawned = s.spawned := rfl
@[simp] theorem joins_childToken (p : TokenId) : (s.childToken p).2.joins = s.joins := rfl
@[simp] theorem size_childToken (p : TokenId) :
    (s.childToken p).2.size = s.size + 1 := by
  unfold childToken Forest.child
  by_cases h : s.tokens.isCancelled p <;> simp [h, size]

theorem same_cancel (t : TokenId) :
    Same { s with tokens := s.tokens.cancel t } (s.cancel t) := by
  let parts := s.watchers.partition fun w => (s.tokens.cancel t).isCancelled w.1
  have h := same_wakeAll { s with tokens := s.tokens.cancel t, watchers := parts.2 }
    (parts.1.map Prod.snd)
  exact ⟨h.tokens, h.brackets, h.trace, h.spawned, h.joins, h.joined⟩

@[simp] theorem tokens_cancel (t : TokenId) : (s.cancel t).tokens = s.tokens.cancel t :=
  (s.same_cancel t).tokens
@[simp] theorem size_cancel (t : TokenId) : (s.cancel t).size = s.size := by simp [size]
@[simp] theorem trace_cancel (t : TokenId) : (s.cancel t).trace = s.trace := (s.same_cancel t).trace
@[simp] theorem spawned_cancel (t : TokenId) : (s.cancel t).spawned = s.spawned :=
  (s.same_cancel t).spawned
@[simp] theorem brackets_cancel (t : TokenId) : (s.cancel t).brackets = s.brackets :=
  (s.same_cancel t).brackets
@[simp] theorem size_joins_cancel (t : TokenId) : (s.cancel t).joins.size = s.joins.size :=
  (s.same_cancel t).joins
@[simp] theorem joined?_cancel (t : TokenId) (u : TaskId) : (s.cancel t).joined? u = s.joined? u :=
  (s.same_cancel t).joined u

@[simp] theorem spawn_fst (c : Context) (job : Job) : (s.spawn c job).1 = s.joins.size := by
  unfold spawn
  split <;> rfl
@[simp] theorem trace_spawn (c : Context) (job : Job) : (s.spawn c job).2.trace = s.trace := by
  unfold spawn
  split <;> rfl
@[simp] theorem tokens_spawn (c : Context) (job : Job) : (s.spawn c job).2.tokens = s.tokens := by
  unfold spawn
  split <;> rfl
@[simp] theorem size_spawn (c : Context) (job : Job) : (s.spawn c job).2.size = s.size := by
  simp [size]
@[simp] theorem brackets_spawn (c : Context) (job : Job) :
    (s.spawn c job).2.brackets = s.brackets := by
  unfold spawn
  split <;> rfl
@[simp] theorem size_joins_spawn (c : Context) (job : Job) :
    (s.spawn c job).2.joins.size = s.joins.size + 1 := by
  unfold spawn
  split <;> simp

theorem spawned_spawn (c : Context) (job : Job) : (s.spawn c job).2.spawned =
    (if c.isOpen then [⟨s.joins.size, c, job⟩] else []) ++ s.spawned := by
  unfold spawn
  split <;> simp [*]

theorem joined?_spawn_of_lt (c : Context) (job : Job) {t : TaskId} (lt : t < s.joins.size) :
    (s.spawn c job).2.joined? t = s.joined? t := by
  unfold spawn
  split <;> simp [joined?, join, Array.getElem?_push, Nat.ne_of_lt lt]

theorem joined?_spawn_self (c : Context) (job : Job) : (s.spawn c job).2.joined? s.joins.size =
    if c.isOpen then none else some .aborted := by
  unfold spawn
  split <;> simp [joined?, join, *]

end Fields

/-! ## What growth keeps -/

section Growth

variable {s s' : Store}

namespace Change

theorem size_le (h : Change s s') : s.size ≤ s'.size := by
  cases h with
  | same h => simp [size, h.tokens]
  | emit | acquire => exact Nat.le_refl _
  | fresh | child | cancel | spawn => simp

theorem brackets_le (h : Change s s') : s.brackets ≤ s'.brackets := by
  cases h with
  | same h => simp [h.brackets]
  | emit | child => exact Nat.le_refl _
  | acquire => exact Nat.le_succ _
  | fresh | cancel | spawn => simp

theorem joins_le (h : Change s s') : s.joins.size ≤ s'.joins.size := by
  cases h with
  | same h => simp [h.joins]
  | emit | acquire | fresh | child => exact Nat.le_refl _
  | cancel | spawn => simp

theorem isCancelled (h : Change s s') {t : TokenId} (ht : s.isCancelled t = true) :
    s'.isCancelled t = true := by
  cases h with
  | same h => rwa [h.isCancelled]
  | emit | acquire => exact ht
  | fresh => exact Forest.isCancelled_fresh.trans ht
  | child p => exact Forest.isCancelled_child.trans (by simp [Store.isCancelled] at ht; simp [ht])
  | cancel u => simpa [Store.isCancelled, Forest.cancel] using Forest.isCancelled_cancelAll ht
  | spawn => simpa [Store.isCancelled] using ht

theorem joined? (h : Change s s') {t : TaskId} (lt : t < s.joins.size) :
    s'.joined? t = s.joined? t := by
  cases h with
  | same h => exact h.joined t
  | emit | acquire | fresh | child => rfl
  | cancel => simp
  | spawn c job => exact s.joined?_spawn_of_lt c job lt

/-- The events of a change; a new token and a new bracket have a new number. -/
theorem trace (h : Change s s') : ∃ es, s'.trace = es ++ s.trace ∧
    (∀ t b v, Event.acquired t b v ∈ es → Within s.brackets s'.brackets b) ∧
    ∀ p c, Event.derived p c ∈ es → Within s.size s'.size c := by
  cases h with
  | same h => exact ⟨[], h.trace, by simp, by simp⟩
  | emit e plain =>
    refine ⟨[e], rfl, fun t b v mem => ?_, fun p c mem => ?_⟩ <;>
      · obtain rfl := List.mem_singleton.mp mem
        cases plain
  | acquire t v =>
    refine ⟨[_], rfl, fun t b v mem => ?_, by simp⟩
    cases List.mem_singleton.mp mem
    exact ⟨Nat.le_refl _, Nat.lt_succ_self _⟩
  | fresh => exact ⟨[], rfl, by simp, by simp⟩
  | child p =>
    refine ⟨[_], s.trace_childToken p, by simp, fun p c mem => ?_⟩
    cases List.mem_singleton.mp mem
    exact ⟨Nat.le_refl _, by simp⟩
  | cancel | spawn => exact ⟨[], by simp, by simp, by simp⟩

end Change

namespace Grows

theorem size_le (h : Grows s s') : s.size ≤ s'.size := by
  induction h with
  | refl => exact Nat.le_refl _
  | tail _ change ih => exact Nat.le_trans ih change.size_le

theorem brackets_le (h : Grows s s') : s.brackets ≤ s'.brackets := by
  induction h with
  | refl => exact Nat.le_refl _
  | tail _ change ih => exact Nat.le_trans ih change.brackets_le

theorem joins_le (h : Grows s s') : s.joins.size ≤ s'.joins.size := by
  induction h with
  | refl => exact Nat.le_refl _
  | tail _ change ih => exact Nat.le_trans ih change.joins_le

theorem isCancelled (h : Grows s s') {t : TokenId} (ht : s.isCancelled t = true) :
    s'.isCancelled t = true := by
  induction h with
  | refl => exact ht
  | tail _ change ih => exact change.isCancelled ih

theorem joined? (h : Grows s s') {t : TaskId} (lt : t < s.joins.size) :
    s'.joined? t = s.joined? t := by
  induction h with
  | refl => rfl
  | tail grows change ih => exact (change.joined? (Nat.lt_of_lt_of_le lt (joins_le grows))).trans ih

theorem trace (h : Grows s s') : ∃ es, s'.trace = es ++ s.trace ∧
    (∀ t b v, Event.acquired t b v ∈ es → Within s.brackets s'.brackets b) ∧
    ∀ p c, Event.derived p c ∈ es → Within s.size s'.size c := by
  induction h with
  | refl => exact ⟨[], rfl, by simp, by simp⟩
  | tail grows change ih =>
    obtain ⟨es, ih, acquired, derived⟩ := ih
    obtain ⟨es', h, acquired', derived'⟩ := change.trace
    refine ⟨es' ++ es, by rw [h, ih, List.append_assoc], fun t b v mem => ?_, fun p c mem => ?_⟩
    · obtain mem | mem := List.mem_append.mp mem
      · exact (acquired' t b v mem).mono (brackets_le grows) (Nat.le_refl _)
      · exact (acquired t b v mem).mono (Nat.le_refl _) change.brackets_le
    · obtain mem | mem := List.mem_append.mp mem
      · exact (derived' p c mem).mono (size_le grows) (Nat.le_refl _)
      · exact (derived p c mem).mono (Nat.le_refl _) change.size_le

/-- The tasks that a growth adds are new, different, and have not come to anything. -/
theorem spawned (h : Grows s s') : ∃ new, s'.spawned = new ++ s.spawned ∧
    (∀ x ∈ new, Within s.joins.size s'.joins.size x.task ∧ s'.joined? x.task = none) ∧
    (new.map Spawn.task).Nodup := by
  induction h with
  | refl => exact ⟨[], rfl, by simp, by simp⟩
  | @tail b b' grows change ih =>
    obtain ⟨new, eq, fresh, nodup⟩ := ih
    have kept : ∀ x ∈ new, Within s.joins.size b'.joins.size x.task ∧
        b'.joined? x.task = none := fun x mem => by
      obtain ⟨within, none⟩ := fresh x mem
      exact ⟨within.mono (Nat.le_refl _) change.joins_le, (change.joined? within.lt).trans none⟩
    cases change with
    | same h => exact ⟨new, h.spawned.trans eq, kept, nodup⟩
    | emit | acquire | fresh | child => exact ⟨new, eq, kept, nodup⟩
    | cancel => exact ⟨new, by simpa using eq, kept, nodup⟩
    | spawn c job =>
      by_cases isOpen : c.isOpen = true
      · refine ⟨⟨b.joins.size, c, job⟩ :: new, by simp [spawned_spawn, isOpen, eq], ?_, ?_⟩
        · intro x mem
          obtain rfl | mem := List.mem_cons.mp mem
          · exact ⟨⟨joins_le grows, by simp⟩, by simp [joined?_spawn_self, isOpen]⟩
          · exact kept x mem
        · refine List.nodup_cons.mpr ⟨fun mem => ?_, nodup⟩
          obtain ⟨x, mem, same⟩ := List.mem_map.mp mem
          exact absurd (fresh x mem).1.lt (by simp [same])
      · exact ⟨new, by simp [spawned_spawn, isOpen, eq], kept, nodup⟩

end Grows

end Growth

end Store

end EffectFibers
