import EffectFibers.Proofs.Lens

/-!
# Stores that agree through a lens

Stores agree through a lens if they have the same clock and callbacks, memories that look the same,
forests that agree on the tokens that are shown, and the same results for tasks that stand for each
other.  Who is
woken when something changes does not matter.  Every operation that run loops use keeps the
agreement, and adds events and tasks that mirror each other (`Store.Along`).

## Main statements

* `Store.Along.cancel`, `Store.Along.spawn`, …: one lemma for each operation.
-/

namespace EffectFibers

namespace Store

/-! ## Who is woken -/

/-- The store without the bookkeeping of who is woken. -/
def bare (s : Store) : Store :=
  { s with
    slots := s.slots.map fun slot => { slot with watchers := [] }
    joins := s.joins.map fun join => { join with watchers := [] }
    watchers := []
    alarms := []
    ready := {}
    mainWoken := false }

section

variable (s : Store)

theorem bare_wakeAll (ts : List TaskId) : (s.wakeAll ts).bare = s.bare := by
  obtain ⟨ready, woken, same⟩ := s.wakeAll_eq ts
  rw [same]
  rfl

theorem bare_watchToken (t : TokenId) (task : TaskId) : (s.watchToken t task).bare = s.bare := by
  unfold watchToken
  split <;> rfl

theorem bare_watchTime (time : Nat) (task : TaskId) : (s.watchTime time task).bare = s.bare := rfl

theorem bare_watchCallback (i : Nat) (task : TaskId) : (s.watchCallback i task).bare = s.bare := by
  unfold watchCallback bare
  congr 1
  refine Array.ext_getElem? fun j => ?_
  simp only [setSlot, slot, Array.getElem?_map, Array.getElem?_setIfInBounds]
  by_cases same : i = j
  · subst same
    cases found : s.slots[i]? with
    | none => simp_all
    | some slot => simp [(Array.getElem?_eq_some_iff.mp found).1]
  · simp [same]

theorem bare_watchTask (t task : TaskId) : (s.watchTask t task).bare = s.bare := by
  unfold watchTask bare
  congr 1
  refine Array.ext_getElem? fun j => ?_
  simp only [join, Array.getElem?_map, Array.getElem?_setIfInBounds]
  by_cases same : t = j
  · subst same
    cases found : s.joins[t]? with
    | none => simp_all
    | some join => simp [(Array.getElem?_eq_some_iff.mp found).1]
  · simp [same]

theorem bare_watchTasks (ts : List (Nat × TaskId)) (task : TaskId) :
    (ts.foldl (fun s (_, t) => s.watchTask t task) s).bare = s.bare := by
  induction ts generalizing s with
  | nil => rfl
  | cons t ts ih => exact (ih _).trans (s.bare_watchTask t.2 task)

theorem bare_cancel (t : TokenId) :
    (s.cancel t).bare = { s with tokens := s.tokens.cancel t }.bare :=
  bare_wakeAll _ _

theorem bare_updateCallback (i : Nat) (callback : Callback) :
    (s.updateCallback i callback).bare = (s.setSlot i { callback }).bare :=
  bare_wakeAll _ _

theorem bare_dropCallback (i : Nat) :
    (s.dropCallback i).bare = (s.setSlot i { callback := (s.slot i).callback.drop }).bare := by
  simp only [dropCallback]
  split
  · exact s.bare_updateCallback i _
  · unfold setSlot bare
    simp [Array.map_setIfInBounds]

theorem bare_holdCallback (i : Nat) :
    (s.holdCallback i).bare = (s.setSlot i { callback := (s.slot i).callback.clone }).bare := by
  unfold holdCallback setSlot bare
  simp [Array.map_setIfInBounds]

theorem bare_finish (t : TaskId) (result : Joined) : (s.finish t result).bare =
    { s with
      joins := s.joins.setIfInBounds t { result := some result, order := s.ended }
      ended := s.ended + 1 }.bare :=
  bare_wakeAll _ _

end

/-! ## Agreement -/

variable (L : Lens) (hidden : TokenId → Prop)

structure Agree (A B : Store) : Prop where
  tokens : Forest.Agree hidden A.tokens B.tokens
  clear : ∀ t, L.named t → ¬ hidden t
  memory : L.memory A.memory B.memory
  now : A.now = B.now
  timed : A.timed = B.timed
  ended : A.ended = B.ended
  slots : A.slots.map Slot.callback = B.slots.map Slot.callback
  join : ∀ t t', L.task t t' →
    (A.join t).result = (B.join t').result ∧ (A.join t).order = (B.join t').order
  /-- New tasks get numbers that stand for each other. -/
  tasks : ∀ i, L.task (A.joins.size + i) (B.joins.size + i)
  brackets : ∀ i, L.bracket (A.brackets + i) (B.brackets + i)

/-- The stores `A` and `B` agree, and what they have got since `s` and `s'` mirrors each other. -/
structure Along (s s' A B : Store) : Prop extends Agree L hidden A B where
  trace : ∃ es es', A.trace = es ++ s.trace ∧ B.trace = es' ++ s'.trace ∧
    List.Forall₂ (Event.Mirrors L) es es'
  spawned : ∃ new new', A.spawned = new ++ s.spawned ∧ B.spawned = new' ++ s'.spawned ∧
    List.Forall₂ (Spawn.Mirrors L) new new'

variable {L hidden} {s s' A B A' B' : Store}

namespace Agree

theorem of_bare (agree : Agree L hidden A B) (same : A'.bare = A.bare) (same' : B'.bare = B.bare) :
    Agree L hidden A' B' := by
  have slots {s s' : Store} (same : s'.bare = s.bare) :
      s'.slots.map Slot.callback = s.slots.map Slot.callback := by
    have mapped := congrArg (fun s : Store => s.slots.map Slot.callback) same
    simpa [bare, Function.comp_def] using mapped
  have join {s s' : Store} (same : s'.bare = s.bare) (t : TaskId) :
      (s'.join t).result = (s.join t).result ∧ (s'.join t).order = (s.join t).order := by
    have found := congrArg (fun s : Store => s.joins[t]?) same
    simp only [bare, Array.getElem?_map] at found
    unfold Store.join
    cases one : s.joins[t]? <;> cases other : s'.joins[t]? <;> simp_all
  have size {s s' : Store} (same : s'.bare = s.bare) : s'.joins.size = s.joins.size := by
    simpa [bare] using congrArg (fun s : Store => s.joins.size) same
  have field {α : Type} (f : Store → α) (bare : ∀ s : Store, f s.bare = f s) :
      f A' = f B' ↔ f A = f B := by
    rw [← bare A', same, bare A, ← bare B', same', bare B]
  have tokens {s s' : Store} (same : s'.bare = s.bare) : s'.tokens = s.tokens :=
    (congrArg Store.tokens same :)
  have brackets {s s' : Store} (same : s'.bare = s.bare) : s'.brackets = s.brackets :=
    (congrArg Store.brackets same :)
  have memory {s s' : Store} (same : s'.bare = s.bare) : s'.memory = s.memory :=
    (congrArg Store.memory same :)
  exact {
    tokens := by rw [tokens same, tokens same']; exact agree.tokens
    clear := agree.clear
    memory := by rw [memory same, memory same']; exact agree.memory
    now := (field Store.now fun _ => rfl).mpr agree.now
    timed := (field Store.timed fun _ => rfl).mpr agree.timed
    ended := (field Store.ended fun _ => rfl).mpr agree.ended
    slots := by rw [slots same, slots same']; exact agree.slots
    join := fun t t' task => by
      obtain ⟨result, order⟩ := join same t
      obtain ⟨result', order'⟩ := join same' t'
      rw [result, order, result', order']
      exact agree.join t t' task
    tasks := by rw [size same, size same']; exact agree.tasks
    brackets := by rw [brackets same, brackets same']; exact agree.brackets }

theorem time (agree : Agree L hidden A B) : A.time = B.time := by
  simp [Store.time, agree.now, agree.timed]

theorem callback (agree : Agree L hidden A B) (i : Nat) :
    (A.slot i).callback = (B.slot i).callback := by
  have found := congrArg (fun a : Array Callback => a[i]?) agree.slots
  simp only [Array.getElem?_map] at found
  unfold Store.slot
  cases one : A.slots[i]? <;> cases other : B.slots[i]? <;> simp_all

theorem joined? (agree : Agree L hidden A B) {t t' : TaskId} (task : L.task t t') :
    A.joined? t = B.joined? t' := (agree.join t t' task).1

theorem size (agree : Agree L hidden A B) : A.size = B.size := agree.tokens.size

theorem isCancelled (agree : Agree L hidden A B) {t : TokenId} (shown : ¬ hidden t) :
    A.isCancelled t = B.isCancelled t := agree.tokens.isCancelled shown

/-- A task that is known on one side is known on the other. -/
theorem known (agree : Agree L hidden A B) {t t' : TaskId} (task : L.task t t') :
    t < A.joins.size ↔ t' < B.joins.size := by
  rw [← not_iff_not, Nat.not_lt, Nat.not_lt]
  constructor
  · intro le
    have new := agree.tasks (t - A.joins.size)
    rw [Nat.add_sub_cancel' le] at new
    exact (L.single task new).mp rfl ▸ Nat.le_add_right _ _
  · intro le
    have new := agree.tasks (t' - B.joins.size)
    rw [Nat.add_sub_cancel' le] at new
    exact (L.single task new).mpr rfl ▸ Nat.le_add_right _ _

theorem finish (agree : Agree L hidden A B) {t t' : TaskId} (task : L.task t t')
    (result : Joined) : Agree L hidden (A.finish t result) (B.finish t' result) := by
  refine of_bare (A := { A with
      joins := A.joins.setIfInBounds t { result := some result, order := A.ended }
      ended := A.ended + 1 })
    (B := { B with
      joins := B.joins.setIfInBounds t' { result := some result, order := B.ended }
      ended := B.ended + 1 }) ?_ (A.bare_finish t result) (B.bare_finish t' result)
  exact {
    tokens := agree.tokens, clear := agree.clear, memory := agree.memory, now := agree.now
    timed := agree.timed, slots := agree.slots, brackets := agree.brackets
    ended := congrArg (· + 1) agree.ended
    tasks := by simpa using agree.tasks
    join := fun u u' other => by
      have old := agree.join u u' other
      simp only [Store.join, Array.getElem?_setIfInBounds] at old ⊢
      have same := L.single task other
      by_cases eq : t = u
      · have eq' := same.mp eq
        subst eq eq'
        by_cases lt : t < A.joins.size
        · have lt' := (agree.known task).mp lt
          simp [lt, lt', agree.ended]
        · have lt' : ¬ t' < B.joins.size := fun lt' => lt ((agree.known task).mpr lt')
          simp [lt, lt']
      · have ne' : t' ≠ u' := fun eq' => eq (same.mpr eq')
        simpa [eq, ne'] using old }

end Agree

namespace Along

theorem refl (agree : Agree L hidden A B) : Along L hidden A B A B :=
  ⟨agree, ⟨[], [], rfl, rfl, .nil⟩, ⟨[], [], rfl, rfl, .nil⟩⟩

variable (along : Along L hidden s s' A B)
include along

/-- A change without events and tasks. -/
theorem change (agree : Agree L hidden A' B') (trace : A'.trace = A.trace)
    (trace' : B'.trace = B.trace) (spawned : A'.spawned = A.spawned)
    (spawned' : B'.spawned = B.spawned) : Along L hidden s s' A' B' :=
  ⟨agree, by rw [trace, trace']; exact along.trace, by rw [spawned, spawned']; exact along.spawned⟩

/-- A change in who is woken. -/
theorem idle (same : A'.bare = A.bare) (same' : B'.bare = B.bare) : Along L hidden s s' A' B' :=
  along.change (along.toAgree.of_bare same same') (congrArg Store.trace same :)
    (congrArg Store.trace same' :) (congrArg Store.spawned same :) (congrArg Store.spawned same' :)

theorem emit {e e' : Event} (h : e.Mirrors L e') : Along L hidden s s' (A.emit e) (B.emit e') := by
  obtain ⟨es, es', trace, trace', mirror⟩ := along.trace
  refine ⟨?_, ⟨e :: es, e' :: es', ?_, ?_, .cons h mirror⟩, along.spawned⟩
  · obtain ⟨⟨tokens, clear, memory, now, timed, ended, slots, join, tasks, brackets⟩, -, -⟩ := along
    exact ⟨tokens, clear, memory, now, timed, ended, slots, join, tasks, brackets⟩
  · rw [trace_emit, trace, List.cons_append]
  · rw [trace_emit, trace', List.cons_append]

theorem withTokens {f g : Forest} (tokens : Forest.Agree hidden f g) :
    Along L hidden s s' { A with tokens := f } { B with tokens := g } := by
  obtain ⟨⟨-, clear, memory, now, timed, ended, slots, join, tasks, brackets⟩, trace, spawned⟩ :=
    along
  exact ⟨⟨tokens, clear, memory, now, timed, ended, slots, join, tasks, brackets⟩, trace, spawned⟩

theorem freshToken : Along L hidden s s' A.freshToken.2 B.freshToken.2 :=
  along.withTokens along.tokens.fresh

theorem childToken {p : TokenId} (shown : ¬ hidden p) :
    Along L hidden s s' (A.childToken p).2 (B.childToken p).2 := by
  have same : (B.tokens.child p).1 = (A.tokens.child p).1 :=
    (B.childToken_fst p).trans (along.size.symm.trans (A.childToken_fst p).symm)
  have derived :
      Event.Mirrors L (.derived p (A.tokens.child p).1) (.derived p (B.tokens.child p).1) :=
    same ▸ .same _
  exact (along.withTokens (along.tokens.child shown)).emit derived

theorem cancel (t : TokenId) : Along L hidden s s' (A.cancel t) (B.cancel t) :=
  (along.withTokens (along.tokens.cancel t)).idle (A.bare_cancel t) (B.bare_cancel t)

theorem withMemory {memory memory' : Memory} (looks : L.memory memory memory') :
    Along L hidden s s' { A with memory } { B with memory := memory' } := by
  obtain ⟨⟨tokens, clear, -, now, timed, ended, slots, join, tasks, brackets⟩, trace, spawned⟩ :=
    along
  exact ⟨⟨tokens, clear, looks, now, timed, ended, slots, join, tasks, brackets⟩, trace, spawned⟩

theorem withSlots {slots slots' : Array Slot}
    (same : slots.map Slot.callback = slots'.map Slot.callback) :
    Along L hidden s s' { A with slots } { B with slots := slots' } := by
  obtain ⟨⟨tokens, clear, memory, now, timed, ended, -, join, tasks, brackets⟩, trace, spawned⟩ :=
    along
  exact ⟨⟨tokens, clear, memory, now, timed, ended, same, join, tasks, brackets⟩, trace, spawned⟩

theorem write (lane : Lane) (text : String) :
    Along L hidden s s' (A.write lane text) (B.write lane text) := by
  unfold Store.write
  rw [along.time]
  exact along.withMemory (L.write _ along.memory)

theorem openCallback : Along L hidden s s' A.openCallback.2 B.openCallback.2 :=
  along.withSlots (by simp [Array.map_push, along.slots])

theorem setSlot (i : Nat) (callback : Callback) :
    Along L hidden s s' (A.setSlot i { callback }) (B.setSlot i { callback }) :=
  along.withSlots (by simp [Array.map_setIfInBounds, along.slots])

theorem updateCallback (i : Nat) (callback : Callback) :
    Along L hidden s s' (A.updateCallback i callback) (B.updateCallback i callback) :=
  (along.setSlot i callback).idle (A.bare_updateCallback i _) (B.bare_updateCallback i _)

theorem dropCallback (i : Nat) : Along L hidden s s' (A.dropCallback i) (B.dropCallback i) := by
  refine (along.setSlot i (A.slot i).callback.drop).idle (A.bare_dropCallback i) ?_
  rw [along.callback i]
  exact B.bare_dropCallback i

theorem holdCallback (i : Nat) : Along L hidden s s' (A.holdCallback i) (B.holdCallback i) := by
  refine (along.setSlot i (A.slot i).callback.clone).idle (A.bare_holdCallback i) ?_
  rw [along.callback i]
  exact B.bare_holdCallback i

theorem acquire (t : TokenId) (v : Value) : Along L hidden s s'
    ({ A with brackets := A.brackets + 1 }.emit (.acquired t A.brackets v))
    ({ B with brackets := B.brackets + 1 }.emit (.acquired t B.brackets v)) := by
  have number : L.bracket A.brackets B.brackets := along.brackets 0
  have more : Along L hidden s s' { A with brackets := A.brackets + 1 }
      { B with brackets := B.brackets + 1 } := by
    obtain ⟨⟨tokens, clear, memory, now, timed, ended, slots, join, tasks, brackets⟩, trace,
      spawned⟩ := along
    refine ⟨⟨tokens, clear, memory, now, timed, ended, slots, join, tasks, fun i => ?_⟩, trace,
      spawned⟩
    simpa [Nat.add_assoc] using brackets (1 + i)
  exact more.emit (.acquired t number v)

theorem spawn (context : Context) (job job' : Job)
    (work : Option.Rel (Segment.Mirrors L) (Spawn.segment? ⟨A.joins.size, context, job⟩)
      (Spawn.segment? ⟨B.joins.size, context, job'⟩)) :
    Along L hidden s s' (A.spawn context job).2 (B.spawn context job').2 := by
  have task : L.task A.joins.size B.joins.size := along.tasks 0
  obtain ⟨⟨tokens, clear, memory, now, timed, ended, slots, join, tasks, brackets⟩, trace,
    new, new', spawned, spawned', mirror⟩ := along
  have pushed (x : Join) (t t' : TaskId) (other : L.task t t') :
      (((A.joins.push x)[t]?).getD default).result = (((B.joins.push x)[t']?).getD default).result ∧
      (((A.joins.push x)[t]?).getD default).order
        = (((B.joins.push x)[t']?).getD default).order := by
    have old := join t t' other
    unfold Store.join at old
    simp only [Array.getElem?_push]
    by_cases eq : t = A.joins.size
    · have eq' := (L.single other task).mp eq
      simp [eq, eq']
    · have ne' : t' ≠ B.joins.size := fun eq' => eq ((L.single other task).mpr eq')
      simpa [eq, ne'] using old
  have later (i : Nat) : L.task (A.joins.size + 1 + i) (B.joins.size + 1 + i) := by
    simpa [Nat.add_assoc] using tasks (1 + i)
  unfold Store.spawn
  split
  · refine ⟨⟨tokens, clear, memory, now, timed, ended, slots, pushed {}, by simpa using later,
      brackets⟩, trace, _ :: new, _ :: new', ?_, ?_, .cons ⟨task, work⟩ mirror⟩
    · rw [spawned, List.cons_append]
    · rw [spawned', List.cons_append]
  · refine ⟨⟨tokens, clear, memory, now, timed, congrArg (· + 1) ended, slots, ?_,
      by simpa using later, brackets⟩, trace, new, new', spawned, spawned', mirror⟩
    rw [← ended]
    exact pushed _

end Along

end Store

end EffectFibers
