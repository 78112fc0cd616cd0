import EffectFibers.Proofs.OtherCallbacks
import EffectFibers.Proofs.Promises

/-!
# Single-shot callbacks

An `Exchange` is a runtime with what has been done with each of its callbacks.  Whoever holds a
clone may deal with it at any moment, between any two steps of the runtime; what a registration
does with its callback comes first in the history.

## Main definitions

* `Exchange.Step`: the steps of the runtime, and the dealings of whoever holds a clone.
* `Exchange.Resumed`: how a fiber stops waiting for a callback.
* `Exchange.SingleShot`: what the histories decide.

## Main statements

* `Exchange.Reachable.single_shot`: the histories decide it in every run.
-/

namespace EffectFibers

/-- The histories of the callbacks after a step of a poll. -/
def Config.recorded (c : Config) (s : Store) (history : Nat → History) : Nat → History :=
  match c.registers? s with
  | some r => Function.update history s.slots.size r.dealings
  | none => history

/-- A runtime with what has been done with its callbacks. -/
structure Exchange where
  runtime : Runtime := {}
  history : Nat → History := fun _ => []

namespace Exchange

abbrev store (E : Exchange) : Store := E.runtime.store

/-- Somebody deals with a callback. -/
def deal (E : Exchange) (i : Nat) (d : Dealing) : Exchange where
  runtime := { E.runtime with store := (E.store.deal i d).2 }
  history := Function.update E.history i (d :: E.history i)

inductive Step : Exchange → Exchange → Prop
  | turn (s : Store) (rest : Multiset Strand) (log : List Moment) (run : TokenId)
      (role : Strand.Role) (c : Config) (worker : Worker) (history : Nat → History) :
      Step ⟨⟨s, ⟨run, role, .running c⟩ ::ₘ rest, log⟩, history⟩
        ⟨Runtime.turn worker run role c ⟨s, rest, log⟩, c.recorded s history⟩
  /-- Any other step of the runtime leaves the callbacks alone. -/
  | other (E : Exchange) {σ' : Runtime} (step : Runtime.Step E.runtime σ')
      (still : σ'.store.slots = E.store.slots) : Step E { E with runtime := σ' }
  /-- Whoever holds a clone of a callback deals with it. -/
  | deal (E : Exchange) (i : Nat) (d : Dealing) (known : i < E.store.slots.size)
      (holds : 0 < (E.history i).held) : Step E (E.deal i d)

/-- What any number of steps lead to. -/
abbrev Steps : Exchange → Exchange → Prop := Relation.ReflTransGen Step

/-- The exchanges that come about from an empty one. -/
def Reachable (E : Exchange) : Prop := Steps {} E

variable {E E' F : Exchange} {i j : Nat} {run : TokenId} {loop : Loop}

/-! ## The runtime below -/

theorem outside_deal (E : Exchange) (i : Nat) (d : Dealing) :
    E.runtime.Outside (E.store.deal i d).2 := Runtime.outside_of_same (E.store.same_deal i d)

theorem Step.runtime (h : Step E E') : Runtime.Step E.runtime E'.runtime := by
  cases h with
  | turn => exact .turn ..
  | other _ step => exact step
  | deal _ i d => exact .outside _ _ (E.outside_deal i d)

theorem Steps.runtime (h : Steps E E') : Runtime.Steps E.runtime E'.runtime := by
  induction h with
  | refl => exact .refl
  | tail _ step ih => exact .tail ih step.runtime

theorem Reachable.runtime (h : E.Reachable) : Runtime.Reachable E.runtime := Steps.runtime h

theorem slots_giveUp (r : Run) (s : Store) : (r.giveUp s).slots = s.slots := by
  unfold Run.giveUp
  split
  · rfl
  · exact s.slots_cancel _
  · split
    · exact (Store.slots_spawn ..).trans (s.slots_cancel _)
    · exact s.slots_cancel _

/-- Every step of the runtime is a step of the exchange, but for one by which the surroundings
change a callback out of order. -/
theorem exists_step {σ' : Runtime} (step : Runtime.Step E.runtime σ') :
    (∃ history, Step E ⟨σ', history⟩) ∨ E.runtime.Outside σ'.store := by
  have other : σ'.store.slots = E.store.slots → (∃ history, Step E ⟨σ', history⟩) ∨
      E.runtime.Outside σ'.store := fun still => .inl ⟨E.history, .other E step still⟩
  obtain ⟨σ, history⟩ := E
  cases step with
  | turn s rest log run role c worker => exact .inl ⟨_, .turn s rest log run role c worker history⟩
  | outside _ s outside => exact .inr outside
  | begin | beginBelow | poll | fresh | child | prune => exact other rfl
  | report => exact other (Store.slots_finish ..)
  | cancel => exact other (Store.slots_cancel ..)
  | giveUp => exact other (slots_giveUp ..)

/-! ## The callbacks have their histories -/

/-- Every callback is what its history says. -/
structure Kept (E : Exchange) : Prop where
  dealt : ∀ i < E.store.slots.size, E.store.callbacks[i]? = some (.dealt (E.history i))
  lawful : ∀ i, (E.history i).Lawful
  fresh : ∀ i, E.store.slots.size ≤ i → E.history i = []

theorem Kept.same (h : E.Kept) (callbacks : E'.store.callbacks = E.store.callbacks)
    (history : E'.history = E.history) : E'.Kept := by
  have size : E'.store.slots.size = E.store.slots.size := by
    rw [← Store.size_callbacks, callbacks, Store.size_callbacks]
  refine ⟨fun i lt => ?_, fun i => ?_, fun i le => ?_⟩
  · rw [callbacks, history]
    exact h.dealt i (size ▸ lt)
  · exact history ▸ h.lawful i
  · exact history ▸ h.fresh i (size ▸ le)

theorem Kept.deal (h : E.Kept) (d : Dealing) (known : i < E.store.slots.size)
    (holds : 0 < (E.history i).held) : (E.deal i d).Kept := by
  have callbacks : (E.deal i d).store.callbacks
      = E.store.callbacks.setIfInBounds i (.dealt (d :: E.history i)) :=
    (Store.deal_dealt (h.dealt i known) d holds).2
  have size : (E.deal i d).store.slots.size = E.store.slots.size := by
    rw [← Store.size_callbacks, callbacks, Array.size_setIfInBounds, Store.size_callbacks]
  refine ⟨fun j lt => ?_, fun j => ?_, fun j le => ?_⟩
  · rw [size] at lt
    rw [callbacks]
    by_cases same : i = j
    · subst same
      rw [Array.getElem?_setIfInBounds_self_of_lt (by rwa [Store.size_callbacks])]
      simp [Exchange.deal]
    · rw [Array.getElem?_setIfInBounds_ne same]
      simpa [Exchange.deal, Function.update_of_ne (Ne.symm same)] using h.dealt j lt
  · by_cases same : j = i
    · subst same
      simpa [Exchange.deal] using .cons (h.lawful j) d holds
    · simpa [Exchange.deal, Function.update_of_ne same] using h.lawful j
  · have ne : j ≠ i := fun same => Nat.not_lt.mpr (size ▸ le) (same ▸ known)
    simpa [Exchange.deal, Function.update_of_ne ne] using h.fresh j (size ▸ le)

theorem Kept.register {s : Store} {rest : Multiset Strand} {log : List Moment} {role : Strand.Role}
    {c : Config} {worker : Worker} {history : Nat → History} {r : Registration}
    {strands : Multiset Strand} (h : Kept ⟨⟨s, strands, log⟩, history⟩)
    (registers : c.registers? s = some r) :
    Kept ⟨Runtime.turn worker run role c ⟨s, rest, log⟩,
      Function.update history s.slots.size r.dealings⟩ := by
  obtain ⟨loop, -, -, -, callbacks⟩ := c.step_registers worker registers
  have size : (c.step worker s).2.slots.size = s.slots.size + 1 := by
    rw [← Store.size_callbacks, callbacks, Array.size_push, Store.size_callbacks]
  refine ⟨fun i lt => ?_, fun i => ?_, fun i le => ?_⟩
  · change (c.step worker s).2.callbacks[i]? = _
    rw [callbacks, Array.getElem?_push, Store.size_callbacks]
    by_cases same : i = s.slots.size
    · simp [same]
    · have lt' : i < s.slots.size := by
        change i < (c.step worker s).2.slots.size at lt
        omega
      simpa [same] using h.dealt i lt'
  · by_cases same : i = s.slots.size
    · simpa [same] using r.lawful_dealings
    · simpa [same] using h.lawful i
  · change (c.step worker s).2.slots.size ≤ i at le
    have ne : i ≠ s.slots.size := by omega
    simpa [ne] using h.fresh i (by change s.slots.size ≤ i; omega)

theorem Kept.step (h : E.Kept) (step : Step E E') : E'.Kept := by
  cases step with
  | turn s rest log run role c worker history =>
    unfold Config.recorded
    cases registers : c.registers? s with
    | none => exact h.same (c.step_callbacks worker registers) rfl
    | some r => exact h.register registers
  | other _ step still => exact h.same (congrArg (Array.map Slot.callback) still) rfl
  | deal _ i d known holds => exact h.deal d known holds

theorem Reachable.kept (h : E.Reachable) : E.Kept := by
  induction h with
  | refl => exact ⟨fun i lt => (Nat.not_lt_zero i lt).elim, fun _ => .nil, fun _ _ => rfl⟩
  | tail _ step ih => exact ih.step step

/-- A callback is never given back. -/
theorem Step.size_le (h : E.Kept) (step : Step E E') :
    E.store.slots.size ≤ E'.store.slots.size := by
  cases step with
  | turn s rest log run role c worker history =>
    change s.slots.size ≤ (c.step worker s).2.slots.size
    rw [← Store.size_callbacks, ← Store.size_callbacks]
    cases registers : c.registers? s with
    | none => rw [c.step_callbacks worker registers]
    | some r =>
      obtain ⟨loop, -, -, -, callbacks⟩ := c.step_registers worker registers
      rw [callbacks, Array.size_push]
      exact Nat.le_succ _
  | other _ step still => exact (congrArg Array.size still).ge
  | deal _ i d known holds =>
    rw [← Store.size_callbacks, ← Store.size_callbacks]
    change _ ≤ (E.store.deal i d).2.callbacks.size
    rw [(Store.deal_dealt (h.dealt i known) d holds).2, Array.size_setIfInBounds]

theorem Steps.size_le (reach : E.Reachable) (steps : Steps E E') :
    E.store.slots.size ≤ E'.store.slots.size := by
  induction steps with
  | refl => exact Nat.le_refl _
  | tail steps step ih =>
    have kept := Reachable.kept (Relation.ReflTransGen.trans reach steps)
    exact Nat.le_trans ih (step.size_le kept)

/-- What was delivered first stays so. -/
theorem Step.first? {result : Result} (h : E.Kept) (step : Step E E')
    (first : (E.history i).first? = some result) : (E'.history i).first? = some result := by
  have known : i < E.store.slots.size := by
    by_contra le
    simp [h.fresh i (Nat.not_lt.mp le)] at first
  cases step with
  | turn s rest log run role c worker history =>
    unfold Config.recorded
    split
    · have ne : i ≠ s.slots.size := Nat.ne_of_lt known
      simpa [ne] using first
    · exact first
  | other => exact first
  | deal _ j d known holds =>
    by_cases same : i = j
    · subst same
      simpa [Exchange.deal] using History.first?_cons_of_some d first
    · simpa [Exchange.deal, same] using first

end Exchange

/-! ## Who waits -/

namespace Runtime

variable {σ σ' : Runtime} {run : TokenId} {φ : Fiber} {loop : Loop} {i : Nat} {ms : List Event}

/-- A loop that comes to wait for a callback has just registered, and waits for the newest one. -/
theorem Step.registers (h : Reachable σ) (step : Step σ σ') (mem : (run, φ) ∈ σ.crew)
    (mem' : (run, ⟨loop, .callback i⟩) ∈ σ'.crew) (act : φ.Step σ.store ms ⟨loop, .callback i⟩) :
    i = σ.store.slots.size ∧ σ'.store.slots.size = σ.store.slots.size + 1 := by
  cases act with
  | @register _ r _ live =>
    have ne : (⟨loop, .callback i⟩ : Fiber) ≠ ⟨loop, .evaluating (.async r)⟩ := fun same => by
      cases same
    obtain ⟨role, c, worker, l, -, inside, store, turned, gone, noFault⟩ :=
      step.turned_of_ne h mem mem' rfl ne
    have focus : c.focus = .eval loop (.async r) := by
      obtain same | there | ⟨f, fault⟩ := Config.step_rests worker σ.store rfl inside
      · exact same
      · exact (gone l there).elim
      · exact (noFault f fault).elim
    have registers : c.registers? σ.store = some r := by
      simp [Config.registers?, focus, live, Effect.registration?]
    obtain ⟨loop', focus', -, came, callbacks⟩ := c.step_registers worker registers
    cases focus.symm.trans focus'
    refine ⟨?_, ?_⟩
    · cases fault : r.fault? with
      | some f => exact (noFault f (by rw [came, fault])).elim
      | none =>
        rw [fault] at came
        rw [came] at turned
        have waits : (run, ⟨loop, .callback σ.store.slots.size⟩) ∈ σ'.crew :=
          mem_crew_berths.mpr ⟨_, turned, rfl, _, Multiset.mem_add.mpr
            (.inl (Multiset.mem_singleton_self _))⟩
        have same := (Reachable.manned (.tail h step)).unique waits mem' rfl
        cases same
        rfl
    · rw [store, ← Store.size_callbacks, callbacks, Array.size_push, Store.size_callbacks]

/-- The loops that wait for a callback after a step did so before, but for one that has just
registered. -/
theorem Step.waits (h : Reachable σ) (step : Step σ σ') :
    (∀ run loop i, (run, ⟨loop, .callback i⟩) ∈ σ'.crew → (run, ⟨loop, .callback i⟩) ∈ σ.crew) ∨
    ∃ new : Member, σ'.store.slots.size = σ.store.slots.size + 1 ∧
      ∀ run loop i, (run, ⟨loop, .callback i⟩) ∈ σ'.crew →
        (run, ⟨loop, .callback i⟩) ∈ σ.crew ∨
          (run, ⟨loop, .callback i⟩) = new ∧ i = σ.store.slots.size := by
  cases step.move with
  | idle crew => exact .inl fun run loop i mem => crew ▸ mem
  | @act run₁ φ φ' ms born rest act fresh distinct numbered crew crew' =>
    have others : ∀ {run loop i}, (run, ⟨loop, .callback i⟩) ∈ σ'.crew →
        (run, ⟨loop, .callback i⟩) = (run₁, φ') ∨ (run, ⟨loop, .callback i⟩) ∈ σ.crew := by
      intro run loop i mem
      rw [crew'] at mem
      obtain same | mem := Multiset.mem_cons.mp mem
      · exact .inl same
      obtain mem | mem := Multiset.mem_add.mp mem
      · obtain ⟨χ, inBorn, same⟩ := Multiset.mem_map.mp mem
        obtain ⟨env, effect, rfl⟩ := (fresh χ inBorn).loop
        cases same
      · exact .inr (crew ▸ Multiset.mem_cons_of_mem mem)
    have there : (run₁, φ) ∈ σ.crew := crew ▸ Multiset.mem_cons_self _ _
    have there' : (run₁, φ') ∈ σ'.crew := crew' ▸ Multiset.mem_cons_self _ _
    by_cases waits : ∃ loop i, φ' = ⟨loop, .callback i⟩
    · obtain ⟨loop, i, rfl⟩ := waits
      obtain ⟨rfl, size⟩ := step.registers h there there' act
      refine .inr ⟨(run₁, ⟨loop, .callback σ.store.slots.size⟩), size, fun run loop' j mem => ?_⟩
      obtain same | old := others mem
      · cases same
        exact .inr ⟨rfl, rfl⟩
      · exact .inl old
    · refine .inl fun run loop i mem => ?_
      obtain same | old := others mem
      · exact (waits ⟨loop, i, (congrArg Prod.snd same).symm⟩).elim
      · exact old
  | leave crew | refuse _ _ _ crew =>
    exact .inl fun run loop i mem => crew ▸ Multiset.mem_cons_of_mem mem
  | lose crew => exact .inl fun run loop i mem => crew ▸ Multiset.mem_add.mpr (.inr mem)
  | begin fresh crew =>
    refine .inl fun run loop i mem => ?_
    obtain ⟨env, effect, rfl⟩ := fresh.loop
    rw [crew] at mem
    obtain same | mem := Multiset.mem_cons.mp mem
    · cases same
    · exact mem

end Runtime

namespace Exchange

variable {E E' F : Exchange} {i j : Nat} {run : TokenId} {loop : Loop}

/-- A loop waits for a callback. -/
def Waits (E : Exchange) (run : TokenId) (loop : Loop) (i : Nat) : Prop :=
  (run, ⟨loop, .callback i⟩) ∈ E.runtime.crew

/-- No loop waits for the callback. -/
def Idle (E : Exchange) (i : Nat) : Prop := ∀ run loop, ¬ E.Waits run loop i

/-- Loops wait for callbacks that there are, and no two for one. -/
structure Apart (E : Exchange) : Prop where
  known : ∀ {run loop i}, E.Waits run loop i → i < E.store.slots.size
  alone : ∀ {run run' loop loop' i}, E.Waits run loop i → E.Waits run' loop' i →
    run' = run ∧ loop' = loop

theorem Apart.step (reach : E.Reachable) (h : E.Apart) (step : Step E E') : E'.Apart := by
  have more := step.size_le reach.kept
  obtain old | ⟨new, size, old⟩ := Runtime.Step.waits reach.runtime step.runtime
  · exact ⟨fun waits => Nat.lt_of_lt_of_le (h.known (old _ _ _ waits)) more,
      fun waits waits' => h.alone (old _ _ _ waits) (old _ _ _ waits')⟩
  · refine ⟨fun {run loop i} waits => ?_, fun {run run' loop loop' i} waits waits' => ?_⟩
    · obtain before | ⟨-, rfl⟩ := old run loop i waits
      · exact Nat.lt_of_lt_of_le (h.known before) more
      · exact size ▸ Nat.lt_succ_self _
    · obtain before | ⟨same, rfl⟩ := old run loop i waits <;>
        obtain before' | ⟨same', is⟩ := old run' loop' _ waits'
      · exact h.alone before before'
      · exact absurd is (Nat.ne_of_lt (h.known before))
      · exact absurd rfl (Nat.ne_of_lt (h.known before'))
      · cases same'.trans same.symm
        exact ⟨rfl, rfl⟩

theorem Reachable.apart (h : E.Reachable) : E.Apart := by
  induction h with
  | refl =>
    have none : ∀ {run loop i}, ¬ Waits {} run loop i := fun {run loop i} waits => by
      simp [Waits, Runtime.crew_empty] at waits
    exact ⟨fun waits => (none waits).elim, fun waits => (none waits).elim⟩
  | tail before step ih => exact ih.step before step

/-- When nobody waits for a callback any more, nobody ever will. -/
theorem Idle.step (reach : E.Reachable) (known : i < E.store.slots.size) (idle : E.Idle i)
    (step : Step E E') : E'.Idle i := by
  intro run loop waits
  obtain old | ⟨new, -, old⟩ := Runtime.Step.waits reach.runtime step.runtime
  · exact idle run loop (old run loop i waits)
  · obtain before | ⟨-, rfl⟩ := old run loop i waits
    · exact idle run loop before
    · exact Nat.lt_irrefl _ known

/-! ## Waiting -/

/-- What a poll makes of a loop that waits for a callback. -/
theorem Kept.poll (h : E.Kept) (known : i < E.store.slots.size) (worker : Worker) {c : Config}
    (focus : c.focus = .resume (.callback loop i)) :
    (c.step worker E.store).1 = match (E.history i).first? with
      | some result => .next ⟨.unwind loop (.ofExcept result), c.callers⟩
      | none =>
        if (E.history i).held = 0 then .faulted .callbackDropped
        else if E.store.isCancelled loop.env.token then .next ⟨.unwind loop .canceled, c.callers⟩
        else .next ⟨.park (.callback loop i), c.callers⟩ := by
  obtain ⟨focus', callers⟩ := c
  cases focus
  have here := E.store.callback_slot (h.dealt i known)
  simp only [Config.step, Machine.resumeStep, here, Callback.poll_dealt]
  cases (E.history i).first? with
  | some result => rfl
  | none =>
    by_cases gone : (E.history i).held = 0
    · simp [gone]
    · simp only [gone, if_false]
      split <;> rfl

/-- How a loop stops waiting for a callback. -/
inductive Resumed (E E' : Exchange) (run : TokenId) (loop : Loop) (i : Nat) : Prop
  /-- It goes on with the result of the first completion. -/
  | delivered {result : Result} (first : (E.history i).first? = some result)
      (on : (run, ⟨loop, .unwinding (.ofExcept result)⟩) ∈ E'.runtime.crew)
  /-- It is cancelled before there was a completion, and while there is a clone. -/
  | canceled (none : (E.history i).first? = none) (held : (E.history i).held ≠ 0)
      (cancelled : E.store.isCancelled loop.env.token = true)
      (on : (run, ⟨loop, .unwinding .canceled⟩) ∈ E'.runtime.crew)
  /-- It is lost in a panic: its own, because every clone was dropped, or another. -/
  | failed (failed : E'.runtime.Failed run)

theorem Resumed.idle (reach : E.Reachable) (step : Step E E') (waits : E.Waits run loop i)
    (stopped : ¬ E'.Waits run loop i) : E'.Idle i := by
  intro run' loop' waits'
  have apart := reach.apart
  have before : E.Waits run' loop' i := by
    obtain old | ⟨new, -, old⟩ := Runtime.Step.waits reach.runtime step.runtime
    · exact old run' loop' i waits'
    · obtain before | ⟨-, rfl⟩ := old run' loop' i waits'
      · exact before
      · exact absurd rfl (Nat.ne_of_lt (apart.known waits))
  obtain ⟨rfl, rfl⟩ := apart.alone waits before
  exact stopped waits'

/-- A loop that waits for a callback goes on to wait, or stops. -/
theorem Step.await (reach : E.Reachable) (step : Step E E') (waits : E.Waits run loop i) :
    E'.Waits run loop i ∨ ¬ E'.Waits run loop i ∧ Resumed E E' run loop i := by
  have manned := Runtime.Reachable.manned reach.runtime
  obtain ⟨new, -, follow⟩ := (Runtime.Step.move step.runtime).follow manned waits
  cases follow with
  | stay there => exact .inl there
  | part parting gone =>
    refine .inr ⟨fun there => gone (Runtime.mem_badges.mpr ⟨_, there, rfl⟩), .failed ?_⟩
    cases parting with
    | ended spent => cases spent
    | failed failed => exact failed
    | faulted failed => exact failed
    | refused closed sent => cases sent
  | @act φ' ms act there =>
    have manned' := Runtime.Reachable.manned (.tail reach.runtime step.runtime)
    have ne : φ' ≠ ⟨loop, .callback i⟩ := by
      rintro rfl
      cases act
    have stopped : ¬ E'.Waits run loop i := fun waits' =>
      ne (congrArg Prod.snd (manned'.unique there waits' act.token))
    obtain ⟨role, c, worker, l, -, inside, -, turned, gone, noFault⟩ :=
      Runtime.Step.turned_of_ne reach.runtime step.runtime waits there act.token ne
    have focus : c.focus = .resume (.callback loop i) := by
      obtain same | inside' | ⟨f, fault⟩ := Config.step_rests worker E.store rfl inside
      · exact same
      · exact (gone l inside').elim
      · exact (noFault f fault).elim
    have on : ∀ {x : Exit}, (c.step worker E.store).1 = .next ⟨.unwind loop x, c.callers⟩ →
        (run, ⟨loop, .unwinding x⟩) ∈ E'.runtime.crew := fun came => by
      rw [came] at turned
      exact Runtime.mem_crew_berths.mpr ⟨_, turned, rfl, _, Multiset.mem_cons_self _ _⟩
    refine .inr ⟨stopped, ?_⟩
    have came := reach.kept.poll (reach.apart.known waits) worker focus
    split at came
    · next result first => exact .delivered first (on came)
    · next none =>
      split at came
      · exact (noFault _ came).elim
      · next held =>
        split at came
        · next cancelled => exact .canceled none held cancelled (on came)
        · refine (stopped ?_).elim
          rw [came] at turned
          exact Runtime.mem_crew_berths.mpr ⟨_, turned, rfl, _,
            Multiset.mem_add.mpr (.inl (Multiset.mem_singleton_self _))⟩

/-- A loop stops waiting for a callback at most once. -/
theorem Steps.await (reach : E.Reachable) (waits : E.Waits run loop i) (steps : Steps E E') :
    E'.Waits run loop i ∨ ∃ E₁ E₂, Steps E E₁ ∧ E₁.Waits run loop i ∧ Step E₁ E₂ ∧
      Resumed E₁ E₂ run loop i ∧ Steps E₂ E' ∧ E'.Idle i := by
  induction steps with
  | refl => exact .inl waits
  | @tail E₁ E₂ steps step ih =>
    have reach₁ : E₁.Reachable := Relation.ReflTransGen.trans reach steps
    obtain still | ⟨E₀, E₀', before, still, stops, resumed, after, idle⟩ := ih
    · obtain still' | ⟨stopped, resumed⟩ := step.await reach₁ still
      · exact .inl still'
      · have idle := Resumed.idle reach₁ step still stopped
        exact .inr ⟨E₁, E₂, steps, still, step, resumed, .refl, idle⟩
    · -- It has stopped before.
      have known := Nat.lt_of_lt_of_le (reach.apart.known waits) (Steps.size_le reach steps)
      exact .inr ⟨E₀, E₀', before, still, stops, resumed, .tail after step,
        idle.step reach₁ known step⟩

/-! ## Beside a callback -/

/-- The exchanges are the same but for one callback and its history, and for who is woken. -/
structure SameBut (i : Nat) (E F : Exchange) : Prop where
  store : E.store.SameBut i F.store
  strands : F.runtime.strands = E.runtime.strands
  log : F.runtime.log = E.runtime.log
  history : ∀ j, j ≠ i → F.history j = E.history j

theorem sameBut_deal (E : Exchange) (i : Nat) (d : Dealing) : E.SameBut i (E.deal i d) :=
  ⟨(Store.SameBut.refl _).deal_aside d, rfl, rfl, fun j ne => by simp [Exchange.deal, ne]⟩

theorem SameBut.turn {s t : Store} {rest : Multiset Strand} {log : List Moment}
    {history history' : Nat → History} (store : s.SameBut i t)
    (histories : ∀ j, j ≠ i → history' j = history j) (known : i < s.slots.size) (run : TokenId)
    (role : Strand.Role) (c : Config) (worker : Worker)
    (other : ∀ loop, c.focus ≠ .resume (.callback loop i)) :
    SameBut i ⟨Runtime.turn worker run role c ⟨s, rest, log⟩, c.recorded s history⟩
      ⟨Runtime.turn worker run role c ⟨t, rest, log⟩, c.recorded t history'⟩ := by
  have twin := c.step_sameBut worker store known other
  have started : t.started (c.step worker t).2 = s.started (c.step worker s).2 := by
    simp only [Store.started, store.spawned, twin.store.spawned]
  have since : t.since (c.step worker t).2 = s.since (c.step worker s).2 := by
    simp only [Store.since, store.trace, twin.store.trace]
  have moment : Moment.of run t = Moment.of run s := by
    funext e
    simp only [Moment.of, store.isCancelled]
  refine ⟨twin.store, ?_, ?_, fun j ne => ?_⟩
  · simp only [Runtime.turn, twin.progress, started]
  · simp only [Runtime.turn, since, moment]
  · have registers : c.registers? t = c.registers? s := by
      simp only [Config.registers?, store.isCancelled]
    simp only [Config.recorded, registers, store.size]
    cases c.registers? s with
    | some r => simp only [Function.update_apply, histories j ne]
    | none => exact histories j ne

/-- A step beside a callback that nobody waits for is possible whatever has been done with that
callback. -/
theorem SameBut.step (h : E.SameBut i F) (known : i < E.store.slots.size) (idle : E.Idle i)
    (step : Step E E') : ∃ F', Relation.ReflGen Step F F' ∧ E'.SameBut i F' := by
  obtain ⟨⟨t, strands, log⟩, history'⟩ := F
  obtain ⟨store, same, same', histories⟩ := h
  have store : E.store.SameBut i t := store
  have histories : ∀ j, j ≠ i → history' j = E.history j := histories
  have looks : ∀ {run : TokenId} {role : Strand.Role} {c : Config},
      ⟨run, role, .running c⟩ ∈ E.runtime.strands → ∀ loop, c.focus ≠ .resume (.callback loop i) := by
    intro run role c there loop focus
    obtain ⟨focus', callers⟩ := c
    cases focus
    have inside : ⟨Caller.innerRoom callers, .fiber ⟨loop, .callback i⟩⟩
        ∈ (Config.mk (.resume (.callback loop i)) callers).berths :=
      Multiset.mem_add.mpr (.inl (Multiset.mem_singleton_self _))
    exact idle run loop (Runtime.mem_crew_of_running there inside)
  cases step with
  | turn s rest log run role c worker history =>
    cases same
    cases same'
    exact ⟨_, .single (.turn ..), SameBut.turn store histories known run role c worker
      (looks (Multiset.mem_cons_self _ _))⟩
  | deal E j d there holds =>
    by_cases eq : j = i
    · subst eq
      refine ⟨_, .refl, (store.symm.deal_aside d).symm, same, same', fun k ne => ?_⟩
      simpa [Exchange.deal, ne] using histories k ne
    · let F : Exchange := ⟨⟨t, strands, log⟩, history'⟩
      have holds' : 0 < (F.history j).held := by
        change 0 < (history' j).held
        rwa [histories j eq]
      have there' : j < F.store.slots.size := by
        change j < t.slots.size
        rwa [store.size]
      refine ⟨F.deal j d, .single (.deal F j d there' holds'), store.deal eq d, same, same',
        fun k ne => ?_⟩
      simp only [Exchange.deal, Function.update_apply, F, histories k ne, histories j eq]
  | @other E σ' step still =>
    obtain ⟨σ, history⟩ := E
    -- What is left is to make the same step of the runtime.
    have goes : ∀ {ρ : Runtime}, Runtime.Step ⟨t, strands, log⟩ ρ → ρ.store.slots = t.slots →
        σ'.store.SameBut i ρ.store → ρ.strands = σ'.strands → ρ.log = σ'.log →
        ∃ F', Relation.ReflGen Step ⟨⟨t, strands, log⟩, history'⟩ F' ∧
          SameBut i ⟨σ', history⟩ F' := fun step' still' store' strands' log' =>
      ⟨_, .single (.other _ step' still'), store', strands', log', histories⟩
    cases step with
    | turn s rest log run role c worker =>
      cases same
      cases same'
      have quiet : c.registers? s = none := by
        cases registers : c.registers? s with
        | none => rfl
        | some r =>
          obtain ⟨-, -, -, -, callbacks⟩ := c.step_registers worker registers
          have size := congrArg Array.size callbacks
          rw [Array.size_push, Store.size_callbacks, Store.size_callbacks] at size
          exact absurd (size.symm.trans (congrArg Array.size still)) (Nat.succ_ne_self _)
      have recorded : c.recorded s history = history := by simp [Config.recorded, quiet]
      have twin : SameBut i ⟨Runtime.turn worker run role c ⟨s, rest, log⟩, c.recorded s history⟩
          ⟨Runtime.turn worker run role c ⟨t, rest, log⟩, c.recorded t history'⟩ :=
        SameBut.turn store histories known run role c worker (looks (Multiset.mem_cons_self _ _))
      rw [recorded] at twin
      exact ⟨_, .single (.turn ..), twin⟩
    | begin _ effect kept context =>
      cases same
      cases same'
      obtain ⟨size, others⟩ := store
      exact goes (.begin _ effect kept context) rfl ((Store.SameBut.mk _ size others).freshToken.emit _)
        rfl rfl
    | beginBelow _ parent lt effect kept context =>
      cases same
      cases same'
      obtain ⟨size, others⟩ := store
      exact goes (.beginBelow _ parent (by exact lt) effect kept context) rfl
        (((Store.SameBut.mk _ size others).childToken parent).emit _) rfl rfl
    | poll s rest log run role segment =>
      cases same
      cases same'
      exact goes (.poll ..) rfl store rfl rfl
    | report s rest log run task state result ended =>
      cases same
      cases same'
      exact goes (.report t rest log run task state result ended) (Store.slots_finish ..)
        (store.finish task result) rfl rfl
    | giveUp s rest log r segment live unstarted =>
      cases same
      cases same'
      exact goes (.giveUp t rest log r segment live unstarted) (slots_giveUp ..)
        (store.giveUp r) rfl rfl
    | cancel _ k =>
      cases same
      cases same'
      exact goes (.cancel _ k) (Store.slots_cancel ..) (store.cancel k) rfl rfl
    | fresh =>
      cases same
      cases same'
      exact goes (.fresh _) rfl store.freshToken rfl rfl
    | child _ parent lt =>
      cases same
      cases same'
      obtain ⟨size, others⟩ := store
      exact goes (.child _ parent (by exact lt)) rfl ((Store.SameBut.mk _ size others).childToken parent) rfl rfl
    | prune _ held keeps =>
      cases same
      cases same'
      obtain ⟨size, others⟩ := store
      exact goes (.prune _ held keeps) rfl ((Store.SameBut.mk _ size others).withTokens _) rfl rfl
    | outside _ s outside =>
      cases same
      cases same'
      cases store with | @mk slots ready woken size others =>
      have beside : s.SameBut i { s with slots } :=
        .mk s (still ▸ size) fun k ne => still ▸ others k ne
      have allowed : Runtime.Outside
          ⟨{ σ.store with slots, ready, mainWoken := woken }, σ.strands, σ.log⟩
          { s with slots } :=
        ⟨outside.tokens, outside.brackets, outside.trace, outside.joins, outside.joined⟩
      exact goes (.outside _ _ allowed) rfl beside rfl rfl

theorem SameBut.steps (reach : E.Reachable) (h : E.SameBut i F) (known : i < E.store.slots.size)
    (idle : E.Idle i) (steps : Steps E E') : ∃ F', Steps F F' ∧ E'.SameBut i F' := by
  induction steps using Relation.ReflTransGen.head_induction_on generalizing F with
  | refl => exact ⟨F, .refl, h⟩
  | head step steps ih =>
    obtain ⟨F₁, first, same⟩ := h.step known idle step
    obtain ⟨F', rest, same'⟩ := ih (.tail reach step) same
      (Nat.lt_of_lt_of_le known (step.size_le reach.kept)) (idle.step reach known step)
    exact ⟨F', first.to_reflTransGen.trans rest, same'⟩

/-! ## The protocol -/

/-- What the histories decide at a moment of a run. -/
structure SingleShot (E : Exchange) : Prop where
  /-- A registration is not even invoked by a loop that is cancelled. -/
  refused : ∀ {c : Config} {loop : Loop} {r : Registration}, c.focus = .eval loop (.async r) →
    E.store.isCancelled loop.env.token = true → ∀ worker,
    c.step worker E.store = (.next ⟨.unwind loop .canceled, c.callers⟩, E.store)
  /-- Otherwise the loop waits for a new callback, unless the registration faults. -/
  registered : ∀ {c : Config} {loop : Loop} {r : Registration}, c.focus = .eval loop (.async r) →
    E.store.isCancelled loop.env.token = false → ∀ worker,
    (c.step worker E.store).1 = (match r.fault? with
      | some f => .faulted f
      | none => .next ⟨.resume (.callback loop E.store.slots.size), c.callers⟩) ∧
    c.recorded E.store E.history = Function.update E.history E.store.slots.size r.dealings
  /-- The first completion comes before the loss of every clone, and that before a cancellation. -/
  polled : ∀ {c : Config} {loop : Loop} {i : Nat}, c.focus = .resume (.callback loop i) →
    i < E.store.slots.size → ∀ worker,
    (c.step worker E.store).1 = match (E.history i).first? with
      | some result => .next ⟨.unwind loop (.ofExcept result), c.callers⟩
      | none =>
        if (E.history i).held = 0 then .faulted .callbackDropped
        else if E.store.isCancelled loop.env.token then .next ⟨.unwind loop .canceled, c.callers⟩
        else .next ⟨.park (.callback loop i), c.callers⟩
  /-- A completion is a fault of whoever makes it if it is not the first, and changes nothing. -/
  completed : ∀ {i : Nat}, i < E.store.slots.size → ∀ result,
    match (E.history i).first? with
      | some _ => E.store.deal i (.complete result) = (.error .callbackRepeated, E.store)
      | none => (E.store.deal i (.complete result)).1 = .ok ()
  /-- So it is when a task makes completions when they are due. -/
  task : ∀ {i : Nat}, i < E.store.slots.size → ∀ worker since rest,
    (Job.complete worker i since rest E.store).1
      = match ((E.history i).attempt (Job.due since E.store.now rest)).1 with
        | some f => .faulted f none
        | none => match Job.leftover since E.store.now rest with
          | [] => .ended (.succeeded .null) none
          | left => .parked (.completer i (some since) left)
  /-- No two loops wait for one callback. -/
  alone : ∀ {run run' : TokenId} {loop loop' : Loop} {i : Nat}, E.Waits run loop i →
    E.Waits run' loop' i → run' = run ∧ loop' = loop
  /-- Whatever is done with a callback, all else is as it was. -/
  beside : ∀ i d, E.SameBut i (E.deal i d)

/-- What stays so in a run. -/
structure Lasting (E E' : Exchange) : Prop where
  first : ∀ {i result}, (E.history i).first? = some result →
    (E'.history i).first? = some result
  /-- A loop waits, until it stops once and for all. -/
  await : ∀ {run loop i}, E.Waits run loop i → E'.Waits run loop i ∨
    ∃ E₁ E₂, Steps E E₁ ∧ E₁.Waits run loop i ∧ Step E₁ E₂ ∧ Resumed E₁ E₂ run loop i ∧
      Steps E₂ E' ∧ E'.Idle i
  idle : ∀ {i}, i < E.store.slots.size → E.Idle i → E'.Idle i
  /-- What is done with a callback that nobody waits for has no effect on anything else. -/
  unaffected : ∀ {i F}, i < E.store.slots.size → E.Idle i → E.SameBut i F →
    ∃ F', Steps F F' ∧ E'.SameBut i F'

theorem Reachable.singleShot (h : E.Reachable) : E.SingleShot where
  refused {c loop r} focus cancelled worker := by
    obtain ⟨focus', callers⟩ := c
    cases focus
    simp [Config.step, Machine.evalStep, Machine.atPoint, cancelled, Machine.unwind]
  registered {c loop r} focus live worker := by
    have registers : c.registers? E.store = some r := by
      simp [Config.registers?, focus, live, Effect.registration?]
    obtain ⟨loop', focus', -, came, -⟩ := c.step_registers worker registers
    cases focus.symm.trans focus'
    exact ⟨came, by rw [Config.recorded, registers]⟩
  polled focus known worker := h.kept.poll known worker focus
  completed {i} known result := by
    have here := E.store.callback_slot (h.kept.dealt i known)
    cases first : (E.history i).first? with
    | some delivered =>
      have repeated := Callback.complete_dealt_of_some result first
      simp [Store.deal, Store.completeCallback, here, repeated]
    | none =>
      have delivers := Callback.complete_dealt_of_none result first
      simp [Store.deal, Store.completeCallback, here, delivers]
  task {i} known worker since rest :=
    (Job.complete_deals (h.kept.dealt i known) worker since rest).1
  alone waits waits' := h.apart.alone waits waits'
  beside i d := E.sameBut_deal i d

/-- Callbacks are single-shot, whatever is done with their clones, and whenever. -/
theorem Reachable.single_shot (h : E.Reachable) :
    E.SingleShot ∧ ∀ {E'}, Steps E E' → E.Lasting E' := by
  refine ⟨h.singleShot, fun {E'} steps => ?_⟩
  have reach : ∀ {E₁}, Steps E E₁ → E₁.Reachable := fun steps₁ =>
    Relation.ReflTransGen.trans h steps₁
  refine ⟨fun {i result} first => ?_, fun waits => Steps.await h waits steps,
    fun {i} known idle => ?_, fun {i F} known idle same => same.steps h known idle steps⟩
  · induction steps with
    | refl => exact first
    | tail steps step ih => exact step.first? (reach steps).kept ih
  · induction steps with
    | refl => exact idle
    | tail steps step ih =>
      exact ih.step (reach steps) (Nat.lt_of_lt_of_le known (Steps.size_le h steps)) step

/-- A turn of the only strand. -/
theorem step_lone {worker : Worker} {s s' : Store} {c c' : Config} {log : List Moment}
    {es : List Event} {history : Nat → History} (h : c.step worker s = (.next c', s'))
    (trace : s'.trace = es ++ s.trace) (spawned : s'.spawned = s.spawned) :
    Step ⟨Runtime.lone s c log, history⟩
      ⟨Runtime.lone s' c' ((es.filter Event.isMark).map (.of 0 s) ++ log), c.recorded s history⟩ := by
  have same : Runtime.turn worker 0 .root c ⟨s, 0, log⟩
      = Runtime.lone s' c' ((es.filter Event.isMark).map (.of 0 s) ++ log) := by
    have trace : (c.step worker s).2.trace = es ++ s.trace := by rw [h]; exact trace
    have spawned : (c.step worker s).2.spawned = [] ++ s.spawned := by rw [h]; exact spawned
    rw [Runtime.turn_eq trace spawned, h]
    rfl
  exact same ▸ .turn s 0 log 0 .root c worker history

/-- The only strand goes on with what was delivered. -/
theorem exists_step_lone {s : Store} {log : List Moment} {history : Nat → History}
    {result : Result} (worker : Worker)
    (kept : Kept ⟨Runtime.lone s ⟨.resume (.callback loop i), []⟩ log, history⟩)
    (known : i < s.slots.size) (first : (history i).first? = some result) :
    ∃ E', Step ⟨Runtime.lone s ⟨.resume (.callback loop i), []⟩ log, history⟩ E' ∧
      E'.history = history ∧ (0, ⟨loop, .unwinding (.ofExcept result)⟩) ∈ E'.runtime.crew := by
  let c : Config := ⟨.resume (.callback loop i), []⟩
  have focus : c.focus = .resume (.callback loop i) := rfl
  have came := kept.poll known worker focus
  rw [first] at came
  have came : (c.step worker s).1 = .next ⟨.unwind loop (.ofExcept result), []⟩ := came
  have inside : ⟨.outer, .fiber ⟨loop, .unwinding (.ofExcept result)⟩⟩
      ∈ (c.step worker s).1.berths := by
    rw [came]
    exact Multiset.mem_add.mpr (.inl (Multiset.mem_singleton_self _))
  exact ⟨_, .turn s 0 log 0 .root c worker history, rfl, Runtime.mem_crew_turn inside⟩

/-- Two clones of a callback complete it while a loop waits for it: the loop goes on with what the
first has delivered, and the second completion is a fault. -/
theorem single_shot_completed_twice : ∃ (E E' : Exchange) (a b : Value), a ≠ b ∧ E.Reachable ∧
    E.SingleShot ∧ E.Waits 0 Runtime.outermost 0 ∧ Steps E E' ∧ E.Lasting E' ∧
    E'.history 0 = [.complete (.ok b), .complete (.ok a), .drop, .clone] ∧
    (E'.store.deal 0 (.complete (.ok b))).1 = .error .callbackRepeated ∧
    (0, ⟨Runtime.outermost, .unwinding (.succeeded a)⟩) ∈ E'.runtime.crew ∧ E'.Idle 0 := by
  let worker : Worker := ⟨1, "main"⟩
  let registration : Registration := { held := true }
  let effect : Effect := .async registration
  let loop := Runtime.outermost
  let s := (Runtime.starting effect Context.home).store
  let begins : Config := ⟨.resume (.start loop effect), []⟩
  let c : Config := ⟨.eval loop effect, []⟩
  have first : Step {} ⟨Runtime.starting effect Context.home, fun _ => []⟩ :=
    .other {} (.begin {} effect [] Context.home) rfl
  have second : Step ⟨Runtime.starting effect Context.home, fun _ => []⟩
      ⟨Runtime.lone s begins [], fun _ => []⟩ := .other _ (.poll s 0 [] 0 .root _) rfl
  have begun : Reachable ⟨Runtime.lone s begins [], fun _ => []⟩ := .tail (.single first) second
  have starts : begins.step worker s = (.next c, s) := rfl
  have none : s.trace = [] ++ s.trace := rfl
  have begun : Reachable ⟨Runtime.lone s c [], begins.recorded s fun _ => []⟩ :=
    begun.tail ((step_lone starts none rfl))
  -- The loop has registered.
  let s₁ := (c.step worker s).2
  let resumed : Config := ⟨.resume (.callback loop 0), []⟩
  let marks : List Moment := [.of 0 s (.entered 0 .registration)]
  let E : Exchange := ⟨Runtime.lone s₁ resumed marks, c.recorded s fun _ => []⟩
  have registers : c.step worker s = (.next resumed, s₁) := rfl
  have entered : s₁.trace = [.entered 0 .registration] ++ s.trace := rfl
  have reach : E.Reachable := begun.tail (step_lone registers entered rfl)
  let E₁ := E.deal 0 (.complete (.ok (.int 1)))
  let E₂ := E₁.deal 0 (.complete (.ok (.int 2)))
  have size : E.store.slots.size = 1 := rfl
  have once : Step E E₁ := .deal E 0 _ (by rw [size]; exact Nat.one_pos) Nat.one_pos
  have size₁ : E₁.store.slots.size = 1 := rfl
  have twice : Step E₁ E₂ := .deal E₁ 0 _ (by rw [size₁]; exact Nat.one_pos) Nat.one_pos
  have known : 0 < E₂.store.slots.size := Nat.lt_of_lt_of_le (by rw [size]; exact Nat.one_pos)
    (Steps.size_le reach (.tail (.single once) twice))
  have reach₂ : E₂.Reachable := .tail (.tail reach once) twice
  obtain ⟨E', goes, histories, goesOn⟩ := exists_step_lone worker reach₂.kept known rfl
  have steps : Steps E E' := .tail (.tail (.single once) twice) goes
  have reach' : E'.Reachable := .tail reach₂ goes
  have known' := Nat.lt_of_lt_of_le known (goes.size_le reach₂.kept)
  have repeated := reach'.singleShot.completed known' (.ok (.int 2))
  rw [histories] at repeated
  have waits : E.Waits 0 loop 0 := Runtime.mem_crew_lone (Multiset.mem_singleton_self _)
  obtain ⟨single, lasting⟩ := reach.single_shot
  have lasts := lasting steps
  refine ⟨E, E', .int 1, .int 2, by decide, reach, single, waits, steps, lasts, congrFun histories 0,
    congrArg Prod.fst repeated, goesOn, ?_⟩
  obtain there | ⟨-, -, -, -, -, -, -, idle⟩ := lasts.await waits
  · have manned := Runtime.Reachable.manned reach'.runtime
    cases congrArg Prod.snd (manned.unique there goesOn rfl)
  · exact idle

end Exchange

end EffectFibers
