import EffectFibers.Proofs.Relays

/-!
# Shifting changes where, never what

A run of a sequential effect that is alone and is not cancelled does the same with and without
shifts, to whatever contexts that accept tasks, if timers are on.  At any moment each of the two can
do what the other one does, whatever the surroundings do, and they come to the same result
(`Runtime.Alone.Bisimulation`).

## Main definitions

* `Runtime.solo`: a run of an effect, and nothing else.
* `Runtime.Alone.Bisimilar`: the runs have done the same and can go on to do the same.
* `Runtime.Alone.Gives`: what a run can come to, with what it has done by then.

## Main statements

* `Effect.Moved.unaffected`: shifts put in make no difference.
-/

namespace EffectFibers

/-! ## The surroundings -/

/-- What a dealing makes of a callback. -/
def Dealing.make (c : Callback) : Dealing → Except Fault Callback
  | .clone => .ok c.clone
  | .drop => .ok c.drop
  | .complete result => c.complete result

namespace Influence

variable {s t : Store} {base : TokenId}

/-- What an influence makes of what a run has done. -/
def onRecord : Influence → Record → Record
  | .tick time, w => { w with now := time }
  | .deal slot d, w =>
    match d.make ((w.callbacks[slot]?).getD {}) with
    | .ok c => { w with callbacks := w.callbacks.setIfInBounds slot c }
    | .error _ => w

theorem record_on (i : Influence) (s : Store) : (i.on s).record = i.onRecord s.record := by
  cases i with
  | tick time => exact Store.record_of_bare (Store.bare_wakeAll _ _)
  | deal slot d =>
    simp only [on, onRecord, ← s.callback_slot_record]
    cases d with
    | clone => exact s.record_holdCallback slot
    | drop => exact s.record_dropCallback slot
    | complete result =>
      simp only [Store.deal, Store.completeCallback, Dealing.make]
      cases (s.slot slot).callback.complete result with
      | error f => rfl
      | ok c => exact s.record_updateCallback slot c

theorem record_congr (i : Influence) (same : s.record = t.record) :
    (i.on s).record = (i.on t).record := by
  rw [record_on, record_on, same]

theorem live (i : Influence) (h : s.record.Live base) : (i.on s).record.Live base := by
  rw [record_on]
  cases i with
  | tick time => exact ⟨h.timed, h.known, h.live⟩
  | deal slot d =>
    simp only [onRecord]
    split
    · exact ⟨h.timed, h.known, h.live⟩
    · exact h

end Influence

/-! ## What loops can be doing that were moved -/

section

variable {base : TokenId} {c c' d : Config} {cs cs' : List Caller} {st st' : Standing}

theorem Caller.AllMoved.single (h : Caller.AllMoved base cs cs') :
    (∀ k ∈ cs, k.Single) ∧ ∀ k ∈ cs', k.Single := by
  induction h with
  | nil => exact ⟨List.forall_mem_nil _, List.forall_mem_nil _⟩
  | cons caller rest ih =>
    obtain ⟨left, right⟩ := ih
    cases caller with
    | acquiring | releasing =>
      exact ⟨List.forall_mem_cons.mpr ⟨trivial, left⟩, List.forall_mem_cons.mpr ⟨trivial, right⟩⟩

theorem Config.Level.plain (h : c.Level base c') : c.Plain ∧ c'.Plain := by
  cases h with
  | eval loop effect callers =>
    obtain ⟨left, right⟩ := callers.single
    cases effect with
    | shift context isOpen => exact ⟨⟨isOpen, left⟩, ⟨isOpen, right⟩⟩
    | _ => exact ⟨⟨trivial, left⟩, ⟨trivial, right⟩⟩
  | unwind _ _ _ callers | done _ _ callers | leave _ callers | callback _ _ callers
  | future _ _ callers =>
    obtain ⟨left, right⟩ := callers.single
    exact ⟨⟨trivial, left⟩, ⟨trivial, right⟩⟩

/-- Both have ended, or neither has. -/
theorem Config.Level.joined (h : c.Level base c') :
    Standing.joined? (.stands c') = Standing.joined? (.stands c) := by
  cases h with
  | leave x callers => cases callers <;> rfl
  | eval | unwind | done | callback | future => rfl

/-- A loop on the way to a shift. -/
structure Config.Passing (c d : Config) : Prop where
  plain : c.focus.Plain
  callers : d.callers = c.callers
  settled : d.settled = d
  unsettled : Standing.joined? (.stands c) = none

theorem Config.Hop.passing (h : c.Hop base d) : c.Passing d := by
  cases h with
  | calm h => cases h <;> exact ⟨trivial, rfl, rfl, rfl⟩
  | shift loop context isOpen own cs => exact ⟨isOpen, rfl, rfl, rfl⟩

theorem Config.Hop.plain (h : c.Hop base d) (plain : d.Plain) : c.Plain :=
  ⟨h.passing.plain, h.passing.callers ▸ plain.single⟩

theorem Config.Hops.plain (h : c.Hops base d) (plain : d.Plain) : c.Plain := by
  induction h using Relation.ReflTransGen.head_induction_on with
  | refl => exact plain
  | head hop _ ih => exact hop.plain ih

theorem Standing.Moved.plain (h : st.Moved base st') : st.Plain ∧ st'.Plain := by
  cases h with
  | faulted => exact ⟨trivial, trivial⟩
  | stands h =>
    obtain ⟨d, hops, level⟩ := h
    exact ⟨level.plain.1, hops.plain level.plain.2⟩

end

/-! ## Bisimulations of runs that are alone -/

namespace Runtime

/-- A run of an effect begins, and there is nothing else. -/
def solo (s : Store) (effect : Effect) (kept : List TokenId) (context : Context) : Runtime :=
  begin ⟨s, 0, []⟩ s.freshToken effect kept context

namespace Alone

/-- Steps of the run around what the surroundings do. -/
def Weakly (who : Strand → Worker → Prop) : Option Influence → Runtime → Runtime → Prop
  | none, σ, σ' => Quietly who σ σ'
  | some i, σ, σ' => ∃ σ₁ σ₂, Quietly who σ σ₁ ∧ Alone who (some i) σ₁ σ₂ ∧ Quietly who σ₂ σ'

/-- The two have done the same at any moment, each can do what the other one does, and they come to
the same result. -/
structure Bisimulation (who who' : Strand → Worker → Prop) (R : Runtime → Runtime → Prop) :
    Prop where
  record : ∀ {σ τ}, R σ τ → σ.store.record = τ.store.record
  forth : ∀ {σ τ i σ'}, R σ τ → Alone who i σ σ' → ∃ τ', Weakly who' i τ τ' ∧ R σ' τ'
  back : ∀ {σ τ i τ'}, R σ τ → Alone who' i τ τ' → ∃ σ', Weakly who i σ σ' ∧ R σ' τ'
  resolves : ∀ {σ τ result}, R σ τ → σ.Resolves result →
    ∃ τ', Quietly who' τ τ' ∧ τ'.store.record = τ.store.record ∧ τ'.Resolves result
  resolved : ∀ {σ τ result}, R σ τ → τ.Resolves result →
    ∃ σ', Quietly who σ σ' ∧ σ'.store.record = σ.store.record ∧ σ'.Resolves result
  agree : ∀ {σ τ x y}, R σ τ → σ.Resolves x → τ.Resolves y → x = y

def Bisimilar (who who' : Strand → Worker → Prop) (σ τ : Runtime) : Prop :=
  ∃ R, Bisimulation who who' R ∧ R σ τ

end Alone

/-- The runs have done the same, and the second has the same ahead of it behind shifts. -/
inductive Alongside (base : TokenId) (σ τ : Runtime) : Prop
  | mk (st st' : Standing) (left : Relay σ st) (right : Relay τ st') (moved : st.Moved base st')
      (same : σ.store.record = τ.store.record) (live : σ.store.record.Live base)

end Runtime

section

variable {base : TokenId} {c c' d : Config} {st st' : Standing} {σ σ' τ τ' : Runtime}
  {worker worker' : Worker} {i : Option Influence} {result : Joined} {s t : Store}
  {who who' : Strand → Worker → Prop}

/-- A stride of a shift cannot be seen. -/
theorem Relay.Strides.hop (h : Relay.Strides τ' worker c s) (hop : c.Hop base d)
    (live : s.record.Live base) : Relay τ' (.stands d) ∧ τ'.store.record = s.record := by
  obtain ⟨s', stride, record⟩ := hop.stride worker live
  obtain ⟨relay, same⟩ := h
  rw [stride] at relay same
  exact ⟨hop.passing.settled ▸ relay, same.trans record⟩

/-- A row gets past the shifts. -/
theorem Relay.hops (total : ∀ τ, ∃ worker, who τ worker) (h : Relay τ (.stands c))
    (hops : c.Hops base d) (plain : d.Plain) (live : τ.store.record.Live base) :
    ∃ τ', Runtime.Quietly who τ τ' ∧ τ'.store.record = τ.store.record ∧ Relay τ' (.stands d) := by
  induction hops using Relation.ReflTransGen.head_induction_on generalizing τ with
  | refl => exact ⟨τ, .refl, rfl, h⟩
  | head hop rest ih =>
    have ahead := hop.plain (Config.Hops.plain rest plain)
    obtain ⟨τ₁, worker, τ₂, steps, record, step, strides⟩ := h.next total ahead hop.passing.unsettled
    have live₁ : τ₁.store.record.Live base := record ▸ live
    obtain ⟨relay, record'⟩ := strides.hop hop live₁
    have record₂ := record'.trans record
    obtain ⟨τ', steps', record'', relay'⟩ := ih relay (record₂ ▸ live)
    exact ⟨τ', (steps.tail step).trans steps', record''.trans record₂, relay'⟩

/-- Strides of loops that do the same keep two runs alongside. -/
theorem Relay.Strides.alongside (left : Relay.Strides σ' worker c s)
    (right : Relay.Strides τ' worker' d t) (level : c.Level base d) (same : s.record = t.record)
    (live : s.record.Live base) : Runtime.Alongside base σ' τ' := by
  obtain ⟨moved, record, live'⟩ := level.stride same live worker worker'
  refine ⟨_, _, left.relay, right.relay, moved, ?_, left.record ▸ live'⟩
  rw [left.record, right.record, record]

namespace Runtime.Alongside

section

variable (total : ∀ τ, ∃ worker, who' τ worker)
include total

theorem forth (h : Alongside base σ τ) (step : Alone who i σ σ') :
    ∃ τ', Alone.Weakly who' i τ τ' ∧ Alongside base σ' τ' := by
  obtain ⟨st, st', left, right, moved, same, live⟩ := h
  cases left.step moved.plain.1 step with
  | still relay record => exact ⟨τ, .refl, st, st', relay, right, moved, record.trans same, record ▸ live⟩
  | told i relay store =>
    have there : Alone who' (some i) τ { τ with store := i.on τ.store } := .influence τ i
    refine ⟨_, ⟨_, _, .refl, there, .refl⟩, st, st', relay, ?_, moved, ?_, ?_⟩
    · have told := i.same τ.store
      exact right.aside told.joins.ge fun t _ _ => told.joined t
    · rw [store]
      exact i.record_congr same
    · rw [store]
      exact i.live live
  | strides worker c stands unsettled strides =>
    subst stands
    cases moved with
    | @stands _ c' moved =>
      obtain ⟨d, hops, level⟩ := moved
      obtain ⟨τ₁, steps, record, right⟩ := right.hops total hops level.plain.2 (same ▸ live)
      obtain ⟨τ₂, worker', τ', steps', record', step', strides'⟩ :=
        right.next total level.plain.2 (level.joined.trans unsettled)
      have same' := same.trans (record'.trans record).symm
      exact ⟨τ', (steps.trans steps').tail step', strides.alongside strides' level same' live⟩

/-- The second comes to what the first has come to. -/
theorem resolves (h : Alongside base σ τ) (came : σ.Resolves result) :
    ∃ τ', Quietly who' τ τ' ∧ τ'.store.record = τ.store.record ∧ τ'.Resolves result := by
  obtain ⟨st, st', left, right, moved, same, live⟩ := h
  have joined := left.resolved came
  cases moved with
  | faulted f => exact right.resolves total trivial joined
  | stands moved =>
    obtain ⟨d, hops, level⟩ := moved
    obtain ⟨τ₁, steps, record, right⟩ := right.hops total hops level.plain.2 (same ▸ live)
    obtain ⟨τ', steps', record', resolves⟩ :=
      right.resolves total level.plain.2 (level.joined.trans joined)
    exact ⟨τ', steps.trans steps', record'.trans record, resolves⟩

end

section

variable (total : ∀ τ, ∃ worker, who τ worker)
include total

theorem back (h : Alongside base σ τ) (step : Alone who' i τ τ') :
    ∃ σ', Alone.Weakly who i σ σ' ∧ Alongside base σ' τ' := by
  obtain ⟨st, st', left, right, moved, same, live⟩ := h
  cases right.step moved.plain.2 step with
  | still relay record => exact ⟨σ, .refl, st, st', left, relay, moved, same.trans record.symm, live⟩
  | told i relay store =>
    have here : Alone who (some i) σ { σ with store := i.on σ.store } := .influence σ i
    refine ⟨_, ⟨_, _, .refl, here, .refl⟩, st, st', ?_, relay, moved, ?_, i.live live⟩
    · have told := i.same σ.store
      exact left.aside told.joins.ge fun t _ _ => told.joined t
    · rw [store]
      exact i.record_congr same
  | strides worker' c' stands unsettled strides' =>
    subst stands
    cases moved with
    | @stands c _ moved =>
      obtain ⟨d, hops, level⟩ := moved
      cases hops using Relation.ReflTransGen.head_induction_on with
      | refl =>
        obtain ⟨σ₁, worker, σ', steps, record, step', strides⟩ :=
          left.next total level.plain.1 (level.joined.symm.trans unsettled)
        have same' := record.trans same
        exact ⟨σ', steps.tail step', strides.alongside strides' level same' (record ▸ live)⟩
      | head hop rest =>
        obtain ⟨relay, record⟩ := strides'.hop hop (same ▸ live)
        exact ⟨σ, .refl, _, _, left, relay, .stands ⟨d, rest, level⟩, same.trans record.symm, live⟩

end

/-- The first has come to what the second has come to. -/
theorem joined (h : Alongside base σ τ) (came : τ.Resolves result) :
    ∃ st, Relay σ st ∧ st.Plain ∧ st.joined? = some result := by
  obtain ⟨st, st', left, right, moved, same, live⟩ := h
  have joined := right.resolved came
  refine ⟨st, left, moved.plain.1, ?_⟩
  cases moved with
  | faulted f => exact joined
  | stands moved =>
    obtain ⟨d, hops, level⟩ := moved
    cases hops using Relation.ReflTransGen.head_induction_on with
    | refl => exact level.joined.symm.trans joined
    | head hop => cases hop.passing.unsettled.symm.trans joined

theorem agree (h : Alongside base σ τ) {x y : Joined} (left : σ.Resolves x) (right : τ.Resolves y) :
    x = y := by
  obtain ⟨st, relay, -, came⟩ := h.joined right
  exact Option.some.inj ((relay.resolved left).symm.trans came)

/-- The first comes to what the second has come to. -/
theorem resolved (total : ∀ τ, ∃ worker, who τ worker) (h : Alongside base σ τ)
    (came : τ.Resolves result) :
    ∃ σ', Quietly who σ σ' ∧ σ'.store.record = σ.store.record ∧ σ'.Resolves result := by
  obtain ⟨st, relay, plain, joined⟩ := h.joined came
  exact relay.resolves total plain joined

theorem bisimulation (total : ∀ τ, ∃ worker, who τ worker) (total' : ∀ τ, ∃ worker, who' τ worker) :
    Alone.Bisimulation who who' (Alongside base) where
  record h := by
    obtain ⟨st, st', left, right, moved, same, live⟩ := h
    exact same
  forth h step := h.forth total' step
  back h step := h.back total step
  resolves h came := h.resolves total' came
  resolved h came := h.resolved total came
  agree h := h.agree

end Runtime.Alongside

end

/-! ## What bisimilar runs come to -/

namespace Runtime.Alone

variable {who who' : Strand → Worker → Prop} {R : Runtime → Runtime → Prop} {σ σ' τ : Runtime}

/-- The run goes on while the surroundings do one thing after the other. -/
def Course (who : Strand → Worker → Prop) : List Influence → Runtime → Runtime → Prop
  | [], σ, σ' => Quietly who σ σ'
  | i :: rest, σ, σ'' => ∃ σ', Weakly who (some i) σ σ' ∧ Course who rest σ' σ''

/-- The run can come to a result and have done something by then. -/
def Gives (who : Strand → Worker → Prop) (influences : List Influence) (σ : Runtime)
    (result : Joined) (record : Record) : Prop :=
  ∃ σ', Course who influences σ σ' ∧ σ'.Resolves result ∧ σ'.store.record = record

theorem Course.tail {influences : List Influence} {σ'' : Runtime} (h : Course who influences σ σ')
    (steps : Quietly who σ' σ'') : Course who influences σ σ'' := by
  induction influences generalizing σ with
  | nil => exact Relation.ReflTransGen.trans h steps
  | cons i rest ih =>
    obtain ⟨σ₁, first, rest⟩ := h
    exact ⟨σ₁, first, ih rest⟩

namespace Bisimulation

theorem symm (b : Bisimulation who who' R) : Bisimulation who' who (flip R) where
  record r := (b.record r).symm
  forth r step := b.back r step
  back r step := b.forth r step
  resolves r came := b.resolved r came
  resolved r came := b.resolves r came
  agree r left right := (b.agree r right left).symm

theorem quietly (b : Bisimulation who who' R) (r : R σ τ) (steps : Quietly who σ σ') :
    ∃ τ', Quietly who' τ τ' ∧ R σ' τ' := by
  induction steps with
  | refl => exact ⟨τ, .refl, r⟩
  | tail _ step ih =>
    obtain ⟨τ₁, steps, r₁⟩ := ih
    obtain ⟨τ', more, r'⟩ := b.forth r₁ step
    exact ⟨τ', steps.trans more, r'⟩

theorem weakly (b : Bisimulation who who' R) (r : R σ τ) {i : Influence}
    (steps : Weakly who (some i) σ σ') : ∃ τ', Weakly who' (some i) τ τ' ∧ R σ' τ' := by
  obtain ⟨σ₁, σ₂, before, step, after⟩ := steps
  obtain ⟨τ₁, before', r₁⟩ := b.quietly r before
  obtain ⟨τ₂, ⟨τ₃, τ₄, first, step', last⟩, r₂⟩ := b.forth r₁ step
  obtain ⟨τ', after', r'⟩ := b.quietly r₂ after
  exact ⟨τ', ⟨τ₃, τ₄, before'.trans first, step', last.trans after'⟩, r'⟩

theorem course (b : Bisimulation who who' R) {influences : List Influence} (r : R σ τ)
    (steps : Course who influences σ σ') : ∃ τ', Course who' influences τ τ' ∧ R σ' τ' := by
  induction influences generalizing σ τ with
  | nil => exact b.quietly r steps
  | cons i rest ih =>
    obtain ⟨σ₁, first, steps⟩ := steps
    obtain ⟨τ₁, first', r₁⟩ := b.weakly r first
    obtain ⟨τ', steps', r'⟩ := ih r₁ steps
    exact ⟨τ', ⟨τ₁, first', steps'⟩, r'⟩

theorem gives (b : Bisimulation who who' R) (r : R σ τ) {influences : List Influence}
    {result : Joined} {record : Record} (h : Gives who influences σ result record) :
    Gives who' influences τ result record := by
  obtain ⟨σ', steps, resolves, rfl⟩ := h
  obtain ⟨τ₁, steps', r'⟩ := b.course r steps
  obtain ⟨τ', more, same, resolves'⟩ := b.resolves r' resolves
  exact ⟨τ', steps'.tail more, resolves', same.trans (b.record r').symm⟩

end Bisimulation

end Runtime.Alone

/-! ## Shifts put in -/

namespace Runtime

/-- A run that begins is a row of one strand. -/
theorem relay_solo (s : Store) (effect : Effect) (kept : List TokenId) (context : Context) :
    Relay (solo s effect kept context)
      (.stands ⟨.eval ⟨⟨s.size, context, kept⟩, []⟩ effect, []⟩) := by
  refine ⟨_, 0, [], [], [], 0, rfl, ⟨.root, rfl, fun t mem => ?_, fun p mem => ?_⟩, rfl⟩
  · cases mem
  · cases mem

end Runtime

/-- Shifts put into a sequential effect, to contexts that accept tasks, make no difference to a run
that is alone and is not cancelled. -/
theorem Effect.Moved.unaffected {e e' : Effect} (h : e.Moved e') (s : Store)
    (timed : s.timed = true) (kept kept' : List TokenId) (context : Context)
    {who who' : Strand → Worker → Prop} (total : ∀ τ, ∃ worker, who τ worker)
    (total' : ∀ τ, ∃ worker, who' τ worker) :
    Runtime.Alone.Bisimilar who who' (.solo s e kept context) (.solo s e' kept' context) ∧
    ∀ influences result record,
      Runtime.Alone.Gives who influences (.solo s e kept context) result record ↔
        Runtime.Alone.Gives who' influences (.solo s e' kept' context) result record := by
  have bisimulation : Runtime.Alone.Bisimulation who who' (Runtime.Alongside s.size) :=
    Runtime.Alongside.bisimulation total total'
  have loop : Loop.Moved s.size ⟨⟨s.size, context, kept⟩, []⟩ ⟨⟨s.size, context, kept'⟩, []⟩ :=
    ⟨rfl, Nat.le_refl _, .nil⟩
  -- No token is cancelled that is not there yet.
  have unborn : s.record.Live s.size :=
    ⟨timed, Nat.le_refl _, fun t le => by
      simp [Store.record, Forest.isCancelled, Array.getElem?_eq_none le]⟩
  have live : (Runtime.solo s e kept context).store.record.Live s.size :=
    unborn.freshToken.emit (.fiberStarted context.name)
  have alongside :
      Runtime.Alongside s.size (.solo s e kept context) (.solo s e' kept' context) :=
    ⟨_, _, Runtime.relay_solo s e kept context, Runtime.relay_solo s e' kept' context,
      .stands (h.evals loop .nil), rfl, live⟩
  exact ⟨⟨_, bisimulation, alongside⟩, fun influences result record =>
    ⟨bisimulation.gives alongside, bisimulation.symm.gives alongside⟩⟩

/-- A sleep in a bracket, in one context throughout or with a context for each of its parts. -/
theorem Effect.Moved.unaffected_bracket : ∃ e e' : Effect, e.Moved e' ∧ e ≠ e' ∧
    Runtime.Alone.Bisimilar (fun _ _ => True) (fun _ _ => True)
      (.solo {} e [] Context.home) (.solo {} e' [] Context.home) := by
  let e : Effect := .bracket Effect.unit (fun _ => sleep 5) fun _ _ => Effect.unit
  let e' : Effect := .bracket (.shift Context.shared) (fun _ => (sleep 5).continueOn Context.shared)
    fun _ _ => (Effect.shift Context.shared).flatMap fun _ => Effect.unit
  have acquired : Moved Effect.unit (.shift Context.shared) := .unit _ rfl
  have slept : Moved (sleep 5) ((sleep 5).continueOn Context.shared) :=
    .after _ rfl rfl (.within (.await _))
  have released : Moved Effect.unit ((Effect.shift Context.shared).flatMap fun _ => Effect.unit) :=
    .before _ rfl rfl (.within (.pure .null))
  have moved : e.Moved e' := .within (.bracket acquired (fun _ => slept) fun _ _ => released)
  have total : ∀ _ : Strand, ∃ _ : Worker, True := fun _ => ⟨⟨1, "main"⟩, trivial⟩
  have differ : e ≠ e' := fun same => by injection same with acquire; cases acquire
  exact ⟨e, e', moved, differ, (moved.unaffected {} rfl [] [] Context.home total total).1⟩

/-- Behind a shift to a closed context nothing is carried out, and the run is canceled. -/
theorem Effect.shift_to_closed_context : ∃ (closed : Context) (s s' : Store),
    Segment.poll ⟨1, "main"⟩ 20 (.start Runtime.outermost (succeed (.int 1)))
      (Runtime.solo {} (succeed (.int 1)) [] Context.home).store
        = (.ended (.succeeded (.int 1)), s) ∧
    Segment.poll ⟨1, "main"⟩ 20 (.start Runtime.outermost ((shift closed).andThen (succeed (.int 1))))
      (Runtime.solo {} ((shift closed).andThen (succeed (.int 1))) [] Context.home).store
        = (.ended .canceled, s') :=
  ⟨{ thread := "dead", isOpen := false }, _, _, rfl, rfl⟩

end EffectFibers
