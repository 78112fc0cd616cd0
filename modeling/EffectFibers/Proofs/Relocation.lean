import EffectFibers.Proofs.AlikeSteps
import EffectFibers.Proofs.Dealings
import EffectFibers.Proofs.Trampoline

/-!
# Effects with shifts put in

A sequential effect that does not look at the thread may be shifted to other contexts at any of its
positions (`Effect.Moved`).  A shift hands what is left of a loop to a task.  `Config.stride` is the
step of a poll in which a shift does no more than change the context of the loop; with it the two
effects can be compared without a look at tasks.

Where one of them does anything that can be seen, the other one has the same ahead of it, and all
that is in between are the steps of shifts (`Config.Hop`).

## Main definitions

* `Store.record`: what a run has done, as far as it does not depend on where.
* `Effect.Moved`: one effect is the other one with shifts put in.
* `Config.Moved`: the polls have the same ahead of them.

## Main statements

* `Config.Hop.stride`: the steps of shifts do nothing that can be seen.
* `Config.Level.stride`: all other steps are the same on both sides, on whatever threads.
-/

namespace EffectFibers

/-! ## What a run has done -/

/-- The event is not one of a shift. -/
def Event.isRecorded : Event → Bool
  | .shifting _ | .entered _ .shift => false
  | _ => true

/-- What a run has done, as far as it does not depend on where. -/
structure Record where
  memory : Memory
  tokens : Forest
  callbacks : Array Callback
  brackets : BracketId
  now : Nat
  timed : Bool
  marks : List Event

/-- Timers are on, and no token from a given one on is cancelled. -/
structure Record.Live (base : TokenId) (w : Record) : Prop where
  timed : w.timed = true
  known : base ≤ w.tokens.nodes.size
  live : ∀ t, base ≤ t → w.tokens.isCancelled t = false

namespace Store

def record (s : Store) : Record where
  memory := s.memory
  tokens := s.tokens
  callbacks := s.callbacks
  brackets := s.brackets
  now := s.now
  timed := s.timed
  marks := s.trace.filter Event.isRecorded

theorem record_of_bare {A B : Store} (same : A.bare = B.bare) : A.record = B.record := by
  have bare : ∀ s : Store, s.bare.record = s.record := fun s => by
    simp [record, Store.bare, callbacks, Function.comp_def]
  rw [← bare A, same, bare B]

section

variable (s : Store)

theorem record_emit (e : Event) : (s.emit e).record
    = if e.isRecorded then { s.record with marks := e :: s.record.marks } else s.record := by
  simp only [record, Store.emit, List.filter_cons, callbacks]
  split <;> rfl

theorem record_updateCallback (i : Nat) (c : Callback) : (s.updateCallback i c).record
    = { s.record with callbacks := s.record.callbacks.setIfInBounds i c } := by
  have same : (s.setSlot i { callback := c }).record
      = { s.record with callbacks := (s.setSlot i { callback := c }).callbacks } := rfl
  rw [record_of_bare (s.bare_updateCallback i c), same, s.callbacks_setSlot]
  rfl

theorem record_holdCallback (i : Nat) : (s.holdCallback i).record
    = { s.record with callbacks := s.record.callbacks.setIfInBounds i (s.slot i).callback.clone } := by
  have same : (s.holdCallback i).record
      = { s.record with callbacks := (s.holdCallback i).callbacks } := rfl
  rw [same, s.callbacks_holdCallback]
  rfl

theorem record_dropCallback (i : Nat) : (s.dropCallback i).record
    = { s.record with callbacks := s.record.callbacks.setIfInBounds i (s.slot i).callback.drop } := by
  have same : (s.setSlot i { callback := (s.slot i).callback.drop }).record
      = { s.record with
        callbacks := (s.setSlot i { callback := (s.slot i).callback.drop }).callbacks } := rfl
  rw [record_of_bare (s.bare_dropCallback i), same, s.callbacks_setSlot]
  rfl

theorem record_spawn (context : Context) (job : Job) : (s.spawn context job).2.record = s.record := by
  unfold Store.spawn
  split <;> rfl

theorem record_watch (worker : Worker) (wait : Wait) : (Machine.watch worker s wait).record = s.record := by
  cases wait with
  | never => rfl
  | deadline time result => rfl
  | cancellation t => exact record_of_bare (s.bare_watchToken t worker.task)

theorem callback_slot_record (i : Nat) :
    (s.slot i).callback = (s.record.callbacks[i]?).getD {} := by
  simp only [record, Store.slot, Store.callbacks, Array.getElem?_map]
  cases s.slots[i]? <;> rfl

theorem record_finish (t : TaskId) (result : Joined) : (s.finish t result).record = s.record := by
  rw [record_of_bare (s.bare_finish t result)]
  rfl

end

section

variable {s t : Store} (same : s.record = t.record)
include same

theorem isCancelled_of_record (u : TokenId) : t.isCancelled u = s.isCancelled u := by
  have tokens : s.tokens = t.tokens := congrArg Record.tokens same
  simp only [Store.isCancelled, tokens]

theorem brackets_of_record : t.brackets = s.brackets := (congrArg Record.brackets same).symm

theorem size_of_record : t.size = s.size := by
  have tokens : s.tokens = t.tokens := congrArg Record.tokens same
  rw [Store.size, Store.size, tokens]

theorem callback_of_record (i : Nat) : (t.slot i).callback = (s.slot i).callback := by
  rw [callback_slot_record, callback_slot_record, same]

theorem site_of_record (thread : String) : (⟨thread, t.time⟩ : Site) = ⟨thread, s.time⟩ := by
  have now : s.now = t.now := congrArg Record.now same
  have timed : s.timed = t.timed := congrArg Record.timed same
  simp only [Store.time, now, timed]

end

end Store

/-! ## Effects -/

namespace Effect

mutual

/-- A sequential effect that does not look at the thread, and the same with shifts put in. -/
inductive Moved : Effect → Effect → Prop
  | within {e e' : Effect} (h : MovedWithin e e') : Moved e e'
  | unit (c : Context) (isOpen : c.isOpen = true) : Moved unit (.shift c)
  | before (c : Context) (isOpen : c.isOpen = true) {e e' : Effect} (built : e.fault? = none)
      (rest : Moved e e') : Moved e (flatMap (.shift c) fun _ => e')
  | after (c : Context) (isOpen : c.isOpen = true) {e e' : Effect} (built : e.fault? = none)
      (rest : Moved e e') : Moved e (e'.continueOn c)

/-- Effects with the same constructor at the top, and shifts put into the parts. -/
inductive MovedWithin : Effect → Effect → Prop
  | pure (v : Value) : MovedWithin (.pure v) (.pure v)
  | fail (e : Value) : MovedWithin (.fail e) (.fail e)
  | fault (f : Fault) : MovedWithin (.fault f) (.fault f)
  | perform (act : Site → Memory → Except Fault Reply × Memory) {next next' : Reply → Effect}
      (blind : ∀ thread thread' time m, act ⟨thread, time⟩ m = act ⟨thread', time⟩ m)
      (rest : ∀ r, Moved (next r) (next' r)) : MovedWithin (.perform act next) (.perform act next')
  | isCancelled (t : TokenId) : MovedWithin (.isCancelled t) (.isCancelled t)
  | map {m m' : Effect} (h : Moved m m') (f : Value → Except Fault Value) :
      MovedWithin (.map m f) (.map m' f)
  | flatMap {m m' : Effect} {f f' : Value → Effect} (h : Moved m m')
      (next : ∀ v, Moved (f v) (f' v)) : MovedWithin (.flatMap m f) (.flatMap m' f')
  | handleErrorWith {m m' : Effect} {f f' : Value → Effect} (h : Moved m m')
      (handler : ∀ v, Moved (f v) (f' v)) :
      MovedWithin (.handleErrorWith m f) (.handleErrorWith m' f')
  | loop (again : Value → Except Fault Bool) {body body' : Value → Effect}
      (h : ∀ v, Moved (body v) (body' v)) (v : Value) :
      MovedWithin (.loop again body v) (.loop again body' v)
  | async (r : Registration) : MovedWithin (.async r) (.async r)
  | await (f : Future) : MovedWithin (.await f) (.await f)
  | shift (c : Context) (isOpen : c.isOpen = true) : MovedWithin (.shift c) (.shift c)
  | bracket {acquire acquire' : Effect} {use use' : Value → Effect}
      {release release' : Value → ExitCase Value → Effect} (h : Moved acquire acquire')
      (used : ∀ v, Moved (use v) (use' v)) (released : ∀ v x, Moved (release v x) (release' v x)) :
      MovedWithin (.bracket acquire use release) (.bracket acquire' use' release')

end

/-- A finalizer that gives up while it is built does so with and without shifts. -/
theorem Moved.built {e e' : Effect} (h : Moved e e') : e'.fault? = e.fault? := by
  cases h with
  | within h => cases h <;> rfl
  | unit => rfl
  | before c isOpen built => exact built.symm
  | after c isOpen built => exact built.symm

end Effect

/-! ## Frames, loops and callers -/

inductive Frame.Moved : Frame → Frame → Prop
  | map (f : Value → Except Fault Value) : Moved (.map f) (.map f)
  | bind {f f' : Value → Effect} (h : ∀ v, (f v).Moved (f' v)) : Moved (.bind f) (.bind f')
  | handle {f f' : Value → Effect} (h : ∀ v, (f v).Moved (f' v)) : Moved (.handle f) (.handle f')
  | again (again : Value → Except Fault Bool) {body body' : Value → Effect}
      (h : ∀ v, (body v).Moved (body' v)) : Moved (.again again body) (.again again body')
  | release (b : BracketId) {f f' : ExitCase Value → Effect} (h : ∀ x, (f x).Moved (f' x)) :
      Moved (.release b f) (.release b f')

/-- Stacks of frames, with the shifts that are still to come in the second. -/
inductive Frame.AllMoved : List Frame → List Frame → Prop
  | nil : AllMoved [] []
  | cons {f f' : Frame} {fs fs' : List Frame} (frame : f.Moved f') (rest : AllMoved fs fs') :
      AllMoved (f :: fs) (f' :: fs')
  | shift (c : Context) (isOpen : c.isOpen = true) {fs fs' : List Frame} (rest : AllMoved fs fs') :
      AllMoved fs (.bind (fun v => (Effect.shift c).mapValue fun _ => v) :: fs')

/-- Loops under the same token, which is not older than the run. -/
structure Loop.Moved (base : TokenId) (l l' : Loop) : Prop where
  token : l'.env.token = l.env.token
  own : base ≤ l.env.token
  stack : Frame.AllMoved l.frames l'.frames

inductive Caller.Moved (base : TokenId) : Caller → Caller → Prop
  | acquiring {l l' : Loop} {use use' : Value → Effect}
      {release release' : Value → ExitCase Value → Effect} (loop : l.Moved base l')
      (used : ∀ v, (use v).Moved (use' v))
      (released : ∀ v x, (release v x).Moved (release' v x)) :
      Moved base (.acquiring l use release) (.acquiring l' use' release')
  | releasing {l l' : Loop} (loop : l.Moved base l') (bracket : BracketId) (outcome : Exit) :
      Moved base (.releasing l bracket outcome) (.releasing l' bracket outcome)

abbrev Caller.AllMoved (base : TokenId) : List Caller → List Caller → Prop :=
  List.Forall₂ (Caller.Moved base)

theorem Loop.Moved.push {base : TokenId} {l l' : Loop} {f f' : Frame} (h : l.Moved base l')
    (frame : f.Moved f') : (l.push f).Moved base (l'.push f') :=
  ⟨h.token, h.own, .cons frame h.stack⟩

/-! ## Where a strand stands -/

/-- Where a strand stands, without the grip of its polls. -/
inductive Standing where
  | stands (c : Config)
  | faulted (f : Fault)
  | dropped

/-- The segment is taken up below the callers. -/
def Segment.unroll : Segment → List Caller → Config
  | .start loop effect, callers => ⟨.eval loop effect, callers⟩
  | .acquiring loop use release inner, callers =>
    inner.unroll (.acquiring loop use release :: callers)
  | .releasing loop bracket outcome inner, callers =>
    inner.unroll (.releasing loop bracket outcome :: callers)
  | segment, callers => ⟨.resume segment, callers⟩

/-- The loop in control, whether the poll has reached it yet, is in it, or has left it again. -/
def Config.settled (c : Config) : Config :=
  match c.focus with
  | .resume segment | .park segment => segment.unroll c.callers
  | .eval .. | .unwind .. | .leave _ => c

def Strand.State.standing : Strand.State → Standing
  | .waiting segment => .stands (segment.unroll [])
  | .running c => .stands c.settled
  | .ended x => .stands ⟨.leave x, []⟩
  | .faulted f => .faulted f
  | .dropped => .dropped

/-- The step of a poll, but that a shift changes the context of the loop and nothing else. -/
def Config.stride (worker : Worker) (c : Config) (s : Store) : Progress × Store :=
  match c.focus with
  | .eval loop (.shift context) =>
    Machine.atPoint s loop c.callers .shift fun s =>
      (Machine.eval { loop with env := loop.env.withContext context } Effect.unit c.callers,
        s.emit (.shifting context.name))
  | _ => c.step worker s

/-! ## Polls -/

/-- Polls that do the same next, in loops with shifts put in. -/
inductive Config.Level (base : TokenId) : Config → Config → Prop
  | eval {l l' : Loop} {e e' : Effect} {cs cs' : List Caller} (loop : l.Moved base l')
      (effect : e.MovedWithin e') (callers : Caller.AllMoved base cs cs') :
      Level base ⟨.eval l e, cs⟩ ⟨.eval l' e', cs'⟩
  | unwind {l l' : Loop} {f f' : Frame} {cs cs' : List Caller} (loop : l.Moved base l')
      (frame : f.Moved f') (x : Exit) (callers : Caller.AllMoved base cs cs') :
      Level base ⟨.unwind (l.push f) x, cs⟩ ⟨.unwind (l'.push f') x, cs'⟩
  | done {env env' : Env} {cs cs' : List Caller} (token : env'.token = env.token) (x : Exit)
      (callers : Caller.AllMoved base cs cs') :
      Level base ⟨.unwind ⟨env, []⟩ x, cs⟩ ⟨.unwind ⟨env', []⟩ x, cs'⟩
  | leave {cs cs' : List Caller} (x : Exit) (callers : Caller.AllMoved base cs cs') :
      Level base ⟨.leave x, cs⟩ ⟨.leave x, cs'⟩
  | callback {l l' : Loop} {cs cs' : List Caller} (loop : l.Moved base l') (slot : Nat)
      (callers : Caller.AllMoved base cs cs') :
      Level base ⟨.resume (.callback l slot), cs⟩ ⟨.resume (.callback l' slot), cs'⟩
  | future {l l' : Loop} {cs cs' : List Caller} (loop : l.Moved base l') (wait : Wait)
      (callers : Caller.AllMoved base cs cs') :
      Level base ⟨.resume (.future l wait), cs⟩ ⟨.resume (.future l' wait), cs'⟩

/-- A stride on the way to a shift, or past it. -/
inductive Config.Hop (base : TokenId) : Config → Config → Prop
  | calm {c d : Config} (h : c.Calm d) : Hop base c d
  | shift (loop : Loop) (context : Context) (isOpen : context.isOpen = true)
      (own : base ≤ loop.env.token) (cs : List Caller) :
      Hop base ⟨.eval loop (.shift context), cs⟩
        ⟨.eval { loop with env := loop.env.withContext context } Effect.unit, cs⟩

abbrev Config.Hops (base : TokenId) : Config → Config → Prop :=
  Relation.ReflTransGen (Config.Hop base)

/-- The second poll has the same ahead of it as the first, behind the strides of shifts. -/
def Config.Moved (base : TokenId) (c c' : Config) : Prop := ∃ d, c'.Hops base d ∧ c.Level base d

inductive Standing.Moved (base : TokenId) : Standing → Standing → Prop
  | stands {c c' : Config} (h : c.Moved base c') : Moved base (.stands c) (.stands c')
  | faulted (f : Fault) : Moved base (.faulted f) (.faulted f)

section

variable {base : TokenId} {c c' d : Config} {l l' : Loop} {cs cs' : List Caller} {s t : Store}

theorem Config.Level.moved (h : c.Level base c') : c.Moved base c' := ⟨c', .refl, h⟩

theorem Config.Moved.head (hop : c'.Hop base d) (h : c.Moved base d) : c.Moved base c' := by
  obtain ⟨d', hops, level⟩ := h
  exact ⟨d', .head hop hops, level⟩

/-- A loop goes over to another context and does not look back before it is there. -/
theorem Config.Moved.shift {context : Context} {f : Frame} (isOpen : context.isOpen = true)
    (own : base ≤ l'.env.token)
    (next : Config.Calm ⟨.unwind ({ l' with env := l'.env.withContext context }.push f)
      (.succeeded .null), cs'⟩ d) (h : c.Moved base d) :
    c.Moved base ⟨.eval (l'.push f) (.shift context), cs'⟩ :=
  .head (.shift (l'.push f) context isOpen own cs')
    (.head (.calm (.pure _ .null cs')) (.head (.calm next) h))

/-- An exit that comes to a stack of frames passes the shifts on top of it. -/
theorem Frame.AllMoved.unwinds {env env' : Env} {fs fs' : List Frame} (h : AllMoved fs fs')
    (token : env'.token = env.token) (own : base ≤ env.token)
    (callers : Caller.AllMoved base cs cs') (x : Exit) :
    Config.Moved base ⟨.unwind ⟨env, fs⟩ x, cs⟩ ⟨.unwind ⟨env', fs'⟩ x, cs'⟩ := by
  induction h generalizing env' with
  | nil => exact Config.Level.moved (.done token x callers)
  | @cons f f' fs fs' frame rest =>
    have loop : Loop.Moved base ⟨env, fs⟩ ⟨env', fs'⟩ := ⟨token, own, rest⟩
    exact Config.Level.moved (.unwind loop frame x callers)
  | @shift c isOpen fs fs' rest ih =>
    cases x with
    | succeeded v =>
      have own' : base ≤ env'.token := by rwa [token]
      have back : Config.Calm ⟨.unwind ⟨env'.withContext c, .map (fun _ => .ok v) :: fs'⟩
          (.succeeded .null), cs'⟩ ⟨.unwind ⟨env'.withContext c, fs'⟩ (.succeeded v), cs'⟩ :=
        .mapped (f := fun _ => .ok v) rfl _ fs' cs'
      have shifts : Config.Moved base ⟨.unwind ⟨env, fs⟩ (.succeeded v), cs⟩
          ⟨.eval (Loop.push ⟨env', fs'⟩ (.map fun _ => .ok v)) (.shift c), cs'⟩ :=
        .shift isOpen own' back (ih token)
      exact .head (.calm (.bound _ v env' _ cs')) (.head (.calm (.map _ _ _ cs')) shifts)
    | errored | canceled => exact .head (.calm (.skipped rfl env' _ cs')) (ih token)

theorem Loop.Moved.unwinds (h : l.Moved base l') (callers : Caller.AllMoved base cs cs') (x : Exit) :
    Config.Moved base ⟨.unwind l x, cs⟩ ⟨.unwind l' x, cs'⟩ :=
  h.stack.unwinds h.token h.own callers x

/-- The shifts in front of an effect are passed. -/
theorem Effect.Moved.evals {e e' : Effect} {l l' : Loop} (h : e.Moved e') (same : l.Moved base l')
    (callers : Caller.AllMoved base cs cs') :
    Config.Moved base ⟨.eval l e, cs⟩ ⟨.eval l' e', cs'⟩ := by
  have own : base ≤ l'.env.token := same.token ▸ same.own
  -- The loop is the same in another context.
  have shifted : ∀ c, l.Moved base { l' with env := l'.env.withContext c } := fun c =>
    ⟨same.token, same.own, same.stack⟩
  match h with
  | .within h => exact Config.Level.moved (.eval same h callers)
  | .unit c isOpen =>
    exact .head (.shift l' c isOpen own cs')
      (Config.Level.moved (.eval (shifted c) (.pure .null) callers))
  | .before c isOpen _ rest =>
    exact .head (.calm (.flatMap l' _ _ cs')) (.shift isOpen own (.bound _ .null _ _ cs')
      (Effect.Moved.evals rest (shifted c) callers))
  | .after c isOpen _ rest =>
    have ahead : l.Moved base (l'.push (.bind fun v => (Effect.shift c).mapValue fun _ => v)) :=
      ⟨same.token, same.own, .shift c isOpen same.stack⟩
    exact .head (.calm (.flatMap l' _ _ cs')) (Effect.Moved.evals rest ahead callers)

end

/-! ## Strides of shifts -/

section

variable {base : TokenId} {c c' d : Config} {s t : Store}

theorem Config.Calm.stride (h : c.Calm d) (worker : Worker) (s : Store) :
    c.stride worker s = (.next d, s) := by
  have step := h.step worker s
  cases h <;> simpa only [Config.stride] using step

theorem Config.Hop.stride (h : c.Hop base d) (worker : Worker) (live : s.record.Live base) :
    ∃ s', c.stride worker s = (.next d, s') ∧ s'.record = s.record := by
  cases h with
  | calm h => exact ⟨s, h.stride worker s, rfl⟩
  | shift loop context isOpen own cs =>
    have on : s.isCancelled loop.env.token = false := live.live _ own
    let passed := (s.emit (.entered loop.env.token .shift)).emit (.shifting context.name)
    have record : passed.record = s.record := by
      rw [Store.record_emit, Store.record_emit]
      rfl
    exact ⟨passed, by simp only [Config.stride, Machine.atPoint, on]; rfl, record⟩

/-! ## All other strides -/

/-- Strides that come to the same. -/
structure Machine.Abreast (base : TokenId) (a b : Progress × Store) : Prop where
  standing : a.1.state.standing.Moved base b.1.state.standing
  record : a.2.record = b.2.record
  live : a.2.record.Live base

theorem Record.Live.emit (live : s.record.Live base) (e : Event) : (s.emit e).record.Live base :=
  ⟨live.timed, live.known, live.live⟩

theorem Record.Live.freshToken (live : s.record.Live base) : s.freshToken.2.record.Live base := by
  refine ⟨live.timed, ?_, fun t le => ?_⟩
  · show base ≤ s.freshToken.2.size
    rw [Store.size_freshToken]
    exact Nat.le_succ_of_le live.known
  · exact Forest.isCancelled_fresh.trans (live.live t le)

theorem Store.record_congr_emit (same : s.record = t.record) (e : Event) :
    (s.emit e).record = (t.emit e).record := by
  rw [record_emit, record_emit, same]

theorem Store.record_congr_freshToken (same : s.record = t.record) :
    s.freshToken.2.record = t.freshToken.2.record := by
  have drawn : ∀ s : Store, s.freshToken.2.record
      = { s.record with tokens := s.record.tokens.fresh.2 } := fun _ => rfl
  rw [drawn, drawn, same]

end

/-- The stores have the same record, which differs in memory and callbacks only from what it was. -/
structure Store.Paired (w : Record) (s t : Store) : Prop where
  same : s.record = t.record
  aside : ∃ memory callbacks, s.record = { w with memory, callbacks }

namespace Store.Paired

variable {w : Record} {s s' t t' : Store}

theorem refl (same : s.record = t.record) : Paired s.record s t := ⟨same, _, _, rfl⟩

theorem idle (h : Paired w s t) (left : s'.record = s.record) (right : t'.record = t.record) :
    Paired w s' t' := by
  obtain ⟨same, memory, callbacks, record⟩ := h
  exact ⟨left.trans (same.trans right.symm), memory, callbacks, left.trans record⟩

theorem change (h : Paired w s t) (f : Array Callback → Array Callback)
    (left : s'.record = { s.record with callbacks := f s.record.callbacks })
    (right : t'.record = { t.record with callbacks := f t.record.callbacks }) : Paired w s' t' := by
  obtain ⟨same, memory, callbacks, record⟩ := h
  exact ⟨by rw [left, right, same], memory, f callbacks, by rw [left, record]⟩

theorem showCallback (h : Paired w s t) (shown : Option Lane) (slot : Nat) :
    Paired w (Machine.showCallback shown slot s) (Machine.showCallback shown slot t) := by
  cases shown with
  | none => exact h
  | some lane =>
    have written : ∀ s : Store, (Machine.showCallback (some lane) slot s).record = { s.record with
      memory := s.record.memory.write ⟨lane, s.time, (s.slot slot).callback.describe⟩ } := fun _ => rfl
    have time : t.time = s.time := congrArg Site.time (Store.site_of_record h.same "")
    obtain ⟨same, memory, callbacks, record⟩ := h
    refine ⟨?_, memory.write ⟨lane, s.time, (s.slot slot).callback.describe⟩, callbacks, ?_⟩
    · rw [written, written, Store.callback_of_record same slot, time, same]
    · rw [written, record]

end Store.Paired

namespace Machine

variable {w : Record} {s t : Store}

/-- Both give the same, in stores that are paired. -/
structure InStep {α : Type} (w : Record) (a b : α × Store) : Prop where
  result : b.1 = a.1
  paired : Store.Paired w a.2 b.2

theorem completeAll_inStep (slot : Nat) (completions : List Completion) (h : Store.Paired w s t) :
    InStep w (completeAll slot completions s) (completeAll slot completions t) := by
  induction completions generalizing s t with
  | nil => exact ⟨rfl, h⟩
  | cons completion rest ih =>
    cases completion with
    | error f => exact ⟨rfl, h⟩
    | ok result =>
      have here := Store.callback_of_record h.same slot
      simp only [completeAll, Store.completeCallback, here]
      cases (s.slot slot).callback.complete result with
      | error f => exact ⟨rfl, h⟩
      | ok c => exact ih (h.change (·.setIfInBounds slot c) (s.record_updateCallback slot c)
          (t.record_updateCallback slot c))

/-- A registration does the same on any thread. -/
theorem register_inStep (worker worker' : Worker) (r : Registration) (same : s.record = t.record) :
    InStep s.record (register worker r s) (register worker' r t) := by
  have size : t.openCallback.1 = s.openCallback.1 := by
    have callbacks : s.callbacks = t.callbacks := congrArg Record.callbacks same
    show t.slots.size = s.slots.size
    rw [← Store.size_callbacks, ← Store.size_callbacks, callbacks]
  have opened : ∀ s : Store,
      s.openCallback.2.record = { s.record with callbacks := s.record.callbacks.push {} } := fun s => by
    show { s.record with callbacks := s.openCallback.2.callbacks } = _
    rw [s.callbacks_openCallback]
    rfl
  have both := (Store.Paired.refl same).change (·.push {}) (opened s) (opened t)
  simp only [register, size]
  generalize s.openCallback.1 = slot
  obtain ⟨result, paired⟩ := completeAll_inStep slot r.immediate (both.showCallback r.shown slot)
  revert result paired
  rcases completeAll slot r.immediate (showCallback r.shown slot s.openCallback.2) with ⟨f, s₁⟩
  rcases completeAll slot r.immediate (showCallback r.shown slot t.openCallback.2) with ⟨f', t₁⟩
  rintro rfl paired
  cases f' with
  | some f => exact ⟨rfl, paired⟩
  | none =>
    have shown := paired.showCallback r.shown slot
    have here := Store.callback_of_record shown.same slot
    have held : Store.Paired s.record
        (if r.held then (showCallback r.shown slot s₁).holdCallback slot
          else showCallback r.shown slot s₁)
        (if r.held then (showCallback r.shown slot t₁).holdCallback slot
          else showCallback r.shown slot t₁) := by
      split
      · exact shown.change (·.setIfInBounds slot _) (Store.record_holdCallback _ slot)
          (here ▸ Store.record_holdCallback _ slot)
      · exact shown
    cases r.later with
    | nil =>
      exact ⟨rfl, held.change (·.setIfInBounds slot _) (Store.record_dropCallback _ slot)
        (Store.callback_of_record held.same slot ▸ Store.record_dropCallback _ slot)⟩
    | cons first rest =>
      exact ⟨rfl, held.idle (Store.record_spawn _ _ _) (Store.record_spawn _ _ _)⟩

section

variable {base : TokenId} {l l' : Loop} {cs cs' : List Caller} {e e' : Effect}
  (same : s.record = t.record) (live : s.record.Live base)
include same live

theorem unwind_abreast (loop : l.Moved base l') (callers : Caller.AllMoved base cs cs') (x : Exit) :
    Abreast base (unwind l x cs, s) (unwind l' x cs', t) :=
  ⟨.stands (loop.unwinds callers x), same, live⟩

theorem eval_abreast (loop : l.Moved base l') (effect : e.Moved e')
    (callers : Caller.AllMoved base cs cs') : Abreast base (eval l e cs, s) (eval l' e' cs', t) :=
  ⟨.stands (effect.evals loop callers), same, live⟩

theorem faulted_abreast (f : Fault) : Abreast base (.faulted f, s) (.faulted f, t) :=
  ⟨.faulted f, same, live⟩

theorem atPoint_abreast {point : Point} {go go' : Store → Progress × Store}
    (loop : l.Moved base l') (callers : Caller.AllMoved base cs cs')
    (on : ∀ {s t : Store}, s.record = t.record → s.record.Live base → Abreast base (go s) (go' t)) :
    Abreast base (atPoint s l cs point go) (atPoint t l' cs' point go') := by
  unfold atPoint
  rw [loop.token, Store.isCancelled_of_record same]
  split
  · exact unwind_abreast same live loop callers .canceled
  · exact on (Store.record_congr_emit same _) (live.emit _)

/-- An effect does the same on any thread. -/
theorem evalStep_abreast (worker worker' : Worker) (effect : e.MovedWithin e')
    (loop : l.Moved base l') (callers : Caller.AllMoved base cs cs') :
    Abreast base (Config.stride worker ⟨.eval l e, cs⟩ s)
      (Config.stride worker' ⟨.eval l' e', cs'⟩ t) := by
  cases effect with
  | pure v => exact unwind_abreast same live loop callers _
  | fail e => exact unwind_abreast same live loop callers _
  | fault f => exact faulted_abreast same live f
  | perform act blind rest =>
    have memory : s.memory = t.memory := congrArg Record.memory same
    have acts : act ⟨worker'.thread, t.time⟩ t.memory = act ⟨worker.thread, s.time⟩ s.memory := by
      rw [Store.site_of_record same, ← memory, blind]
    simp only [Config.stride, Config.step, evalStep, acts]
    have changed : ∀ memory, Store.record { s with memory } = Store.record { t with memory } :=
      fun memory => congrArg (fun w : Record => { w with memory }) same
    rcases act ⟨worker.thread, s.time⟩ s.memory with ⟨f | reply, memory⟩
    · exact faulted_abreast (changed memory) ⟨live.timed, live.known, live.live⟩ f
    · exact eval_abreast (changed memory) ⟨live.timed, live.known, live.live⟩ loop (rest reply)
        callers
  | isCancelled u =>
    simp only [Config.stride, Config.step, evalStep, Store.isCancelled_of_record same]
    exact unwind_abreast same live loop callers _
  | map h f => exact eval_abreast same live (loop.push (.map f)) h callers
  | flatMap h next => exact eval_abreast same live (loop.push (.bind next)) h callers
  | handleErrorWith h handler => exact eval_abreast same live (loop.push (.handle handler)) h callers
  | loop again h v =>
    simp only [Config.stride, Config.step, evalStep]
    split
    · exact eval_abreast same live (loop.push (.again again h)) (h v) callers
    · exact unwind_abreast same live loop callers _
    · exact faulted_abreast same live _
  | async r =>
    simp only [Config.stride, Config.step, evalStep]
    refine atPoint_abreast same live loop callers fun {s t} same live => ?_
    obtain ⟨result, paired⟩ := register_inStep worker worker' r same
    revert result paired
    rcases register worker r s with ⟨came, s₁⟩
    rcases register worker' r t with ⟨came', t₁⟩
    rintro rfl ⟨same', memory, callbacks, record⟩
    have live' : s₁.record.Live base := record ▸ ⟨live.timed, live.known, live.live⟩
    cases came' with
    | ok slot => exact ⟨.stands (Config.Level.moved (.callback loop slot callers)), same', live'⟩
    | error f => exact faulted_abreast same' live' f
  | await future =>
    simp only [Config.stride, Config.step, evalStep]
    refine atPoint_abreast same live loop callers fun {s t} same live => ?_
    have starts : ∃ wait, start worker s future = .ok wait ∧ start worker' t future = .ok wait := by
      have now : s.now = t.now := congrArg Record.now same
      have timed : s.timed = true := live.timed
      have timed' : t.timed = true := (congrArg Record.timed same).symm.trans timed
      cases future <;> simp [start, timed, timed', now]
    obtain ⟨wait, started, started'⟩ := starts
    simp only [started, started']
    exact ⟨.stands (Config.Level.moved (.future loop wait callers)), same, live⟩
  | shift c isOpen =>
    simp only [Config.stride]
    refine atPoint_abreast same live loop callers fun same live => ?_
    have there : Loop.Moved base { l with env := l.env.withContext c }
        { l' with env := l'.env.withContext c } := ⟨loop.token, loop.own, loop.stack⟩
    exact eval_abreast (Store.record_congr_emit same _) (live.emit _) there (.within (.pure .null))
      callers
  | bracket h used released =>
    simp only [Config.stride, Config.step, evalStep]
    refine atPoint_abreast same live loop callers fun {s t} same live => ?_
    have size := Store.size_of_record same
    have inner : Loop.Moved base ⟨l.env.withToken s.size, []⟩ ⟨l'.env.withToken t.size, []⟩ :=
      ⟨size, live.known, .nil⟩
    exact eval_abreast (Store.record_congr_freshToken same) live.freshToken inner h
      (.cons (.acquiring loop used released) callers)

theorem frameStep_abreast {f f' : Frame} (frame : f.Moved f') (loop : l.Moved base l')
    (callers : Caller.AllMoved base cs cs') (x : Exit) :
    Abreast base (frameStep l cs s f x) (frameStep l' cs' t f' x) := by
  have skipped := unwind_abreast same live loop callers x
  cases frame with
  | map f =>
    cases x with
    | succeeded v =>
      simp only [frameStep]
      split
      · exact unwind_abreast same live loop callers _
      · exact faulted_abreast same live _
    | errored | canceled => exact skipped
  | bind h =>
    cases x with
    | succeeded v => exact eval_abreast same live loop (h v) callers
    | errored | canceled => exact skipped
  | handle h =>
    cases x with
    | errored e => exact eval_abreast same live loop (h e) callers
    | succeeded | canceled => exact skipped
  | again again h =>
    cases x with
    | succeeded v => exact eval_abreast same live loop (.within (.loop again h v)) callers
    | errored | canceled => exact skipped
  | release b h =>
    simp only [frameStep, loop.token, Store.isCancelled_of_record same, (h _).built]
    generalize (if s.isCancelled l.env.token then .canceled else x : Exit) = outcome
    split
    · exact faulted_abreast same live _
    · have begun := Store.record_congr_emit same (.releaseStarted l.env.token b outcome)
      have size : (t.emit (.releaseStarted l.env.token b outcome)).size
          = (s.emit (.releaseStarted l.env.token b outcome)).size := Store.size_of_record begun
      have inner : Loop.Moved base ⟨l.env.withToken s.size, []⟩ ⟨l'.env.withToken t.size, []⟩ :=
        ⟨size, live.known, .nil⟩
      exact eval_abreast (Store.record_congr_freshToken begun) (live.emit _).freshToken inner (h _)
        (.cons (.releasing loop b outcome) callers)

theorem returnStep_abreast {c c' : Caller} (caller : c.Moved base c') (x : Exit)
    (callers : Caller.AllMoved base cs cs') :
    Abreast base (returnStep x cs s c) (returnStep x cs' t c') := by
  cases caller with
  | @acquiring l l' _ _ _ _ loop used released =>
    cases x with
    | succeeded v =>
      have number := Store.brackets_of_record same
      let acquire (s : Store) (b : BracketId) : Store :=
        { s with brackets := b + 1 }.emit (.acquired l.env.token b v)
      have acquired : (acquire s s.brackets).record = (acquire t s.brackets).record :=
        Store.record_congr_emit (congrArg (fun w : Record => { w with brackets := s.brackets + 1 }) same) _
      have live' : (acquire s s.brackets).record.Live base := ⟨live.timed, live.known, live.live⟩
      have pushed := loop.push (.release s.brackets (released v))
      simp only [returnStep, number, loop.token, pushed.token]
      rw [Store.isCancelled_of_record acquired]
      split
      · exact unwind_abreast acquired live' pushed callers _
      · exact eval_abreast (Store.record_congr_emit acquired _) (live'.emit _) pushed (used v) callers
    | errored | canceled =>
      simp only [returnStep, loop.token]
      exact unwind_abreast (Store.record_congr_emit same _) (live.emit _) loop callers _
  | @releasing l l' loop b outcome =>
    have finished := Store.record_congr_emit same (.releaseFinished l.env.token b x)
    have live' := live.emit (.releaseFinished l.env.token b x)
    simp only [returnStep, loop.token]
    cases x with
    | errored e =>
      cases outcome with
      | succeeded v => exact unwind_abreast finished live' loop callers _
      | errored | canceled =>
        exact unwind_abreast (Store.record_congr_emit finished _) (live'.emit _) loop callers _
    | succeeded | canceled => exact unwind_abreast finished live' loop callers _

/-- A loop that waits finds the same on any thread. -/
theorem callback_abreast (worker worker' : Worker) (loop : l.Moved base l') (slot : Nat)
    (callers : Caller.AllMoved base cs cs') :
    Abreast base (resumeStep worker cs s (.callback l slot))
      (resumeStep worker' cs' t (.callback l' slot)) := by
  simp only [resumeStep, Store.callback_of_record same slot, loop.token,
    Store.isCancelled_of_record same]
  cases (s.slot slot).callback.poll with
  | delivered result => exact unwind_abreast same live loop callers _
  | dropped => exact faulted_abreast same live _
  | waiting =>
    dsimp only
    split
    · exact unwind_abreast (Store.record_congr_emit same _) (live.emit _) loop callers _
    · have watched : ∀ (worker : Worker) (s : Store), ((s.watchCallback slot worker.task).watchToken
          l.env.token worker.task).record = s.record := fun worker s =>
        (Store.record_of_bare (Store.bare_watchToken _ _ _)).trans
          (Store.record_of_bare (s.bare_watchCallback _ _))
      have record := (watched worker s).trans (same.trans (watched worker' t).symm)
      exact ⟨.stands (Config.Level.moved (.callback loop slot callers)), record,
        (watched worker s) ▸ live⟩

@[inherit_doc callback_abreast]
theorem future_abreast (worker worker' : Worker) (loop : l.Moved base l') (wait : Wait)
    (callers : Caller.AllMoved base cs cs') :
    Abreast base (resumeStep worker cs s (.future l wait))
      (resumeStep worker' cs' t (.future l' wait)) := by
  have now : s.now = t.now := congrArg Record.now same
  have found : Wait.result? t wait = Wait.result? s wait := by
    cases wait <;> simp [Wait.result?, now, Store.isCancelled_of_record same]
  simp only [resumeStep, found, loop.token, Store.isCancelled_of_record same]
  cases Wait.result? s wait with
  | some result => exact unwind_abreast same live loop callers _
  | none =>
    dsimp only
    split
    · exact unwind_abreast (Store.record_congr_emit same _) (live.emit _) loop callers _
    · have watched : ∀ (worker : Worker) (s : Store),
          ((watch worker s wait).watchToken l.env.token worker.task).record = s.record :=
        fun worker s => (Store.record_of_bare (Store.bare_watchToken _ _ _)).trans
          (s.record_watch worker wait)
      have record := (watched worker s).trans (same.trans (watched worker' t).symm)
      exact ⟨.stands (Config.Level.moved (.future loop wait callers)), record,
        (watched worker s) ▸ live⟩

end

end Machine

/-- Polls that do the same next come to do the same again, wherever they are. -/
theorem Config.Level.stride {base : TokenId} {c c' : Config} {s t : Store} (h : c.Level base c')
    (same : s.record = t.record) (live : s.record.Live base) (worker worker' : Worker) :
    Machine.Abreast base (c.stride worker s) (c'.stride worker' t) := by
  cases h with
  | eval loop effect callers =>
    exact Machine.evalStep_abreast same live worker worker' effect loop callers
  | unwind loop frame x callers => exact Machine.frameStep_abreast same live frame loop callers x
  | @done env env' cs cs' token x callers =>
    refine ⟨.stands (Config.Level.moved (.leave x callers)), ?_, live.emit _⟩
    show (s.emit (.left env.token x)).record = (t.emit (.left env'.token x)).record
    rw [token]
    exact Store.record_congr_emit same _
  | leave x callers =>
    cases callers with
    | nil => exact ⟨.stands (Config.Level.moved (.leave x .nil)), same, live⟩
    | cons caller callers => exact Machine.returnStep_abreast same live caller x callers
  | callback loop slot callers =>
    exact Machine.callback_abreast same live worker worker' loop slot callers
  | future loop wait callers =>
    exact Machine.future_abreast same live worker worker' loop wait callers

end EffectFibers
