import EffectFibers.Proofs.Dealings

/-!
# Stores that differ in one callback

A poll that does not wait for a callback makes the same step whatever has been done with that
callback, and who was woken by it.

## Main statements

* `Config.step_sameBut`: the same step, in stores that are the same but for one callback.
-/

namespace EffectFibers

/-- The stores are the same but for one callback, and for who is woken. -/
inductive Store.SameBut (i : Nat) : Store → Store → Prop
  | mk (s : Store) {slots : Array Slot} {ready : Queue} {woken : Bool}
      (size : slots.size = s.slots.size) (others : ∀ j, j ≠ i → slots[j]? = s.slots[j]?) :
      SameBut i s { s with slots := slots, ready := ready, mainWoken := woken }

namespace Store.SameBut

variable {i : Nat} {A B : Store}

theorem refl (s : Store) : SameBut i s s := .mk s rfl fun _ _ => rfl

theorem symm (h : SameBut i A B) : SameBut i B A := by
  obtain ⟨size, others⟩ := h
  exact .mk _ size.symm fun j ne => (others j ne).symm

theorem slot (h : SameBut i A B) {j : Nat} (ne : j ≠ i) : B.slot j = A.slot j := by
  obtain ⟨size, others⟩ := h
  simp [Store.slot, others j ne]

theorem size (h : SameBut i A B) : B.slots.size = A.slots.size := by
  obtain ⟨size, others⟩ := h
  exact size

theorem isCancelled (h : SameBut i A B) (t : TokenId) : B.isCancelled t = A.isCancelled t := by
  cases h
  rfl

theorem trace (h : SameBut i A B) : B.trace = A.trace := by
  cases h
  rfl

theorem spawned (h : SameBut i A B) : B.spawned = A.spawned := by
  cases h
  rfl

variable (h : SameBut i A B)
include h

theorem emit (e : Event) : SameBut i (A.emit e) (B.emit e) := by
  obtain ⟨size, others⟩ := h
  exact .mk _ size others

theorem withMemory (memory : Memory) : SameBut i { A with memory } { B with memory } := by
  obtain ⟨size, others⟩ := h
  exact .mk _ size others

theorem withTokens (tokens : Forest) : SameBut i { A with tokens } { B with tokens } := by
  obtain ⟨size, others⟩ := h
  exact .mk _ size others

theorem withBrackets (brackets : BracketId) :
    SameBut i { A with brackets } { B with brackets } := by
  obtain ⟨size, others⟩ := h
  exact .mk _ size others

theorem write (lane : Lane) (text : String) : SameBut i (A.write lane text) (B.write lane text) := by
  obtain ⟨size, others⟩ := h
  exact .mk _ size others

theorem freshToken : SameBut i A.freshToken.2 B.freshToken.2 := by
  obtain ⟨size, others⟩ := h
  exact .mk _ size others

theorem childToken (t : TokenId) : SameBut i (A.childToken t).2 (B.childToken t).2 := by
  obtain ⟨size, others⟩ := h
  exact .mk _ size others

theorem wakeAll (ts ts' : List TaskId) : SameBut i (A.wakeAll ts) (B.wakeAll ts') := by
  obtain ⟨size, others⟩ := h
  obtain ⟨ready, woken, same⟩ := A.wakeAll_eq ts
  obtain ⟨ready', woken', same'⟩ := Store.wakeAll_eq _ ts'
  rw [same, same']
  exact .mk _ size others

theorem cancel (t : TokenId) : SameBut i (A.cancel t) (B.cancel t) := by
  obtain ⟨size, others⟩ := h
  let left := (A.watchers.partition fun w => (A.tokens.cancel t).isCancelled w.1).2
  let marked : Store := { A with tokens := A.tokens.cancel t, watchers := left }
  exact wakeAll (.mk marked size others) _ _

theorem watchToken (t : TokenId) (task : TaskId) :
    SameBut i (A.watchToken t task) (B.watchToken t task) := by
  obtain ⟨size, others⟩ := h
  unfold Store.watchToken
  split <;> exact .mk _ size others

theorem watchTime (time : Nat) (task : TaskId) :
    SameBut i (A.watchTime time task) (B.watchTime time task) := by
  obtain ⟨size, others⟩ := h
  exact .mk _ size others

theorem watchTask (t task : TaskId) : SameBut i (A.watchTask t task) (B.watchTask t task) := by
  obtain ⟨size, others⟩ := h
  exact .mk _ size others

theorem watchTasks (ts : List (Nat × TaskId)) (task : TaskId) :
    SameBut i (ts.foldl (fun s (_, t) => s.watchTask t task) A)
      (ts.foldl (fun s (_, t) => s.watchTask t task) B) := by
  induction ts generalizing A B with
  | nil => exact h
  | cons t ts ih => exact ih (h.watchTask t.2 task)

theorem finish (t : TaskId) (result : Joined) :
    SameBut i (A.finish t result) (B.finish t result) := by
  obtain ⟨size, others⟩ := h
  let joins := A.joins.setIfInBounds t { result := some result, order := A.ended }
  let ended : Store := { A with joins, ended := A.ended + 1 }
  exact wakeAll (.mk ended size others) _ _

theorem spawn (context : Context) (job : Job) :
    SameBut i (A.spawn context job).2 (B.spawn context job).2 := by
  obtain ⟨size, others⟩ := h
  unfold Store.spawn
  split <;> exact .mk _ size others

theorem giveUp (r : Run) : SameBut i (r.giveUp A) (r.giveUp B) := by
  unfold Run.giveUp
  split
  · exact h
  · exact (h.cancel _).emit _
  · split
    · exact ((h.cancel _).emit _).spawn _ _
    · exact h.cancel _

theorem openCallback : SameBut i A.openCallback.2 B.openCallback.2 := by
  obtain ⟨size, others⟩ := h
  refine .mk A.openCallback.2 (by simp [Store.openCallback, size]) fun j ne => ?_
  simp [Store.openCallback, Array.getElem?_push, size, others j ne]

theorem setSlot (j : Nat) (slot : Slot) : SameBut i (A.setSlot j slot) (B.setSlot j slot) := by
  obtain ⟨size, others⟩ := h
  refine .mk (A.setSlot j slot) (by simp [Store.setSlot, size]) fun k ne => ?_
  simp [Store.setSlot, Array.getElem?_setIfInBounds, size, others k ne]

/-- Whatever is done with the callback itself, on one side only. -/
theorem aside (slot : Slot) : SameBut i A (B.setSlot i slot) := by
  obtain ⟨size, others⟩ := h
  refine .mk A (by simp [size]) fun k ne => ?_
  simp [ne.symm, others k ne]

theorem updateCallback (j : Nat) (c : Callback) :
    SameBut i (A.updateCallback j c) (B.updateCallback j c) :=
  (h.setSlot j { callback := c }).wakeAll _ _

theorem dropCallback {j : Nat} (ne : j ≠ i) : SameBut i (A.dropCallback j) (B.dropCallback j) := by
  simp only [Store.dropCallback, h.slot ne]
  split
  · exact h.updateCallback j _
  · exact h.setSlot j _

theorem holdCallback {j : Nat} (ne : j ≠ i) : SameBut i (A.holdCallback j) (B.holdCallback j) := by
  simp only [Store.holdCallback, h.slot ne]
  exact h.setSlot j _

theorem watchCallback {j : Nat} (ne : j ≠ i) (task : TaskId) :
    SameBut i (A.watchCallback j task) (B.watchCallback j task) := by
  simp only [Store.watchCallback, h.slot ne]
  exact h.setSlot j _

theorem deal {j : Nat} (ne : j ≠ i) (d : Dealing) :
    SameBut i (A.deal j d).2 (B.deal j d).2 := by
  cases d with
  | clone => exact h.holdCallback ne
  | drop => exact h.dropCallback ne
  | complete result =>
    simp only [Store.deal, Store.completeCallback, h.slot ne]
    cases (A.slot j).callback.complete result with
    | ok callback => exact h.updateCallback j callback
    | error f => exact h

/-- The callback itself is dealt with, on one side only. -/
theorem deal_aside (d : Dealing) : SameBut i A (B.deal i d).2 := by
  have updated : ∀ c, SameBut i A (B.updateCallback i c) := fun c =>
    (h.aside { callback := c }).wakeAll [] _
  cases d with
  | clone => exact h.aside _
  | drop =>
    simp only [Store.deal, Store.dropCallback]
    split
    · exact updated _
    · exact h.aside _
  | complete result =>
    simp only [Store.deal, Store.completeCallback]
    cases (B.slot i).callback.complete result with
    | ok callback => exact updated callback
    | error f => exact h

end Store.SameBut

namespace Machine

variable {i : Nat} {A B : Store} {loop : Loop} {callers : List Caller}

/-- The same step, in stores that are the same but for one callback. -/
structure Twin (i : Nat) (r r' : Progress × Store) : Prop where
  progress : r'.1 = r.1
  store : r.2.SameBut i r'.2

variable (h : A.SameBut i B)
include h

theorem atPoint_twin {point : Point} {go : Store → Progress × Store}
    (goes : ∀ {A B : Store}, A.SameBut i B → Twin i (go A) (go B)) :
    Twin i (atPoint A loop callers point go) (atPoint B loop callers point go) := by
  unfold atPoint
  rw [h.isCancelled]
  split
  · exact ⟨rfl, h⟩
  · exact goes (h.emit _)

theorem completeAll_twin {j : Nat} (ne : j ≠ i) (completions : List Completion) :
    (completeAll j completions B).1 = (completeAll j completions A).1 ∧
      (completeAll j completions A).2.SameBut i (completeAll j completions B).2 := by
  induction completions generalizing A B with
  | nil => exact ⟨rfl, h⟩
  | cons completion rest ih =>
    cases completion with
    | error f => exact ⟨rfl, h⟩
    | ok result =>
      simp only [completeAll, Store.completeCallback, h.slot ne]
      cases (A.slot j).callback.complete result with
      | ok callback => exact ih (h.updateCallback j callback)
      | error f => exact ⟨rfl, h⟩

theorem showCallback_twin {j : Nat} (ne : j ≠ i) (shown : Option Lane) :
    (showCallback shown j A).SameBut i (showCallback shown j B) := by
  cases shown with
  | none => exact h
  | some lane =>
    simp only [showCallback, h.slot ne]
    exact h.write lane _

theorem register_twin (worker : Worker) (r : Registration) (known : i < A.slots.size) :
    (register worker r B).1 = (register worker r A).1 ∧
      (register worker r A).2.SameBut i (register worker r B).2 := by
  have number : B.openCallback.1 = A.openCallback.1 := h.size
  have ne : A.openCallback.1 ≠ i := Nat.ne_of_gt known
  obtain ⟨same, completed⟩ := completeAll_twin (showCallback_twin h.openCallback ne r.shown) ne
    r.immediate
  simp only [register, number]
  generalize A.openCallback.1 = j at same completed ne
  revert same completed
  rcases completeAll j r.immediate (showCallback r.shown j A.openCallback.2) with ⟨f, A₁⟩
  rcases completeAll j r.immediate (showCallback r.shown j B.openCallback.2) with ⟨f', B₁⟩
  rintro rfl completed
  cases f' with
  | some f => exact ⟨rfl, completed⟩
  | none =>
    have again := showCallback_twin completed ne r.shown
    have held : (if r.held then (showCallback r.shown j A₁).holdCallback j
        else showCallback r.shown j A₁).SameBut i (if r.held then
          (showCallback r.shown j B₁).holdCallback j else showCallback r.shown j B₁) := by
      split
      · exact again.holdCallback ne
      · exact again
    cases r.later with
    | nil => exact ⟨rfl, held.dropCallback ne⟩
    | cons first rest => exact ⟨rfl, held.spawn _ _⟩

theorem spawnOperands_twin (env : Env) (group : TokenId) (operands : Nat → Effect)
    (indices : List Nat) :
    (spawnOperands env group operands indices B).1 = (spawnOperands env group operands indices A).1 ∧
      (spawnOperands env group operands indices A).2.SameBut i
        (spawnOperands env group operands indices B).2 := by
  induction indices generalizing A B with
  | nil => exact ⟨rfl, h⟩
  | cons k rest ih =>
    have token : (B.childToken group).1 = (A.childToken group).1 := by cases h; rfl
    have task : ((B.childToken group).2.spawn env.context (.segment (.start
          ⟨env.withToken (A.childToken group).1, []⟩ (operands k)))).1
        = ((A.childToken group).2.spawn env.context (.segment (.start
          ⟨env.withToken (A.childToken group).1, []⟩ (operands k)))).1 := by
      obtain ⟨size, others⟩ := h
      simp
    obtain ⟨tasks, store⟩ := ih ((h.childToken group).spawn env.context (.segment (.start
      ⟨env.withToken (A.childToken group).1, []⟩ (operands k))))
    simp only [spawnOperands, token, task, tasks]
    exact ⟨trivial, store⟩

theorem evalStep_twin (worker : Worker) (known : i < A.slots.size) (effect : Effect) :
    Twin i (evalStep worker loop callers A effect) (evalStep worker loop callers B effect) := by
  have time : B.time = A.time := by cases h; rfl
  cases effect with
  | pure | fail | fault | map | flatMap | handleErrorWith => exact ⟨rfl, h⟩
  | isCancelled t =>
    simp only [evalStep, h.isCancelled]
    exact ⟨rfl, h⟩
  | perform act next =>
    have memory : B.memory = A.memory := by cases h; rfl
    simp only [evalStep, time, memory]
    rcases act ⟨worker.thread, A.time⟩ A.memory with ⟨_ | reply, memory⟩
    · exact ⟨rfl, h.withMemory memory⟩
    · exact ⟨rfl, h.withMemory memory⟩
  | cancel t => exact ⟨rfl, h.cancel t⟩
  | loop again body v =>
    simp only [evalStep]
    split <;> exact ⟨rfl, h⟩
  | async r =>
    -- The registration depends on how many callbacks there are.
    simp only [evalStep, atPoint]
    rw [h.isCancelled]
    split
    · exact ⟨rfl, h⟩
    · obtain ⟨same, store⟩ := register_twin (h.emit (.entered loop.env.token .registration)) worker r
        known
      revert same store
      rcases register worker r (A.emit (.entered loop.env.token .registration)) with ⟨x, A₁⟩
      rcases register worker r (B.emit (.entered loop.env.token .registration)) with ⟨y, B₁⟩
      rintro rfl store
      cases y with
      | ok slot => exact ⟨rfl, store⟩
      | error f => exact ⟨rfl, store⟩
  | await future =>
    simp only [evalStep]
    refine atPoint_twin h fun {A B} h => ?_
    have same : start worker B future = start worker A future := by
      obtain ⟨size, others⟩ := h
      cases future <;> rfl
    simp only [same]
    split <;> exact ⟨rfl, h⟩
  | shift context =>
    simp only [evalStep]
    refine atPoint_twin h fun {A B} h => ?_
    have task : B.joins.size = A.joins.size := by cases h; rfl
    simp only [Store.spawn_fst]
    exact ⟨by simp [task], (h.emit _).spawn _ _⟩
  | bracket acquire use release =>
    simp only [evalStep]
    refine atPoint_twin h fun {A B} h => ?_
    have token : B.freshToken.1 = A.freshToken.1 := by cases h; rfl
    simp only [token]
    exact ⟨rfl, h.freshToken⟩
  | race left right =>
    have first : (B.childToken loop.env.token).1 = (A.childToken loop.env.token).1 := by
      cases h; rfl
    have second : ((B.childToken loop.env.token).2.childToken loop.env.token).1
        = ((A.childToken loop.env.token).2.childToken loop.env.token).1 := by cases h; rfl
    simp only [evalStep, first, second]
    exact ⟨rfl, (h.childToken _).childToken _⟩
  | parallel n operands =>
    have token : (B.childToken loop.env.token).1 = (A.childToken loop.env.token).1 := by
      cases h; rfl
    obtain ⟨tasks, store⟩ := spawnOperands_twin (h.childToken loop.env.token) loop.env
      (A.childToken loop.env.token).1 (operandAt operands) (List.range n)
    simp only [evalStep, token, tasks]
    exact ⟨rfl, store⟩

theorem settle_twin (tokens : RaceTokens) (side : Side) (x : Exit) (other : Segment) :
    Twin i (settle loop tokens side x other callers A)
      (settle loop tokens side x other callers B) := by
  unfold settle
  rw [h.isCancelled]
  split
  · exact ⟨rfl, h⟩
  · exact ⟨rfl, h.cancel _⟩

theorem returnStep_twin (x : Exit) (caller : Caller) :
    Twin i (returnStep x callers A caller) (returnStep x callers B caller) := by
  cases caller with
  | acquiring loop use release =>
    cases x with
    | succeeded v =>
      have number : B.brackets = A.brackets := by cases h; rfl
      have acquired := (h.withBrackets (A.brackets + 1)).emit
        (.acquired loop.env.token A.brackets v)
      show Twin i (if A.isCancelled loop.env.token then _ else _)
        (if B.isCancelled loop.env.token then _ else _)
      rw [number, h.isCancelled]
      split
      · exact ⟨rfl, acquired⟩
      · exact ⟨rfl, acquired.emit _⟩
    | errored | canceled => exact ⟨rfl, h.emit _⟩
  | releasing loop bracket outcome =>
    cases x with
    | errored e =>
      cases outcome with
      | succeeded v => exact ⟨rfl, h.emit _⟩
      | errored | canceled => exact ⟨rfl, (h.emit _).emit _⟩
    | succeeded | canceled => exact ⟨rfl, h.emit _⟩
  | racingLeft loop tokens right => exact settle_twin h tokens .left x right
  | racingRight loop tokens left => exact settle_twin h tokens .right x left
  | settling loop winner exit => exact ⟨rfl, h.emit _⟩
  | remaining loop side => exact ⟨rfl, h⟩

theorem frameStep_twin (frame : Frame) (x : Exit) :
    Twin i (frameStep loop callers A frame x) (frameStep loop callers B frame x) := by
  cases frame with
  | map f =>
    cases x with
    | succeeded v =>
      simp only [frameStep]
      split <;> exact ⟨rfl, h⟩
    | errored | canceled => exact ⟨rfl, h⟩
  | bind | again | handle => cases x <;> exact ⟨rfl, h⟩
  | release bracket finalizer =>
    simp only [frameStep, h.isCancelled]
    generalize (if A.isCancelled loop.env.token then .canceled else x : Exit) = outcome
    have started := h.emit (.releaseStarted loop.env.token bracket outcome)
    have token : (B.emit (.releaseStarted loop.env.token bracket outcome)).freshToken.1
        = (A.emit (.releaseStarted loop.env.token bracket outcome)).freshToken.1 := by cases h; rfl
    simp only [token]
    split
    · exact ⟨rfl, h⟩
    · exact ⟨rfl, started.freshToken⟩

theorem unwindStep_twin (x : Exit) :
    Twin i (unwindStep loop x callers A) (unwindStep loop x callers B) := by
  obtain ⟨env, frames⟩ := loop
  cases frames with
  | nil => exact ⟨rfl, h.emit _⟩
  | cons frame frames => exact frameStep_twin h frame x

theorem gather_twin (ended : List (Nat × Joined)) (group : Group) :
    (gather group ended B).1 = (gather group ended A).1 ∧
      (gather group ended A).2.SameBut i (gather group ended B).2 := by
  induction ended generalizing group A B with
  | nil => exact ⟨rfl, h⟩
  | cons y rest ih =>
    obtain ⟨k, joined⟩ := y
    unfold gather
    split
    · exact ⟨rfl, h.cancel _⟩
    · next exit _ =>
      have taken (first : Bool) :
          (if first then (A.emit (.operandFailed k)).cancel group.token else A).SameBut i
            (if first then (B.emit (.operandFailed k)).cancel group.token else B) := by
        cases first with
        | false => exact h
        | true => exact (h.emit _).cancel _
      exact ih (taken _) ((group.drop k).absorb k exit)

theorem resumeStep_twin (worker : Worker) {segment : Segment}
    (other : ∀ loop, segment ≠ .callback loop i) :
    Twin i (resumeStep worker callers A segment) (resumeStep worker callers B segment) := by
  cases segment with
  | start | acquiring | releasing | racing | settling | remaining => exact ⟨rfl, h⟩
  | callback loop slot =>
    have ne : slot ≠ i := fun same => other loop (same ▸ rfl)
    simp only [resumeStep, h.slot ne, h.isCancelled]
    split
    · exact ⟨rfl, h⟩
    · exact ⟨rfl, h⟩
    · split
      · exact ⟨rfl, h.emit _⟩
      · exact ⟨rfl, (h.watchCallback ne _).watchToken _ _⟩
  | future loop wait =>
    have result : Wait.result? B wait = Wait.result? A wait := by
      obtain ⟨size, others⟩ := h
      cases wait <;> rfl
    have watched : (watch worker A wait).SameBut i (watch worker B wait) := by
      cases wait with
      | never => exact h
      | deadline time result => exact h.watchTime _ _
      | cancellation t => exact h.watchToken _ _
    simp only [resumeStep, result, h.isCancelled]
    split
    · exact ⟨rfl, h⟩
    · split
      · exact ⟨rfl, h.emit _⟩
      · exact ⟨rfl, watched.watchToken _ _⟩
  | shifted env task =>
    have joined : B.joined? task = A.joined? task := by cases h; rfl
    simp only [resumeStep, joined]
    split
    · split <;> exact ⟨rfl, h⟩
    · exact ⟨rfl, h.watchTask _ _⟩
  | gathering loop group =>
    have ended : endedOperands group B = endedOperands group A := by cases h; rfl
    obtain ⟨result, store⟩ := gather_twin h (endedOperands group A) group
    simp only [resumeStep, ended]
    revert result store
    rcases gather group (endedOperands group A) A with ⟨r, A₁⟩
    rcases gather group (endedOperands group A) B with ⟨r', B₁⟩
    rintro rfl store
    cases r' with
    | error f => exact ⟨rfl, store⟩
    | ok group =>
      simp only
      split
      · exact ⟨rfl, store⟩
      · exact ⟨rfl, store.watchTasks _ _⟩

end Machine

/-- A poll that is not about to look at a callback makes the same step in stores that are the same
but for that callback. -/
theorem Config.step_sameBut (worker : Worker) {i : Nat} {A B : Store} (h : A.SameBut i B)
    (known : i < A.slots.size) {c : Config}
    (other : ∀ loop, c.focus ≠ .resume (.callback loop i)) :
    Machine.Twin i (c.step worker A) (c.step worker B) := by
  obtain ⟨focus, callers⟩ := c
  cases focus with
  | eval loop effect => exact Machine.evalStep_twin h worker known effect
  | unwind loop x => exact Machine.unwindStep_twin h x
  | leave x =>
    cases callers with
    | nil => exact ⟨rfl, h⟩
    | cons caller callers => exact Machine.returnStep_twin h x caller
  | resume segment =>
    exact Machine.resumeStep_twin h worker fun loop same => other loop (congrArg Focus.resume same)
  | park segment => exact ⟨rfl, h⟩

end EffectFibers
