import EffectFibers.Proofs.Handover
import EffectFibers.Proofs.LensStores

/-!
# Steps of polls that mirror each other

A step of a poll depends on no number of a task or a bracket, and on no token that is hidden.  So
two polls that mirror each other make the same step in stores that agree.  There is one lemma for
each function of the machine.

## Main statements

* `Config.step_mirrors`: polls that mirror each other go on to do so.
-/

namespace EffectFibers

variable {L : Lens} {hidden : TokenId → Prop} {s s' A B : Store} {l l' : Loop}
  {cs cs' : List Caller}

namespace Machine

variable (L hidden s s') in
/-- Steps that come to the same, up to numbers. -/
structure Mirror (r r' : Progress × Store) : Prop where
  progress : r.1.Mirrors L r'.1
  along : s.Along L hidden s' r.2 r'.2

theorem unwind_mirrors (loop : l.Mirrors L l') (x : Exit) (callers : Caller.AllMirror L cs cs') :
    (unwind l x cs).Mirrors L (unwind l' x cs') := .next (.unwind loop x callers)

theorem eval_mirrors {effect : Effect} (loop : l.Mirrors L l') (reads : effect.Reads L.toView)
    (callers : Caller.AllMirror L cs cs') : (eval l effect cs).Mirrors L (eval l' effect cs') :=
  .next (.eval loop reads callers)

theorem resume_mirrors {g g' : Segment} (segment : g.Mirrors L g')
    (callers : Caller.AllMirror L cs cs') : (resume g cs).Mirrors L (resume g' cs') :=
  .next (.resume segment callers)

/-! ## Suspension points -/

theorem atPoint_mirrors {point : Point} {go go' : Store → Progress × Store} (loop : l.Mirrors L l')
    (callers : Caller.AllMirror L cs cs') (shown : ¬ hidden l.env.token)
    (along : s.Along L hidden s' A B)
    (on : ∀ {A B : Store}, s.Along L hidden s' A B → Mirror L hidden s s' (go A) (go' B)) :
    Mirror L hidden s s' (atPoint A l cs point go) (atPoint B l' cs' point go') := by
  unfold atPoint
  rw [← loop.env, ← along.isCancelled shown]
  split
  · exact ⟨unwind_mirrors loop _ callers, along⟩
  · exact on (along.emit (.same _))

theorem completeAll_along (slot : Nat) (completions : List Completion)
    (along : s.Along L hidden s' A B) :
    (completeAll slot completions A).1 = (completeAll slot completions B).1 ∧
      s.Along L hidden s' (completeAll slot completions A).2
        (completeAll slot completions B).2 := by
  induction completions generalizing A B with
  | nil => exact ⟨rfl, along⟩
  | cons completion rest ih =>
    unfold completeAll
    cases completion with
    | error f => exact ⟨rfl, along⟩
    | ok result =>
      simp only [Store.completeCallback, ← along.callback slot]
      cases (A.slot slot).callback.complete result with
      | error f => exact ⟨rfl, along⟩
      | ok callback => exact ih (along.updateCallback slot callback)

theorem showCallback_along (shown : Option Lane) (slot : Nat) (along : s.Along L hidden s' A B) :
    s.Along L hidden s' (showCallback shown slot A) (showCallback shown slot B) := by
  cases shown with
  | none => exact along
  | some lane =>
    simp only [showCallback, along.callback slot]
    exact along.write lane _

theorem register_along (worker : Worker) (r : Registration) (along : s.Along L hidden s' A B) :
    (register worker r A).1 = (register worker r B).1 ∧
      s.Along L hidden s' (register worker r A).2 (register worker r B).2 := by
  have slot : A.openCallback.1 = B.openCallback.1 := by
    simpa [Store.openCallback] using congrArg Array.size along.slots
  obtain ⟨same, completed⟩ := completeAll_along A.openCallback.1 r.immediate
    (showCallback_along r.shown A.openCallback.1 along.openCallback)
  simp only [register, ← slot]
  generalize A.openCallback.1 = slot at same completed
  revert same completed
  rcases completeAll slot r.immediate (showCallback r.shown slot A.openCallback.2) with ⟨f, A₁⟩
  rcases completeAll slot r.immediate (showCallback r.shown slot B.openCallback.2) with ⟨f', B₁⟩
  rintro rfl completed
  cases f with
  | some f => exact ⟨rfl, completed⟩
  | none =>
    have again := showCallback_along r.shown slot completed
    have held : s.Along L hidden s' (if r.held then (showCallback r.shown slot A₁).holdCallback slot
          else showCallback r.shown slot A₁) (if r.held then
          (showCallback r.shown slot B₁).holdCallback slot else showCallback r.shown slot B₁) := by
      split
      · exact again.holdCallback slot
      · exact again
    cases r.later with
    | nil => exact ⟨rfl, held.dropCallback slot⟩
    | cons first rest => exact ⟨rfl, held.spawn _ _ _ .none⟩

theorem spawnOperands_along (env : Env) (group : TokenId) {operands : Nat → Effect}
    (reads : ∀ i, (operands i).Reads L.toView) (shown : ¬ hidden group) (indices : List Nat)
    (along : s.Along L hidden s' A B) :
    Group.Pending L (spawnOperands env group operands indices A).1
        (spawnOperands env group operands indices B).1 ∧
      s.Along L hidden s' (spawnOperands env group operands indices A).2
        (spawnOperands env group operands indices B).2 := by
  induction indices generalizing A B with
  | nil => exact ⟨.nil, along⟩
  | cons i rest ih =>
    have child := along.childToken shown
    have token : (A.childToken group).1 = (B.childToken group).1 := by simp [along.size]
    let operand : Segment := .start ⟨env.withToken (A.childToken group).1, []⟩ (operands i)
    have same : operand.Mirrors L operand := .start (.mk _ .nil) (reads i)
    have task := child.tasks 0
    obtain ⟨pending, whole⟩ :=
      ih (child.spawn env.context (.segment operand) (.segment operand) (.some same))
    simp only [spawnOperands, ← token]
    refine ⟨.cons ⟨rfl, ?_⟩ pending, whole⟩
    simpa using task

theorem operandAt_reads {n : Nat} {operands : Fin n → Effect}
    (reads : ∀ i, (operands i).Reads L.toView) (i : Nat) : (operandAt operands i).Reads L.toView := by
  unfold operandAt
  split
  · exact reads _
  · trivial

theorem evalStep_mirrors (worker : Worker) {effect : Effect} (reads : effect.Reads L.toView)
    (loop : l.Mirrors L l') (callers : Caller.AllMirror L cs cs') (shown : ¬ hidden l.env.token)
    (along : s.Along L hidden s' A B) :
    Mirror L hidden s s' (evalStep worker l cs A effect) (evalStep worker l' cs' B effect) := by
  cases effect with
  | pure | fail => exact ⟨unwind_mirrors loop _ callers, along⟩
  | fault f => exact ⟨.faulted f, along⟩
  | perform act next =>
    simp only [evalStep, ← along.time]
    obtain ⟨same, looks⟩ := reads.1 ⟨worker.thread, A.time⟩ A.memory B.memory along.memory
    revert same looks
    rcases act ⟨worker.thread, A.time⟩ A.memory with ⟨r, memory⟩
    rcases act ⟨worker.thread, A.time⟩ B.memory with ⟨r', memory'⟩
    rintro rfl looks
    cases r with
    | error f => exact ⟨.faulted f, along.withMemory looks⟩
    | ok reply => exact ⟨eval_mirrors loop (reads.2 reply) callers, along.withMemory looks⟩
  | cancel t => exact ⟨unwind_mirrors loop _ callers, along.cancel t⟩
  | isCancelled t =>
    simp only [evalStep, ← along.isCancelled (along.clear t reads)]
    exact ⟨unwind_mirrors loop _ callers, along⟩
  | map source f => exact ⟨eval_mirrors (loop.push (.map f)) reads callers, along⟩
  | flatMap source f => exact ⟨eval_mirrors (loop.push (.bind reads.2)) reads.1 callers, along⟩
  | handleErrorWith source f =>
    exact ⟨eval_mirrors (loop.push (.handle reads.2)) reads.1 callers, along⟩
  | loop again body v =>
    simp only [evalStep]
    split
    · exact ⟨eval_mirrors (loop.push (.again again reads)) (reads v) callers, along⟩
    · exact ⟨unwind_mirrors loop _ callers, along⟩
    · exact ⟨.faulted _, along⟩
  | async r =>
    simp only [evalStep]
    refine atPoint_mirrors loop callers shown along fun {A B} along => ?_
    obtain ⟨same, registered⟩ := register_along worker r along
    revert same registered
    rcases register worker r A with ⟨slot, A₁⟩
    rcases register worker r B with ⟨slot', B₁⟩
    rintro rfl registered
    cases slot with
    | ok slot => exact ⟨resume_mirrors (.callback loop slot) callers, registered⟩
    | error f => exact ⟨.faulted f, registered⟩
  | await future =>
    simp only [evalStep]
    refine atPoint_mirrors loop callers shown along fun {A B} along => ?_
    have same : start worker A future = start worker B future := by
      cases future with
      | timer => simp only [start, along.timed, along.now]
      | never | cancellation => rfl
    simp only [← same]
    cases started : start worker A future with
    | error f => exact ⟨.faulted f, along⟩
    | ok wait =>
      refine ⟨resume_mirrors (.future loop ?_) callers, along⟩
      cases future with
      | never =>
        cases started
        exact .never
      | cancellation t =>
        cases started
        exact .cancellation reads
      | timer delay result =>
        simp only [start] at started
        split at started
        · cases started
          exact .deadline _ result
        · cases started
  | shift context =>
    simp only [evalStep]
    refine atPoint_mirrors loop callers shown along fun {A B} along => ?_
    obtain ⟨env, frames⟩ := loop
    have shifting := along.emit (.same (.shifting context.name))
    have quiet : Effect.unit.Reads L.toView := trivial
    have remainder := Segment.Mirrors.start (.mk (env.withContext context) frames) quiet
    have task := shifting.tasks 0
    refine ⟨resume_mirrors (.shifted env ?_) callers, shifting.spawn context _ _ (.some remainder)⟩
    simpa using task
  | bracket acquire use release =>
    simp only [evalStep]
    refine atPoint_mirrors loop callers shown along fun {A B} along => ?_
    have token : A.freshToken.1 = B.freshToken.1 := along.size
    simp only [← token, ← loop.env]
    exact ⟨eval_mirrors (.mk _ .nil) reads.1
      (.cons (.acquiring loop reads.2.1 reads.2.2) callers), along.freshToken⟩
  | race left right =>
    have first := along.childToken shown
    have second := first.childToken shown
    have token : (A.childToken l.env.token).1 = (B.childToken l.env.token).1 := by
      simp [along.size]
    have token' : ((A.childToken l.env.token).2.childToken l.env.token).1
        = ((B.childToken l.env.token).2.childToken l.env.token).1 := by
      simp only [Store.childToken_fst, first.size]
    simp only [evalStep, ← loop.env, ← token, ← token']
    exact ⟨eval_mirrors (.mk _ .nil) reads.1
      (.cons (.racingLeft loop _ (.start (.mk _ .nil) reads.2)) callers), second⟩
  | parallel n operands =>
    have child := along.childToken shown
    have token : (A.childToken l.env.token).1 = (B.childToken l.env.token).1 := by
      simp [along.size]
    have group : ¬ hidden (A.childToken l.env.token).1 := fun inside => by
      have known := along.tokens.known _ inside
      simp at known
    obtain ⟨pending, whole⟩ := spawnOperands_along l.env _ (operandAt_reads reads) group
      (List.range n) child
    simp only [evalStep, ← loop.env, ← token]
    exact ⟨resume_mirrors (.gathering loop (.mk _ pending [] none false)) callers, whole⟩

/-! ## Unwinding -/

theorem frameStep_mirrors {f f' : Frame} (frame : f.Mirrors L f') (loop : l.Mirrors L l')
    (callers : Caller.AllMirror L cs cs') (shown : ¬ hidden l.env.token)
    (along : s.Along L hidden s' A B) (x : Exit) :
    Mirror L hidden s s' (frameStep l cs A f x) (frameStep l' cs' B f' x) := by
  have skipped : Mirror L hidden s s' (unwind l x cs, A) (unwind l' x cs', B) :=
    ⟨unwind_mirrors loop x callers, along⟩
  cases frame with
  | map f =>
    cases x with
    | succeeded v =>
      simp only [frameStep]
      split
      · exact ⟨unwind_mirrors loop _ callers, along⟩
      · exact ⟨.faulted _, along⟩
    | errored | canceled => exact skipped
  | bind reads =>
    cases x with
    | succeeded v => exact ⟨eval_mirrors loop (reads v) callers, along⟩
    | errored | canceled => exact skipped
  | handle reads =>
    cases x with
    | errored e => exact ⟨eval_mirrors loop (reads e) callers, along⟩
    | succeeded | canceled => exact skipped
  | again again reads =>
    cases x with
    | succeeded v => exact ⟨eval_mirrors loop reads callers, along⟩
    | errored | canceled => exact skipped
  | @release b b' number f reads =>
    simp only [frameStep, ← loop.env, ← along.isCancelled shown]
    generalize (if A.isCancelled l.env.token then .canceled else x : Exit) = outcome
    split
    · exact ⟨.faulted _, along⟩
    · have started := along.emit (.releaseStarted l.env.token number outcome)
      have token : (A.emit (.releaseStarted l.env.token b outcome)).freshToken.1
          = (B.emit (.releaseStarted l.env.token b' outcome)).freshToken.1 := started.size
      simp only [← token]
      exact ⟨eval_mirrors (.mk _ .nil) (reads _) (.cons (.releasing loop number outcome) callers),
        started.freshToken⟩

theorem unwindStep_mirrors (loop : l.Mirrors L l') (callers : Caller.AllMirror L cs cs')
    (shown : ¬ hidden l.env.token) (along : s.Along L hidden s' A B) (x : Exit) :
    Mirror L hidden s s' (unwindStep l x cs A) (unwindStep l' x cs' B) := by
  obtain ⟨env, frames⟩ := loop
  cases frames with
  | nil => exact ⟨.next (.leave x callers), along.emit (.same _)⟩
  | cons frame frames => exact frameStep_mirrors frame (.mk env frames) callers shown along x

/-! ## The end of a nested loop -/

theorem settle_mirrors {g g' : Segment} (loop : l.Mirrors L l') (tokens : RaceTokens) (side : Side)
    (x : Exit) (other : g.Mirrors L g') (callers : Caller.AllMirror L cs cs')
    (shown : ¬ hidden l.env.token) (along : s.Along L hidden s' A B) :
    Mirror L hidden s s' (settle l tokens side x g cs A) (settle l' tokens side x g' cs' B) := by
  unfold settle
  rw [← loop.env, ← along.isCancelled shown]
  split
  · exact ⟨resume_mirrors other (.cons (.remaining loop side.other) callers), along⟩
  · exact ⟨resume_mirrors other (.cons (.settling loop side x) callers), along.cancel _⟩

theorem returnStep_mirrors {c c' : Caller} (caller : c.Mirrors L c') (x : Exit)
    (callers : Caller.AllMirror L cs cs') (shown : ¬ hidden c.fiber.token)
    (along : s.Along L hidden s' A B) :
    Mirror L hidden s s' (returnStep x cs A c) (returnStep x cs' B c') := by
  cases caller with
  | @acquiring l l' use release loop used released =>
    cases x with
    | succeeded v =>
      obtain ⟨env, frames⟩ := loop
      have acquired := along.acquire env.token v
      have pushed := (Loop.Mirrors.mk env frames).push
        (.release (along.brackets 0) (released v))
      have cancelled : Store.isCancelled _ env.token = Store.isCancelled _ env.token :=
        acquired.isCancelled shown
      show Mirror L hidden s s' (if Store.isCancelled _ env.token then _ else _)
        (if Store.isCancelled _ env.token then _ else _)
      rw [← cancelled]
      split
      · exact ⟨unwind_mirrors pushed _ callers, acquired⟩
      · exact ⟨eval_mirrors pushed (used v) callers,
          acquired.emit (.useStarted _ (along.brackets 0))⟩
    | errored | canceled =>
      simp only [returnStep, ← loop.env]
      exact ⟨unwind_mirrors loop _ callers, along.emit (.same _)⟩
  | @releasing l l' b b' loop number outcome =>
    have finished := along.emit (.releaseFinished l.env.token number x)
    simp only [returnStep, ← loop.env]
    cases x with
    | errored e =>
      cases outcome with
      | succeeded v => exact ⟨unwind_mirrors loop _ callers, finished⟩
      | errored | canceled =>
        exact ⟨unwind_mirrors loop _ callers, finished.emit (.releaseFailed number _)⟩
    | succeeded | canceled => exact ⟨unwind_mirrors loop _ callers, finished⟩
  | racingLeft loop tokens other =>
    exact settle_mirrors loop tokens .left x other callers shown along
  | racingRight loop tokens other =>
    exact settle_mirrors loop tokens .right x other callers shown along
  | settling loop winner exit => exact ⟨unwind_mirrors loop _ callers, along.emit (.same _)⟩
  | remaining loop side => exact ⟨unwind_mirrors loop _ callers, along⟩

/-! ## Resuming and parking -/

theorem absorb_mirrors {g g' : Group} (group : g.Mirrors L g') (i : Nat) (x : Exit) :
    ((g.drop i).absorb i x).Mirrors L ((g'.drop i).absorb i x) := by
  obtain ⟨token, operands, values, failure, canceled⟩ := group
  have kept {pending pending' : List (Nat × TaskId)} (operands : Group.Pending L pending pending') :
      Group.Pending L (pending.filter (·.1 != i)) (pending'.filter (·.1 != i)) := by
    induction operands with
    | nil => exact .nil
    | @cons y y' rest rest' first _ ih =>
      by_cases same : y.1 = i
      · simpa [same, ← first.1] using ih
      · have same' : ¬ y'.1 = i := first.1 ▸ same
        simpa [same, same'] using ⟨first, ih⟩
  cases x with
  | succeeded v => exact .mk token (kept operands) _ _ _
  | canceled => exact .mk token (kept operands) _ _ _
  | errored e =>
    simp only [Group.absorb, Group.drop]
    cases failure with
    | none => exact .mk token (kept operands) _ _ _
    | some reported =>
      simp only
      split <;> exact .mk token (kept operands) _ _ _

theorem endedOperands_mirrors {g g' : Group} (group : g.Mirrors L g') (agree : A.Agree L hidden B) :
    endedOperands g A = endedOperands g' B := by
  obtain ⟨token, operands, values, failure, canceled⟩ := group
  have found : ∀ {pending pending' : List (Nat × TaskId)}, Group.Pending L pending pending' →
      (pending.filterMap fun x =>
          (A.joined? x.2).map fun joined => ((A.join x.2).order, x.1, joined))
        = pending'.filterMap fun x =>
          (B.joined? x.2).map fun joined => ((B.join x.2).order, x.1, joined) := by
    intro pending pending' operands
    induction operands with
    | nil => rfl
    | cons first _ ih =>
      obtain ⟨result, order⟩ := agree.join _ _ first.2
      simp only [List.filterMap_cons, agree.joined? first.2, order, first.1, ih]
  simp only [endedOperands]
  exact congrArg (fun ended : List (Nat × Nat × Joined) =>
    (ended.mergeSort fun a b => a.1 ≤ b.1).map (·.2)) (found operands)

/-- What groups that mirror each other come to. -/
inductive Gathered (L : Lens) : Except Fault Group → Except Fault Group → Prop
  | error (f : Fault) : Gathered L (.error f) (.error f)
  | ok {g g' : Group} (h : g.Mirrors L g') : Gathered L (.ok g) (.ok g')

theorem gather_mirrors (ended : List (Nat × Joined)) {g g' : Group} (group : g.Mirrors L g')
    (along : s.Along L hidden s' A B) : Gathered L (gather g ended A).1 (gather g' ended B).1 ∧
      s.Along L hidden s' (gather g ended A).2 (gather g' ended B).2 := by
  induction ended generalizing g g' A B with
  | nil => exact ⟨.ok group, along⟩
  | cons y rest ih =>
    obtain ⟨i, joined⟩ := y
    have token : g.token = g'.token := by cases group; rfl
    have failure : g.failure = g'.failure := by cases group; rfl
    unfold gather
    split
    · exact ⟨.error _, token ▸ along.cancel _⟩
    · next exit _ =>
      have next := absorb_mirrors group i exit
      have taken (first : Bool) : Gathered L
          (gather ((g.drop i).absorb i exit) rest
            (if first then (A.emit (.operandFailed i)).cancel g.token else A)).1
          (gather ((g'.drop i).absorb i exit) rest
            (if first then (B.emit (.operandFailed i)).cancel g.token else B)).1 ∧
        s.Along L hidden s'
          (gather ((g.drop i).absorb i exit) rest
            (if first then (A.emit (.operandFailed i)).cancel g.token else A)).2
          (gather ((g'.drop i).absorb i exit) rest
            (if first then (B.emit (.operandFailed i)).cancel g.token else B)).2 := by
        cases first with
        | false => exact ih next along
        | true => exact ih next ((along.emit (.same _)).cancel _)
      rw [← token, ← failure]
      exact taken _

theorem resumeStep_mirrors (worker : Worker) {g g' : Segment} (segment : g.Mirrors L g')
    (callers : Caller.AllMirror L cs cs') {link : Link}
    (shown : ∀ φ ∈ Post.fibers (g.posts link), ¬ hidden φ.token)
    (along : s.Along L hidden s' A B) :
    Mirror L hidden s s' (resumeStep worker cs A g) (resumeStep worker cs' B g') := by
  cases segment with
  | start loop reads => exact ⟨eval_mirrors loop reads callers, along⟩
  | @callback l l' loop slot =>
    have own : ¬ hidden l.env.token :=
      shown _ (Post.mem_fibers.mpr ⟨link, Multiset.mem_singleton_self _⟩)
    simp only [resumeStep, ← along.callback slot, ← loop.env, ← along.isCancelled own]
    split
    · exact ⟨unwind_mirrors loop _ callers, along⟩
    · exact ⟨.faulted _, along⟩
    · split
      · exact ⟨unwind_mirrors loop _ callers, along.emit (.same _)⟩
      · refine ⟨.next (.park (.callback loop slot) callers), along.idle ?_ ?_⟩ <;>
          exact (Store.bare_watchToken _ _ _).trans (Store.bare_watchCallback _ _ _)
  | @future l l' wait loop await =>
    have own : ¬ hidden l.env.token :=
      shown _ (Post.mem_fibers.mpr ⟨link, Multiset.mem_singleton_self _⟩)
    have same : Wait.result? A wait = Wait.result? B wait := by
      cases await with
      | never => rfl
      | deadline time result => simp only [Wait.result?, along.now]
      | cancellation named => simp only [Wait.result?, along.isCancelled (along.clear _ named)]
    have watched (C : Store) (t : TokenId) :
        ((watch worker C wait).watchToken t worker.task).bare = C.bare := by
      refine (Store.bare_watchToken _ _ _).trans ?_
      cases wait with
      | never => rfl
      | deadline time result => exact Store.bare_watchTime _ _ _
      | cancellation t => exact Store.bare_watchToken _ _ _
    simp only [resumeStep, ← same, ← loop.env, ← along.isCancelled own]
    split
    · exact ⟨unwind_mirrors loop _ callers, along⟩
    · split
      · exact ⟨unwind_mirrors loop _ callers, along.emit (.same _)⟩
      · exact ⟨.next (.park (.future loop await) callers), along.idle (watched _ _) (watched _ _)⟩
  | shifted env task =>
    simp only [resumeStep, ← along.joined? task]
    split
    · split
      · exact ⟨.next (.leave _ callers), along⟩
      · exact ⟨.faulted _, along⟩
    · exact ⟨.next (.park (.shifted env task) callers),
        along.idle (Store.bare_watchTask _ _ _) (Store.bare_watchTask _ _ _)⟩
  | acquiring loop used released nested =>
    exact ⟨resume_mirrors nested (.cons (.acquiring loop used released) callers), along⟩
  | releasing loop number outcome nested =>
    exact ⟨resume_mirrors nested (.cons (.releasing loop number outcome) callers), along⟩
  | racing loop tokens onLeft onRight =>
    exact ⟨resume_mirrors onLeft (.cons (.racingLeft loop tokens onRight) callers), along⟩
  | settling loop winner exit nested =>
    exact ⟨resume_mirrors nested (.cons (.settling loop winner exit) callers), along⟩
  | remaining loop side nested =>
    exact ⟨resume_mirrors nested (.cons (.remaining loop side) callers), along⟩
  | @gathering l l' g g' loop group =>
    obtain ⟨result, gathered⟩ := gather_mirrors (endedOperands g A) group along
    simp only [resumeStep, ← endedOperands_mirrors group along.toAgree]
    revert result gathered
    rcases gather g (endedOperands g A) A with ⟨r, A₁⟩
    rcases gather g' (endedOperands g A) B with ⟨r', B₁⟩
    intro result gathered
    cases result with
    | error f => exact ⟨.faulted f, gathered⟩
    | @ok g₁ g₁' group =>
      have exit : g₁.exit = g₁'.exit := by cases group; rfl
      have empty : g₁.pending.isEmpty = g₁'.pending.isEmpty := by
        obtain ⟨token, operands, values, failure, canceled⟩ := group
        cases operands <;> rfl
      simp only [← exit, ← empty]
      split
      · exact ⟨unwind_mirrors loop _ callers, gathered⟩
      · exact ⟨.next (.park (.gathering loop group) callers),
          gathered.idle (Store.bare_watchTasks _ _ _) (Store.bare_watchTasks _ _ _)⟩

theorem parkStep_mirrors {g g' : Segment} (segment : g.Mirrors L g')
    (callers : Caller.AllMirror L cs cs') : (parkStep g cs).Mirrors L (parkStep g' cs') := by
  cases callers with
  | nil => exact .parked segment
  | cons caller callers =>
    cases caller with
    | acquiring loop used released =>
      exact .next (.park (.acquiring loop used released segment) callers)
    | releasing loop number outcome =>
      exact .next (.park (.releasing loop number outcome segment) callers)
    | racingLeft loop tokens other =>
      exact .next (.resume other (.cons (.racingRight loop tokens segment) callers))
    | racingRight loop tokens other =>
      exact .next (.park (.racing loop tokens other segment) callers)
    | settling loop winner exit => exact .next (.park (.settling loop winner exit segment) callers)
    | remaining loop side => exact .next (.park (.remaining loop side segment) callers)

end Machine

theorem Caller.fiber_mem_fibers (caller : Caller) (link : Link) :
    caller.fiber ∈ Post.fibers (caller.posts link) := by
  refine Post.mem_fibers.mpr ⟨link, ?_⟩
  cases caller with
  | acquiring | releasing | settling | remaining => exact Multiset.mem_singleton_self _
  | racingLeft | racingRight => exact Multiset.mem_cons_self _ _

/-- Polls that mirror each other go on to do so. -/
theorem Config.step_mirrors (worker : Worker) {c c' : Config} (mirror : c.Mirrors L c')
    (shown : ∀ φ ∈ Post.fibers c.posts, ¬ hidden φ.token) (agree : A.Agree L hidden B) :
    Machine.Mirror L hidden A B (c.step worker A) (c'.step worker B) := by
  have along := Store.Along.refl agree
  cases mirror with
  | @eval l l' effect cs cs' loop reads callers =>
    have own : ¬ hidden l.env.token := shown _ (Post.mem_fibers.mpr ⟨_, Multiset.mem_cons_self _ _⟩)
    exact Machine.evalStep_mirrors worker reads loop callers own along
  | @unwind l l' cs cs' loop x callers =>
    have own : ¬ hidden l.env.token := shown _ (Post.mem_fibers.mpr ⟨_, Multiset.mem_cons_self _ _⟩)
    exact Machine.unwindStep_mirrors loop callers own along x
  | leave x callers =>
    cases callers with
    | nil => exact ⟨.ended x, along⟩
    | @cons c c' cs cs' caller callers =>
      rw [posts_leave, Caller.allPosts_cons, Post.fibers_add] at shown
      have own := shown _ (Multiset.mem_add.mpr (.inl (c.fiber_mem_fibers (Caller.innermost cs))))
      exact Machine.returnStep_mirrors caller x callers own along
  | resume segment callers =>
    rw [posts_resume, Post.fibers_add] at shown
    exact Machine.resumeStep_mirrors worker segment callers
      (fun φ mem => shown φ (Multiset.mem_add.mpr (.inl mem))) along
  | park segment callers => exact ⟨Machine.parkStep_mirrors segment callers, along⟩

end EffectFibers
