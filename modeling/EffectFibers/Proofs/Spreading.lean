import EffectFibers.Proofs.Handover

/-!
# How cancellations spread

A token that becomes cancelled was cancelled itself, or the token that it was derived from is
(`Store.Spreads`).  The machine cancels three kinds of tokens itself: one that the program asks
for, that of the operand that is left when a race is settled, and that of a group of which an
operand has failed or panicked (`Config.Targets`).  Outside of the machine only the surroundings
cancel anything, and a run that is given up cancels its own token.

## Main statements

* `Config.step_spreads`: what a step of a poll cancels.
* `Runtime.Step.spreads`: what a step of a runtime cancels.
-/

namespace EffectFibers

/-! ## The store -/

namespace Store

variable {s s' s'' : Store} {target target' : TokenId → Prop} {p t : TokenId}

/-- Every token that becomes cancelled is a target, or was derived from a cancelled one. -/
def Spreads (s s' : Store) (target : TokenId → Prop) : Prop :=
  ∀ u, s'.isCancelled u = true → s.isCancelled u = true ∨ target u ∨
    ∃ q, s'.Parent q u ∧ s'.isCancelled q = true

theorem Spreads.of_same (same : ∀ u, s'.isCancelled u = s.isCancelled u) : s.Spreads s' target :=
  fun u cancelled => .inl (same u ▸ cancelled)

theorem Spreads.of_tokens (tokens : s'.tokens = s.tokens) : s.Spreads s' target :=
  .of_same fun u => by simp [isCancelled, tokens]

theorem Spreads.mono (h : s.Spreads s' target) (sub : ∀ u, target u → target' u) :
    s.Spreads s' target' :=
  fun u cancelled => (h u cancelled).imp_right (Or.imp_left (sub u))

theorem Spreads.trans (h : s.Spreads s' target) (h' : s'.Spreads s'' target)
    (ages : s'.Ages s'') : s.Spreads s'' target := fun u cancelled => by
  obtain before | here | above := h' u cancelled
  · obtain first | here | ⟨q, parent, cancelled⟩ := h u before
    · exact .inl first
    · exact .inr (.inl here)
    · exact .inr (.inr ⟨q, parent.mono ages, ages.isCancelled q cancelled⟩)
  · exact .inr (.inl here)
  · exact .inr (.inr above)

/-- A derived token is cancelled from the start if the token that it is derived from is. -/
theorem spreads_child (s : Store) (p : TokenId) : s.Spreads (s.childToken p).2 target := by
  intro u cancelled
  have ages : s.Ages (s.childToken p).2 := Grows.ages (.single (.child s p))
  obtain before | ⟨rfl, parent⟩ : s.isCancelled u = true ∨ u = s.size ∧ s.isCancelled p = true := by
    simpa [childToken, isCancelled, emit, Forest.isCancelled_child, size] using cancelled
  · exact .inl before
  · have derived : (s.childToken p).2.Parent p s.size :=
      ⟨by simp [Derived], Forest.isCancelled_lt parent⟩
    exact .inr (.inr ⟨p, derived, ages.isCancelled p parent⟩)

theorem spreads_of_cancel (listed : s.Listed) (ages : s.Ages s')
    (tokens : s'.tokens = s.tokens.cancel t) : s.Spreads s' (· = t) := by
  intro u cancelled
  rw [isCancelled, tokens] at cancelled
  refine (Forest.cause_of_isCancelled_cancelAll cancelled).imp_right ?_
  rintro (mem | ⟨q, mem, above⟩)
  · exact .inl (List.mem_singleton.mp mem)
  · refine .inr ⟨q, (listed q u mem).mono ages, ?_⟩
    rwa [isCancelled, tokens]

theorem spreads_cancel (listed : s.Listed) (t : TokenId) : s.Spreads (s.cancel t) (· = t) :=
  spreads_of_cancel listed (Grows.ages (.single (.cancel s t))) (s.tokens_cancel t)

end Store

/-! ## The machine -/

/-- The tokens that a step of a poll cancels itself. -/
inductive Config.Targets (s : Store) : Config → TokenId → Prop
  | asked {loop : Loop} {callers : List Caller} {t : TokenId} :
      Targets s ⟨.eval loop (.cancel t), callers⟩ t
  /-- A race is settled. -/
  | settled {loop : Loop} {tokens : RaceTokens} {other : Segment} {side : Side} {x : Exit}
      {callers : List Caller} (decided : loop.decided s side x = .settling side x) :
      Targets s ⟨.leave x, .race loop tokens other side :: callers⟩ (tokens.of side.other)
  /-- An operand of a group has failed. -/
  | failed {loop : Loop} {g g' : Group} {s₁ : Store} {callers : List Caller}
      (gathered : Machine.gather g (Machine.endedOperands g s) s = (.ok g', s₁))
      (failure : g'.failure ≠ none) : Targets s ⟨.resume (.gathering loop g), callers⟩ g.token
  /-- An operand of a group has panicked. -/
  | panicked {loop : Loop} {g : Group} {f : Fault} {s₁ : Store} {callers : List Caller}
      (gathered : Machine.gather g (Machine.endedOperands g s) s = (.error f, s₁)) :
      Targets s ⟨.resume (.gathering loop g), callers⟩ g.token

namespace Machine

variable {worker : Worker} {loop : Loop} {callers : List Caller} {s : Store}
  {target : TokenId → Prop}

theorem spreads_atPoint {point : Point} {go : Store → Progress × Store}
    (h : ∀ e : Event, s.Spreads (go (s.emit e)).2 target) :
    s.Spreads (atPoint s loop callers point go).2 target := by
  unfold atPoint
  split
  · exact .of_tokens rfl
  · exact h _

theorem spreads_fresh (e : Event) : s.Spreads (s.emit e).freshToken.2 target :=
  .of_same fun _ => Forest.isCancelled_fresh

theorem spreads_spawnOperands (env : Env) (group : TokenId) (operands : Nat → Effect)
    (indices : List Nat) (s : Store) :
    s.Spreads (spawnOperands env group operands indices s).2 target := by
  induction indices generalizing s with
  | nil => exact .of_tokens rfl
  | cons i rest ih =>
    have first : s.Spreads (s.childToken group).2 target := s.spreads_child group
    simp only [spawnOperands]
    generalize s.childToken group = child at first
    obtain ⟨token, s₁⟩ := child
    let job : Job := .segment (.start ⟨env.withToken token, []⟩ (operands i))
    have spawned : s.Spreads (s₁.spawn env.context job).2 target :=
      first.trans (.of_tokens (s₁.tokens_spawn _ _)) (Store.Grows.ages (.single (.spawn s₁ _ _)))
    have grows := (operands_spawnOperands env group operands rest (s₁.spawn env.context job).2).grows
    exact spawned.trans (ih _) grows.ages

theorem spreads_evalStep (effect : Effect) (listed : s.Listed) :
    s.Spreads (evalStep worker loop callers s effect).2
      (Config.Targets s ⟨.eval loop effect, callers⟩) := by
  cases effect with
  | pure | fail | fault | isCancelled | map | flatMap | handleErrorWith => exact .of_tokens rfl
  | cancel t => exact (s.spreads_cancel listed t).mono fun u same => same ▸ .asked
  | perform | loop =>
    simp only [evalStep]
    split <;> exact .of_tokens rfl
  | async r =>
    refine spreads_atPoint fun e => ?_
    have quiet := register_quiet worker r (s.emit e)
    split <;> next found =>
      rw [found] at quiet
      exact .of_tokens quiet.tokens
  | await future =>
    refine spreads_atPoint fun e => ?_
    split <;> exact .of_tokens rfl
  | shift context => exact spreads_atPoint fun e => .of_tokens (Store.tokens_spawn _ _ _)
  | bracket => exact spreads_atPoint fun e => spreads_fresh e
  | race =>
    exact (s.spreads_child _).trans (Store.spreads_child _ _)
      (Store.Grows.ages (.single (.child _ _)))
  | parallel n operands =>
    exact (s.spreads_child _).trans (spreads_spawnOperands _ _ _ _ _)
      (operands_spawnOperands _ _ _ _ _).grows.ages

theorem spreads_frameStep (frame : Frame) (x : Exit) :
    s.Spreads (frameStep loop callers s frame x).2 target := by
  cases frame with
  | map f =>
    cases x with
    | succeeded v =>
      simp only [frameStep]
      split <;> exact .of_tokens rfl
    | errored | canceled => exact .of_tokens rfl
  | bind | again | handle => cases x <;> exact .of_tokens rfl
  | release bracket finalizer =>
    simp only [frameStep]
    split
    · exact .of_tokens rfl
    · exact spreads_fresh _

theorem spreads_settle (side : Side) {tokens : RaceTokens} {x : Exit} {other : Segment}
    (listed : s.Listed) : s.Spreads (settle loop tokens side x other callers s).2
      (Config.Targets s ⟨.leave x, .race loop tokens other side :: callers⟩) := by
  unfold settle
  split
  · exact .of_tokens rfl
  · next goes =>
    refine (s.spreads_cancel listed _).mono fun u same => same ▸ .settled ?_
    rw [Loop.decided, if_neg goes]

theorem spreads_returnStep (x : Exit) (caller : Caller) (listed : s.Listed) :
    s.Spreads (returnStep x callers s caller).2
      (Config.Targets s ⟨.leave x, caller :: callers⟩) := by
  cases caller with
  | acquiring loop use release =>
    cases x with
    | succeeded v =>
      simp only [returnStep]
      split <;> exact .of_tokens rfl
    | errored | canceled => exact .of_tokens rfl
  | releasing loop bracket outcome => cases x <;> cases outcome <;> exact .of_tokens rfl
  | racingLeft loop tokens other => exact spreads_settle .left listed
  | racingRight loop tokens other => exact spreads_settle .right listed
  | settling | remaining => exact .of_tokens rfl

theorem spreads_gather (g : Group) (ended : List (Nat × Joined)) (listed : s.Listed) :
    s.Spreads (gather g ended s).2 (· = g.token) := by
  induction ended generalizing g s with
  | nil => exact .of_tokens rfl
  | cons y rest ih =>
    obtain ⟨i, joined⟩ := y
    unfold gather
    split
    · exact s.spreads_cancel listed _
    · next x came =>
      have token : ((g.drop i).absorb i x).token = g.token := (absorb_fields _ i x).1
      have taken : ∀ first : Bool, s.Spreads (gather ((g.drop i).absorb i x) rest
          (if first then (s.emit (.operandFailed i)).cancel g.token else s)).2 (· = g.token) := by
        intro first
        have grows : s.Grows (if first then (s.emit (.operandFailed i)).cancel g.token else s) := by
          cases first
          · exact .refl
          · exact .tail (.single (.emit s _ rfl)) (.cancel _ _)
        have now : s.Spreads (if first then (s.emit (.operandFailed i)).cancel g.token else s)
            (· = g.token) := by
          cases first
          · exact .of_tokens rfl
          · exact Store.spreads_of_cancel listed grows.ages (Store.tokens_cancel _ _)
        have later := ih ((g.drop i).absorb i x) (grows.listed listed)
        rw [token] at later
        exact now.trans later (gather_unmarked _ rest _).grows.ages
      exact taken _

theorem spreads_gathering (g : Group) (listed : s.Listed) :
    s.Spreads (resumeStep worker callers s (.gathering loop g)).2
      (Config.Targets s ⟨.resume (.gathering loop g), callers⟩) := by
  have spreads := spreads_gather g (endedOperands g s) listed
  simp only [resumeStep]
  split
  · next f s₁ found =>
    rw [found] at spreads
    exact spreads.mono fun u same => same ▸ .panicked found
  · next g' s₁ found =>
    rw [found] at spreads
    have here : s.Spreads s₁ (Config.Targets s ⟨.resume (.gathering loop g), callers⟩) := by
      by_cases failure : g'.failure = none
      · have whole : g.failure = none := by
          by_contra failed
          exact (gather_failed found failed).1 failure
        obtain ⟨failed, -⟩ | ⟨-, tokens⟩ := gather_whole found whole
        · exact (failed failure).elim
        · exact .of_tokens tokens
      · exact spreads.mono fun u same => same ▸ .failed found failure
    split
    · exact here
    · have watched := s₁.same_watchTasks g'.pending worker.task
      exact here.trans (.of_tokens watched.tokens) watched.grows.ages

theorem spreads_resumeStep (segment : Segment) (listed : s.Listed) :
    s.Spreads (resumeStep worker callers s segment).2
      (Config.Targets s ⟨.resume segment, callers⟩) := by
  cases segment with
  | start | acquiring | releasing | racing | settling | remaining => exact .of_tokens rfl
  | gathering loop g => exact spreads_gathering g listed
  | callback loop slot =>
    simp only [resumeStep]
    split
    · exact .of_tokens rfl
    · exact .of_tokens rfl
    · split
      · exact .of_tokens rfl
      · exact .of_tokens ((s.same_watchCallback _ _).trans (Store.same_watchToken _ _ _)).tokens
  | future loop wait =>
    simp only [resumeStep]
    split
    · exact .of_tokens rfl
    · split
      · exact .of_tokens rfl
      · exact .of_tokens ((same_watch _ _ _).trans (Store.same_watchToken _ _ _)).tokens
  | shifted env t =>
    simp only [resumeStep]
    split
    · split <;> exact .of_tokens rfl
    · exact .of_tokens (s.same_watchTask _ _).tokens

end Machine

theorem Config.step_spreads (worker : Worker) (c : Config) {s : Store} (listed : s.Listed) :
    s.Spreads (c.step worker s).2 (c.Targets s) := by
  obtain ⟨focus, callers⟩ := c
  cases focus with
  | eval loop effect => exact Machine.spreads_evalStep effect listed
  | unwind loop x =>
    obtain ⟨env, frames⟩ := loop
    cases frames with
    | nil => exact .of_tokens rfl
    | cons frame frames => exact Machine.spreads_frameStep frame x
  | leave x =>
    cases callers with
    | nil => exact .of_tokens rfl
    | cons caller callers => exact Machine.spreads_returnStep x caller listed
  | resume segment => exact Machine.spreads_resumeStep segment listed
  | park segment => exact .of_tokens rfl

/-! ## The runtime -/

namespace Runtime

variable {σ σ' : Runtime} {t : TokenId}

/-- The step is a request to cancel a token: by the surroundings, or by a program. -/
inductive Asks : Runtime → Runtime → TokenId → Prop
  | outside {σ : Runtime} {t : TokenId} : Asks σ { σ with store := σ.store.cancel t } t
  | program {s : Store} {rest : Multiset Strand} {log : List Moment} {run t : TokenId}
      {role : Strand.Role} {loop : Loop} {callers : List Caller} {worker : Worker} :
      Asks ⟨s, ⟨run, role, .running ⟨.eval loop (.cancel t), callers⟩⟩ ::ₘ rest, log⟩
        (turn worker run role ⟨.eval loop (.cancel t), callers⟩ ⟨s, rest, log⟩) t

/-- The tokens that a step cancels itself. -/
inductive Targets (σ σ' : Runtime) (t : TokenId) : Prop
  | asked (asks : Asks σ σ' t)
  /-- A run is given up. -/
  | given (owned : σ.Holds t t)
  /-- A race is settled. -/
  | settled {run : TokenId} {loop : Loop} {tokens : RaceTokens} {side : Side} {x : Exit}
      (mem : (run, ⟨loop, .racing tokens⟩) ∈ σ.crew)
      (mem' : (run, ⟨loop, .settling side x⟩) ∈ σ'.crew) (token : tokens.of side.other = t)
  /-- A group has failed. -/
  | failed {run : TokenId} {loop : Loop} {g : Group} {doing : Doing}
      (mem : (run, ⟨loop, .gathering g⟩) ∈ σ.crew) (mem' : (run, ⟨loop, doing⟩) ∈ σ'.crew)
      (goes : (∃ g', doing = .gathering g' ∧ g'.token = g.token ∧ g'.failure ≠ none) ∨
        ∃ x, doing = .unwinding x) (token : g.token = t)
  | panicked {run : TokenId} {loop : Loop} {g : Group} (mem : (run, ⟨loop, .gathering g⟩) ∈ σ.crew)
      (failed : σ'.Failed run) (token : g.token = t)

theorem turn_targets {s : Store} {rest : Multiset Strand} {log : List Moment} {run : TokenId}
    {role : Strand.Role} {c : Config} {worker : Worker} (target : c.Targets s t) :
    Targets ⟨s, ⟨run, role, .running c⟩ ::ₘ rest, log⟩ (turn worker run role c ⟨s, rest, log⟩) t := by
  let σ : Runtime := ⟨s, ⟨run, role, .running c⟩ ::ₘ rest, log⟩
  have acting : ⟨run, role, .running c⟩ ∈ σ.strands := Multiset.mem_cons_self _ _
  cases target with
  | asked => exact .asked .program
  | @settled loop tokens other side x callers decided =>
    have before : loop.berth (Caller.innerRoom callers) (.racing tokens)
        ∈ Config.berths ⟨.leave x, Caller.race loop tokens other side :: callers⟩ := by
      rw [Config.berths_leave]
      cases side <;> exact Multiset.mem_add.mpr (.inl (Multiset.mem_cons_self _ _))
    have after := Machine.returnStep_after (s := s) x callers (.race loop tokens other side)
    rw [Caller.after_race, decided] at after
    exact .settled (mem_crew_of_running acting before) (mem_crew_turn after) rfl
  | @failed loop g g' s₁ callers gathered failure =>
    have before : loop.berth (Caller.innerRoom callers) (.gathering g)
        ∈ Config.berths ⟨.resume (.gathering loop g), callers⟩ := Multiset.mem_cons_self _ _
    have token := (Machine.gather_advances (congrArg Prod.fst gathered)).1
    have after : ∃ doing, loop.berth (Caller.innerRoom callers) doing
        ∈ (Config.step worker ⟨.resume (.gathering loop g), callers⟩ s).1.berths ∧
          ((∃ g', doing = .gathering g' ∧ g'.token = g.token ∧ g'.failure ≠ none) ∨
            ∃ x, doing = .unwinding x) := by
      simp only [Config.step, Machine.resumeStep, gathered]
      split
      · exact ⟨_, Multiset.mem_cons_self _ _, .inr ⟨_, rfl⟩⟩
      · exact ⟨_, Multiset.mem_cons_self _ _, .inl ⟨g', rfl, token, failure⟩⟩
    obtain ⟨doing, after, goes⟩ := after
    exact .failed (mem_crew_of_running acting before) (mem_crew_turn after) goes rfl
  | @panicked loop g f s₁ callers gathered =>
    have before : loop.berth (Caller.innerRoom callers) (.gathering g)
        ∈ Config.berths ⟨.resume (.gathering loop g), callers⟩ := Multiset.mem_cons_self _ _
    have fault : (Config.step worker ⟨.resume (.gathering loop g), callers⟩ s).1 = .faulted f := by
      simp only [Config.step, Machine.resumeStep, gathered]
    refine .panicked (mem_crew_of_running acting before) ⟨⟨run, role, .faulted f⟩, ?_, rfl, ?_⟩ rfl
    · rw [turn_faulted fault]
      exact Multiset.mem_cons_self _ _
    · trivial

/-- A run that is given up cancels its own token. -/
theorem giveUp_spreads {s : Store} {rest : Multiset Strand} {log : List Moment} {r : Run}
    {segment : Segment} (h : Reachable ⟨s, .ofRun r ::ₘ rest, log⟩)
    (live : r.state = .live segment) :
    s.Spreads (r.giveUp s) fun u => Holds ⟨s, .ofRun r ::ₘ rest, log⟩ u u := by
  have tokens : (r.giveUp s).tokens = s.tokens.cancel r.token := by
    simp only [Run.giveUp, live]
    split <;> simp
  refine (Store.spreads_of_cancel h.listed (giveUp_grows r s).ages tokens).mono fun u same => ?_
  subst same
  let σ : Runtime := ⟨s, .ofRun r ::ₘ rest, log⟩
  have acting : Strand.ofRun r ∈ σ.strands := Multiset.mem_cons_self _ _
  obtain ⟨b, inside, outer⟩ := segment.exists_room .outer
  have berth : b ∈ (Strand.ofRun r).berths := by
    simpa [Strand.berths, Strand.ofRun, live] using inside
  have inParties : (Strand.ofRun r).company.party ∈ σ.parties :=
    mem_parties.mpr ⟨_, Multiset.mem_map_of_mem Strand.company acting, rfl⟩
  have post : b.post ∈ (Strand.ofRun r).company.party.posts := Multiset.mem_map_of_mem _ berth
  have link : b.post.link = .outer := by rw [Berth.post, outer]; rfl
  have own : b.post.token = r.token := h.kindred.root _ inParties rfl _ post link
  exact ⟨_, inParties, rfl, b.post, post, own ▸ b.post.token_mem_owned⟩

/-- What a step of a runtime cancels. -/
theorem Step.spreads (h : Reachable σ) (step : Step σ σ') :
    σ.store.Spreads σ'.store (Targets σ σ') := by
  have listed := h.listed
  cases step with
  | begin | fresh => exact .of_same fun _ => Forest.isCancelled_fresh
  | beginBelow _ parent =>
    exact (σ.store.spreads_child parent).trans (.of_tokens rfl)
      (Store.Grows.ages (.single (.emit _ _ rfl)))
  | child _ parent => exact σ.store.spreads_child parent
  | poll => exact .of_tokens rfl
  | turn s rest log run role c worker =>
    exact (c.step_spreads worker listed).mono fun u target => turn_targets target
  | report s rest log run t state result => exact .of_tokens (same_finish s t result).tokens
  | giveUp s rest log r segment live unstarted =>
    exact (giveUp_spreads h live).mono fun u held => .given held
  | cancel _ t => exact (Store.spreads_cancel listed t).mono fun u same => same ▸ .asked .outside
  | prune _ held => exact .of_same fun _ => Forest.isCancelled_prune held
  | outside _ s out => exact .of_tokens out.tokens

end Runtime

end EffectFibers
