import EffectFibers.Proofs.Openings
import EffectFibers.Proofs.RunStages

/-!
# Effects side by side

A run that evaluates a group evaluates each of the operands in a part of it that has the task of the
operand.  The loop that waits for the group does nothing that the parts see, and no part is
cancelled as long as nothing fails; so each operand comes to what it comes to by itself, and the
group to what is made of these exits.

## Main definitions

* `Ensemble`: the stages of a run that evaluates a group.

## Main statements

* `Ensemble.next`: a step of the runtime.
* `Civil.together`: what such a run ends with.
-/

namespace EffectFibers

open Shares

/-! ## Operands in parts -/

namespace Shares

variable {n : Nat} {τ : Fin n → Strand} {i : Fin n} {run : TokenId}

/-- Strands of which each is in a part of its own. -/
def each (τ : Fin n → Strand) : Shares (Fin n) := Finset.univ.val.map fun i => (some i, τ i)

theorem map_each : (each τ).map Prod.snd = Finset.univ.val.map τ := by
  rw [each, Multiset.map_map]
  rfl

theorem part_each : part (each τ) i = {τ i} := by
  have single : (Finset.univ.filter fun j : Fin n => some j = some i).val = {i} := by
    simp [Finset.filter_eq']
  rw [part, each, Multiset.filter_map, Multiset.map_map]
  exact congrArg (Multiset.map τ) single

theorem mem_others_each {ν : Strand} : ν ∈ others (each τ) i ↔ ∃ j, j ≠ i ∧ τ j = ν := by
  simp [others, each, and_comm]

theorem host_each : host (each τ) run = 0 := by
  simp [host, each]

end Shares

variable {n : Nat} {S : Fin n → Ambit} {e : Fin n → Effect} {results : Fin n → Result} {r : Result}
  {run group : TokenId} {z x : Exit} {σ σ' σ₁ : Runtime} {path : List Transition}
  {M : Shares (Fin n)} {deeds : Fin n → List Transition} {outset : Fin n → Option Outset}
  {tasks : Fin n → TaskId} {tokens : Fin n → TokenId} {loop : Loop} {role : Strand.Role} {env : Env}
  {pace pace' : Pace} {i j : Fin n} {o : Outset}

/-- A strand stays as it is, or goes on. -/
theorem Runtime.Step.stays_or_goes (step : Runtime.Step σ σ') (reach : σ.Reachable) {ρ : Strand}
    (mem : ρ ∈ σ.strands) (whole' : ¬ σ'.Failed ρ.run) : ρ ∈ σ'.strands ∨
      ∃ s s' μ' begun marks rest log, ρ.Goes s s' μ' begun marks ∧ σ = ⟨s, ρ ::ₘ rest, log⟩ ∧
        σ' = ⟨s', μ' ::ₘ (begun + rest), marks ++ log⟩ := by
  obtain act | ⟨aside, -⟩ := step.act_or_aside reach
  · obtain @⟨s, s', μ, μ', begun, marks, goes, rest, log⟩ := act
    obtain rfl | mem := Multiset.mem_cons.mp mem
    · exact .inr ⟨s, s', μ', begun, marks, rest, log, goes, rfl, rfl⟩
    · exact .inl (Multiset.mem_cons_of_mem (Multiset.mem_add.mpr (.inr mem)))
  · cases aside with
    | begins elsewhere runs fresh => exact .inl (Multiset.mem_add.mpr (.inr mem))
    | drops grows μ rest log =>
      obtain rfl | mem := Multiset.mem_cons.mp mem
      · exact (whole' ⟨_, Multiset.mem_cons_self _ _, rfl, trivial⟩).elim
      · exact .inl (Multiset.mem_cons_of_mem mem)

/-- The operands of a group that has just begun come to be in parts. -/
theorem Divided.assembles {s : Store} {g : Group} {μ' : Strand} {begun : Multiset Strand}
    (h : Divided S e run σ path ((none, μ') ::ₘ (all none begun + M)) deeds fun _ => none)
    (reach : σ.Reachable) (older : ∀ t, Strand.Owns (M.map Prod.snd) t → t < s.size)
    (fanned : g.Fanned s σ.store run role loop e tasks tokens μ' begun)
    (own : loop.env.token = run) :
    Divided S e run σ path ((none, μ') ::ₘ (each (fun i =>
        Strand.ofOperand run loop.env (tasks i) (tokens i) (e i)) + M)) deeds fun i =>
      some ⟨run, .task (tasks i), ⟨loop.env.withToken (tokens i), []⟩, σ.store.size⟩ := by
  obtain ⟨rfl, rfl, -, -, token, -, parent, distinct⟩ := fanned
  have newer (i : Fin n) : s.size < tokens i := token ▸ (parent i).lt
  have empty (i : Fin n) : part M i = 0 := by
    obtain ⟨log, alone⟩ := h.alone i
    have nothing := Divided.nothing alone
    simpa [part_cons, part_add, part_all] using nothing
  refine h.begins reach ?_ fun i =>
    .inr ⟨rfl, _, rfl, rfl, rfl, ?_, ⟨_, ?_, .waiting⟩, fun owns => ?_⟩
  · rw [Multiset.map_cons, Multiset.map_add, map_each, ← h.strands, Multiset.map_cons,
      Multiset.map_add, map_all]
  · exact reach.kindred.family.bound _ _ (parent i).derived
  · simp [part_cons, part_add, part_each, empty, Strand.ofOperand]
  · change tokens i = run
    rw [others_cons, if_neg (Option.some_ne_none i).symm, others_add, ← Multiset.singleton_add,
      Strand.owns_add, Strand.owns_add] at owns
    obtain waits | ⟨ν, mem, p, inside, held⟩ | ⟨ν, mem, held⟩ := owns
    · exact (AtGroup.resumed.owned waits).elim (fun same => same.trans own) fun same =>
        ((parent i).lt.ne' same).elim
    · obtain ⟨j, other, rfl⟩ := mem_others_each.mp mem
      obtain rfl : p = _ := Multiset.mem_singleton.mp inside
      exact (other (distinct (List.mem_singleton.mp held)).symm).elim
    · refine (Nat.lt_asymm (newer i) (older _ ⟨ν, ?_, held⟩)).elim
      obtain ⟨x, inOthers, rfl⟩ := Multiset.mem_map.mp mem
      exact Multiset.mem_map_of_mem _ (Multiset.mem_filter.mp inOthers).1

/-! ## The stages -/

/-- The group has begun, and its operands are in parts. -/
structure Assembled (S : Fin n → Ambit) (run : TokenId) (σ₁ : Runtime) (loop : Loop)
    (group : TokenId) (tasks : Fin n → TaskId) (tokens : Fin n → TokenId)
    (outset : Fin n → Option Outset) : Prop where
  opening : Opening σ₁ group tasks tokens
  began : ∀ i, ∃ o, outset i = some o ∧ o.token = tokens i ∧ o.loop.frames = []
  named : ∀ i t, (S i).named t → t < group
  known : run < group
  own : loop.env.token = run

/-- The loop waits for the group, whose operands have left with nothing but their results. -/
inductive Waiting (S : Fin n → Ambit) (e : Fin n → Effect) (results : Fin n → Result)
    (run : TokenId) (σ₁ : Runtime) (loop : Loop) (group : TokenId) (tokens : Fin n → TokenId)
    (outset : Fin n → Option Outset) (z : Exit) (σ : Runtime) (path : List Transition) : Prop
  | mk {M : Shares (Fin n)} {deeds : Fin n → List Transition} {g : Group} {state : Strand.State}
      (divided : Divided S e run σ path ((none, ⟨run, .root, state⟩) ::ₘ M) deeds outset)
      (host : host M run = 0) (gathers : AtGroup loop g state) (token : g.token = group)
      (steps : Runtime.Steps σ₁ σ)
      (marks : ∀ i x, .left (tokens i) x ∈ σ.events → x = .ofExcept (results i))
      (left : ∀ x, .left run x ∈ σ.events → x = z)

/-- The parts are not cancelled: their effects have no suspension points, or nothing fails and the
run is not cancelled. -/
def Uncancelled (e : Fin n → Effect) (results : Fin n → Result) (run : TokenId) (σ : Runtime) :
    Prop :=
  (∀ i, (e i).Straight) ∨ (∀ i, ∃ v, results i = .ok v) ∧ σ.store.isCancelled run = false

/-- Every operand has left with its result. -/
def AllPerformed (results : Fin n → Result) (σ : Runtime) : Prop :=
  ∃ tokens : Fin n → TokenId, Function.Injective tokens ∧
    ∀ i, .left (tokens i) (.ofExcept (results i)) ∈ σ.events

theorem AllPerformed.step (h : AllPerformed results σ) (step : Runtime.Step σ σ') :
    AllPerformed results σ' := by
  obtain ⟨tokens, distinct, left⟩ := h
  obtain ⟨new, log, -⟩ := step.move.enters
  refine ⟨tokens, distinct, fun i => ?_⟩
  rw [Runtime.events, log, List.map_append]
  exact List.mem_append_right _ (left i)

/-- A run evaluates the group on its way to the exit. -/
inductive Ensemble (S : Fin n → Ambit) (e : Fin n → Effect) (results : Fin n → Result) (r : Result)
    (run : TokenId) (z : Exit) (σ : Runtime) (path : List Transition) : Prop
  /-- The loop has not come to the group. -/
  | before {M : Shares (Fin n)} {deeds : Fin n → List Transition} {env : Env} {pace : Pace}
      (underway : Underway S e run σ path ((none, ⟨run, .root, pace.state ⟨env, []⟩⟩) ::ₘ M) deeds
        (fun _ => none) none [] z)
      (host : host M run = 0) (token : env.token = run)
      (position : Position (fun _ : Unit => .parallel n e) (fun _ => r) z [()] pace)
      (named : ∀ i t, (S i).named t → t < σ.store.size)
  | gathers {σ₁ : Runtime} {loop : Loop} {group : TokenId} {tasks : Fin n → TaskId}
      {tokens : Fin n → TokenId} {outset : Fin n → Option Outset}
      (assembled : Assembled S run σ₁ loop group tasks tokens outset)
      (waiting : Waiting S e results run σ₁ loop group tokens outset z σ path)
      (awaits : Climbs (fun _ : Unit => .parallel n e) (fun _ => r) [] loop.frames (.ofExcept r) z)
  /-- The group has been delivered. -/
  | after {env : Env} {pace : Pace}
      (mem : ⟨run, .root, pace.state ⟨env, []⟩⟩ ∈ σ.strands) (token : env.token = run)
      (position : Position (fun _ : Unit => .parallel n e) (fun _ => r) z [] pace)
      (performed : AllPerformed results σ) (marks : ∀ x, .left run x ∈ σ.events → x = z)
  | departed (gone : run ∉ Runtime.badges σ.crew) (performed : AllPerformed results σ)
      (marks : ∀ x, .left run x ∈ σ.events → x = z)

/-! ## While the loop waits -/

namespace Assembled

variable (h : Assembled S run σ₁ loop group tasks tokens outset)

include h

theorem token_ne (i : Fin n) : tokens i ≠ run :=
  (Nat.lt_trans h.known (h.opening.parent i).lt).ne'

/-- The parts are not cancelled while the loop waits. -/
theorem quiet {g : Group} (steps : Runtime.Steps σ₁ σ) (reached : Runtime.Discreetly {} σ)
    (whole : ¬ σ.Failed run) (unrefused : ∀ t, σ.store.joined? t ≠ some .aborted)
    (mem : (run, ⟨loop, .gathering g⟩) ∈ σ.crew) (token : g.token = group)
    (marks : ∀ i x, .left (tokens i) x ∈ σ.events → x = .ofExcept (results i))
    (calm : Uncancelled e results run σ) : Divided.Quiet e run σ outset := by
  intro i o began
  refine calm.imp (fun straight => straight i) fun ⟨succeed, alive⟩ => ⟨alive, fun held => ?_⟩
  obtain ⟨o', began', same, -⟩ := h.began i
  cases began.symm.trans began'
  rw [same] at held ⊢
  refine h.opening.clear steps reached whole unrefused mem token (fun j x left => ?_)
    (h.own ▸ alive) held
  obtain ⟨v, success⟩ := succeed j
  have failed := marks j _ left
  rw [success] at failed
  cases failed

/-- A part leaves with what its effect comes to. -/
theorem left {L : Shares (Fin n)} (divided : Divided S e run σ path L deeds outset)
    (whole : ¬ σ.Failed run) (unrefused : ∀ t, σ.store.joined? t ≠ some .aborted)
    (comes : ∀ i, (e i).ComesTo (S i) (.ofExcept (results i)))
    (quiet : Divided.Quiet e run σ outset) (step : Runtime.Step σ σ')
    (marks : ∀ i x, .left (tokens i) x ∈ σ.events → x = .ofExcept (results i)) (i : Fin n)
    (x : Exit) (left : .left (tokens i) x ∈ σ'.events) : x = .ofExcept (results i) := by
  refine step.marks (marks i) (fun ν mem env y inside token => ?_) x left
  obtain ⟨o, began, same, bare⟩ := h.began i
  obtain ⟨l, post⟩ := Post.mem_fibers.mp inside
  have owned : o.token ∈ Post.owned ⟨l, .fiber ⟨⟨env, []⟩, .unwinding y⟩⟩ :=
    same.trans token.symm ▸ Post.token_mem_owned _
  obtain ⟨⟨label, ν⟩, shared, rfl⟩ := Multiset.mem_map.mp (divided.strands ▸ mem)
  have here : ν ∈ part L i := by
    by_contra elsewhere
    obtain ⟨mine, holdings⟩ := divided.holdings i o began
    have other : ν ∈ others L i := by
      refine Multiset.mem_map.mpr ⟨_, Multiset.mem_filter.mpr ⟨shared, fun inPart => ?_⟩, rfl⟩
      exact elsewhere (mem_part.mpr (inPart ▸ shared))
    have outside := holdings.outside o.token ⟨ν, other, _, post, owned⟩ holdings.first
    exact h.token_ne i (same.symm.trans outside)
  have held : σ.Holds run o.token :=
    ⟨ν.party, Multiset.mem_map_of_mem _ mem, divided.runs i ν here, _, post, owned⟩
  exact divided.comes (comes i) whole unrefused began
    ((quiet i o began).imp_right fun h => h.2 held) here ⟨env, token.trans same.symm, bare ▸ inside⟩

end Assembled

/-! ## Steps -/

theorem Uncancelled.before (calm : Uncancelled e results run σ') (step : Runtime.Step σ σ') :
    Uncancelled e results run σ := by
  refine calm.imp_right (And.imp_right fun clear => Bool.eq_false_iff.mpr fun cancelled => ?_)
  exact Bool.false_ne_true (clear.symm.trans (step.ages.isCancelled _ cancelled))

/-- The loop leaves with nothing while it waits. -/
theorem Waiting.silent (waiting : Waiting S e results run σ₁ loop group tokens outset z σ path)
    (reach : σ.Reachable) (step : Runtime.Step σ σ') (own : loop.env.token = run) (x : Exit)
    (left : .left run x ∈ σ'.events) : x = z := by
  obtain @⟨M, deeds, g, state, divided, host, gathers, -, -, -, before⟩ := waiting
  refine step.marks before (fun ν mem env y inside same => ?_) x left
  obtain rfl := reach.same_strand divided.mem_strands gathers.mem_fibers mem inside
    (same.trans own.symm)
  rw [gathers.posts] at inside
  obtain ⟨l, inside⟩ := Post.mem_fibers.mp inside
  cases Multiset.mem_singleton.mp inside

namespace Ensemble

/-- The group has been delivered when the loop that waited for it unwinds. -/
theorem delivered {y : Exit} {rest : Multiset Strand}
    (assembled : Assembled S run σ₁ loop group tasks tokens outset)
    (waiting : Waiting S e results run σ₁ loop group tokens outset z σ path)
    (awaits : Climbs (fun _ : Unit => .parallel n e) (fun _ => r) [] loop.frames (.ofExcept r) z)
    (reach : σ.Reachable) (step : Runtime.Step σ σ')
    (unrefused : ∀ t, σ.store.joined? t ≠ some .aborted)
    (together : Exit.Together (List.ofFn fun i => .ofExcept (results i)) (.ofExcept r))
    (strands : σ'.strands = ⟨run, .root, .running ⟨.unwind loop y, []⟩⟩ ::ₘ rest)
    (path' : List Transition) : Ensemble S e results r run z σ' path' := by
  have silent := waiting.silent reach step assembled.own
  obtain @⟨M, deeds, g, state, divided, host, gathers, token, steps, marks, -⟩ := waiting
  have inCrew := Runtime.mem_crew_of_strand divided.mem_strands gathers.mem_fibers
  have after : ⟨run, .root, (Pace.unwind loop.frames y).state ⟨loop.env, []⟩⟩ ∈ σ'.strands := by
    rw [strands, Pace.state, List.append_nil]
    exact Multiset.mem_cons_self _ _
  have inCrew' : (run, ⟨loop, .unwinding y⟩) ∈ σ'.crew := by
    rw [Pace.state, List.append_nil] at after
    exact Runtime.mem_crew_of_running after (Multiset.mem_singleton_self _)
  obtain ⟨xs, exits, made⟩ :=
    assembled.opening.result steps step unrefused inCrew token inCrew' rfl
  obtain rfl : xs = fun i => .ofExcept (results i) := funext fun i => marks i _ (exits i)
  obtain rfl := made.unique together
  have performed : AllPerformed results σ := ⟨tokens, assembled.opening.distinct, exits⟩
  exact .after after assembled.own (.unwind awaits) (performed.step step) silent

section Next

variable (reached : Runtime.Discreetly {} σ) (discreet : Runtime.Discreet σ σ')
  (fair : Runtime.ActOf run σ σ' ∨ ∀ i deeds, Refines deeds path →
    (S i).Spares deeds σ.store σ'.store)
  (known : run < σ.store.size) (whole' : ¬ σ'.Failed run)
  (unrefused' : ∀ t, σ'.store.joined? t ≠ some .aborted) (calm : Uncancelled e results run σ')
  (respects : ∀ i j, i ≠ j → (e j).Respects (S j) (S i))

include reached discreet known whole' unrefused' calm

/-- The loop begins the group. -/
theorem opens {above : List Frame} (underway : Underway S e run σ path
      ((none, ⟨run, .root, .running ⟨.eval ⟨env, above⟩ (.parallel n e), []⟩⟩) ::ₘ M) deeds
        (fun _ => none) none [] z)
    (host : host M run = 0) (token : env.token = run)
    (named : ∀ i t, (S i).named t → t < σ.store.size)
    (awaits : Climbs (fun _ : Unit => .parallel n e) (fun _ => r) [] above (.ofExcept r) z)
    (acts : Divided.HostActs run σ σ'
      ((none, ⟨run, .root, .running ⟨.eval ⟨env, above⟩ (.parallel n e), []⟩⟩) ::ₘ M))
    (own : Prop) :
    Ensemble S e results r run z σ' (⟨own, σ.store.face, σ'.store.face⟩ :: path) := by
  have step := discreet.step
  have reach : σ.Reachable := reached.steps
  have reach' : σ'.Reachable := .tail reach step
  have whole : ¬ σ.Failed run := fun failed => whole' (step.failure failed)
  have mem : ⟨run, .root, (Pace.eval above (.parallel n e)).state ⟨env, []⟩⟩ ∈ σ.strands := by
    rw [Pace.state, List.append_nil]
    exact underway.divided.mem_strands
  have left := step.marks_of_pace reach mem token underway.marks fun x ended => by cases ended
  obtain ⟨s, s', μ', begun, marks, log, goes, rfl, rfl⟩ := acts.single rfl host
  obtain ⟨g, tasks, tokens, fanned⟩ := goes.fanned unrefused'
  have acted := underway.acts reach goes discreet whole own
    (fun i => Ambit.spares_of_face _ _ fanned.face fun t name => fanned.older t (named i t name))
    known (calm.imp_right And.right) left
  have older : ∀ t, Strand.Owns (M.map Prod.snd) t → t < s.size := by
    rintro t ⟨ν, mem, held⟩
    exact reach.owned_known ⟨ν, Multiset.mem_cons_of_mem mem, held⟩
  have opening := fanned.opening reach step (Multiset.mem_cons_self _ _)
    (Multiset.cons_subset_cons (Multiset.subset_of_le (Multiset.le_add_right _ _)))
  have divided := acted.divided.assembles reach' older fanned token
  have fresh (i : Fin n) : ∀ x, .left (tokens i) x ∈ Runtime.events
      ⟨s', μ' ::ₘ (begun + M.map Prod.snd), marks ++ log⟩ → x = .ofExcept (results i) := by
    have newer : s.size ≤ tokens i := fanned.token ▸ (fanned.parent i).lt.le
    exact fun x left => (step.unmarked reach newer x left).elim
  obtain rfl := fanned.strand
  refine .gathers ⟨opening, fun i => ⟨_, rfl, rfl, rfl⟩,
    fun i t name => fanned.token ▸ named i t name, fanned.token ▸ known, token⟩
    (.mk divided ?_ .resumed rfl .refl fresh left) awaits
  rw [host_add, host_each, host]
  rfl

include fair respects

/-- The loop has not come to the group. -/
theorem next_before (underway : Underway S e run σ path
      ((none, ⟨run, .root, pace.state ⟨env, []⟩⟩) ::ₘ M) deeds (fun _ => none) none [] z)
    (host : host M run = 0) (token : env.token = run)
    (position : Position (fun _ : Unit => .parallel n e) (fun _ => r) z [()] pace)
    (named : ∀ i t, (S i).named t → t < σ.store.size) :
    Ensemble S e results r run z σ'
      (⟨Runtime.ActOf run σ σ', σ.store.face, σ'.store.face⟩ :: path) := by
  have step := discreet.step
  have reach : σ.Reachable := reached.steps
  have quiet := calm.imp_right And.right
  have named' : ∀ i t, (S i).named t → t < σ'.store.size := fun i t name =>
    Nat.lt_of_lt_of_le (named i t name) step.ages.size
  obtain ⟨pace', next, position'⟩ | ⟨i, l', above, same, rfl, awaits⟩ | ⟨none, -⟩ := position.next
  · obtain ⟨M', deeds', host', moved | stays⟩ := underway.moves reach discreet fair known whole'
      respects quiet host token next
    · exact .before moved host' token position' named'
    · exact .before stays host' token position named'
  · obtain rfl : l' = [] := (List.cons.inj same).2.symm
    have state : (Pace.eval above (.parallel n e)).state ⟨env, []⟩
        = .running ⟨.eval ⟨env, above⟩ (.parallel n e), []⟩ := by
      rw [Pace.state, List.append_nil]
    obtain acts | ⟨L', deeds', stays⟩ := underway.divided.next reach discreet fair known whole'
      (fun j o began => by cases began) respects (underway.calm quiet)
    · rw [state] at underway acts
      exact opens reached discreet known whole' unrefused' calm underway host token named awaits
        acts _
    · obtain ⟨M', rfl, host'⟩ := stays.exists_host rfl host
      have marks := step.marks_of_pace reach underway.divided.mem_strands token underway.marks
        fun x ended => by cases ended
      exact .before (underway.step known stays marks) host' token position named'
  · cases none

variable (comes : ∀ i, (e i).ComesTo (S i) (.ofExcept (results i)))
  (together : Exit.Together (List.ofFn fun i => .ofExcept (results i)) (.ofExcept r))

include comes together

/-- The loop waits for the group. -/
theorem next_gathers (assembled : Assembled S run σ₁ loop group tasks tokens outset)
    (waiting : Waiting S e results run σ₁ loop group tokens outset z σ path)
    (awaits : Climbs (fun _ : Unit => .parallel n e) (fun _ => r) [] loop.frames (.ofExcept r) z) :
    Ensemble S e results r run z σ'
      (⟨Runtime.ActOf run σ σ', σ.store.face, σ'.store.face⟩ :: path) := by
  have step := discreet.step
  have reach : σ.Reachable := reached.steps
  have whole : ¬ σ.Failed run := fun failed => whole' (step.failure failed)
  have unrefused : ∀ t, σ.store.joined? t ≠ some .aborted := fun t aborted =>
    unrefused' t (step.joined? reach.booked aborted)
  have delivered {y : Exit} {rest : Multiset Strand}
      (strands : σ'.strands = ⟨run, .root, .running ⟨.unwind loop y, []⟩⟩ ::ₘ rest) :=
    delivered assembled waiting awaits reach step unrefused together strands
  have left' := waiting.silent reach step assembled.own
  obtain @⟨M, deeds, g, state, divided, host, gathers, token, steps, marks, -⟩ := waiting
  have steps' : Runtime.Steps σ₁ σ' := .tail steps step
  have inStrands := divided.mem_strands
  have inCrew := Runtime.mem_crew_of_strand inStrands gathers.mem_fibers
  have quiet := assembled.quiet steps reached whole unrefused inCrew token marks (calm.before step)
  have marks' := assembled.left divided whole unrefused comes quiet step marks
  by_cases waits : ∃ g, (run, ⟨loop, .gathering g⟩) ∈ σ'.crew ∧ g.token = group
  · obtain ⟨g', inCrew', token'⟩ := waits
    have quiet' :=
      assembled.quiet steps' (.tail reached discreet) whole' unrefused' inCrew' token' marks' calm
    have busy : ∀ j o, outset j = some o →
        o.Busy (part ((none, ⟨run, .root, state⟩) ::ₘ M) j) := fun j o began => by
      obtain ⟨o', began', -, bare⟩ := assembled.began j
      cases began.symm.trans began'
      exact .inl bare
    obtain acts | ⟨L', deeds', stays⟩ :=
      divided.next reach discreet fair known whole' busy respects quiet'
    · obtain ⟨s, s', μ', begun, marks, log, goes, rfl, rfl⟩ := acts.single rfl host
      obtain ⟨rfl, face, older, ⟨g, state, rfl, gathers', same⟩ | ⟨y, rfl⟩ | ⟨f, rfl⟩⟩ :=
        gathers.goes goes reach.listed
      · refine .gathers assembled (.mk (divided.bystander reach goes discreet whole _ (fun i => ?_)
          quiet') ?_ gathers' (same.trans token) steps' marks' left') awaits
        · exact Ambit.spares_of_face _ _ face fun t named =>
            older t (token ▸ assembled.named i t named)
        · rw [host_add, host, add_zero]
          rfl
      · exact delivered rfl _
      · exact (whole' ⟨_, Multiset.mem_cons_self _ _, rfl, trivial⟩).elim
    · obtain ⟨M', rfl, host'⟩ := stays.exists_host rfl host
      exact .gathers assembled (.mk stays.divided host' gathers token steps' marks' left') awaits
  · obtain still | ⟨s, s', μ', begun, marks, rest, log, goes, rfl, rfl⟩ :=
      step.stays_or_goes reach inStrands whole'
    · exact (waits ⟨g, Runtime.mem_crew_of_strand still gathers.mem_fibers, token⟩).elim
    · obtain ⟨rfl, face, older, ⟨g', state', rfl, gathers', same⟩ | ⟨y, rfl⟩ | ⟨f, rfl⟩⟩ :=
        gathers.goes goes reach.listed
      · exact (waits ⟨g', Runtime.mem_crew_of_strand (Multiset.mem_cons_self _ _)
          gathers'.mem_fibers, same.trans token⟩).elim
      · exact delivered rfl _
      · exact (whole' ⟨_, Multiset.mem_cons_self _ _, rfl, trivial⟩).elim

end Next

/-- The group has been delivered. -/
theorem next_after (reach : σ.Reachable) (step : Runtime.Step σ σ') (whole' : ¬ σ'.Failed run)
    (mem : ⟨run, .root, pace.state ⟨env, []⟩⟩ ∈ σ.strands) (token : env.token = run)
    (position : Position (fun _ : Unit => .parallel n e) (fun _ => r) z [] pace)
    (performed : AllPerformed results σ) (marks : ∀ x, .left run x ∈ σ.events → x = z)
    (path' : List Transition) : Ensemble S e results r run z σ' path' := by
  have performed' := performed.step step
  obtain ⟨φ, inside, same⟩ := pace.exists_fiber ⟨env, []⟩ run .root
  have marks' := step.marks_of_pace reach mem token marks fun x ended => by
    subst ended
    obtain ⟨pace', next, -⟩ | ⟨i, l', above, none, -⟩ | ⟨-, same⟩ := position.next
    · cases next
    · cases none
    · cases same
      rfl
  obtain still | ⟨s, s', μ', begun, new, rest, log, goes, rfl, rfl⟩ :=
    step.stays_or_goes reach mem whole'
  · exact .after still token position performed' marks'
  · obtain ⟨pace', next, position'⟩ | ⟨i, l', above, none, -⟩ | ⟨-, rfl⟩ := position.next
    · obtain ⟨rfl, rfl, rfl, rfl⟩ := next.goes goes
      exact .after (Multiset.mem_cons_self _ _) token position' performed' marks'
    · cases none
    · refine .departed (token ▸ same ▸ reach.gone_of_leaves inside fun ν mem => ?_) performed'
        marks'
      exact Pace.leaves goes mem

/-- A step of the runtime. -/
theorem next (h : Ensemble S e results r run z σ path) (reached : Runtime.Discreetly {} σ)
    (discreet : Runtime.Discreet σ σ')
    (fair : Runtime.ActOf run σ σ' ∨ ∀ i deeds, Refines deeds path →
      (S i).Spares deeds σ.store σ'.store)
    (known : run < σ.store.size) (whole' : ¬ σ'.Failed run)
    (unrefused' : ∀ t, σ'.store.joined? t ≠ some .aborted)
    (comes : ∀ i, (e i).ComesTo (S i) (.ofExcept (results i)))
    (respects : ∀ i j, i ≠ j → (e j).Respects (S j) (S i)) (calm : Uncancelled e results run σ')
    (together : Exit.Together (List.ofFn fun i => .ofExcept (results i)) (.ofExcept r)) :
    Ensemble S e results r run z σ'
      (⟨Runtime.ActOf run σ σ', σ.store.face, σ'.store.face⟩ :: path) := by
  cases h with
  | before underway host token position named =>
    exact next_before reached discreet fair known whole' unrefused' calm respects underway host
      token position named
  | gathers assembled waiting awaits =>
    exact next_gathers reached discreet fair known whole' unrefused' calm respects comes together
      assembled waiting awaits
  | after mem token position performed marks =>
    exact next_after reached.steps discreet.step whole' mem token position performed marks _
  | departed gone performed marks =>
    exact .departed (discreet.step.move.gone known gone).1 (performed.step discreet.step)
      (discreet.step.quiet gone marks)

/-- The loop of the run leaves with no other exit. -/
theorem marks (h : Ensemble S e results r run z σ path) (x : Exit)
    (left : .left run x ∈ σ.events) : x = z := by
  cases h with
  | before underway => exact underway.marks x left
  | gathers assembled waiting =>
    cases waiting with
    | mk divided host gathers token steps marks left' => exact left' x left
  | after mem token position performed marks | departed gone performed marks => exact marks x left

/-- A run that has ended has evaluated every operand to the end. -/
theorem performed (h : Ensemble S e results r run z σ path) (reach : σ.Reachable)
    (ended : ⟨run, .root, .ended x⟩ ∈ σ.strands) : AllPerformed results σ := by
  have alive {ρ : Strand} (mem : ρ ∈ σ.strands) (root : ρ.role = .root) (own : ρ.run = run) :
      ρ = ⟨run, .root, .ended x⟩ := reach.unique_root mem ended root rfl own
  cases h with
  | @before M deeds env pace underway =>
    cases pace <;> cases alive underway.divided.mem_strands rfl rfl
  | gathers assembled waiting =>
    obtain @⟨M, deeds, g, state, divided, host, gathers, -⟩ := waiting
    cases gathers <;> cases alive divided.mem_strands rfl rfl
  | after mem token position performed marks => exact performed
  | departed gone performed marks => exact performed

end Ensemble

/-! ## Whole runs -/

namespace Civil

variable {σ₀ : Runtime} {effect : Effect}

/-- A run of a program that evaluates a group whose operands are on their own terms. -/
theorem ensemble (civil : Civil S env.token σ₀ σ path) (starts : Runtime.Starts effect env σ₀)
    (begins : ∀ i, (S i).Begins σ₀.store)
    (turn : InTurn (fun _ : Unit => .parallel n e) (fun _ => r) [()] effect z)
    (together : Exit.Together (List.ofFn fun i => .ofExcept (results i)) (.ofExcept r))
    (comes : ∀ i, (e i).ComesTo (S i) (.ofExcept (results i)))
    (respects : ∀ i j, i ≠ j → (e j).Respects (S j) (S i)) (whole : ¬ σ.Failed env.token)
    (unrefused : ∀ t, σ.store.joined? t ≠ some .aborted)
    (calm : Uncancelled e results env.token σ) : Ensemble S e results r env.token z σ path := by
  obtain ⟨reached, -, known, -⟩ := starts.fresh
  induction civil with
  | refl =>
    obtain ⟨M, host, underway⟩ := Underway.of_starts starts begins List.nodup_nil
    exact .before underway host rfl (.waiting turn) fun i => (begins i).known
  | @tail σ σ' path before discreet fair ih =>
    have reach := before.reachable reached
    have step := discreet.step
    have ages := Runtime.Steps.ages (Runtime.Discreetly.steps before.discreetly)
    exact Ensemble.next (ih (fun failed => whole (step.failure failed))
      (fun t aborted => unrefused t (step.joined? reach.booked aborted)) (calm.before step))
      (reached.trans before.discreetly) discreet fair (Nat.lt_of_lt_of_le known ages.size) whole
      unrefused comes respects calm together

/-- What such a run ends with. -/
theorem together (civil : Civil S env.token σ₀ σ path)
    (starts : Runtime.Starts effect env σ₀) (begins : ∀ i, (S i).Begins σ₀.store)
    (turn : InTurn (fun _ : Unit => .parallel n e) (fun _ => r) [()] effect z)
    (together : Exit.Together (List.ofFn fun i => .ofExcept (results i)) (.ofExcept r))
    (comes : ∀ i, (e i).ComesTo (S i) (.ofExcept (results i)))
    (respects : ∀ i j, i ≠ j → (e j).Respects (S j) (S i)) (whole : ¬ σ.Failed env.token)
    (unrefused : ∀ t, σ.store.joined? t ≠ some .aborted) (calm : Uncancelled e results env.token σ)
    (ended : ⟨env.token, .root, .ended x⟩ ∈ σ.strands) : x = z ∧ AllPerformed results σ := by
  have reach := civil.reachable starts.fresh.reached
  have stage := civil.ensemble starts begins turn together comes respects whole unrefused calm
  exact ⟨reach.ended_of_marks unrefused stage.marks ended, stage.performed reach ended⟩

end Civil

end EffectFibers
