import EffectFibers.Proofs.Turns

/-!
# One effect after the other

A run evaluates effects one after the other, each in a part of the run that has its loop.  Between
two of them the loop does nothing that the parts see, and an effect has come to its exit when the
loop is back at the frames below it; so the run comes to what the program comes to, by what each of
the effects comes to by itself.

## Main definitions

* `Runtime.Starts`: a run has just begun.
* `Succession`: the stages of a run that evaluates effects in turn.

## Main statements

* `Succession.next`: a step of the runtime.
* `Civil.inTurn`: what such a run ends with.
-/

namespace EffectFibers

open Shares

/-! ## Runs that have just begun -/

namespace Runtime

variable {σ σ' : Runtime} {effect : Effect} {env : Env}

/-- A run of the effect has just begun, and its loop has the environment. -/
inductive Starts (effect : Effect) : Env → Runtime → Prop
  | begin {σ : Runtime} (reached : Discreetly {} σ) (kept : List TokenId) (context : Context) :
      Starts effect ⟨σ.store.size, context, kept⟩
        (σ.begin σ.store.freshToken effect kept context)
  | beginBelow {σ : Runtime} (reached : Discreetly {} σ) (parent : TokenId)
      (lt : parent < σ.store.size) (kept : List TokenId) (context : Context) :
      Starts effect ⟨σ.store.size, context, kept⟩
        (σ.begin (σ.store.childToken parent) effect kept context)

/-- What holds of a run that has just begun. -/
structure Fresh (effect : Effect) (env : Env) (σ : Runtime) : Prop where
  reached : Discreetly {} σ
  strands : ∃ rest, σ.strands = ⟨env.token, .root, .waiting (.start ⟨env, []⟩ effect)⟩ ::ₘ rest ∧
    ∀ ν ∈ rest, ν.run ≠ env.token
  known : env.token < σ.store.size
  quiet : ∀ x, .left env.token x ∉ σ.events

theorem Starts.fresh (h : Starts effect env σ) : Fresh effect env σ := by
  have begun {σ : Runtime} {new : TokenId × Store} {kept : List TokenId} {context : Context}
      (reached : Discreetly {} σ) (step : Step σ (σ.begin new effect kept context))
      (first : new.1 = σ.store.size) (size : new.2.size = σ.store.size + 1) :
      Fresh effect ⟨σ.store.size, context, kept⟩ (σ.begin new effect kept context) := by
    have reach : Reachable σ := Discreetly.steps reached
    have grown : (σ.begin new effect kept context).store.size = σ.store.size + 1 := size
    refine ⟨.tail reached ⟨step, fun t asks => ?_⟩, ⟨σ.strands, ?_, fun ν mem same => ?_⟩, ?_,
      fun x mem => ?_⟩
    · exact (Nat.ne_of_gt (Nat.lt_of_lt_of_eq (Nat.lt_succ_self _) grown.symm) asks.size).elim
    · simp [Runtime.begin, Run.new, Strand.ofRun, first]
    · have older := reach.kindred.runs ν.party (Multiset.mem_map_of_mem _ mem)
      exact Nat.ne_of_lt older same
    · exact Nat.lt_of_lt_of_eq (Nat.lt_succ_self _) grown.symm
    · exact Nat.lt_irrefl _ (reach.manned.marked _ mem _ rfl)
  cases h with
  | begin reached kept context =>
    exact begun reached (.begin _ effect kept context) rfl (Store.size_freshToken _)
  | beginBelow reached parent lt kept context =>
    exact begun reached (.beginBelow _ parent lt effect kept context)
      (Store.childToken_fst _ parent) (Store.size_childToken _ parent)

/-- No other strand has a loop with the token of a loop of this one. -/
theorem Reachable.elsewhere_token {s : Store} {μ ν : Strand} {rest : Multiset Strand}
    {log : List Moment} {φ φ' : Fiber} (h : Reachable ⟨s, μ ::ₘ rest, log⟩)
    (inside : φ ∈ Post.fibers μ.posts) (mem : ν ∈ rest) (inside' : φ' ∈ Post.fibers ν.posts) :
    φ'.token ≠ φ.token := by
  intro same
  obtain ⟨rest, rfl⟩ := Multiset.exists_cons_of_mem mem
  have crew : Runtime.crew ⟨s, μ ::ₘ ν ::ₘ rest, log⟩
      = Post.crew μ.run μ.posts + (Post.crew ν.run ν.posts + Runtime.crew ⟨s, rest, log⟩) := by
    simp [Runtime.crew, parties, Party.crew, Strand.party]
  have distinct := h.manned.distinct
  rw [crew, badges_add, badges_add] at distinct
  refine Multiset.disjoint_left.mp (Multiset.nodup_add.mp distinct).2.2
    (mem_badges.mpr ⟨_, Multiset.mem_map_of_mem _ inside, rfl⟩) ?_
  exact Multiset.mem_add.mpr (.inl (mem_badges.mpr ⟨_, Multiset.mem_map_of_mem _ inside', same⟩))

/-- There is only one strand with a loop with the token. -/
theorem Reachable.same_strand {μ ν : Strand} {φ φ' : Fiber} (h : σ.Reachable) (mem : μ ∈ σ.strands)
    (inside : φ ∈ Post.fibers μ.posts) (mem' : ν ∈ σ.strands) (inside' : φ' ∈ Post.fibers ν.posts)
    (same : φ'.token = φ.token) : ν = μ := by
  obtain ⟨s, strands, log⟩ := σ
  obtain ⟨rest, rfl⟩ := Multiset.exists_cons_of_mem mem
  obtain rfl | mem' := Multiset.mem_cons.mp mem'
  · rfl
  · exact (h.elsewhere_token inside mem' inside' same).elim

/-- When a strand has gone on and carries out nothing more, its loops are gone. -/
theorem Reachable.gone_of_leaves {s s' : Store} {μ μ' : Strand} {begun rest : Multiset Strand}
    {marks log : List Moment} {φ : Fiber} (h : Reachable ⟨s, μ ::ₘ rest, log⟩)
    (inside : φ ∈ Post.fibers μ.posts) (leaves : ∀ ν ∈ μ' ::ₘ begun, ν.posts = 0) :
    φ.token ∉ badges (crew ⟨s', μ' ::ₘ (begun + rest), marks ++ log⟩) := by
  intro mem
  obtain ⟨⟨run, φ'⟩, inCrew, same⟩ := mem_badges.mp mem
  obtain ⟨π, inParties, -, l, inside'⟩ := mem_crew.mp inCrew
  obtain ⟨ν, inStrands, rfl⟩ := Multiset.mem_map.mp inParties
  rw [← Multiset.cons_add] at inStrands
  obtain acted | old := Multiset.mem_add.mp inStrands
  · have empty : ν.party.posts = 0 := leaves ν acted
    exact Multiset.notMem_zero _ (empty ▸ inside')
  · exact h.elsewhere_token inside old (Post.mem_fibers.mpr ⟨l, inside'⟩) same

end Runtime

variable {ι : Type} [DecidableEq ι] {S : ι → Ambit} {e : ι → Effect} {results : ι → Result}
  {run : TokenId} {z : Exit} {σ σ' : Runtime} {path : List Transition} {L L' M : Shares ι}
  {deeds deeds' : ι → List Transition} {outset : ι → Option Outset} {place : Option ι} {l : List ι}
  {role : Strand.Role} {env : Env} {pace pace' : Pace} {i j : ι} {o : Outset}

/-! ## The loop of the run -/

omit [DecidableEq ι] in
theorem Pace.exists_fiber (pace : Pace) (loop : Loop) (run : TokenId) (role : Strand.Role) :
    ∃ φ ∈ Post.fibers (⟨run, role, pace.state loop⟩ : Strand).posts, φ.token = loop.env.token := by
  cases pace <;>
    exact ⟨_, Post.mem_fibers.mpr ⟨.outer, Multiset.mem_singleton_self _⟩, rfl⟩

theorem Pace.not_gathering {pace : Pace} {loop loop' : Loop} {run : TokenId} {role : Strand.Role}
    {g : Group} :
    ⟨loop', .gathering g⟩ ∉ Post.fibers (⟨run, role, pace.state loop⟩ : Strand).posts := by
  intro inside
  obtain ⟨l, inside⟩ := Post.mem_fibers.mp inside
  cases pace <;> cases Multiset.mem_singleton.mp inside

/-- What holds all along: the loop of the run is in one place, and the effects with the labels of
the list are still to be evaluated. -/
structure Underway (S : ι → Ambit) (e : ι → Effect) (run : TokenId) (σ : Runtime)
    (path : List Transition) (L : Shares ι) (deeds : ι → List Transition)
    (outset : ι → Option Outset) (place : Option ι) (l : List ι) (z : Exit) : Prop where
  divided : Divided S e run σ path L deeds outset
  place : ∀ l ν, (l, ν) ∈ L → ∀ φ ∈ Post.fibers ν.posts, φ.token = run → l = place
  fresh : ∀ i ∈ l, outset i = none
  nodup : l.Nodup
  token : ∀ i o, outset i = some o → o.token = run
  marks : ∀ x, .left run x ∈ σ.events → x = z

namespace Underway

/-- The run is busy with the effect in whose part its loop is. -/
theorem busy (h : Underway S e run σ path L deeds outset place l z)
    (here : ∀ i o, place = some i → outset i = some o → o.Busy (part L i)) (j : ι) (o : Outset)
    (began : outset j = some o) : o.Busy (part L j) := by
  by_cases same : place = some j
  · exact here j o same began
  · refine .inr fun μ mem x past => ?_
    obtain ⟨env, token, inside⟩ := past
    exact same (h.place _ μ (mem_part.mp mem) _ inside (token.trans (h.token j o began))).symm

/-- Nothing is cancelled around a part but the run. -/
theorem calm (h : Underway S e run σ path L deeds outset place l z) {σ' : Runtime}
    (quiet : (∀ i, (e i).Straight) ∨ σ'.store.isCancelled run = false) :
    Divided.Quiet e run σ' outset := fun i o began =>
  quiet.imp (fun straight => straight i) fun clear => ⟨clear, fun _ => h.token i o began ▸ clear⟩

/-- The run stays underway while its loop does nothing, or goes on in its part. -/
theorem step (h : Underway S e run σ path L deeds outset place l z) (known : run < σ.store.size)
    (stays : Divided.Stays S e run σ σ' path L L' deeds' outset)
    (marks : ∀ x, .left run x ∈ σ'.events → x = z) :
    Underway S e run σ' (⟨Runtime.ActOf run σ σ', σ.store.face, σ'.store.face⟩ :: path) L' deeds'
      outset place l z where
  divided := stays.divided
  place l' ν mem φ inside token := by
    obtain ⟨ν₀, φ₀, mem₀, inside₀, same⟩ := stays.loops l' ν mem φ inside (token ▸ known)
    exact h.place l' ν₀ mem₀ φ₀ inside₀ (same.trans token)
  fresh := h.fresh
  nodup := h.nodup
  token := h.token
  marks := marks

/-- The loop of the run goes on outside of the parts. -/
theorem acts {s s' : Store} {μ μ' : Strand} {begun : Multiset Strand} {marks log : List Moment}
    (h : Underway S e run ⟨s, μ ::ₘ M.map Prod.snd, log⟩ path ((none, μ) ::ₘ M) deeds outset none
      l z) (reach : Runtime.Reachable ⟨s, μ ::ₘ M.map Prod.snd, log⟩)
    (goes : μ.Goes s s' μ' begun marks)
    (discreet : Runtime.Discreet ⟨s, μ ::ₘ M.map Prod.snd, log⟩
      ⟨s', μ' ::ₘ (begun + M.map Prod.snd), marks ++ log⟩)
    (whole : ¬ Runtime.Failed ⟨s, μ ::ₘ M.map Prod.snd, log⟩ run) (own : Prop)
    (spares : ∀ i, (S i).Spares (deeds i) s s') (known : run < s.size)
    (quiet : (∀ i, (e i).Straight) ∨ s'.isCancelled run = false)
    (same : ∀ x, .left run x ∈ Runtime.events ⟨s', μ' ::ₘ (begun + M.map Prod.snd), marks ++ log⟩ →
      x = z) :
    Underway S e run ⟨s', μ' ::ₘ (begun + M.map Prod.snd), marks ++ log⟩
      (⟨own, s.face, s'.face⟩ :: path) ((none, μ') ::ₘ (all none begun + M))
      (fun i => .around s s' :: deeds i) outset none l z where
  divided := h.divided.bystander reach goes discreet whole own spares (h.calm quiet)
  place l' ν mem φ inside token := by
    obtain ⟨ν₀, φ₀, mem₀, inside₀, same⟩ := Divided.loops_of_goes goes mem inside (token ▸ known)
    exact h.place l' ν₀ mem₀ φ₀ inside₀ (same.trans token)
  fresh := h.fresh
  nodup := h.nodup
  token := h.token
  marks := same

end Underway

/-- A loop with the token ends only where one is at the end of its frames. -/
theorem Runtime.Step.marks (step : Runtime.Step σ σ')
    (marks : ∀ x, .left run x ∈ σ.events → x = z)
    (last : ∀ ν ∈ σ.strands, ∀ env x, ⟨⟨env, []⟩, .unwinding x⟩ ∈ Post.fibers ν.posts →
      env.token = run → x = z) (x : Exit) (mem : .left run x ∈ σ'.events) : x = z := by
  obtain ⟨m, inLog, event⟩ := List.mem_map.mp mem
  obtain old | ⟨-, env, token, inCrew⟩ := step.move.left inLog event
  · exact marks x (List.mem_map.mpr ⟨m, old, event⟩)
  · obtain ⟨π, inParties, -, l, inside⟩ := Runtime.mem_crew.mp inCrew
    obtain ⟨ν, inStrands, rfl⟩ := Multiset.mem_map.mp inParties
    exact last ν inStrands env x (Post.mem_fibers.mpr ⟨l, inside⟩) token

/-- A loop whose token is not there yet does not leave. -/
theorem Runtime.Step.unmarked (step : Runtime.Step σ σ') (reach : σ.Reachable) {t : TokenId}
    (newer : σ.store.size ≤ t) (x : Exit) : .left t x ∉ σ'.events := by
  intro mem
  obtain ⟨m, inLog, event⟩ := List.mem_map.mp mem
  refine Nat.not_lt.mpr newer ?_
  obtain old | ⟨-, env, token, inCrew⟩ := step.move.left inLog event
  · exact reach.manned.marked _ (List.mem_map.mpr ⟨m, old, event⟩) _ rfl
  · exact token ▸ reach.manned.bound _ (Runtime.mem_badges.mpr ⟨_, inCrew, rfl⟩)

/-- A run ends with the exit with which its loop has left. -/
theorem Runtime.Reachable.ended_of_marks (reach : σ.Reachable)
    (unrefused : ∀ t, σ.store.joined? t ≠ some .aborted)
    (marks : ∀ x, .left run x ∈ σ.events → x = z) {x : Exit}
    (ended : ⟨run, .root, .ended x⟩ ∈ σ.strands) : x = z := by
  obtain ⟨c, left, rfl⟩ := reach.handed ended rfl
  obtain left | ⟨-, t, aborted⟩ := left
  · exact marks x left
  · exact (unrefused t aborted).elim

/-- A loop that is gone leaves no more marks. -/
theorem Runtime.Step.quiet (step : Runtime.Step σ σ') (gone : run ∉ badges σ.crew)
    (marks : ∀ x, .left run x ∈ σ.events → x = z) (x : Exit) (mem : .left run x ∈ σ'.events) :
    x = z :=
  step.marks marks (fun _ mem _ _ inside token =>
    (gone (token ▸ mem_badges_of_strand mem inside)).elim) x mem

omit [DecidableEq ι] in
/-- No other strand has a loop with the token of the run. -/
theorem Runtime.Reachable.nowhere (h : σ.Reachable) {ρ : Strand}
    (strands : ((none, ρ) ::ₘ M).map Prod.snd = σ.strands) {φ : Fiber}
    (inside : φ ∈ Post.fibers ρ.posts) (token : φ.token = run) {l : Option ι} {ν : Strand}
    (mem : (l, ν) ∈ M) {φ' : Fiber} (inside' : φ' ∈ Post.fibers ν.posts) : φ'.token ≠ run := by
  obtain ⟨s, _, log⟩ := σ
  subst strands
  rw [Multiset.map_cons] at h
  exact token ▸ h.elsewhere_token inside (Multiset.mem_map_of_mem Prod.snd mem) inside'

omit [DecidableEq ι] in
/-- The only strand of the run that is in no part goes on. -/
theorem Divided.HostActs.single {ρ : Strand} (acts : HostActs run σ σ' ((none, ρ) ::ₘ M))
    (own : ρ.run = run) (host : host M run = 0) : ∃ s s' μ' begun marks log,
      ρ.Goes s s' μ' begun marks ∧ σ = ⟨s, ρ ::ₘ M.map Prod.snd, log⟩ ∧
      σ' = ⟨s', μ' ::ₘ (begun + M.map Prod.snd), marks ++ log⟩ := by
  generalize same : (none, ρ) ::ₘ M = L at acts
  obtain @⟨s, s', μ, μ', begun, marks, goes, own', L, log⟩ := acts
  have hosts := congrArg (Shares.host · run) same
  simp only [host_cons, own, own', and_self, if_true, host] at hosts
  obtain ⟨rfl, -⟩ := (Multiset.singleton_eq_cons_iff _).mp hosts
  obtain rfl := (Multiset.cons_inj_right _).mp same
  exact ⟨s, s', μ', begun, marks, log, goes, rfl, rfl⟩

omit [DecidableEq ι] in
theorem Shares.exists_host {ρ : Strand} (h : host L run = {ρ}) :
    ∃ M, L = (none, ρ) ::ₘ M ∧ host M run = 0 := by
  obtain ⟨mem, own⟩ := mem_host.mp (h ▸ Multiset.mem_singleton_self ρ : ρ ∈ host L run)
  obtain ⟨M, rfl⟩ := Multiset.exists_cons_of_mem mem
  rw [host_cons, if_pos ⟨rfl, own⟩] at h
  exact ⟨M, rfl, ((Multiset.singleton_eq_cons_iff _).mp h.symm).2⟩

/-- The only strand of the run that is in no part stays as it is. -/
theorem Divided.Stays.exists_host {ρ : Strand}
    (stays : Stays S e run σ σ' path ((none, ρ) ::ₘ M) L' deeds' outset) (own : ρ.run = run)
    (host : Shares.host M run = 0) :
    ∃ M', L' = (none, ρ) ::ₘ M' ∧ Shares.host M' run = 0 := by
  refine Shares.exists_host (stays.host.trans ?_)
  rw [host_cons, if_pos ⟨rfl, own⟩, host]
  rfl

/-- The loop of the run leaves the part of an effect that has come to an exit. -/
theorem Underway.yields {μ : Strand} {y : Exit}
    (h : Underway S e run σ path ((some i, μ) ::ₘ M) deeds outset (some i) l z)
    (reach : σ.Reachable) (began : outset i = some o) (past : o.Over μ.posts y) :
    ∃ env, env.token = run ∧ μ.state = (Pace.unwind o.loop.frames y).state ⟨env, []⟩ ∧
      Underway S e run σ path ((none, μ) ::ₘ M) deeds outset none l z := by
  have own : μ.run = run := h.divided.runs i μ (mem_part.mpr (Multiset.mem_cons_self _ _))
  have strands := h.divided.strands
  have inStrands := h.divided.mem_strands
  obtain ⟨env, same, inside⟩ := id past
  have token : env.token = run := same.trans (h.token i o began)
  have state := reach.loop_unwinds inStrands inside (token.trans own.symm)
  have single : ∀ t, Strand.Owns {μ} t → t = run := by
    rintro t ⟨ν, mem, p, here, held⟩
    obtain rfl := Multiset.mem_singleton.mp mem
    obtain ⟨run', role, state'⟩ := ν
    obtain rfl : state' = _ := state
    exact (Pace.owned here held).trans token
  refine ⟨env, token, state, h.divided.yields began past single,
    fun l' ν mem φ inside' token' => ?_, h.fresh, h.nodup, h.token, h.marks⟩
  obtain same | mem := Multiset.mem_cons.mp mem
  · exact congrArg Prod.fst same
  · rw [Multiset.map_cons] at strands
    exact (reach.nowhere (strands.symm ▸ Multiset.map_cons ..) inside token mem inside' token').elim

/-- A loop that unwinds with no frames has come to its end. -/
theorem Pace.ended_of_unwinding {env' : Env} {x : Exit} (token : env.token = run)
    (token' : env'.token = run) (inside : ⟨⟨env', []⟩, .unwinding x⟩
      ∈ Post.fibers (⟨run, role, pace.state ⟨env, []⟩⟩ : Strand).posts) : pace = .unwind [] x :=
  (Pace.over_iff (o := ⟨run, role, ⟨env, []⟩, 0⟩)).mp ⟨env', token'.trans token.symm, inside⟩

omit [DecidableEq ι] in
/-- A loop leaves with the exit with which it has come to its end. -/
theorem Runtime.Step.marks_of_pace (step : Runtime.Step σ σ') (reach : σ.Reachable)
    (mem : ⟨run, role, pace.state ⟨env, []⟩⟩ ∈ σ.strands) (token : env.token = run)
    (marks : ∀ x, .left run x ∈ σ.events → x = z) (last : ∀ x, pace = .unwind [] x → x = z)
    (x : Exit) (left : .left run x ∈ σ'.events) : x = z := by
  obtain ⟨φ, inside, same⟩ := pace.exists_fiber ⟨env, []⟩ run role
  refine step.marks marks (fun ν mem' env' y inside' token' => ?_) x left
  obtain rfl := reach.same_strand mem inside mem' inside' (token'.trans (same.trans token).symm)
  exact last y (Pace.ended_of_unwinding token token' inside')

/-- The loop of the run makes a step that nobody sees, or somebody else does something. -/
theorem Underway.moves (h : Underway S e run σ path
      ((none, ⟨run, role, pace.state ⟨env, []⟩⟩) ::ₘ M) deeds outset none l z)
    (reach : σ.Reachable) (discreet : Runtime.Discreet σ σ')
    (fair : Runtime.ActOf run σ σ' ∨ ∀ i deeds, Refines deeds path →
      (S i).Spares deeds σ.store σ'.store)
    (known : run < σ.store.size) (whole' : ¬ σ'.Failed run)
    (respects : ∀ i j, i ≠ j → (e j).Respects (S j) (S i))
    (quiet : (∀ i, (e i).Straight) ∨ σ'.store.isCancelled run = false) (host : host M run = 0)
    (token : env.token = run) (next : pace.Next pace') : ∃ M' deeds', Shares.host M' run = 0 ∧
      (Underway S e run σ' (⟨Runtime.ActOf run σ σ', σ.store.face, σ'.store.face⟩ :: path)
          ((none, ⟨run, role, pace'.state ⟨env, []⟩⟩) ::ₘ M') deeds' outset none l z ∨
        Underway S e run σ' (⟨Runtime.ActOf run σ σ', σ.store.face, σ'.store.face⟩ :: path)
          ((none, ⟨run, role, pace.state ⟨env, []⟩⟩) ::ₘ M') deeds' outset none l z) := by
  obtain acts | ⟨L', deeds', stays⟩ := h.divided.next reach discreet fair known whole'
    (h.busy fun i o place => by cases place) respects (h.calm quiet)
  · obtain ⟨s, s', μ', begun, marks, log, goes, rfl, rfl⟩ := acts.single rfl host
    have whole : ¬ Runtime.Failed _ run := fun failed => whole' (discreet.step.failure failed)
    obtain ⟨rfl, rfl, rfl, rfl⟩ := next.goes goes
    refine ⟨_, _, ?_, .inl (h.acts reach goes discreet whole _
      (fun i => Ambit.spares_of_face _ _ rfl fun _ _ => rfl) known quiet h.marks)⟩
    rw [host_add, host, add_zero]
    rfl
  · obtain ⟨M', rfl, host'⟩ := stays.exists_host rfl host
    have marks := discreet.step.marks_of_pace reach h.divided.mem_strands token h.marks
      fun x ended => by
        subst ended
        cases next
    exact ⟨M', deeds', host', .inr (h.step known stays marks)⟩

/-! ## The stages -/

/-- A run evaluates effects one after the other, each in a part of it, on its way to the exit. -/
inductive Succession (S : ι → Ambit) (e : ι → Effect) (results : ι → Result) (run : TokenId)
    (z : Exit) (σ : Runtime) (path : List Transition) : Prop
  /-- The loop is between two of them. -/
  | between {M : Shares ι} {deeds : ι → List Transition} {outset : ι → Option Outset} {l : List ι}
      {role : Strand.Role} {env : Env} {pace pace' : Pace}
      (underway : Underway S e run σ path ((none, ⟨run, role, pace.state ⟨env, []⟩⟩) ::ₘ M) deeds
        outset none l z)
      (host : host M run = 0) (token : env.token = run) (next : pace.Next pace')
      (position : Position e results z l pace')
  /-- The loop is in the part of one of them. -/
  | within {L : Shares ι} {deeds : ι → List Transition} {outset : ι → Option Outset} {l : List ι}
      {i : ι} {o : Outset} (underway : Underway S e run σ path L deeds outset (some i) l z)
      (host : host L run = 0) (began : outset i = some o)
      (busy : ∀ μ ∈ part L i, ∀ x, ¬ o.Over μ.posts x)
      (awaits : Climbs e results l o.loop.frames (.ofExcept (results i)) z)
  | ends {M : Shares ι} {deeds : ι → List Transition} {outset : ι → Option Outset} {l : List ι}
      {role : Strand.Role} {env : Env}
      (underway : Underway S e run σ path
        ((none, ⟨run, role, (Pace.unwind [] z).state ⟨env, []⟩⟩) ::ₘ M) deeds outset none l z)
      (host : host M run = 0) (token : env.token = run)
  | departed (gone : run ∉ Runtime.badges σ.crew) (marks : ∀ x, .left run x ∈ σ.events → x = z)

namespace Succession

/-- The strand of the loop comes to be in the part of the next effect. -/
theorem entered {above : List Frame} (underway : Underway S e run σ path
      ((none, ⟨run, role, (Pace.eval above (e i)).state ⟨env, []⟩⟩) ::ₘ M) deeds outset none
        (i :: l) z)
    (reach : σ.Reachable) (known : run < σ.store.size) (token : env.token = run) :
    Divided S e run σ path
        ((some i, ⟨run, role, (Pace.eval above (e i)).state ⟨env, []⟩⟩) ::ₘ M) deeds
        (Function.update outset i (some ⟨run, role, ⟨env, above⟩, σ.store.size⟩)) ∧
      part M i = 0 := by
  set ρ : Strand := ⟨run, role, (Pace.eval above (e i)).state ⟨env, []⟩⟩ with hρ
  have about : ρ.state.Before ⟨env, above⟩ (e i) := by
    simp only [hρ, Pace.state, List.append_nil]
    exact .running
  have fresh : outset i = none := underway.fresh i List.mem_cons_self
  have strands : σ.strands = ρ ::ₘ M.map Prod.snd := by
    rw [← underway.divided.strands, Multiset.map_cons]
  have empty : part M i = 0 := by
    obtain ⟨log, alone⟩ := underway.divided.alone i
    rw [fresh, part_cons, if_neg (Option.some_ne_none i).symm] at alone
    exact Divided.nothing alone
  refine ⟨underway.divided.begins reach (by simp [strands]) fun j => ?_, empty⟩
  by_cases same : j = i
  · subst same
    refine .inr ⟨fresh, _, Function.update_self .., rfl, rfl, token.trans_lt known,
      ⟨_, ?_, about⟩, fun _ => token⟩
    rw [part_cons_self, empty]
    rfl
  · have other : ¬ i = j := fun eq => same eq.symm
    simp [Function.update_of_ne same, part_cons, others_cons, other]

/-- The loop has come to the next effect. -/
theorem begins {above : List Frame} (underway : Underway S e run σ path
      ((none, ⟨run, role, (Pace.eval above (e i)).state ⟨env, []⟩⟩) ::ₘ M) deeds outset none
        (i :: l) z)
    (reach : σ.Reachable) (known : run < σ.store.size) (host : host M run = 0)
    (token : env.token = run) (awaits : Climbs e results l above (.ofExcept (results i)) z) :
    Succession S e results run z σ path := by
  obtain ⟨divided, empty⟩ := entered underway reach known token
  obtain ⟨new, nodup⟩ := List.nodup_cons.mp underway.nodup
  refine .within (o := ⟨run, role, ⟨env, above⟩, σ.store.size⟩)
    ⟨divided, fun l ν mem φ' inside' token' => ?_, fun j mem => ?_, nodup,
      fun j o' began => ?_, underway.marks⟩ ?_ (Function.update_self ..)
    (fun μ mem x past => ?_) awaits
  · obtain same | mem := Multiset.mem_cons.mp mem
    · exact congrArg Prod.fst same
    · obtain ⟨φ, inside, same⟩ := (Pace.eval above (e i)).exists_fiber ⟨env, []⟩ run role
      exact (reach.nowhere underway.divided.strands inside (same.trans token) mem inside'
        token').elim
  · have ne : j ≠ i := fun same => new (same ▸ mem)
    rw [Function.update_of_ne ne]
    exact underway.fresh j (List.mem_cons_of_mem _ mem)
  · by_cases same : j = i
    · subst same
      rw [Function.update_self] at began
      cases began
      exact token
    · rw [Function.update_of_ne same] at began
      exact underway.token j o' began
  · simp [host_cons, host]
  · rw [part_cons_self, empty] at mem
    obtain rfl := Multiset.mem_singleton.mp mem
    obtain ⟨env', -, inside⟩ := past
    obtain ⟨l, inside⟩ := Post.mem_fibers.mp inside
    have same := Multiset.mem_singleton.mp inside
    simp [Loop.at] at same

/-- The loop is somewhere on its way; if it has come to the next effect, its strand comes to be in
the part of that. -/
theorem settle (underway : Underway S e run σ path
      ((none, ⟨run, role, pace.state ⟨env, []⟩⟩) ::ₘ M) deeds outset none l z)
    (reach : σ.Reachable) (known : run < σ.store.size) (host : host M run = 0)
    (token : env.token = run) (position : Position e results z l pace) :
    Succession S e results run z σ path := by
  obtain ⟨pace', next, position⟩ | ⟨i, l', above, rfl, rfl, awaits⟩ | ⟨rfl, rfl⟩ := position.next
  · exact .between underway host token next position
  · exact begins underway reach known host token awaits
  · exact .ends underway host token

section Next

variable (reach : σ.Reachable) (discreet : Runtime.Discreet σ σ')
  (fair : Runtime.ActOf run σ σ' ∨ ∀ i deeds, Refines deeds path →
    (S i).Spares deeds σ.store σ'.store)
  (known : run < σ.store.size) (whole' : ¬ σ'.Failed run)
  (respects : ∀ i j, i ≠ j → (e j).Respects (S j) (S i))
  (quiet : (∀ i, (e i).Straight) ∨ σ'.store.isCancelled run = false)

include reach discreet fair known whole' respects quiet

/-- The loop is between two effects, and makes a step that nobody sees, or somebody else does
something. -/
theorem next_between (underway : Underway S e run σ path
      ((none, ⟨run, role, pace.state ⟨env, []⟩⟩) ::ₘ M) deeds outset none l z)
    (host : host M run = 0) (token : env.token = run) (next : pace.Next pace')
    (position : Position e results z l pace') :
    Succession S e results run z σ'
      (⟨Runtime.ActOf run σ σ', σ.store.face, σ'.store.face⟩ :: path) := by
  have known' : run < σ'.store.size := Nat.lt_of_lt_of_le known discreet.step.ages.size
  obtain ⟨M', deeds', host', moved | stays⟩ := underway.moves reach discreet fair known whole'
    respects quiet host token next
  · exact settle moved (.tail reach discreet.step) known' host' token position
  · exact .between stays host' token next position

/-- The loop is in the part of an effect. -/
theorem next_within (unrefused : ∀ t, σ'.store.joined? t ≠ some .aborted)
    (comes : (e i).ComesTo (S i) (.ofExcept (results i)))
    (underway : Underway S e run σ path L deeds outset (some i) l z) (host : host L run = 0)
    (began : outset i = some o) (busy : ∀ μ ∈ part L i, ∀ x, ¬ o.Over μ.posts x)
    (awaits : Climbs e results l o.loop.frames (.ofExcept (results i)) z) :
    Succession S e results run z σ'
      (⟨Runtime.ActOf run σ σ', σ.store.face, σ'.store.face⟩ :: path) := by
  have step := discreet.step
  have reach' : σ'.Reachable := .tail reach step
  have known' : run < σ'.store.size := Nat.lt_of_lt_of_le known step.ages.size
  have token := underway.token i o began
  have engaged := underway.busy fun j o' place began' => by
    cases place
    cases began.symm.trans began'
    exact .inr busy
  obtain acts | ⟨L', deeds', stays⟩ := underway.divided.next reach discreet fair known whole'
    engaged respects (underway.calm quiet)
  · obtain ⟨goes, own, L, log⟩ := acts
    rw [host_cons, if_pos ⟨rfl, own⟩] at host
    exact (Multiset.cons_ne_zero host).elim
  have last : ∀ ν ∈ σ.strands, ∀ env x, ⟨⟨env, []⟩, .unwinding x⟩ ∈ Post.fibers ν.posts →
      env.token = run → x = z := by
    intro ν mem env x inside token'
    obtain ⟨⟨l', ν⟩, shared, rfl⟩ := Multiset.mem_map.mp (underway.divided.strands ▸ mem)
    obtain rfl := underway.place l' ν shared _ inside token'
    have here := mem_part.mpr shared
    have below := underway.divided.frames i o began ν here _ inside (token'.trans token.symm)
    have bare : o.loop.frames = [] := List.suffix_nil.mp below
    exact (busy ν here x ⟨env, token'.trans token.symm, bare ▸ inside⟩).elim
  have stage := underway.step known stays (step.marks underway.marks last)
  have host' := stays.host.trans host
  by_cases past : ∃ μ ∈ part L' i, ∃ y, o.Over μ.posts y
  · obtain ⟨μ, mem, y, past⟩ := past
    obtain rfl : y = .ofExcept (results i) := stage.divided.comes comes whole' unrefused
      began (quiet.imp (fun straight => straight i) fun clear => token ▸ clear) mem past
    obtain ⟨M, rfl⟩ := Multiset.exists_cons_of_mem (mem_part.mp mem)
    obtain ⟨env, token', state, yielded⟩ := stage.yields reach' began past
    obtain ⟨run', role, state'⟩ := μ
    obtain rfl : run' = run := stage.divided.runs i _ mem
    obtain rfl : state' = _ := state
    rw [host_cons, if_neg (by simp)] at host'
    exact settle yielded reach' known' host' token' (.unwind awaits)
  · exact .within stage host' began (fun μ mem x found => past ⟨μ, mem, x, found⟩) awaits

/-- The loop has come to its end. -/
theorem next_ends (underway : Underway S e run σ path
      ((none, ⟨run, role, (Pace.unwind [] z).state ⟨env, []⟩⟩) ::ₘ M) deeds outset none l z)
    (host : host M run = 0) (token : env.token = run) :
    Succession S e results run z σ'
      (⟨Runtime.ActOf run σ σ', σ.store.face, σ'.store.face⟩ :: path) := by
  obtain ⟨φ, inside, same⟩ := (Pace.unwind [] z).exists_fiber ⟨env, []⟩ run role
  have marks := discreet.step.marks_of_pace reach underway.divided.mem_strands token underway.marks
    fun x ended => (Pace.unwind.inj ended).2.symm
  obtain acts | ⟨L', deeds', stays⟩ := underway.divided.next reach discreet fair known whole'
    (underway.busy fun i o place => by cases place) respects (underway.calm quiet)
  · obtain ⟨s, s', μ', begun, marks', log, goes, rfl, rfl⟩ := acts.single rfl host
    exact .departed (token ▸ same ▸ reach.gone_of_leaves inside fun ν mem => Pace.leaves goes mem)
      marks
  · obtain ⟨M', rfl, host'⟩ := stays.exists_host rfl host
    exact .ends (underway.step known stays marks) host' token

end Next

/-- A step of the runtime. -/
theorem next (h : Succession S e results run z σ path) (reach : σ.Reachable)
    (discreet : Runtime.Discreet σ σ')
    (fair : Runtime.ActOf run σ σ' ∨ ∀ i deeds, Refines deeds path →
      (S i).Spares deeds σ.store σ'.store)
    (known : run < σ.store.size) (whole' : ¬ σ'.Failed run)
    (unrefused : ∀ t, σ'.store.joined? t ≠ some .aborted)
    (comes : ∀ i, (e i).ComesTo (S i) (.ofExcept (results i)))
    (respects : ∀ i j, i ≠ j → (e j).Respects (S j) (S i))
    (quiet : (∀ i, (e i).Straight) ∨ σ'.store.isCancelled run = false) :
    Succession S e results run z σ'
      (⟨Runtime.ActOf run σ σ', σ.store.face, σ'.store.face⟩ :: path) := by
  cases h with
  | between underway host token next position =>
    exact next_between reach discreet fair known whole' respects quiet underway host token next
      position
  | within underway host began busy awaits =>
    exact next_within reach discreet fair known whole' respects quiet unrefused (comes _) underway
      host began busy awaits
  | ends underway host token =>
    exact next_ends reach discreet fair known whole' respects quiet underway host token
  | departed gone marks =>
    exact .departed (discreet.step.move.gone known gone).1 (discreet.step.quiet gone marks)

/-- The loop of the run leaves with no other exit. -/
theorem marks (h : Succession S e results run z σ path) (x : Exit)
    (left : .left run x ∈ σ.events) : x = z := by
  cases h with
  | between underway | within underway | ends underway => exact underway.marks x left
  | departed gone marks => exact marks x left

end Succession

/-! ## Whole runs -/

/-- Nobody is in a part when the program begins. -/
theorem Divided.nobody (begins : ∀ i, (S i).Begins σ.store) :
    Divided S e run σ [] (all none σ.strands) (fun _ => []) fun _ => none where
  strands := map_all _
  runs i μ mem := by simp [part_all] at mem
  alone i := ⟨[], by simpa [part_all] using .opens (begins i)⟩
  apart _ _ _ := .nil
  refines _ := .nil
  known i o began := by cases began
  holdings i o began := by cases began
  frames i o began := by cases began

variable {σ₀ : Runtime} {effect : Effect}

/-- The loop of a run that has just begun is in no part. -/
theorem Underway.of_starts (starts : Runtime.Starts effect env σ₀)
    (begins : ∀ i, (S i).Begins σ₀.store) (nodup : l.Nodup) : ∃ M, host M env.token = 0 ∧
      Underway S e env.token σ₀ []
        ((none, ⟨env.token, .root, (Pace.waiting effect).state ⟨env, []⟩⟩) ::ₘ M) (fun _ => [])
        (fun _ => none) none l z := by
  obtain ⟨reached, ⟨rest, strands, others⟩, known, unmarked⟩ := starts.fresh
  refine ⟨all none rest, host_all (.inr others), ?_, fun l' ν mem φ inside token => ?_,
    fun _ _ => rfl, nodup, fun i o began => (Option.some_ne_none o began.symm).elim,
    fun x left => (unmarked x left).elim⟩
  · have divided : Divided S e env.token σ₀ [] (all none σ₀.strands) (fun _ => []) fun _ => none :=
      .nobody begins
    rw [strands, all, Multiset.map_cons] at divided
    exact divided
  · obtain same | mem := Multiset.mem_cons.mp mem
    · exact congrArg Prod.fst same
    · obtain ⟨ν', -, same⟩ := Multiset.mem_map.mp mem
      exact (congrArg Prod.fst same).symm

namespace Civil

omit [DecidableEq ι]

theorem discreetly (civil : Civil S run σ₀ σ path) : Runtime.Discreetly σ₀ σ := by
  induction civil with
  | refl => exact .refl
  | tail _ step _ ih => exact .tail ih step

theorem reachable (civil : Civil S run σ₀ σ path) (reached : Runtime.Discreetly {} σ₀) :
    σ.Reachable :=
  Runtime.Discreetly.steps (reached.trans civil.discreetly)

variable [DecidableEq ι]

/-- A run of a program that evaluates effects in turn, each of them on its own terms. -/
theorem succession (civil : Civil S env.token σ₀ σ path) (starts : Runtime.Starts effect env σ₀)
    (begins : ∀ i, (S i).Begins σ₀.store) (turn : InTurn e results l effect z) (nodup : l.Nodup)
    (comes : ∀ i, (e i).ComesTo (S i) (.ofExcept (results i)))
    (respects : ∀ i j, i ≠ j → (e j).Respects (S j) (S i)) (whole : ¬ σ.Failed env.token)
    (unrefused : ∀ t, σ.store.joined? t ≠ some .aborted)
    (quiet : (∀ i, (e i).Straight) ∨ σ.store.isCancelled env.token = false) :
    Succession S e results env.token z σ path := by
  obtain ⟨reached, -, known, -⟩ := starts.fresh
  have reach₀ : σ₀.Reachable := Runtime.Discreetly.steps reached
  induction civil with
  | refl =>
    obtain ⟨M, host, underway⟩ := Underway.of_starts starts begins nodup
    exact .settle underway reach₀ starts.fresh.known host rfl (.waiting turn)
  | @tail σ σ' path before discreet fair ih =>
    have reach := before.reachable reached
    have step := discreet.step
    have ages := Runtime.Steps.ages (Runtime.Discreetly.steps before.discreetly)
    refine Succession.next (ih (fun failed => whole (step.failure failed))
      (fun t aborted => unrefused t (step.joined? reach.booked aborted)) (quiet.imp_right ?_))
      reach discreet fair (Nat.lt_of_lt_of_le known ages.size) whole unrefused comes respects quiet
    intro clear
    refine Bool.eq_false_iff.mpr fun cancelled => ?_
    rw [step.ages.isCancelled _ cancelled] at clear
    cases clear

/-- What such a run ends with. -/
theorem inTurn {x : Exit} (civil : Civil S env.token σ₀ σ path)
    (starts : Runtime.Starts effect env σ₀) (begins : ∀ i, (S i).Begins σ₀.store)
    (turn : InTurn e results l effect z) (nodup : l.Nodup)
    (comes : ∀ i, (e i).ComesTo (S i) (.ofExcept (results i)))
    (respects : ∀ i j, i ≠ j → (e j).Respects (S j) (S i)) (whole : ¬ σ.Failed env.token)
    (unrefused : ∀ t, σ.store.joined? t ≠ some .aborted)
    (quiet : (∀ i, (e i).Straight) ∨ σ.store.isCancelled env.token = false)
    (ended : ⟨env.token, .root, .ended x⟩ ∈ σ.strands) : x = z :=
  (civil.reachable starts.fresh.reached).ended_of_marks unrefused
    (civil.succession starts begins turn nodup comes respects whole unrefused quiet).marks ended

end Civil

end EffectFibers
