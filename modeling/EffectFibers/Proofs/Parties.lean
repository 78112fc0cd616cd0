import EffectFibers.Proofs.Runtime

/-!
# The parties of a runtime

Whether a strand is between two polls or in the middle of one makes no difference to its loops.
What is left of a strand without that is a `Company`: its run, its role and its berths.  A step
of the runtime is an advance of the companies (`Runtime.Advance`): the berths of one of them are
moved, one of them fails, or a run begins.  Without the rooms a company is a `Party`, and an
advance a turnover of the parties (`Runtime.Turnover`).

## Main statements

* `Runtime.Step.advance`: a step is an advance.
* `Runtime.Step.turnover`: a step is a turnover.
* `Runtime.Turnover.origin`, `Runtime.Turnover.fate`: where parties come from, and go.
-/

namespace EffectFibers

structure Company where
  /-- The token of the run. -/
  run : TokenId
  role : Strand.Role
  berths : Multiset Berth

structure Party where
  /-- The token of the run. -/
  run : TokenId
  role : Strand.Role
  posts : Multiset Post

def Company.party (κ : Company) : Party := ⟨κ.run, κ.role, κ.berths.map Berth.post⟩

namespace Strand

/-- The loops of a strand that can still act, with their rooms. -/
def berths (τ : Strand) : Multiset Berth :=
  match τ.state with
  | .waiting segment => segment.berths .outer
  | .running config => config.berths
  | .ended _ | .faulted _ | .dropped => 0

theorem map_berths (τ : Strand) : τ.berths.map Berth.post = τ.posts := by
  obtain ⟨run, role, state⟩ := τ
  cases state with
  | waiting segment => exact segment.map_berths .outer
  | running config => exact config.map_berths
  | ended | faulted | dropped => rfl

theorem nest (τ : Strand) : Berth.Nest τ.berths := by
  obtain ⟨run, role, state⟩ := τ
  cases state with
  | waiting segment => exact segment.nest
  | running config => exact config.nest
  | ended | faulted | dropped => exact ⟨by simp [berths], fun some => (some rfl).elim⟩

theorem raced (τ : Strand) : Berth.Raced τ.berths := by
  obtain ⟨run, role, state⟩ := τ
  cases state with
  | waiting segment => exact segment.raced .outer
  | running config => exact config.raced
  | ended | faulted | dropped => exact Berth.raced_zero

def company (τ : Strand) : Company := ⟨τ.run, τ.role, τ.berths⟩

def party (τ : Strand) : Party := ⟨τ.run, τ.role, τ.posts⟩

@[simp] theorem party_company (τ : Strand) : τ.company.party = τ.party := by
  simp [company, Company.party, party, map_berths]

end Strand

/-- The companies of the tasks of a list that are parts of a run. -/
def Company.ofSpawns (run : TokenId) (new : List Spawn) : Multiset Company :=
  (Strand.ofSpawns run new).map Strand.company

/-- The parties of the tasks of a list that are parts of a run. -/
def Party.ofSpawns (run : TokenId) (new : List Spawn) : Multiset Party :=
  (Strand.ofSpawns run new).map Strand.party

theorem Company.map_ofSpawns (run : TokenId) (new : List Spawn) :
    (Company.ofSpawns run new).map Company.party = Party.ofSpawns run new := by
  simp [Company.ofSpawns, Party.ofSpawns]

/-- The company of a run that has just begun. -/
def Company.starting (env : Env) (effect : Effect) : Company :=
  ⟨env.token, .root, {Loop.berth ⟨env, []⟩ .outer (.evaluating effect)}⟩

/-- The party of a run that has just begun. -/
def Party.starting (env : Env) (effect : Effect) : Party :=
  ⟨env.token, .root, {Loop.at ⟨env, []⟩ .outer (.evaluating effect)}⟩

namespace Runtime

def companies (σ : Runtime) : Multiset Company := σ.strands.map Strand.company

def parties (σ : Runtime) : Multiset Party := σ.strands.map Strand.party

theorem map_companies (σ : Runtime) : σ.companies.map Company.party = σ.parties := by
  simp [companies, parties]

/-- A strand of a run has failed: by a panic, or by being given up before it began or when its
context was closed. -/
def Failed (σ : Runtime) (run : TokenId) : Prop := ∃ τ ∈ σ.strands, τ.run = run ∧ τ.failed

inductive Advance (σ σ' : Runtime) : Prop
  | idle (companies : σ'.companies = σ.companies) (log : σ'.log = σ.log)
  /-- The loops of one company move, and may start tasks. -/
  | act {run : TokenId} {role : Strand.Role} {B B' : Multiset Berth} {ms : List Event}
      {new : List Spawn} {rest : Multiset Company}
      (motion : Motion σ.store σ'.store B ms new B')
      (numbered : ∀ t b v, Event.acquired t b v ∈ ms → b < σ'.store.brackets)
      (tasks : ∀ x ∈ new, Within σ.store.joins.size σ'.store.joins.size x.task)
      (companies : σ.companies = ⟨run, role, B⟩ ::ₘ rest)
      (companies' : σ'.companies = ⟨run, role, B'⟩ ::ₘ (Company.ofSpawns run new + rest))
      (log : σ'.log = ms.map (.of run σ.store) ++ σ.log)
  /-- One company fails. -/
  | lose {run : TokenId} {role : Strand.Role} {B : Multiset Berth} {ms : List Event}
      {rest : Multiset Company} (failed : σ'.Failed run)
      (marks : ms = [] ∨ ∃ l φ point, ⟨l, .fiber φ⟩ ∈ B ∧ φ.Enters σ.store point ∧
        ms = [.entered φ.token point])
      (companies : σ.companies = ⟨run, role, B⟩ ::ₘ rest)
      (companies' : σ'.companies = ⟨run, role, 0⟩ ::ₘ rest)
      (log : σ'.log = ms.map (.of run σ.store) ++ σ.log)
  /-- A run begins. -/
  | begin {env : Env} {effect : Effect} (fresh : Within σ.store.size σ'.store.size env.token)
      (companies' : σ'.companies = .starting env effect ::ₘ σ.companies) (log : σ'.log = σ.log)

inductive Turnover (σ σ' : Runtime) : Prop
  | idle (parties : σ'.parties = σ.parties) (log : σ'.log = σ.log)
  /-- The loops of one party react, and may start tasks. -/
  | act {run : TokenId} {role : Strand.Role} {P P' : Multiset Post} {ms : List Event}
      {new : List Spawn} {rest : Multiset Party}
      (reaction : Reaction σ.store σ'.store P ms new P')
      (numbered : ∀ t b v, Event.acquired t b v ∈ ms → b < σ'.store.brackets)
      (tasks : ∀ x ∈ new, Within σ.store.joins.size σ'.store.joins.size x.task)
      (parties : σ.parties = ⟨run, role, P⟩ ::ₘ rest)
      (parties' : σ'.parties = ⟨run, role, P'⟩ ::ₘ (Party.ofSpawns run new + rest))
      (log : σ'.log = ms.map (.of run σ.store) ++ σ.log)
  /-- One party fails. -/
  | lose {run : TokenId} {role : Strand.Role} {P : Multiset Post} {ms : List Event}
      {rest : Multiset Party} (failed : σ'.Failed run)
      (marks : ms = [] ∨ ∃ l φ point, ⟨l, .fiber φ⟩ ∈ P ∧ φ.Enters σ.store point ∧
        ms = [.entered φ.token point])
      (parties : σ.parties = ⟨run, role, P⟩ ::ₘ rest)
      (parties' : σ'.parties = ⟨run, role, 0⟩ ::ₘ rest)
      (log : σ'.log = ms.map (.of run σ.store) ++ σ.log)
  /-- A run begins. -/
  | begin {env : Env} {effect : Effect} (fresh : Within σ.store.size σ'.store.size env.token)
      (parties' : σ'.parties = .starting env effect ::ₘ σ.parties) (log : σ'.log = σ.log)

variable {σ σ' : Runtime}

theorem mem_ofSpawns {run : TokenId} {new : List Spawn} {π : Party} :
    π ∈ Party.ofSpawns run new ↔
      ∃ x ∈ new, x.segment? ≠ none ∧ π = ⟨run, .task x.task, x.posts⟩ := by
  simp only [Party.ofSpawns, Multiset.mem_map]
  constructor
  · rintro ⟨τ, mem, rfl⟩
    obtain ⟨x, started, segment, some, rfl⟩ := Strand.mem_ofSpawns.mp mem
    exact ⟨x, started, by simp [some], by
      simp [Strand.party, Strand.posts, Spawn.posts, some]⟩
  · rintro ⟨x, started, some, rfl⟩
    obtain ⟨segment, some⟩ := Option.ne_none_iff_exists'.mp some
    refine ⟨_, Strand.mem_ofSpawns.mpr ⟨x, started, segment, some, rfl⟩, ?_⟩
    simp [Strand.party, Strand.posts, Spawn.posts, some]

/-- Where the parties behind a turnover come from. -/
inductive Origin (σ σ' : Runtime) : Party → Prop
  | old {π : Party} (mem : π ∈ σ.parties) : Origin σ σ' π
  | acted {run : TokenId} {role : Strand.Role} {P P' : Multiset Post} {ms : List Event}
      {new : List Spawn} (acting : ⟨run, role, P⟩ ∈ σ.parties)
      (reaction : Reaction σ.store σ'.store P ms new P') : Origin σ σ' ⟨run, role, P'⟩
  | started {run : TokenId} {role : Strand.Role} {P P' : Multiset Post} {ms : List Event}
      {new : List Spawn} {x : Spawn} (acting : ⟨run, role, P⟩ ∈ σ.parties)
      (acted : ⟨run, role, P'⟩ ∈ σ'.parties)
      (reaction : Reaction σ.store σ'.store P ms new P') (mem : x ∈ new) :
      Origin σ σ' ⟨run, .task x.task, x.posts⟩
  | lost {run : TokenId} {role : Strand.Role} {P : Multiset Post}
      (losing : ⟨run, role, P⟩ ∈ σ.parties) : Origin σ σ' ⟨run, role, 0⟩
  | begun {env : Env} {effect : Effect}
      (fresh : Within σ.store.size σ'.store.size env.token) : Origin σ σ' (.starting env effect)

theorem Turnover.origin (h : Turnover σ σ') {π : Party} (mem : π ∈ σ'.parties) :
    Origin σ σ' π := by
  cases h with
  | idle parties => exact .old (parties ▸ mem)
  | @act run role P P' ms new rest reaction numbered tasks parties parties' =>
    have acting : ⟨run, role, P⟩ ∈ σ.parties := parties ▸ Multiset.mem_cons_self _ _
    have acted : ⟨run, role, P'⟩ ∈ σ'.parties := parties' ▸ Multiset.mem_cons_self _ _
    rw [parties'] at mem
    obtain rfl | mem := Multiset.mem_cons.mp mem
    · exact .acted acting reaction
    obtain mem | mem := Multiset.mem_add.mp mem
    · obtain ⟨x, started, -, rfl⟩ := mem_ofSpawns.mp mem
      exact .started acting acted reaction started
    · exact .old (parties ▸ Multiset.mem_cons_of_mem mem)
  | @lose run role P ms rest failed marks parties parties' =>
    have losing : ⟨run, role, P⟩ ∈ σ.parties := parties ▸ Multiset.mem_cons_self _ _
    rw [parties'] at mem
    obtain rfl | mem := Multiset.mem_cons.mp mem
    · exact .lost losing
    · exact .old (parties ▸ Multiset.mem_cons_of_mem mem)
  | begin fresh parties' =>
    rw [parties'] at mem
    obtain rfl | mem := Multiset.mem_cons.mp mem
    · exact .begun fresh
    · exact .old mem

/-- What becomes of a party: it stays, its loops react, or its run has failed. -/
theorem Turnover.fate (h : Turnover σ σ') {π : Party} (mem : π ∈ σ.parties) :
    π ∈ σ'.parties ∨ (∃ ms new P', Reaction σ.store σ'.store π.posts ms new P' ∧
      ⟨π.run, π.role, P'⟩ ∈ σ'.parties) ∨ σ'.Failed π.run := by
  cases h with
  | idle parties => exact .inl (parties ▸ mem)
  | act reaction numbered tasks parties parties' =>
    rw [parties] at mem
    obtain rfl | mem := Multiset.mem_cons.mp mem
    · exact .inr (.inl ⟨_, _, _, reaction, parties' ▸ Multiset.mem_cons_self _ _⟩)
    · exact .inl (parties' ▸ by simp [mem])
  | lose failed marks parties parties' =>
    rw [parties] at mem
    obtain rfl | mem := Multiset.mem_cons.mp mem
    · exact .inr (.inr failed)
    · exact .inl (parties' ▸ Multiset.mem_cons_of_mem mem)
  | begin fresh parties' => exact .inl (parties' ▸ Multiset.mem_cons_of_mem mem)

/-! ## Every step is an advance -/

theorem companies_begin (new : TokenId × Store) (effect : Effect) (kept : List TokenId)
    (context : Context) : (σ.begin new effect kept context).companies
      = .starting ⟨new.1, context, kept⟩ effect ::ₘ σ.companies := by
  simp [begin, companies, Strand.company, Strand.ofRun, Run.new, Strand.berths, Segment.berths,
    Company.starting]

theorem parties_begin (new : TokenId × Store) (effect : Effect) (kept : List TokenId)
    (context : Context) : (σ.begin new effect kept context).parties
      = .starting ⟨new.1, context, kept⟩ effect ::ₘ σ.parties := by
  rw [← map_companies, companies_begin, Multiset.map_cons, map_companies]
  rfl

theorem begin_advance (new : TokenId × Store)
    (fresh : Within σ.store.size new.2.size new.1) (effect : Effect) (kept : List TokenId)
    (context : Context) : Advance σ (σ.begin new effect kept context) := by
  have within : Within σ.store.size (σ.begin new effect kept context).store.size
      (Env.token ⟨new.1, context, kept⟩) := fresh
  exact .begin within (companies_begin new effect kept context) rfl

theorem companies_ofSpawns_quiet {run : TokenId} {new : List Spawn}
    (quiet : ∀ x ∈ new, x.segment? = none) : Company.ofSpawns run new = 0 := by
  refine Multiset.eq_zero_of_forall_notMem fun κ mem => ?_
  obtain ⟨τ, mem, -⟩ := Multiset.mem_map.mp mem
  obtain ⟨x, started, segment, some, -⟩ := Strand.mem_ofSpawns.mp mem
  simp [quiet x started] at some

theorem turn_advance (s : Store) (rest : Multiset Strand) (log : List Moment) (run : TokenId)
    (role : Strand.Role) (c : Config) (worker : Worker) :
    Advance ⟨s, ⟨run, role, .running c⟩ ::ₘ rest, log⟩
      (turn worker run role c ⟨s, rest, log⟩) := by
  obtain ⟨grows, es, new, trace, spawned, came⟩ := c.step_moves worker s
  have log' : (turn worker run role c ⟨s, rest, log⟩).log
      = (es.filter Event.isMark).map (.of run s) ++ log := by
    simp [turn, Store.since_eq trace]
  have companies : Runtime.companies ⟨s, ⟨run, role, .running c⟩ ::ₘ rest, log⟩
      = ⟨run, role, c.berths⟩ ::ₘ rest.map Strand.company := by
    simp [Runtime.companies, Strand.company, Strand.berths]
  have companies' : (turn worker run role c ⟨s, rest, log⟩).companies
      = Strand.company ⟨run, role, (c.step worker s).1.state⟩
        ::ₘ (Company.ofSpawns run new + rest.map Strand.company) := by
    simp [turn, Runtime.companies, Store.started_eq spawned, Company.ofSpawns]
  have numbered : ∀ t b v, Event.acquired t b v ∈ es.filter Event.isMark →
      b < (c.step worker s).2.brackets := fun t b v mem => by
    obtain ⟨es', trace', acquired, -⟩ := grows.trace
    obtain rfl := List.append_cancel_right (trace.symm.trans trace')
    exact (acquired t b v (List.mem_filter.mp mem).1).lt
  have tasks : ∀ x ∈ new, Within s.joins.size (c.step worker s).2.joins.size x.task := by
    obtain ⟨new', spawned', fresh, -⟩ := grows.spawned
    obtain rfl := List.append_cancel_right (spawned.symm.trans spawned')
    exact fun x mem => (fresh x mem).1
  have failed : ∀ f, (c.step worker s).1 = .faulted f →
      (turn worker run role c ⟨s, rest, log⟩).Failed run := fun f fault =>
    ⟨_, Multiset.mem_cons_self _ _, rfl, by simp [Strand.failed, fault, Progress.state]⟩
  generalize (c.step worker s).1 = progress at came companies' failed
  generalize es.filter Event.isMark = ms at came log' numbered
  have unchanged : ∀ state, Strand.berths ⟨run, role, state⟩ = c.berths → ms = [] → new = [] →
      progress.state = state → Advance ⟨s, ⟨run, role, .running c⟩ ::ₘ rest, log⟩
        (turn worker run role c ⟨s, rest, log⟩) := by
    rintro state same rfl rfl rfl
    refine .idle ?_ log'
    rw [companies, companies', Strand.company, same]
    simp [Company.ofSpawns, Strand.ofSpawns]
  cases came with
  | next motion => exact .act motion numbered tasks companies companies' log'
  | @ended x none => exact unchanged (.ended x) none.symm rfl rfl rfl
  | @parked segment same => exact unchanged (.waiting segment) same.symm rfl rfl rfl
  | faulted quiet marks =>
    rw [companies_ofSpawns_quiet quiet, zero_add] at companies'
    exact .lose (failed _ rfl) marks companies companies' log'

theorem giveUp_advance (s : Store) (rest : Multiset Strand) (log : List Moment) (r : Run) :
    Advance ⟨s, .ofRun r ::ₘ rest, log⟩ ⟨r.giveUp s, .remainder r ::ₘ rest, log⟩ := by
  unfold Strand.remainder
  split
  · exact .idle (by simp [companies]) rfl
  · let τ : Strand := .ofRun r
    let τ' : Strand := { τ with state := .dropped }
    have before : Runtime.companies ⟨s, τ ::ₘ rest, log⟩
        = ⟨τ.run, τ.role, τ.berths⟩ ::ₘ rest.map Strand.company := by
      simp [companies, Strand.company]
    have after : Runtime.companies ⟨r.giveUp s, τ' ::ₘ rest, log⟩
        = ⟨τ.run, τ.role, 0⟩ ::ₘ rest.map Strand.company := by
      simp [companies, Strand.company, Strand.berths, τ']
    have failed : Runtime.Failed ⟨r.giveUp s, τ' ::ₘ rest, log⟩ τ.run :=
      ⟨τ', Multiset.mem_cons_self _ _, rfl, by simp [Strand.failed, τ']⟩
    exact .lose failed (.inl rfl) before after rfl

theorem Step.advance (h : Step σ σ') : Advance σ σ' := by
  cases h with
  | begin _ effect kept context =>
    exact begin_advance _ ⟨Nat.le_refl _, by simp⟩ effect kept context
  | beginBelow _ parent lt effect kept context =>
    exact begin_advance _ ⟨by simp, by simp⟩ effect kept context
  | poll s rest log run role segment =>
    exact .idle (by simp [companies, Strand.company, Strand.berths]) rfl
  | turn s rest log run role c worker => exact turn_advance s rest log run role c worker
  | report s rest log run t state result h => exact .idle rfl rfl
  | giveUp s rest log r segment live unstarted => exact giveUp_advance s rest log r
  | cancel t | fresh | child parent lt | prune held h | outside s h => exact .idle rfl rfl

/-- Without the rooms an advance is a turnover. -/
theorem Advance.turnover (h : Advance σ σ') : Turnover σ σ' := by
  have forget : ∀ {τ : Runtime} {K : Multiset Company}, τ.companies = K →
      τ.parties = K.map Company.party := fun same => by rw [← map_companies, same]
  cases h with
  | idle companies log => exact .idle (by rw [forget companies, map_companies]) log
  | act motion numbered tasks companies companies' log =>
    have parties := forget companies
    have parties' := forget companies'
    rw [Multiset.map_cons] at parties
    rw [Multiset.map_cons, Multiset.map_add, Company.map_ofSpawns] at parties'
    exact .act motion.reaction numbered tasks parties parties' log
  | @lose run role B ms rest failed marks companies companies' log =>
    have parties := forget companies
    have parties' := forget companies'
    rw [Multiset.map_cons] at parties parties'
    refine .lose failed (marks.imp_right ?_) parties parties' log
    rintro ⟨l, φ, point, mem, enters, same⟩
    exact ⟨l.link, φ, point, Multiset.mem_map_of_mem Berth.post mem, enters, same⟩
  | begin fresh companies' log =>
    have parties' := forget companies'
    rw [Multiset.map_cons, map_companies] at parties'
    exact .begin fresh parties' log

theorem Step.turnover (h : Step σ σ') : Turnover σ σ' := h.advance.turnover

end Runtime

end EffectFibers
