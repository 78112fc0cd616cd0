import EffectFibers.Proofs.Kinship

/-!
# The companies of a runtime

A company is a strand with the rooms of its loops.  This module follows companies through the
steps of a runtime: where they come from (`Runtime.Advance.origin`), and that they stay orderly
(`Berth.Orderly`): the loops of one company have tokens of their own, each larger than that of
the loop around it, and what is in a race has the tokens that the race was begun with.

## Main statements

* `Runtime.Reachable.orderly`: every company is orderly.
* `Runtime.Step.deed`: what a fiber that is there before and after a step has done in it.
-/

namespace EffectFibers

/-! ## Parts of a run -/

namespace Spawn

/-- The loops with which a task begins that is a part of a run. -/
def berths (x : Spawn) : Multiset Berth :=
  match x.segment? with
  | some segment => segment.berths .outer
  | none => 0

theorem berths_of_segment? {x : Spawn} {loop : Loop} {effect : Effect}
    (h : x.segment? = some (.start loop effect)) :
    x.berths = {loop.berth .outer (.evaluating effect)} := by
  simp [berths, h, Segment.berths]

end Spawn

theorem Company.mem_ofSpawns {run : TokenId} {new : List Spawn} {κ : Company} :
    κ ∈ Company.ofSpawns run new ↔
      ∃ x ∈ new, x.segment? ≠ none ∧ κ = ⟨run, .task x.task, x.berths⟩ := by
  simp only [Company.ofSpawns, Multiset.mem_map]
  constructor
  · rintro ⟨τ, mem, rfl⟩
    obtain ⟨x, started, segment, some, rfl⟩ := Strand.mem_ofSpawns.mp mem
    exact ⟨x, started, by simp [some], by
      simp [Strand.company, Strand.berths, Spawn.berths, some]⟩
  · rintro ⟨x, started, some, rfl⟩
    obtain ⟨segment, some⟩ := Option.ne_none_iff_exists'.mp some
    refine ⟨_, Strand.mem_ofSpawns.mpr ⟨x, started, segment, some, rfl⟩, ?_⟩
    simp [Strand.company, Strand.berths, Spawn.berths, some]

/-- The tasks that a motion starts begin with one loop: under a new token, or under that of a
loop that is sent to another context. -/
theorem Motion.starting {s s' : Store} {B B' : Multiset Berth} {ms : List Event}
    {new : List Spawn} (h : Motion s s' B ms new B') {x : Spawn} (mem : x ∈ new)
    (part : x.segment? ≠ none) : ∃ (loop : Loop) (effect : Effect),
      x.berths = {loop.berth .outer (.evaluating effect)} ∧
        (Within s.size s'.size loop.env.token ∨ ∃ l loop₀ context,
          Loop.berth loop₀ l (.evaluating (.shift context)) ∈ B ∧
            loop.env.token = loop₀.env.token ∧ ⟨l, .away loop₀.env x.task⟩ ∈ B') := by
  cases h with
  | idle | back | left => cases mem
  | act step deed newborn distinct quiet => exact (part (quiet x mem)).elim
  | fan opened =>
    obtain ⟨env, effect, segment, fresh, -⟩ := opened.begun.operands x mem
    exact ⟨_, _, Spawn.berths_of_segment? segment,
      .inl (fresh.mono (Nat.le_succ_of_le opened.begun.token.le) (Nat.le_refl _))⟩
  | @sent l loop context B live refused =>
    split at mem
    · obtain rfl := List.mem_singleton.mp mem
      exact ⟨_, _, Spawn.berths_of_segment? rfl,
        .inr ⟨l, loop, context, Multiset.mem_cons_self _ _, rfl, Multiset.mem_cons_self _ _⟩⟩
    · cases mem

namespace Runtime

variable {σ σ' : Runtime} {κ : Company} {run : TokenId} {φ φ' : Fiber}

theorem nest_company (mem : κ ∈ σ.companies) : Berth.Nest κ.berths := by
  obtain ⟨τ, -, rfl⟩ := Multiset.mem_map.mp mem
  exact τ.nest

theorem raced_company (mem : κ ∈ σ.companies) : Berth.Raced κ.berths := by
  obtain ⟨τ, -, rfl⟩ := Multiset.mem_map.mp mem
  exact τ.raced

theorem mem_parties {π : Party} : π ∈ σ.parties ↔ ∃ κ ∈ σ.companies, κ.party = π := by
  rw [← map_companies, Multiset.mem_map]

/-- A fiber of the crew stands somewhere. -/
theorem mem_crew_iff : (run, φ) ∈ σ.crew ↔
    ∃ κ ∈ σ.companies, κ.run = run ∧ ∃ l, ⟨l, .fiber φ⟩ ∈ κ.berths := by
  rw [mem_crew]
  constructor
  · rintro ⟨π, mem, run, l, inside⟩
    obtain ⟨κ, inCompanies, rfl⟩ := mem_parties.mp mem
    obtain ⟨b, mem, same⟩ := Multiset.mem_map.mp inside
    obtain ⟨room, piece⟩ := b
    cases same
    exact ⟨κ, inCompanies, run, room, mem⟩
  · rintro ⟨κ, mem, run, l, inside⟩
    exact ⟨κ.party, mem_parties.mpr ⟨κ, mem, rfl⟩, run, l.link,
      Multiset.mem_map_of_mem Berth.post inside⟩

theorem mem_crew_of_running {role : Strand.Role} {c : Config} {l : Room}
    (mem : ⟨run, role, .running c⟩ ∈ σ.strands) (inside : ⟨l, .fiber φ⟩ ∈ c.berths) :
    (run, φ) ∈ σ.crew :=
  mem_crew_iff.mpr ⟨_, Multiset.mem_map_of_mem Strand.company mem, rfl, l, inside⟩

theorem mem_crew_lone {s : Store} {c : Config} {log : List Moment} {l : Room}
    (mem : ⟨l, .fiber φ⟩ ∈ c.berths) : (0, φ) ∈ (lone s c log).crew :=
  mem_crew_of_running (Multiset.mem_cons_self (⟨0, .root, .running c⟩ : Strand) 0) mem

theorem whole_lone (s : Store) (c : Config) (log : List Moment) : ¬ (lone s c log).Failed 0 := by
  rintro ⟨τ, mem, -, failed⟩
  obtain rfl : τ = ⟨0, .root, .running c⟩ := by simpa [lone] using mem
  exact failed

/-- Where the companies behind an advance come from. -/
inductive Company.Origin (σ σ' : Runtime) : Company → Prop
  | old {κ : Company} (mem : κ ∈ σ.companies) : Origin σ σ' κ
  | acted {run : TokenId} {role : Strand.Role} {B B' : Multiset Berth} {ms : List Event}
      {new : List Spawn} (acting : ⟨run, role, B⟩ ∈ σ.companies)
      (motion : Motion σ.store σ'.store B ms new B') : Origin σ σ' ⟨run, role, B'⟩
  | started {run : TokenId} {role : Strand.Role} {B B' : Multiset Berth} {ms : List Event}
      {new : List Spawn} {x : Spawn} (acting : ⟨run, role, B⟩ ∈ σ.companies)
      (acted : ⟨run, role, B'⟩ ∈ σ'.companies) (motion : Motion σ.store σ'.store B ms new B')
      (mem : x ∈ new) (part : x.segment? ≠ none)
      (fresh : Within σ.store.joins.size σ'.store.joins.size x.task) :
      Origin σ σ' ⟨run, .task x.task, x.berths⟩
  | lost {run : TokenId} {role : Strand.Role} {B : Multiset Berth}
      (losing : ⟨run, role, B⟩ ∈ σ.companies) : Origin σ σ' ⟨run, role, 0⟩
  | begun {env : Env} {effect : Effect}
      (fresh : Within σ.store.size σ'.store.size env.token) : Origin σ σ' (.starting env effect)

theorem Advance.origin (h : Advance σ σ') (mem : κ ∈ σ'.companies) : Company.Origin σ σ' κ := by
  cases h with
  | idle companies => exact .old (companies ▸ mem)
  | @act run role B B' ms new rest motion numbered tasks companies companies' =>
    have acting : ⟨run, role, B⟩ ∈ σ.companies := companies ▸ Multiset.mem_cons_self _ _
    have acted : ⟨run, role, B'⟩ ∈ σ'.companies := companies' ▸ Multiset.mem_cons_self _ _
    rw [companies'] at mem
    obtain rfl | mem := Multiset.mem_cons.mp mem
    · exact .acted acting motion
    obtain mem | mem := Multiset.mem_add.mp mem
    · obtain ⟨x, started, part, rfl⟩ := Company.mem_ofSpawns.mp mem
      exact .started acting acted motion started part (tasks x started)
    · exact .old (companies ▸ Multiset.mem_cons_of_mem mem)
  | @lose run role B ms rest failed marks companies companies' =>
    have losing : ⟨run, role, B⟩ ∈ σ.companies := companies ▸ Multiset.mem_cons_self _ _
    rw [companies'] at mem
    obtain rfl | mem := Multiset.mem_cons.mp mem
    · exact .lost losing
    · exact .old (companies ▸ Multiset.mem_cons_of_mem mem)
  | begin fresh companies' =>
    rw [companies'] at mem
    obtain rfl | mem := Multiset.mem_cons.mp mem
    · exact .begun fresh
    · exact .old mem

/-- What becomes of a company: it stays, its loops move, or its run has failed. -/
theorem Advance.fate (h : Advance σ σ') (mem : κ ∈ σ.companies) :
    κ ∈ σ'.companies ∨ (∃ ms new B', Motion σ.store σ'.store κ.berths ms new B' ∧
      ⟨κ.run, κ.role, B'⟩ ∈ σ'.companies) ∨ σ'.Failed κ.run := by
  cases h with
  | idle companies => exact .inl (companies ▸ mem)
  | act motion numbered tasks companies companies' =>
    rw [companies] at mem
    obtain rfl | mem := Multiset.mem_cons.mp mem
    · exact .inr (.inl ⟨_, _, _, motion, companies' ▸ Multiset.mem_cons_self _ _⟩)
    · exact .inl (companies' ▸ by simp [mem])
  | lose failed marks companies companies' =>
    rw [companies] at mem
    obtain rfl | mem := Multiset.mem_cons.mp mem
    · exact .inr (.inr failed)
    · exact .inl (companies' ▸ Multiset.mem_cons_of_mem mem)
  | begin fresh companies' => exact .inl (companies' ▸ Multiset.mem_cons_of_mem mem)

/-- What stands in a company has just begun there, or is from a company whose loops may have
moved. -/
theorem Advance.berth (h : Advance σ σ') (mem : κ ∈ σ'.companies) {b : Berth}
    (inside : b ∈ κ.berths) : (∃ loop effect, b = Loop.berth loop .outer (.evaluating effect)) ∨
      ∃ B ms new, ⟨κ.run, κ.role, B⟩ ∈ σ.companies ∧
        Motion σ.store σ'.store B ms new κ.berths ∧ Company.ofSpawns κ.run new ⊆ σ'.companies := by
  have old : κ ∈ σ.companies → ∃ B ms new, ⟨κ.run, κ.role, B⟩ ∈ σ.companies ∧
      Motion σ.store σ'.store B ms new κ.berths ∧ Company.ofSpawns κ.run new ⊆ σ'.companies :=
    fun mem => by
      refine ⟨κ.berths, [], [], mem, .idle, ?_⟩
      rw [companies_ofSpawns_quiet (by simp)]
      exact Multiset.zero_subset _
  cases h with
  | idle companies => exact .inr (old (companies ▸ mem))
  | @act run role B B' ms new rest motion numbered tasks companies companies' =>
    have acting : ⟨run, role, B⟩ ∈ σ.companies := companies ▸ Multiset.mem_cons_self _ _
    have started : Company.ofSpawns run new ⊆ σ'.companies := fun κ mem => by
      rw [companies']
      exact Multiset.mem_cons_of_mem (Multiset.mem_add.mpr (.inl mem))
    rw [companies'] at mem
    obtain rfl | mem := Multiset.mem_cons.mp mem
    · exact .inr ⟨B, ms, new, acting, motion, started⟩
    obtain mem | mem := Multiset.mem_add.mp mem
    · obtain ⟨x, started, part, rfl⟩ := Company.mem_ofSpawns.mp mem
      obtain ⟨loop, effect, berths, -⟩ := motion.starting started part
      exact .inl ⟨loop, effect, Multiset.mem_singleton.mp (berths ▸ inside)⟩
    · exact .inr (old (companies ▸ Multiset.mem_cons_of_mem mem))
  | lose failed marks companies companies' =>
    rw [companies'] at mem
    obtain rfl | mem := Multiset.mem_cons.mp mem
    · cases inside
    · exact .inr (old (companies ▸ Multiset.mem_cons_of_mem mem))
  | begin fresh companies' =>
    rw [companies'] at mem
    obtain rfl | mem := Multiset.mem_cons.mp mem
    · exact .inl ⟨_, _, Multiset.mem_singleton.mp inside⟩
    · exact .inr (old mem)

end Runtime

/-! ## Order in a company -/

/-- The loops of a bag have tokens of their own, larger than that of the loop around, and the
operands of a race have the tokens that it was begun with. -/
structure Berth.Orderly (s : Store) (B : Multiset Berth) : Prop where
  distinct : (B.map Berth.token).Nodup
  young : ∀ b ∈ B, ∀ q, b.room.around? = some q → q < b.token
  tokens : ∀ l loop tokens, Loop.berth loop l (.racing tokens) ∈ B →
    tokens.left ≠ tokens.right ∧ ∀ side, s.Parent loop.env.token (tokens.of side)
  operands : ∀ l loop tokens, Loop.berth loop l (.racing tokens) ∈ B →
    ∀ b ∈ B, ∀ side, b.room = .operand loop.env.token side → b.token = tokens.of side

namespace Berth.Orderly

variable {s s' : Store} {B B' : Multiset Berth} {b b' : Berth} {φ φ' : Fiber} {l : Room}

/-- Two loops of a company with one token are one. -/
theorem unique (h : Orderly s B) (mem : b ∈ B) (mem' : b' ∈ B) (same : b.token = b'.token) :
    b = b' :=
  Multiset.inj_on_of_nodup_map h.distinct b mem b' mem' same

/-- The loop around a room is busy with it. -/
theorem hosts (h : Orderly s B) (nest : Berth.Nest B) (mem : ⟨l, .fiber φ⟩ ∈ B) (mem' : b ∈ B)
    (around : b.room.around? = some φ.token) : φ.Hosts b.room := by
  obtain outer | ⟨b₀, inB, ψ, piece, hosts⟩ := nest.inside b mem'
  · simp [outer, Room.around?] at around
  · have token : b₀.token = φ.token := by
      obtain ⟨l₀, piece₀⟩ := b₀
      cases piece
      exact Option.some.inj (hosts.around.symm.trans around)
    obtain rfl := h.unique inB mem token
    cases piece
    exact hosts

theorem mono (h : Orderly s B) (le : B' ≤ B) (ages : s.Ages s') : Orderly s' B' where
  distinct := Multiset.nodup_of_le (Multiset.map_le_map le) h.distinct
  young b mem := h.young b (Multiset.mem_of_le le mem)
  tokens l loop tokens mem := by
    obtain ⟨apart, parent⟩ := h.tokens l loop tokens (Multiset.mem_of_le le mem)
    exact ⟨apart, fun side => (parent side).mono ages⟩
  operands l loop tokens mem b inB' :=
    h.operands l loop tokens (Multiset.mem_of_le le mem) b (Multiset.mem_of_le le inB')

/-- A loop that stays where it was, under its token, leaves everything in order, unless it
begins a race. -/
theorem replace {piece piece' : Piece} (h : Orderly s (⟨l, piece⟩ ::ₘ B)) (ages : s.Ages s')
    (token : Berth.token ⟨l, piece'⟩ = Berth.token ⟨l, piece⟩)
    (calm : ∀ loop tokens, piece' ≠ .fiber ⟨loop, .racing tokens⟩) :
    Orderly s' (⟨l, piece'⟩ ::ₘ B) := by
  have old : ∀ {b}, b ∈ (⟨l, piece'⟩ ::ₘ B : Multiset Berth) →
      ∃ b₀ ∈ (⟨l, piece⟩ ::ₘ B : Multiset Berth), b₀.room = b.room ∧ b₀.token = b.token :=
    fun {b} mem => by
      obtain rfl | mem := Multiset.mem_cons.mp mem
      · exact ⟨_, Multiset.mem_cons_self _ _, rfl, token.symm⟩
      · exact ⟨b, Multiset.mem_cons_of_mem mem, rfl, rfl⟩
  have racing : ∀ {l' loop tokens}, Loop.berth loop l' (.racing tokens) ∈ ⟨l, piece'⟩ ::ₘ B →
      Loop.berth loop l' (.racing tokens) ∈ (⟨l, piece⟩ ::ₘ B : Multiset Berth) :=
    fun {l' loop tokens} mem => by
      obtain same | mem := Multiset.mem_cons.mp mem
      · cases same
        exact (calm _ _ rfl).elim
      · exact Multiset.mem_cons_of_mem mem
  refine ⟨?_, fun b mem q around => ?_, fun l' loop tokens mem => ?_,
    fun l' loop tokens mem b inB side room => ?_⟩
  · have distinct := h.distinct
    rw [Multiset.map_cons] at distinct ⊢
    rwa [token]
  · obtain ⟨b₀, mem₀, room, same⟩ := old mem
    exact same ▸ h.young b₀ mem₀ q (room ▸ around)
  · obtain ⟨apart, parent⟩ := h.tokens l' loop tokens (racing mem)
    exact ⟨apart, fun side => (parent side).mono ages⟩
  · obtain ⟨b₀, mem₀, room₀, same⟩ := old inB
    exact same ▸ h.operands l' loop tokens (racing mem) b₀ mem₀ side (room₀.trans room)

section

variable {nested : Multiset Berth} {ms : List Event} {loop : Loop} {tokens : RaceTokens}

/-- When a fiber acts, every berth has the room and the token of one before, or is newborn. -/
theorem origin_of_act (token : φ'.token = φ.token) (newborn : ∀ b ∈ nested, b.Newborn s s' φ')
    (mem : b ∈ (⟨l, .fiber φ'⟩ ::ₘ (nested + B) : Multiset Berth)) :
    (∃ b₀ ∈ (⟨l, .fiber φ⟩ ::ₘ B : Multiset Berth), b₀.room = b.room ∧ b₀.token = b.token) ∨
      b.Newborn s s' φ' := by
  obtain rfl | mem := Multiset.mem_cons.mp mem
  · exact .inl ⟨_, Multiset.mem_cons_self _ _, rfl, token.symm⟩
  · obtain mem | mem := Multiset.mem_add.mp mem
    · exact .inr (newborn b mem)
    · exact .inl ⟨b, Multiset.mem_cons_of_mem mem, rfl, rfl⟩

/-- A race is one from before, or the one that is begun now. -/
theorem racing_of_act (newborn : ∀ b ∈ nested, b.Newborn s s' φ') {l' : Room}
    (mem : loop.berth l' (.racing tokens)
      ∈ (⟨l, .fiber φ'⟩ ::ₘ (nested + B) : Multiset Berth)) :
    loop.berth l' (.racing tokens) ∈ B ∨ φ' = ⟨loop, .racing tokens⟩ := by
  obtain same | mem := Multiset.mem_cons.mp mem
  · cases same
    exact .inr rfl
  · obtain mem | mem := Multiset.mem_add.mp mem
    · obtain ⟨env, effect, piece⟩ := (newborn _ mem).loop
      cases piece
    · exact .inl mem

/-- A fiber that begins a race was not busy with one. -/
theorem begins_of_racing (step : φ.Step s ms ⟨loop, .racing tokens⟩)
    (deed : Deed s s' φ ⟨loop, .racing tokens⟩) :
    (∀ room, ¬ φ.Hosts room) ∧ tokens.left ≠ tokens.right ∧ ∀ side,
      Within s.size s'.size (tokens.of side) ∧ s'.Derived loop.env.token (tokens.of side) := by
  cases deed with
  | plain plain => cases step with | race => cases plain
  | race fresh derived apart =>
    exact ⟨fun room hosts => (by cases hosts), apart, fun side => ⟨fresh side, derived side⟩⟩

theorem distinct_of_act (h : Orderly s (⟨l, .fiber φ⟩ ::ₘ B)) (token : φ'.token = φ.token)
    (bound : ∀ b ∈ (⟨l, .fiber φ⟩ ::ₘ B : Multiset Berth), b.token < s.size)
    (newborn : ∀ b ∈ nested, b.Newborn s s' φ') (distinct : (nested.map Berth.token).Nodup) :
    ((⟨l, .fiber φ'⟩ ::ₘ (nested + B)).map Berth.token).Nodup := by
  have same : Berth.token ⟨l, .fiber φ'⟩ = Berth.token ⟨l, .fiber φ⟩ := token
  have before := h.distinct
  rw [Multiset.map_cons] at before
  rw [Multiset.map_cons, Multiset.map_add, ← Multiset.singleton_add, add_left_comm,
    Multiset.singleton_add, same, Multiset.nodup_add]
  refine ⟨distinct, before, Multiset.disjoint_left.mpr fun {t} new old => ?_⟩
  obtain ⟨b, inNested, rfl⟩ := Multiset.mem_map.mp new
  have young := (newborn b inNested).fresh.le
  rw [← Multiset.map_cons] at old
  obtain ⟨b', mem, same⟩ := Multiset.mem_map.mp old
  exact Nat.not_lt.mpr young (same ▸ bound b' mem)

/-- A fiber acts, and begins others inside it. -/
theorem act (h : Orderly s (⟨l, .fiber φ⟩ ::ₘ B)) (nest : Berth.Nest (⟨l, .fiber φ⟩ ::ₘ B))
    (ages : s.Ages s') (bound : ∀ b ∈ (⟨l, .fiber φ⟩ ::ₘ B : Multiset Berth), b.token < s.size)
    (step : φ.Step s ms φ') (deed : Deed s s' φ φ') (newborn : ∀ b ∈ nested, b.Newborn s s' φ')
    (distinct : (nested.map Berth.token).Nodup) :
    Orderly s' (⟨l, .fiber φ'⟩ ::ₘ (nested + B)) := by
  have token : φ'.token = φ.token := step.token
  have acting : (⟨l, .fiber φ⟩ : Berth) ∈ (⟨l, .fiber φ⟩ ::ₘ B : Multiset Berth) :=
    Multiset.mem_cons_self _ _
  have known : φ.token < s.size := bound _ acting
  refine ⟨distinct_of_act h token bound newborn distinct, fun b mem q around => ?_,
    fun l' loop tokens mem => ?_, fun l' loop tokens mem b inB side room => ?_⟩
  · obtain ⟨b₀, mem₀, room, same⟩ | new := origin_of_act token newborn mem
    · exact same ▸ h.young b₀ mem₀ q (room ▸ around)
    · have inside : q = φ'.token := by
        have room := new.room
        obtain ⟨l', piece⟩ := b
        cases l' with
        | outer => cases around
        | apart | operand =>
          cases around
          exact room.1
      rw [inside, token]
      exact Nat.lt_of_lt_of_le known new.fresh.le
  · obtain old | rfl := racing_of_act newborn mem
    · obtain ⟨apart, parent⟩ := h.tokens l' loop tokens (Multiset.mem_cons_of_mem old)
      exact ⟨apart, fun side => (parent side).mono ages⟩
    · obtain ⟨-, apart, begun⟩ := begins_of_racing step deed
      rw [← token] at known
      exact ⟨apart, fun side => ⟨(begun side).2, Nat.lt_of_lt_of_le known (begun side).1.le⟩⟩
  · obtain ⟨b₀, mem₀, room₀, same⟩ | new := origin_of_act token newborn inB
    · obtain old | rfl := racing_of_act newborn mem
      · exact same ▸ h.operands l' loop tokens (Multiset.mem_cons_of_mem old) b₀ mem₀ side
          (room₀.trans room)
      · have around : b₀.room.around? = some φ.token := by
          rw [room₀, room, ← token]
          rfl
        exact ((begins_of_racing step deed).1 _ (h.hosts nest acting mem₀ around)).elim
    · have fits := new.room
      rw [room] at fits
      obtain ⟨owner, -, tokens', doing, own⟩ := fits
      obtain old | rfl := racing_of_act newborn mem
      · -- Two loops would have the token of the one that acts.
        have one := Multiset.nodup_cons.mp (Multiset.map_cons _ _ _ ▸ h.distinct)
        refine (one.1 ?_).elim
        have held : φ.token = loop.env.token := token.symm.trans owner.symm
        change φ.token ∈ B.map Berth.token
        exact held ▸ Multiset.mem_map_of_mem Berth.token old
      · cases doing
        exact own.symm

end

end Berth.Orderly

theorem Motion.orderly {s s' : Store} {B B' : Multiset Berth} {ms : List Event}
    {new : List Spawn} (motion : Motion s s' B ms new B') (h : Berth.Orderly s B)
    (nest : Berth.Nest B) (ages : s.Ages s') (bound : ∀ b ∈ B, b.token < s.size) :
    Berth.Orderly s' B' := by
  cases motion with
  | idle => exact h.mono (le_refl _) ages
  | act step deed newborn distinct quiet =>
    exact h.act nest ages bound step deed newborn distinct
  | fan opened => exact h.replace ages rfl nofun
  | sent live refused => exact h.replace ages rfl nofun
  | back | left => exact h.mono (Multiset.le_cons_self _ _) ages

theorem Berth.Orderly.single {s : Store} {loop : Loop} {effect : Effect} :
    Berth.Orderly s {loop.berth .outer (.evaluating effect)} where
  distinct := by simp
  young b mem q around := by
    obtain rfl := Multiset.mem_singleton.mp mem
    cases around
  tokens l loop tokens mem := by
    cases Multiset.mem_singleton.mp mem
  operands l loop tokens mem := by
    cases Multiset.mem_singleton.mp mem

namespace Runtime

variable {σ σ' : Runtime} {κ : Company} {run : TokenId} {φ φ' : Fiber}

/-- Every company is orderly. -/
def Orderly (σ : Runtime) : Prop := ∀ κ ∈ σ.companies, Berth.Orderly σ.store κ.berths

theorem Kindred.bound (h : σ.Kindred) (mem : κ ∈ σ.companies) :
    ∀ b ∈ κ.berths, b.token < σ.store.size := fun b inB =>
  (h.linked κ.party (mem_parties.mpr ⟨κ, mem, rfl⟩) b.post (Multiset.mem_map_of_mem _ inB)).bound _
    b.post.token_mem_owned

theorem Step.orderly (h : σ.Orderly) (kindred : σ.Kindred) (step : Step σ σ') : σ'.Orderly := by
  intro κ mem
  cases step.advance.origin mem with
  | old mem => exact (h κ mem).mono (le_refl _) step.ages
  | acted acting motion =>
    exact motion.orderly (h _ acting) (nest_company acting) step.ages (kindred.bound acting)
  | started acting acted motion started part =>
    obtain ⟨loop, effect, berths, -⟩ := motion.starting started part
    rw [berths]
    exact .single
  | lost => exact ⟨by simp, by simp, by simp, by simp⟩
  | begun fresh => exact .single

theorem Reachable.orderly (h : Reachable σ) : σ.Orderly := by
  induction h with
  | refl =>
    have none : Runtime.companies {} = 0 := rfl
    simp [Orderly, none]
  | tail reach step ih => exact Step.orderly ih (Reachable.kindred reach) step

/-! ## What a fiber has done -/

/-- A fiber makes a step where it stands, and may begin others inside it. -/
structure Acts (σ σ' : Runtime) (run : TokenId) (φ φ' : Fiber) : Prop where
  step : ∃ ms, φ.Step σ.store ms φ'
  deed : Deed σ.store σ'.store φ φ'
  company : ∃ role l nested B, ⟨run, role, ⟨l, .fiber φ⟩ ::ₘ B⟩ ∈ σ.companies ∧
    ⟨run, role, ⟨l, .fiber φ'⟩ ::ₘ (nested + B)⟩ ∈ σ'.companies ∧
    (∀ b ∈ nested, b.Newborn σ.store σ'.store φ') ∧ φ'.Fields nested

/-- A fiber that is there before and after a step has done nothing in it, or acted, or it has
begun a group, or has been sent to another context. -/
theorem Step.deed (reach : Reachable σ) (step : Step σ σ') (mem : (run, φ) ∈ σ.crew)
    (mem' : (run, φ') ∈ σ'.crew) (token : φ'.token = φ.token) :
    φ' = φ ∨ Acts σ σ' run φ φ' ∨
      ∃ effect, φ.doing = .evaluating effect ∧
        ((∃ n operands, effect = .parallel n operands) ∨ ∃ context, effect = .shift context) := by
  have manned := Reachable.manned reach
  have known : φ.token < σ.store.size := manned.bound _ (mem_badges.mpr ⟨_, mem, rfl⟩)
  have unique : ∀ {ψ : Fiber} {κ : Company} {l : Room}, κ ∈ σ.companies → κ.run = run →
      ⟨l, .fiber ψ⟩ ∈ κ.berths → ψ.token = φ.token → ψ = φ :=
    fun inCompanies same inside token => by
      have inCrew := mem_crew_iff.mpr ⟨_, inCompanies, same, _, inside⟩
      exact congrArg Prod.snd (manned.unique inCrew mem token)
  have stale : ∀ {t}, Within σ.store.size σ'.store.size t → t = φ.token → False :=
    fun fresh same => Nat.not_lt.mpr fresh.le (same ▸ known)
  obtain ⟨κ, inCompanies, rfl, l, inside⟩ := mem_crew_iff.mp mem'
  cases step.advance.origin inCompanies with
  | old old => exact .inl (unique old rfl inside token)
  | acted acting motion =>
    cases motion with
    | idle => exact .inl (unique acting rfl inside token)
    | @act _ _ _ _ nested _ _ step deed newborn distinct quiet fields =>
      obtain same | inside := Multiset.mem_cons.mp inside
      · cases same
        obtain rfl := unique acting rfl (Multiset.mem_cons_self _ _) (step.token.symm.trans token)
        exact .inr (.inl ⟨⟨_, step⟩, deed, _, _, nested, _, acting, inCompanies, newborn, fields⟩)
      · obtain inside | inside := Multiset.mem_add.mp inside
        · exact (stale (newborn _ inside).fresh token).elim
        · exact .inl (unique acting rfl (Multiset.mem_cons_of_mem inside) token)
    | @fan l₀ loop n operands group new B opened =>
      obtain same | inside := Multiset.mem_cons.mp inside
      · cases same
        obtain rfl := unique acting rfl (Multiset.mem_cons_self _ _) token
        exact .inr (.inr ⟨_, rfl, .inl ⟨n, operands, rfl⟩⟩)
      · exact .inl (unique acting rfl (Multiset.mem_cons_of_mem inside) token)
    | sent live refused =>
      obtain same | inside := Multiset.mem_cons.mp inside
      · cases same
      · exact .inl (unique acting rfl (Multiset.mem_cons_of_mem inside) token)
    | back ended => exact .inl (unique acting rfl (Multiset.mem_cons_of_mem inside) token)
    | left => exact .inl (unique acting rfl (Multiset.mem_cons_of_mem inside) token)
  | started acting acted motion started part =>
    obtain ⟨loop, effect, berths, fresh | ⟨l₀, loop₀, context, mem₀, same, -⟩⟩ :=
      motion.starting started part
    · rw [berths] at inside
      cases Multiset.mem_singleton.mp inside
      exact (stale fresh token).elim
    · rw [berths] at inside
      cases Multiset.mem_singleton.mp inside
      obtain rfl := unique acting rfl mem₀ (same.symm.trans token)
      exact .inr (.inr ⟨_, rfl, .inr ⟨context, rfl⟩⟩)
  | lost => cases inside
  | begun fresh =>
    cases Multiset.mem_singleton.mp inside
    exact (stale fresh token).elim

end Runtime

end EffectFibers
