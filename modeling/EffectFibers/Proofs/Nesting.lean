import EffectFibers.Proofs.Course
import EffectFibers.Proofs.Companies

/-!
# What stands inside of what

A `Seat` is a place in a run: a strand of the run, with the token of the loop that stands there.
A loop that was sent to another context leaves its seat taken, and has a second one in the task
in which it goes on.  A seat is around another one (`Runtime.Around`) when its loop has the other
in one of its rooms, or waits for the task of which the other is the outermost loop.

While a seat is taken the seats around it stay where they are, and their loops do nothing but
wait (`Runtime.Under.step`, `Runtime.Around.waits`).  A fiber moves only to a seat below its own.
So a fiber that runs inside of another one stays there until it has ended (`Runtime.Inside.steps`).

## Main statements

* `Runtime.Inside.steps`: what runs inside of a fiber stays inside of it for as long as it runs.
* `Runtime.Inside.waits`: what has something inside of it waits.
* `Runtime.Reachable.covered`: every fiber of a run is the run's own, or is inside of that.
-/

namespace EffectFibers

/-- A place in a run. -/
structure Seat where
  role : Strand.Role
  token : TokenId

/-! ## Waiting -/

/-- The loop waits for loops that run inside of it. -/
def Doing.waits : Doing → Bool
  | .acquiring .. | .releasing .. | .racing _ | .settling .. | .remaining _ | .gathering _ => true
  | .evaluating _ | .unwinding _ | .callback _ | .future _ => false

def Fiber.waits (φ : Fiber) : Bool := φ.doing.waits

theorem Fiber.Hosts.waits {φ : Fiber} {l : Room} (h : φ.Hosts l) : φ.waits = true := by
  cases h <;> rfl

/-- Nothing goes on in the loop itself, here. -/
def Piece.Waits : Piece → Prop
  | .fiber φ => φ.waits = true
  | .away .. => True

theorem Post.Ties.waits' {s : Store} {t : TaskId} {c : TokenId} {p : Post} (h : p.Ties s t c) :
    p.piece.Waits := by
  cases h with
  | away => trivial
  | gathering => rfl

/-! ## Where a berth comes from -/

/-- What stands in a place and what has stood there before.  A loop that waits does not leave, and
one that has left does not take its place again. -/
structure Berth.Follows (b b' : Berth) : Prop where
  room : b'.room = b.room
  token : b'.token = b.token
  fiber : ∀ φ', b'.piece = .fiber φ' → ∃ φ, b.piece = .fiber φ
  waits : ∀ φ, b.piece = .fiber φ → φ.waits = true → ∃ φ', b'.piece = .fiber φ'

theorem Berth.Follows.refl (b : Berth) : b.Follows b :=
  ⟨rfl, rfl, fun φ piece => ⟨φ, piece⟩, fun φ piece _ => ⟨φ, piece⟩⟩

/-- What stands somewhere has stood there before, or has just begun. -/
theorem Motion.berth_origin {s s' : Store} {B B' : Multiset Berth} {ms : List Event}
    {new : List Spawn} (h : Motion s s' B ms new B') {b' : Berth} (mem : b' ∈ B') :
    (∃ b ∈ B, b.Follows b') ∨ Within s.size s'.size b'.token := by
  have kept : ∀ {b : Berth} {B : Multiset Berth}, b' ∈ B →
      (∃ b₀ ∈ b ::ₘ B, b₀.Follows b') ∨ Within s.size s'.size b'.token :=
    fun mem => .inl ⟨b', Multiset.mem_cons_of_mem mem, .refl b'⟩
  cases h with
  | idle => exact .inl ⟨b', mem, .refl b'⟩
  | act step deed newborn =>
    obtain rfl | mem := Multiset.mem_cons.mp mem
    · exact .inl ⟨_, Multiset.mem_cons_self _ _, rfl, step.token, fun _ _ => ⟨_, rfl⟩,
        fun _ _ _ => ⟨_, rfl⟩⟩
    · obtain mem | mem := Multiset.mem_add.mp mem
      · exact .inr (newborn b' mem).fresh
      · exact kept mem
  | fan =>
    obtain rfl | mem := Multiset.mem_cons.mp mem
    · exact .inl ⟨_, Multiset.mem_cons_self _ _, rfl, rfl, fun _ _ => ⟨_, rfl⟩,
        fun _ _ _ => ⟨_, rfl⟩⟩
    · exact kept mem
  | sent =>
    obtain rfl | mem := Multiset.mem_cons.mp mem
    · refine .inl ⟨_, Multiset.mem_cons_self _ _, rfl, rfl, nofun, fun φ piece waits => ?_⟩
      cases piece
      cases waits
    · exact kept mem
  | back | left => exact kept mem

namespace Runtime

variable {σ σ' : Runtime} {run c : TokenId} {x y z : Seat} {b b' : Berth} {φ φ' : Fiber}

/-! ## One seat, one berth -/

/-- One strand of a run is its root, and each task is one strand. -/
theorem Reachable.unique_company (h : Reachable σ) {κ κ' : Company} (mem : κ ∈ σ.companies)
    (mem' : κ' ∈ σ.companies) (run : κ.run = κ'.run) (role : κ.role = κ'.role) : κ = κ' := by
  obtain ⟨τ, inStrands, rfl⟩ := Multiset.mem_map.mp mem
  obtain ⟨τ', inStrands', rfl⟩ := Multiset.mem_map.mp mem'
  have run : τ.run = τ'.run := run
  have role : τ.role = τ'.role := role
  refine congrArg Strand.company ?_
  cases own : τ.role with
  | root =>
    have distinct := h.kindred.roots
    rw [parties, Multiset.filterMap_map] at distinct
    have mark : Party.root? τ.party = some τ.run := by simp [Party.root?, Strand.party, own]
    have mark' : Party.root? τ'.party = some τ.run := by
      simp [Party.root?, Strand.party, ← role, own, run]
    exact unique_of_nodup_filterMap distinct inStrands inStrands' mark mark'
  | task t =>
    refine h.booked.unique inStrands inStrands' (t := t) ?_ ?_
    · simp [Strand.task?, own]
    · simp [Strand.task?, ← role, own]

/-- A berth is that of a seat of the run. -/
def Sits (σ : Runtime) (run : TokenId) (y : Seat) (b : Berth) : Prop :=
  ∃ B, ⟨run, y.role, B⟩ ∈ σ.companies ∧ b ∈ B ∧ b.token = y.token

theorem Sits.token (sits : σ.Sits run y b) : b.token = y.token := by
  obtain ⟨-, -, -, token⟩ := sits
  exact token

theorem Sits.unique (h : Reachable σ) (sits : σ.Sits run y b) (sits' : σ.Sits run y b') :
    b = b' := by
  obtain ⟨B, mem, inside, token⟩ := sits
  obtain ⟨B', mem', inside', token'⟩ := sits'
  cases h.unique_company mem mem' rfl rfl
  exact (h.orderly _ mem).unique inside inside' (token.trans token'.symm)

theorem Sits.lt (h : Reachable σ) (sits : σ.Sits run y b) : y.token < σ.store.size := by
  obtain ⟨B, mem, inside, token⟩ := sits
  exact token ▸ h.kindred.bound mem b inside

theorem Sits.crew (sits : σ.Sits run y b) (piece : b.piece = .fiber φ) : (run, φ) ∈ σ.crew := by
  obtain ⟨B, mem, inside, -⟩ := sits
  obtain ⟨l, _⟩ := b
  cases piece
  exact mem_crew_iff.mpr ⟨_, mem, rfl, l, inside⟩

theorem sits_of_mem_crew (mem : (run, φ) ∈ σ.crew) :
    ∃ role l, σ.Sits run ⟨role, φ.token⟩ ⟨l, .fiber φ⟩ := by
  obtain ⟨κ, inCompanies, rfl, l, inside⟩ := mem_crew_iff.mp mem
  exact ⟨κ.role, l, _, inCompanies, inside, rfl⟩

/-- A fiber is in one strand. -/
theorem Manned.strand (h : σ.Manned) {κ κ' : Company} {l l' : Room} (mem : κ ∈ σ.companies)
    (mem' : κ' ∈ σ.companies) (inside : ⟨l, .fiber φ⟩ ∈ κ.berths)
    (inside' : ⟨l', .fiber φ'⟩ ∈ κ'.berths) (token : φ.token = φ'.token) : κ = κ' := by
  have tokens : ∀ {κ : Company} {l : Room} {φ : Fiber}, ⟨l, .fiber φ⟩ ∈ κ.berths →
      φ.token ∈ badges κ.party.crew := fun {κ l φ} inside => by
    refine mem_badges.mpr ⟨(κ.run, φ), ?_, rfl⟩
    refine Multiset.mem_map_of_mem _ (Post.mem_fibers.mpr ⟨l.link, ?_⟩)
    exact Multiset.mem_map_of_mem Berth.post inside
  obtain ⟨others, split⟩ := Multiset.exists_cons_of_mem mem
  rw [split] at mem'
  refine ((Multiset.mem_cons.mp mem').resolve_right fun inOthers => ?_).symm
  have crew : σ.crew = κ.party.crew + (others.map Company.party).bind Party.crew := by
    rw [Runtime.crew, ← map_companies, split, Multiset.map_cons, Multiset.cons_bind]
  have distinct := h.distinct
  rw [crew, badges_add] at distinct
  refine Multiset.disjoint_left.mp (Multiset.nodup_add.mp distinct).2.2 (tokens inside) ?_
  obtain ⟨m, inCrew, badge⟩ := mem_badges.mp (tokens inside')
  refine mem_badges.mpr ⟨m, ?_, badge.trans token.symm⟩
  exact Multiset.mem_bind.mpr ⟨_, Multiset.mem_map_of_mem Company.party inOthers, inCrew⟩

/-- What sits in a seat after a step follows what has sat there before. -/
theorem Step.follows (h : Reachable σ) (step : Step σ σ') (sits : σ.Sits run y b)
    (sits' : σ'.Sits run y b') : b.Follows b' := by
  obtain ⟨B, mem, inside, token⟩ := sits
  obtain ⟨B', mem', inside', token'⟩ := sits'
  have known : b.token < σ.store.size := h.kindred.bound mem b inside
  have same : ∀ {B₀ : Multiset Berth} {b₀ : Berth}, ⟨run, y.role, B₀⟩ ∈ σ.companies → b₀ ∈ B₀ →
      b'.token = b₀.token → b₀ = b := fun mem₀ inside₀ token₀ =>
    Sits.unique h ⟨_, mem₀, inside₀, token₀.symm.trans token'⟩ ⟨B, mem, inside, token⟩
  generalize role : y.role = r at mem mem' same
  cases step.advance.origin mem' with
  | old mem₀ =>
    cases same mem₀ inside' rfl
    exact .refl b
  | acted acting motion =>
    obtain ⟨b₀, inside₀, follows⟩ | fresh := motion.berth_origin inside'
    · cases same acting inside₀ follows.token
      exact follows
    · rw [token', ← token] at fresh
      exact (Nat.not_lt.mpr fresh.le known).elim
  | @started _ _ _ _ _ _ x acting acted motion started part fresh =>
    obtain ⟨τ, inStrands, own⟩ := Multiset.mem_map.mp mem
    have role : τ.role = .task x.task := congrArg Company.role own
    have task : τ.task? = some x.task := by simp [Strand.task?, role]
    exact (Nat.not_lt.mpr fresh.le (h.booked.known τ inStrands _ task)).elim
  | lost => cases inside'
  | begun fresh =>
    have old := h.kindred.runs _ (mem_parties.mpr ⟨_, mem, rfl⟩)
    exact (Nat.not_lt.mpr fresh.le old).elim

/-! ## Around a seat -/

/-- The first seat is around the second one: what sits in the second one stands in a room of the
loop of the first, or is the outermost loop of a task that the loop of the first waits for. -/
inductive Around (σ : Runtime) (run : TokenId) : Seat → Seat → Prop
  | room {role : Strand.Role} {B : Multiset Berth} {b : Berth} {q : TokenId}
      (mem : ⟨run, role, B⟩ ∈ σ.companies) (inside : b ∈ B) (around : b.room.around? = some q) :
      Around σ run ⟨role, q⟩ ⟨role, b.token⟩
  | task {role : Strand.Role} {B B' : Multiset Berth} {b₀ b : Berth} {t : TaskId}
      (mem₀ : ⟨run, role, B⟩ ∈ σ.companies) (inside₀ : b₀ ∈ B)
      (tied : b₀.post.Ties σ.store t b.token) (mem : ⟨run, .task t, B'⟩ ∈ σ.companies)
      (inside : b ∈ B') (outer : b.room = .outer) :
      Around σ run ⟨role, b₀.token⟩ ⟨.task t, b.token⟩

/-- A seat that is around another one is taken by a loop that waits; it is a fiber if the token
is another. -/
theorem Around.host (around : σ.Around run y x) :
    ∃ b, σ.Sits run y b ∧ b.piece.Waits ∧
      ((∃ φ, b.piece = .fiber φ) ∨ y.token = x.token) := by
  cases around with
  | @room role B b q mem inside around =>
    obtain outer | ⟨b₀, inside₀, φ, piece, hosts⟩ := (nest_company mem).inside b inside
    · simp [outer, Room.around?] at around
    · obtain ⟨l, _⟩ := b₀
      cases piece
      have token : φ.token = q := Option.some.inj (hosts.around.symm.trans around)
      exact ⟨_, ⟨B, mem, inside₀, token⟩, hosts.waits, .inl ⟨φ, rfl⟩⟩
  | @task role B B' b₀ b t mem₀ inside₀ tied mem inside outer =>
    refine ⟨b₀, ⟨B, mem₀, inside₀, rfl⟩, tied.waits', ?_⟩
    obtain ⟨l, piece⟩ := b₀
    cases tied with
    | away same => exact .inr same
    | gathering => exact .inl ⟨_, rfl⟩

/-- What sits around another seat waits. -/
theorem Around.waits (h : Reachable σ) (around : σ.Around run y x) (sits : σ.Sits run y b) :
    b.piece.Waits := by
  obtain ⟨b₀, sits₀, waits, -⟩ := around.host
  exact sits.unique h sits₀ ▸ waits

/-- Whoever waits for a task that has not ended goes on to wait for it, where it is. -/
theorem Step.keeps_seat (h : Reachable σ) (step : Step σ σ') (whole : ¬ σ'.Failed run)
    {role : Strand.Role} {B : Multiset Berth} {t : TaskId} (mem : ⟨run, role, B⟩ ∈ σ.companies)
    (inside : b ∈ B) (tied : b.post.Ties σ.store t c) (unsettled : σ.store.joined? t = none) :
    ∃ B' b', ⟨run, role, B'⟩ ∈ σ'.companies ∧ b' ∈ B' ∧ b'.token = b.token ∧
      b'.post.Ties σ'.store t c := by
  have inParties := mem_parties.mpr ⟨_, mem, rfl⟩
  have post : b.post ∈ Party.posts (Company.party ⟨run, role, B⟩) :=
    Multiset.mem_map_of_mem Berth.post inside
  have found : ∀ {π : Party} {p : Post}, π ∈ σ'.parties → π.run = run → π.role = role →
      p ∈ π.posts → p.token = b.token → p.Ties σ'.store t c →
      ∃ B' b', ⟨run, role, B'⟩ ∈ σ'.companies ∧ b' ∈ B' ∧ b'.token = b.token ∧
        b'.post.Ties σ'.store t c := by
    rintro π p inParties' rfl rfl inPosts token tied
    obtain ⟨κ, inCompanies, rfl⟩ := mem_parties.mp inParties'
    obtain ⟨b', inside', rfl⟩ := Multiset.mem_map.mp inPosts
    exact ⟨κ.berths, b', inCompanies, inside', token, tied⟩
  obtain stays | ⟨ms, new, P', reaction, acted⟩ | failed := step.turnover.fate inParties
  · exact found stays rfl rfl post rfl (tied.mono step.ages)
  · obtain ⟨p', inPosts, token, tied'⟩ :=
      reaction.ties step.ages (h.kindred.linked _ inParties) post tied unsettled
    exact found acted rfl rfl inPosts token tied'
  · exact (whole failed).elim

/-- While a seat is taken, what is around it is. -/
theorem Around.step (h : Reachable σ) (step : Step σ σ') (whole : ¬ σ'.Failed run)
    (around : σ.Around run y x) (sits' : σ'.Sits run x b') : σ'.Around run y x := by
  cases around with
  | @room role B b q mem inside around =>
    have room := (step.follows h ⟨B, mem, inside, rfl⟩ sits').room
    obtain ⟨B', mem', inside', token⟩ := sits'
    have around' := Around.room mem' inside' (room ▸ around)
    rwa [token] at around'
  | @task role B B' b₀ b t mem₀ inside₀ tied mem inside outer =>
    have room := (step.follows h ⟨B', mem, inside, rfl⟩ sits').room
    obtain ⟨B₁, mem', inside', token⟩ := sits'
    have token : b'.token = b.token := token
    have alive : (Company.party ⟨run, .task t, B'⟩).posts ≠ 0 := fun none => by
      have some : b.post ∈ (Company.party ⟨run, .task t, B'⟩).posts :=
        Multiset.mem_map_of_mem Berth.post inside
      simp [none] at some
    have unsettled := (h.booked.party (mem_parties.mpr ⟨_, mem, rfl⟩) rfl).2 alive
    obtain ⟨B₂, b₁, mem₁, inside₁, token₁, tied'⟩ :=
      step.keeps_seat h whole mem₀ inside₀ tied unsettled
    have around' := Around.task mem₁ inside₁ (token ▸ tied') mem' inside' (room.trans outer)
    rwa [token, token₁] at around'

/-- The first seat is around the second one, or around one that is. -/
abbrev Under (σ : Runtime) (run : TokenId) : Seat → Seat → Prop := Relation.TransGen (σ.Around run)

/-- While a seat is taken it stays under the seats that it is under. -/
theorem Under.step (h : Reachable σ) (step : Step σ σ') (whole : ¬ σ'.Failed run)
    (under : σ.Under run y x) (sits' : σ'.Sits run x b') : σ'.Under run y x := by
  induction under generalizing b' with
  | single around => exact .single (around.step h step whole sits')
  | tail under around ih =>
    have around' := around.step h step whole sits'
    obtain ⟨b₁, sits₁, -⟩ := around'.host
    exact .tail (ih sits₁) around'

/-! ## Inside of a fiber -/

/-- A fiber is in the seat itself. -/
def Present (σ : Runtime) (run : TokenId) (y : Seat) : Prop := ∃ l φ, σ.Sits run y ⟨l, .fiber φ⟩

/-- A fiber stays in its seat in a step, or goes to one inside of it. -/
theorem Step.moves_seat (h : Reachable σ) (step : Step σ σ') {x' : Seat}
    (present : σ.Present run x) (present' : σ'.Present run x') (token : x'.token = x.token) :
    x' = x ∨ σ'.Around run x x' := by
  obtain ⟨l, φ, sits⟩ := present
  obtain ⟨l', φ', B', mem', inside', token'⟩ := present'
  have known : x'.token < σ.store.size := token ▸ sits.lt h
  have home : ∀ {role : Strand.Role} {B₀ : Multiset Berth} {b₀ : Berth} {φ₀ : Fiber},
      ⟨run, role, B₀⟩ ∈ σ.companies → b₀ ∈ B₀ → b₀.piece = .fiber φ₀ → b₀.token = x'.token →
      role = x.role := fun {role B₀ b₀ φ₀} mem₀ inside₀ piece token₀ => by
    obtain ⟨B, mem, inside, own⟩ := sits
    obtain ⟨l₀, _⟩ := b₀
    cases piece
    have same : φ₀.token = φ.token := token₀.trans (token.trans own.symm)
    exact congrArg Company.role (h.manned.strand mem₀ mem inside₀ inside same)
  have stays : x'.role = x.role → x' = x := fun role => by
    obtain ⟨role', t'⟩ := x'
    obtain ⟨role₀, t⟩ := x
    cases role
    cases token
    rfl
  generalize role : x'.role = r at mem' home stays
  cases step.advance.origin mem' with
  | old mem₀ => exact .inl (stays (home mem₀ inside' rfl token'))
  | acted acting motion =>
    obtain ⟨b₀, inside₀, follows⟩ | fresh := motion.berth_origin inside'
    · obtain ⟨φ₀, piece⟩ := follows.fiber φ' rfl
      exact .inl (stays (home acting inside₀ piece (follows.token.symm.trans token')))
    · rw [token'] at fresh
      exact (Nat.not_lt.mpr fresh.le known).elim
  | @started _ _ _ _ _ _ u acting acted motion started part =>
    obtain ⟨loop, effect, berths, fresh | ⟨l₀, loop₀, context, mem₀, same, left⟩⟩ :=
      motion.starting started part
    all_goals
      have outer := inside'
      rw [berths] at outer
      cases Multiset.mem_singleton.mp outer
    · rw [show loop.env.token = x'.token from token'] at fresh
      exact (Nat.not_lt.mpr fresh.le known).elim
    · cases home acting mem₀ rfl (same.symm.trans token')
      have tied : Post.Ties σ'.store u.task loop.env.token
        (Berth.post ⟨l₀, .away loop₀.env u.task⟩) := .away same.symm
      have around := Around.task acted left tied mem' inside' rfl
      obtain ⟨role', t'⟩ := x'
      obtain ⟨role₀, t⟩ := x
      cases role
      cases token
      cases token'
      rw [show Berth.token ⟨l₀, .away loop₀.env u.task⟩ = loop.env.token from same.symm] at around
      exact .inr around
  | lost => cases inside'
  | begun fresh =>
    cases Multiset.mem_singleton.mp inside'
    rw [← token'] at known
    exact (Nat.not_lt.mpr fresh.le known).elim

/-- A fiber runs inside of another one: in a race, a group, an acquisition or a release of it, at
any depth. -/
def Inside (σ : Runtime) (run t c : TokenId) : Prop :=
  ∃ y x, y.token = t ∧ x.token = c ∧ σ.Present run y ∧ σ.Present run x ∧ σ.Under run y x

variable {t : TokenId}

/-- What has something inside of it waits. -/
theorem Inside.waits (h : Reachable σ) (inside : σ.Inside run t c) :
    ∃ φ, (run, φ) ∈ σ.crew ∧ φ.token = t ∧ φ.waits = true := by
  obtain ⟨y, x, rfl, rfl, ⟨l, φ, sits⟩, -, under⟩ := inside
  obtain ⟨z, around, -⟩ := Relation.TransGen.head'_iff.mp under
  exact ⟨φ, sits.crew rfl, sits.token, around.waits h sits⟩

/-- What runs inside of a fiber stays inside of it, or ends. -/
theorem Inside.step (h : Reachable σ) (step : Step σ σ') (whole : ¬ σ'.Failed run)
    (inside : σ.Inside run t c) (lives : c ∈ badges σ'.crew) : σ'.Inside run t c := by
  obtain ⟨y, x, rfl, rfl, present, ⟨l, φ, sits⟩, under⟩ := inside
  obtain ⟨x', present', token⟩ : ∃ x', σ'.Present run x' ∧ x'.token = x.token := by
    obtain ⟨⟨run', φ'⟩, inCrew', token'⟩ := mem_badges.mp lives
    obtain ⟨n, inCrew, rfl, token⟩ | fresh := step.move.member inCrew'
    · have own : φ.token = x.token := sits.token
      cases h.manned.unique inCrew (sits.crew rfl) (token.trans (token'.trans own.symm))
      obtain ⟨role, l', sits'⟩ := sits_of_mem_crew inCrew'
      exact ⟨_, ⟨l', φ', sits'⟩, token'⟩
    · exact (Nat.not_lt.mpr (token' ▸ fresh) (sits.lt h)).elim
  -- The seat that the fiber had is still taken, perhaps by what it has left behind.
  obtain ⟨b', sits', moves⟩ : ∃ b', σ'.Sits run x b' ∧ (x' = x ∨ σ'.Around run x x') := by
    obtain rfl | around := step.moves_seat h ⟨l, φ, sits⟩ present' token
    · obtain ⟨l', φ', sits'⟩ := present'
      exact ⟨_, sits', .inl rfl⟩
    · obtain ⟨b', sits', -⟩ := around.host
      exact ⟨b', sits', .inr around⟩
  have under' : σ'.Under run y x' := by
    have kept := under.step h step whole sits'
    obtain rfl | around := moves
    · exact kept
    · exact .tail kept around
  refine ⟨y, x', rfl, token, ?_, present', under'⟩
  obtain ⟨l₀, φ₀, sits₀⟩ := present
  obtain ⟨z, around, -⟩ := Relation.TransGen.head'_iff.mp under
  obtain ⟨z', around', -⟩ := Relation.TransGen.head'_iff.mp under'
  obtain ⟨⟨l₁, piece⟩, sits₁, -⟩ := around'.host
  obtain ⟨φ₁, rfl⟩ := (step.follows h sits₀ sits₁).waits φ₀ rfl (around.waits h sits₀)
  exact ⟨l₁, φ₁, sits₁⟩

theorem Inside.steps (h : Reachable σ) (steps : Steps σ σ') (whole : ¬ σ'.Failed run)
    (inside : σ.Inside run t c) (lives : c ∈ badges σ'.crew) : σ'.Inside run t c := by
  have known : c < σ.store.size := by
    obtain ⟨y, x, rfl, rfl, -, ⟨l, φ, sits⟩, -⟩ := inside
    exact sits.lt h
  induction steps with
  | refl => exact inside
  | @tail σ₁ σ₂ steps step ih =>
    have before := ih fun failed => whole (step.failure failed)
    refine Inside.step (.trans h steps) step whole (before ?_) lives
    by_contra gone
    exact (step.move.gone (Nat.lt_of_lt_of_le known (Steps.ages steps).size) gone).1 lives

/-! ## Every fiber of a run -/

/-- A seat is that of the run's own fiber, or is under one. -/
def Covered (σ : Runtime) (run : TokenId) (x : Seat) : Prop :=
  x.token = run ∨ ∃ y, y.token = run ∧ σ.Present run y ∧ σ.Under run y x

theorem Around.covered (around : σ.Around run y x) (covered : σ.Covered run y) :
    σ.Covered run x := by
  obtain own | ⟨z, own, present, under⟩ := covered
  · obtain ⟨⟨l, piece⟩, sits, -, ⟨φ, rfl⟩ | same⟩ := around.host
    · exact .inr ⟨y, own, ⟨l, φ, sits⟩, .single around⟩
    · exact .inl (same.symm.trans own)
  · exact .inr ⟨z, own, present, .tail under around⟩

/-- By induction on the age of the strand, and in one strand on the loop around. -/
theorem Reachable.covered (h : Reachable σ) (whole : ¬ σ.Failed run) (sits : σ.Sits run x b) :
    σ.Covered run x := by
  obtain ⟨role, token⟩ := x
  obtain ⟨B, mem, inside, rfl⟩ := sits
  generalize rank : (Company.party ⟨run, role, B⟩).rank = n
  induction n using Nat.strongRecOn generalizing role B b with
  | ind n older =>
    generalize age : b.token = k
    induction k using Nat.strongRecOn generalizing b with
    | ind k outer =>
      subst age
      obtain room | ⟨b₀, inside₀, φ, piece, hosts⟩ := (nest_company mem).inside b inside
      · have inParties := mem_parties.mpr ⟨_, mem, rfl⟩
        have post : b.post ∈ Party.posts (Company.party ⟨run, role, B⟩) :=
          Multiset.mem_map_of_mem Berth.post inside
        have link : b.post.link = .outer := by rw [Berth.post, room]; rfl
        cases role with
        | root => exact .inl (h.kindred.root _ inParties rfl _ post link)
        | task t =>
          obtain ⟨π, inParties', own, lt, p, inPosts, tied⟩ | failed :=
            h.kindred.older inParties rfl post link
          · obtain ⟨κ, inCompanies, rfl⟩ := mem_parties.mp inParties'
            obtain ⟨b₀, inside₀, rfl⟩ := Multiset.mem_map.mp inPosts
            obtain ⟨run', role', B'⟩ := κ
            obtain rfl : run' = run := own
            have around := Around.task inCompanies inside₀ tied mem inside room
            exact around.covered (older _ (rank ▸ lt) _ _ inside₀ inCompanies rfl)
          · exact (whole failed).elim
      · have token : b₀.token = φ.token := by
          obtain ⟨l, _⟩ := b₀
          cases piece
          rfl
        have young := (h.orderly _ mem).young b inside _ hosts.around
        rw [← token] at young
        have around := Around.room mem inside hosts.around
        rw [← token] at around
        exact around.covered (outer b₀.token young inside₀ mem rfl)

end Runtime

end EffectFibers
