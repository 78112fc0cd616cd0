import EffectFibers.Proofs.FiberStep

/-!
# What a poll does where

`Fiber.Step` says what one loop can do, and `Reaction` what becomes of the posts around it.
A `Motion` is the same for berths, and says in addition what those rules leave open because it
is about more than one loop (`Deed`): which token is cancelled when a race is settled, which
operands a group has, and what a group has gathered.

## Main statements

* `Motion.reaction`: without the rooms a motion is a reaction.
-/

namespace EffectFibers

/-- Nothing beyond the loop's own: no race is begun or settled, and no group is about. -/
def Doing.plain : Doing → Doing → Bool
  | .gathering _, _ => false
  | _, .gathering _ | _, .racing _ | _, .settling .. => false
  | _, _ => true

def Fiber.plain (φ φ' : Fiber) : Bool := φ.doing.plain φ'.doing

theorem Doing.plain_racing (doing : Doing) (tokens : RaceTokens) :
    doing.plain (.racing tokens) = false := by
  cases doing <;> rfl

/-- What a step of a fiber means for the tokens of its operands, and where its outcome is from. -/
inductive Deed (s s' : Store) : Fiber → Fiber → Prop
  | plain {φ φ' : Fiber} (h : φ.plain φ' = true) : Deed s s' φ φ'
  | race {loop : Loop} {left right : Effect} {tokens : RaceTokens}
      (fresh : ∀ side, Within s.size s'.size (tokens.of side))
      (derived : ∀ side, s'.Derived loop.env.token (tokens.of side))
      (distinct : tokens.left ≠ tokens.right) :
      Deed s s' ⟨loop, .evaluating (.race left right)⟩ ⟨loop, .racing tokens⟩
  | settle {loop : Loop} {tokens : RaceTokens} {side : Side} {x : Exit}
      (cancelled : s'.tokens = s.tokens.cancel (tokens.of side.other)) :
      Deed s s' ⟨loop, .racing tokens⟩ ⟨loop, .settling side x⟩
  | gather {loop : Loop} {g g' : Group} {s₁ : Store}
      (gathered : Machine.gather g (Machine.endedOperands g s) s = (.ok g', s₁))
      (tokens : s'.tokens = s₁.tokens) (more : g'.pending ≠ []) :
      Deed s s' ⟨loop, .gathering g⟩ ⟨loop, .gathering g'⟩
  | gathered {loop : Loop} {g g' : Group} {s₁ : Store}
      (gathered : Machine.gather g (Machine.endedOperands g s) s = (.ok g', s₁))
      (tokens : s'.tokens = s₁.tokens) (none : g'.pending = []) :
      Deed s s' ⟨loop, .gathering g⟩ ⟨loop, .unwinding g'.exit⟩

variable {s s' : Store} {φ φ' : Fiber} {ms : List Event}

/-- A fiber that does a deed does not begin a group. -/
theorem Deed.single (deed : Deed s s' φ φ') (step : φ.Step s ms φ') : φ.fans = false := by
  cases deed with
  | race | settle | gather | gathered => rfl
  | plain h =>
    cases step with
    | fan => cases h
    | @refused loop effect point at_point cancelled =>
      cases effect with
      | parallel => cases at_point
      | _ => rfl
    | _ => rfl

/-! ## New loops -/

/-- A loop that was begun in a room of a loop: as an operand of the race that it begins, under a
token derived from its own, or in an acquisition or a release, under a token without a parent. -/
structure Berth.Newborn (s s' : Store) (φ' : Fiber) (b : Berth) : Prop where
  loop : ∃ env effect, b.piece = .fiber ⟨⟨env, []⟩, .evaluating effect⟩
  fresh : Within s.size s'.size b.token
  room : match b.room with
    | .operand q side => q = φ'.token ∧ s'.Derived q b.token ∧
        ∃ tokens, φ'.doing = .racing tokens ∧ tokens.of side = b.token
    | .apart q => q = φ'.token ∧ ∀ q, s'.Derived q b.token → s.Derived q b.token
    | .outer => False

theorem Berth.Newborn.post {b : Berth} (h : b.Newborn s s' φ') :
    b.post.Newborn s s' φ'.token := by
  obtain ⟨loop, fresh, room⟩ := h
  refine ⟨loop, fresh, ?_⟩
  obtain ⟨l, piece⟩ := b
  cases l with
  | outer => exact room
  | apart q => exact room.2
  | operand q side => exact ⟨room.1, room.1 ▸ room.2.1⟩

/-- If a race is begun, both operands are among the new loops. -/
def Fiber.Fields (φ' : Fiber) (nested : Multiset Berth) : Prop :=
  ∀ tokens, φ'.doing = .racing tokens → ∀ side, ∃ b ∈ nested,
    b.room = .operand φ'.token side ∧ b.token = tokens.of side

/-- The tasks of a group that was just begun: one for each operand, in order, under a token
derived from that of the group.  In a closed context each is aborted at once. -/
structure Group.Opened (s s' : Store) (env : Env) {n : Nat} (operands : Fin n → Effect) (g : Group)
    (new : List Spawn) : Prop where
  begun : g.Begun s s' env.token new
  blank : g = { token := g.token, pending := g.pending }
  indices : g.pending.map Prod.fst = List.range n
  tasks : ∀ x ∈ g.pending, s'.joined? x.2 = some .aborted ∨ ∃ t, s'.Derived g.token t ∧
    ⟨x.2, env.context, .segment (.start ⟨env.withToken t, []⟩ (Machine.operandAt operands x.1))⟩
      ∈ new

/-! ## Motions -/

/-- What a step of a poll does to its berths, with the marks it leaves and the tasks it starts. -/
inductive Motion (s s' : Store) :
    Multiset Berth → List Event → List Spawn → Multiset Berth → Prop
  | idle {B : Multiset Berth} : Motion s s' B [] [] B
  /-- One loop acts, and may begin others inside it. -/
  | act {l : Room} {φ φ' : Fiber} {ms : List Event} {nested : Multiset Berth} {new : List Spawn}
      {B : Multiset Berth} (step : φ.Step s ms φ') (deed : Deed s s' φ φ')
      (newborn : ∀ b ∈ nested, b.Newborn s s' φ') (distinct : (nested.map Berth.token).Nodup)
      (quiet : ∀ x ∈ new, x.segment? = none) (fields : φ'.Fields nested) :
      Motion s s' (⟨l, .fiber φ⟩ ::ₘ B) ms new (⟨l, .fiber φ'⟩ ::ₘ (nested + B))
  /-- One loop begins a parallel group. -/
  | fan {l : Room} {loop : Loop} {n : Nat} {operands : Fin n → Effect} {group : Group}
      {new : List Spawn} {B : Multiset Berth} (opened : group.Opened s s' loop.env operands new) :
      Motion s s' (loop.berth l (.evaluating (.parallel n operands)) ::ₘ B) [] new
        (loop.berth l (.gathering group) ::ₘ B)
  /-- One loop goes on in a task of another context, unless that is closed. -/
  | sent {l : Room} {loop : Loop} {context : Context} {B : Multiset Berth}
      (live : s.isCancelled loop.env.token = false)
      (refused : context.isOpen = false → s'.joined? s.joins.size = some .aborted) :
      Motion s s' (loop.berth l (.evaluating (.shift context)) ::ₘ B)
        [.entered loop.env.token .shift]
        (if context.isOpen then
          [⟨s.joins.size, context, .segment (.start
            { loop with env := loop.env.withContext context } Effect.unit)⟩] else [])
        (⟨l, .away loop.env s.joins.size⟩ ::ₘ B)
  /-- The task in which a loop went on has ended. -/
  | back {l : Room} {env : Env} {task : TaskId} {B : Multiset Berth}
      (ended : ∃ joined x, s.joined? task = some joined ∧ joined.exit = .ok x) :
      Motion s s' (⟨l, .away env task⟩ ::ₘ B) [] [] B
  /-- One loop ends. -/
  | left {l : Room} {env : Env} {x : Exit} {B : Multiset Berth} :
      Motion s s' (Loop.berth ⟨env, []⟩ l (.unwinding x) ::ₘ B) [.left env.token x] [] B

namespace Motion

variable {B B' : Multiset Berth} {new : List Spawn}

/-- Without the rooms a motion is a reaction. -/
theorem reaction (h : Motion s s' B ms new B') :
    Reaction s s' (B.map Berth.post) ms new (B'.map Berth.post) := by
  cases h with
  | idle => exact .idle
  | @act l φ φ' ms nested new B step deed newborn distinct quiet =>
    simp only [Multiset.map_cons, Multiset.map_add]
    refine .act step (deed.single step) (fun p mem => ?_) ?_ quiet
    · obtain ⟨b, inNested, rfl⟩ := Multiset.mem_map.mp mem
      exact step.token ▸ (newborn b inNested).post
    · rw [Multiset.map_map]
      exact distinct
  | fan opened =>
    simp only [Multiset.map_cons]
    exact .fan opened.begun
  | sent live refused =>
    simp only [Multiset.map_cons]
    exact .sent live refused
  | back ended =>
    simp only [Multiset.map_cons]
    obtain ⟨joined, x, result, -⟩ := ended
    exact .back (by simp [result])
  | left =>
    simp only [Multiset.map_cons]
    exact .left

/-- A loop that was sent away stays away until the task has ended. -/
theorem away (h : Motion s s' B ms new B') {l : Room} {env : Env} {u : TaskId}
    (inside : ⟨l, .away env u⟩ ∈ B) : ⟨l, .away env u⟩ ∈ B' ∨ s.joined? u ≠ none := by
  cases h with
  | idle => exact .inl inside
  | act | fan | sent | left =>
    obtain same | inside := Multiset.mem_cons.mp inside
    · cases same
    · simp [inside]
  | back ended =>
    obtain same | inside := Multiset.mem_cons.mp inside
    · cases same
      obtain ⟨joined, -, found, -⟩ := ended
      simp [found]
    · exact .inl inside

/-- A loop that is away was away before, or has just been sent: to a new task, or to a context
that is closed. -/
theorem sends (h : Motion s s' B ms new B') {l : Room} {env : Env} {u : TaskId}
    (inside : ⟨l, .away env u⟩ ∈ B') : ⟨l, .away env u⟩ ∈ B ∨ ∃ loop context,
      Loop.berth loop l (.evaluating (.shift context)) ∈ B ∧ env = loop.env ∧
        (context.isOpen = false ∧ s'.joined? u = some .aborted ∨
          ⟨u, context, .segment
            (.start { loop with env := loop.env.withContext context } Effect.unit)⟩ ∈ new) := by
  cases h with
  | idle => exact .inl inside
  | act step deed newborn =>
    obtain same | inside := Multiset.mem_cons.mp inside
    · cases same
    · obtain inside | inside := Multiset.mem_add.mp inside
      · obtain ⟨env, effect, piece⟩ := (newborn _ inside).loop
        cases piece
      · exact .inl (Multiset.mem_cons_of_mem inside)
  | fan =>
    obtain same | inside := Multiset.mem_cons.mp inside
    · cases same
    · exact .inl (Multiset.mem_cons_of_mem inside)
  | back | left => exact .inl (Multiset.mem_cons_of_mem inside)
  | @sent _ loop context _ live refused =>
    obtain same | inside := Multiset.mem_cons.mp inside
    · cases same
      refine .inr ⟨loop, context, Multiset.mem_cons_self _ _, rfl, ?_⟩
      cases state : context.isOpen with
      | false => exact .inl ⟨rfl, refused state⟩
      | true => exact .inr (List.mem_singleton_self _)
    · exact .inl (Multiset.mem_cons_of_mem inside)

end Motion

/-- What a step of a poll comes to. -/
inductive Motion.Turn (s s' : Store) (B : Multiset Berth) :
    Progress → List Event → List Spawn → Prop
  | next {c : Config} {ms : List Event} {new : List Spawn}
      (motion : Motion s s' B ms new c.berths) : Turn s s' B (.next c) ms new
  | ended {x : Exit} (none : B = 0) : Turn s s' B (.ended x) [] []
  | parked {segment : Segment} (same : B = segment.berths .outer) :
      Turn s s' B (.parked segment) [] []
  | faulted {f : Fault} {ms : List Event} {new : List Spawn} (quiet : ∀ x ∈ new, x.segment? = none)
      (marks : ms = [] ∨ ∃ l φ point, ⟨l, .fiber φ⟩ ∈ B ∧ φ.Enters s point ∧
        ms = [.entered φ.token point]) :
      Turn s s' B (.faulted f) ms new

/-- A step of a poll with all that it adds to the store. -/
def Moves (s : Store) (B : Multiset Berth) (r : Progress × Store) : Prop :=
  s.Grows r.2 ∧ ∃ es new, r.2.trace = es ++ s.trace ∧ r.2.spawned = new ++ s.spawned ∧
    Motion.Turn s r.2 B r.1 (es.filter Event.isMark) new

theorem Moves.reacts {B : Multiset Berth} {r : Progress × Store} (h : Moves s B r) :
    Reacts s (B.map Berth.post) r := by
  obtain ⟨grows, es, new, trace, spawned, came⟩ := h
  refine ⟨grows, es, new, trace, spawned, ?_⟩
  generalize r.1 = progress, es.filter Event.isMark = ms at came
  cases came with
  | next motion =>
    have reaction := motion.reaction
    rw [Config.map_berths] at reaction
    exact .next reaction
  | ended none => exact .ended (by rw [none, Multiset.map_zero])
  | parked same => exact .parked (by rw [same, Segment.map_berths]; rfl)
  | faulted quiet marks =>
    refine .faulted quiet (marks.imp_right ?_)
    rintro ⟨l, φ, point, mem, enters, same⟩
    exact ⟨l.link, φ, point, Multiset.mem_map_of_mem Berth.post mem, enters, same⟩

end EffectFibers
