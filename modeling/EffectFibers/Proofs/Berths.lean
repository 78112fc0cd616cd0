import EffectFibers.Proofs.Fibers

/-!
# Where the loops of a poll stand

A `Post` forgets which loop is around an acquisition or a release, and which side of its race an
operand is on.  A `Berth` is a post that still knows: its `Room` names the loop around it by its
token.  In the nest of one segment, or of one poll, a room is always inside a loop that is busy
with what runs there (`Fiber.Hosts`, `Berth.Nest`).

## Main statements

* `Segment.map_berths`, `Config.map_berths`: without the rooms the berths are the posts.
* `Segment.nest`, `Config.nest`: every room but the outermost is inside a loop of the nest.
* `Segment.raced`, `Config.raced`: a race that is not decided has an operand left.
-/

namespace EffectFibers

/-- Where a loop stands in its task. -/
inductive Room where
  | outer
  /-- In an acquisition or a release of the loop with a token. -/
  | apart (of : TokenId)
  /-- On a side of a race of the loop with a token. -/
  | operand (of : TokenId) (side : Side)
deriving DecidableEq

namespace Room

def link : Room → Link
  | .outer => .outer
  | .apart _ => .apart
  | .operand q _ => .operand q

/-- The token of the loop around the room. -/
def around? : Room → Option TokenId
  | .outer => none
  | .apart q | .operand q _ => some q

end Room

structure Berth where
  room : Room
  piece : Piece

namespace Berth

def post (b : Berth) : Post := ⟨b.room.link, b.piece⟩

def token (b : Berth) : TokenId := b.post.token

end Berth

/-- The berth of a loop. -/
def Loop.berth (loop : Loop) (room : Room) (doing : Doing) : Berth :=
  ⟨room, .fiber ⟨loop, doing⟩⟩

@[simp] theorem Loop.token_berth (loop : Loop) (room : Room) (doing : Doing) :
    (loop.berth room doing).token = loop.env.token := rfl

/-- The room inside a loop that its race has for a side. -/
def Loop.side (loop : Loop) (side : Side) : Room := .operand loop.env.token side

/-- The room inside a loop for an acquisition or a release. -/
def Loop.inside (loop : Loop) : Room := .apart loop.env.token

@[simp] theorem Loop.link_side (loop : Loop) (side : Side) :
    (loop.side side).link = loop.below := rfl

@[simp] theorem Loop.link_inside (loop : Loop) : loop.inside.link = .apart := rfl

/-! ## Spreading out -/

def Segment.berths : Segment → Room → Multiset Berth
  | .start loop effect, l => {loop.berth l (.evaluating effect)}
  | .callback loop slot, l => {loop.berth l (.callback slot)}
  | .future loop wait, l => {loop.berth l (.future wait)}
  | .shifted env task, l => {⟨l, .away env task⟩}
  | .acquiring loop use release inner, l =>
    loop.berth l (.acquiring use release) ::ₘ inner.berths loop.inside
  | .releasing loop bracket outcome inner, l =>
    loop.berth l (.releasing bracket outcome) ::ₘ inner.berths loop.inside
  | .racing loop tokens left right, l =>
    loop.berth l (.racing tokens)
      ::ₘ (left.berths (loop.side .left) + right.berths (loop.side .right))
  | .settling loop winner exit loser, l =>
    loop.berth l (.settling winner exit) ::ₘ loser.berths (loop.side winner.other)
  | .remaining loop side operand, l =>
    loop.berth l (.remaining side) ::ₘ operand.berths (loop.side side)
  | .gathering loop group, l => {loop.berth l (.gathering group)}

namespace Caller

/-- Where the loop in control of a caller stands. -/
def room : Caller → Room
  | .acquiring loop .. | .releasing loop .. => loop.inside
  | .racingLeft loop .. => loop.side .left
  | .racingRight loop .. => loop.side .right
  | .settling loop winner _ => loop.side winner.other
  | .remaining loop side => loop.side side

def berths : Caller → Room → Multiset Berth
  | .acquiring loop use release, l => {loop.berth l (.acquiring use release)}
  | .releasing loop bracket outcome, l => {loop.berth l (.releasing bracket outcome)}
  | .racingLeft loop tokens right, l =>
    loop.berth l (.racing tokens) ::ₘ right.berths (loop.side .right)
  | .racingRight loop tokens left, l =>
    loop.berth l (.racing tokens) ::ₘ left.berths (loop.side .left)
  | .settling loop winner exit, l => {loop.berth l (.settling winner exit)}
  | .remaining loop side, l => {loop.berth l (.remaining side)}

/-- Where the loop in control of a poll stands. -/
def innerRoom : List Caller → Room
  | [] => .outer
  | caller :: _ => caller.room

def allBerths : List Caller → Multiset Berth
  | [] => 0
  | caller :: callers => caller.berths (innerRoom callers) + allBerths callers

@[simp] theorem innerRoom_nil : innerRoom [] = .outer := rfl
@[simp] theorem innerRoom_cons (c : Caller) (cs : List Caller) : innerRoom (c :: cs) = c.room := rfl
@[simp] theorem allBerths_nil : allBerths [] = 0 := rfl
@[simp] theorem allBerths_cons (c : Caller) (cs : List Caller) :
    allBerths (c :: cs) = c.berths (innerRoom cs) + allBerths cs := rfl

end Caller

def Focus.berths : Focus → Room → Multiset Berth
  | .eval loop effect, l => {loop.berth l (.evaluating effect)}
  | .unwind loop exit, l => {loop.berth l (.unwinding exit)}
  | .leave _, _ => 0
  | .resume segment, l | .park segment, l => segment.berths l

namespace Config

def berths (c : Config) : Multiset Berth :=
  c.focus.berths (Caller.innerRoom c.callers) + Caller.allBerths c.callers

variable (loop : Loop) (callers : List Caller)

@[simp] theorem berths_eval (effect : Effect) : berths ⟨.eval loop effect, callers⟩
    = loop.berth (Caller.innerRoom callers) (.evaluating effect) ::ₘ Caller.allBerths callers := rfl

@[simp] theorem berths_unwind (exit : Exit) : berths ⟨.unwind loop exit, callers⟩
    = loop.berth (Caller.innerRoom callers) (.unwinding exit) ::ₘ Caller.allBerths callers := rfl

@[simp] theorem berths_leave (exit : Exit) :
    berths ⟨.leave exit, callers⟩ = Caller.allBerths callers := by
  simp [berths, Focus.berths]

@[simp] theorem berths_resume (segment : Segment) : berths ⟨.resume segment, callers⟩
    = segment.berths (Caller.innerRoom callers) + Caller.allBerths callers := rfl

@[simp] theorem berths_park (segment : Segment) : berths ⟨.park segment, callers⟩
    = segment.berths (Caller.innerRoom callers) + Caller.allBerths callers := rfl

end Config

/-! ## The posts -/

theorem Segment.map_berths (segment : Segment) (l : Room) :
    (segment.berths l).map Berth.post = segment.posts l.link := by
  induction segment generalizing l with
  | start | callback | future | shifted | gathering => rfl
  | acquiring loop use release inner ih | releasing loop bracket outcome inner ih
  | settling loop winner exit inner ih | remaining loop side inner ih =>
    simp [berths, posts, ih, Berth.post, Loop.berth, Loop.at]
  | racing loop tokens left right ihl ihr =>
    simp [berths, posts, ihl, ihr, Berth.post, Loop.berth, Loop.at]

theorem Caller.map_berths (caller : Caller) (l : Room) :
    (caller.berths l).map Berth.post = caller.posts l.link := by
  cases caller with
  | acquiring | releasing | settling | remaining => rfl
  | racingLeft | racingRight =>
    simp [berths, posts, Segment.map_berths, Berth.post, Loop.berth, Loop.at]

theorem Caller.link_innerRoom (callers : List Caller) :
    (innerRoom callers).link = innermost callers := by
  cases callers with
  | nil => rfl
  | cons caller callers => cases caller <;> rfl

theorem Caller.map_allBerths (callers : List Caller) :
    (allBerths callers).map Berth.post = allPosts callers := by
  induction callers with
  | nil => rfl
  | cons caller callers ih => simp [ih, caller.map_berths, link_innerRoom]

theorem Focus.map_berths (focus : Focus) (l : Room) :
    (focus.berths l).map Berth.post = focus.posts l.link := by
  cases focus with
  | eval | unwind | leave => rfl
  | resume segment | park segment => exact segment.map_berths l

theorem Config.map_berths (c : Config) : c.berths.map Berth.post = c.posts := by
  simp [berths, posts, Focus.map_berths, Caller.map_allBerths, Caller.link_innerRoom]

/-! ## The nest -/

/-- The loop is busy with what runs in a room inside it. -/
inductive Fiber.Hosts : Fiber → Room → Prop
  | acquiring {loop use release} : Hosts ⟨loop, .acquiring use release⟩ (.apart loop.env.token)
  | releasing {loop bracket outcome} :
      Hosts ⟨loop, .releasing bracket outcome⟩ (.apart loop.env.token)
  | racing {loop tokens} (side : Side) :
      Hosts ⟨loop, .racing tokens⟩ (.operand loop.env.token side)
  | settling {loop winner x} :
      Hosts ⟨loop, .settling winner x⟩ (.operand loop.env.token winner.other)
  | remaining {loop side} : Hosts ⟨loop, .remaining side⟩ (.operand loop.env.token side)

theorem Fiber.Hosts.around {φ : Fiber} {l : Room} (h : φ.Hosts l) : l.around? = some φ.token := by
  cases h <;> rfl

/-- Some loop of the bag hosts the room. -/
def Room.Inside (B : Multiset Berth) (l : Room) : Prop :=
  ∃ b ∈ B, ∃ φ, b.piece = .fiber φ ∧ φ.Hosts l

theorem Room.Inside.mono {B B' : Multiset Berth} {l : Room} (h : l.Inside B) (sub : B ⊆ B') :
    l.Inside B' := by
  obtain ⟨b, mem, hosts⟩ := h
  exact ⟨b, sub mem, hosts⟩

/-- In a nest every room but the outermost is inside some loop, and some loop is outermost. -/
structure Berth.Nest (B : Multiset Berth) : Prop where
  inside : ∀ b ∈ B, b.room = .outer ∨ b.room.Inside B
  outer : B ≠ 0 → ∃ b ∈ B, b.room = .outer

section

variable {B : Multiset Berth} {b : Berth} {l : Room} {loop : Loop} {doing : Doing}

theorem Loop.inside_of_hosts {room : Room} (hosts : Fiber.Hosts ⟨loop, doing⟩ room) :
    room.Inside (loop.berth l doing ::ₘ B) :=
  ⟨_, Multiset.mem_cons_self _ _, _, rfl, hosts⟩

theorem Segment.exists_room (segment : Segment) (l : Room) :
    ∃ b ∈ segment.berths l, b.room = l := by
  cases segment with
  | start | callback | future | shifted | gathering => exact ⟨_, Multiset.mem_singleton_self _, rfl⟩
  | acquiring | releasing | racing | settling | remaining =>
    exact ⟨_, Multiset.mem_cons_self _ _, rfl⟩

/-- The part of a nest that stands in one room of a loop. -/
theorem Room.inside_of_room {room : Room} {inner : Multiset Berth}
    (hosts : Fiber.Hosts ⟨loop, doing⟩ room) (sub : inner ⊆ B)
    (ih : b.room = room ∨ b.room.Inside inner) : b.room.Inside (loop.berth l doing ::ₘ B) := by
  obtain same | inside := ih
  · exact same ▸ Loop.inside_of_hosts hosts
  · exact (inside.mono sub).mono (Multiset.subset_cons _ _)

/-- Only the head of a segment can have its room outside. -/
theorem Segment.inside (segment : Segment) (l : Room) (mem : b ∈ segment.berths l) :
    b.room = l ∨ b.room.Inside (segment.berths l) := by
  have all {inner : Multiset Berth} : inner ⊆ inner := Multiset.Subset.refl _
  induction segment generalizing l with
  | start | callback | future | shifted | gathering =>
    exact .inl (Multiset.mem_singleton.mp mem ▸ rfl)
  | acquiring loop use release inner ih =>
    obtain rfl | mem := Multiset.mem_cons.mp mem
    · exact .inl rfl
    · exact .inr (Room.inside_of_room .acquiring all (ih _ mem))
  | releasing loop bracket outcome inner ih =>
    obtain rfl | mem := Multiset.mem_cons.mp mem
    · exact .inl rfl
    · exact .inr (Room.inside_of_room .releasing all (ih _ mem))
  | racing loop tokens left right ihl ihr =>
    obtain rfl | mem := Multiset.mem_cons.mp mem
    · exact .inl rfl
    · obtain mem | mem := Multiset.mem_add.mp mem
      · exact .inr (Room.inside_of_room (.racing .left)
          (Multiset.subset_of_le (Multiset.le_add_right _ _)) (ihl _ mem))
      · exact .inr (Room.inside_of_room (.racing .right)
          (Multiset.subset_of_le (Multiset.le_add_left _ _)) (ihr _ mem))
  | settling loop winner exit inner ih =>
    obtain rfl | mem := Multiset.mem_cons.mp mem
    · exact .inl rfl
    · exact .inr (Room.inside_of_room .settling all (ih _ mem))
  | remaining loop side inner ih =>
    obtain rfl | mem := Multiset.mem_cons.mp mem
    · exact .inl rfl
    · exact .inr (Room.inside_of_room .remaining all (ih _ mem))

/-- Only the loop of a caller itself can have its room further out. -/
theorem Caller.inside (caller : Caller) (l : Room) (mem : b ∈ caller.berths l) :
    b.room = l ∨ b.room.Inside (caller.berths l) := by
  cases caller with
  | acquiring | releasing | settling | remaining =>
    exact .inl (Multiset.mem_singleton.mp mem ▸ rfl)
  | racingLeft loop tokens other | racingRight loop tokens other =>
    obtain rfl | mem := Multiset.mem_cons.mp mem
    · exact .inl rfl
    · exact .inr (Room.inside_of_room (.racing _) (Multiset.Subset.refl _) (other.inside _ mem))

/-- The room of a caller is inside its loop. -/
theorem Caller.inside_room (caller : Caller) (l : Room) : caller.room.Inside (caller.berths l) := by
  cases caller with
  | acquiring => exact ⟨_, Multiset.mem_singleton_self _, _, rfl, .acquiring⟩
  | releasing => exact ⟨_, Multiset.mem_singleton_self _, _, rfl, .releasing⟩
  | racingLeft => exact Loop.inside_of_hosts (.racing .left)
  | racingRight => exact Loop.inside_of_hosts (.racing .right)
  | settling => exact ⟨_, Multiset.mem_singleton_self _, _, rfl, .settling⟩
  | remaining => exact ⟨_, Multiset.mem_singleton_self _, _, rfl, .remaining⟩

theorem Caller.exists_room (caller : Caller) (l : Room) : ∃ b ∈ caller.berths l, b.room = l := by
  cases caller with
  | acquiring | releasing | settling | remaining => exact ⟨_, Multiset.mem_singleton_self _, rfl⟩
  | racingLeft | racingRight => exact ⟨_, Multiset.mem_cons_self _ _, rfl⟩

/-- What stands in the innermost room of the callers, with the callers, is a nest. -/
theorem Caller.nest (callers : List Caller) {inner : Multiset Berth}
    (head : inner ≠ 0 → ∃ b ∈ inner, b.room = innerRoom callers)
    (inside : ∀ b ∈ inner, b.room = innerRoom callers ∨ b.room.Inside inner) :
    Berth.Nest (inner + allBerths callers) := by
  induction callers generalizing inner with
  | nil =>
    rw [allBerths_nil, add_zero]
    exact ⟨inside, head⟩
  | cons caller callers ih =>
    rw [allBerths_cons, ← add_assoc]
    have left : inner ⊆ inner + caller.berths (innerRoom callers) :=
      Multiset.subset_of_le (Multiset.le_add_right _ _)
    have right : caller.berths (innerRoom callers) ⊆ inner + caller.berths (innerRoom callers) :=
      Multiset.subset_of_le (Multiset.le_add_left _ _)
    refine ih (fun _ => ?_) fun b mem => ?_
    · obtain ⟨b, mem, room⟩ := caller.exists_room (innerRoom callers)
      exact ⟨b, right mem, room⟩
    · obtain mem | mem := Multiset.mem_add.mp mem
      · obtain same | inside := inside b mem
        · have hosted := (caller.inside_room (innerRoom callers)).mono right
          rw [same]
          exact .inr hosted
        · exact .inr (inside.mono left)
      · exact (caller.inside _ mem).imp_right fun inside => inside.mono right

theorem Segment.nest (segment : Segment) : Berth.Nest (segment.berths .outer) where
  inside _ mem := segment.inside .outer mem
  outer _ := segment.exists_room .outer

theorem Config.nest (c : Config) : Berth.Nest c.berths := by
  obtain ⟨focus, callers⟩ := c
  cases focus with
  | eval loop | unwind loop =>
    refine Caller.nest callers (fun _ => ⟨_, Multiset.mem_singleton_self _, rfl⟩) fun b mem => ?_
    exact .inl (Multiset.mem_singleton.mp mem ▸ rfl)
  | leave => exact Caller.nest callers (fun some => (some rfl).elim) (by simp [Focus.berths])
  | resume segment | park segment =>
    exact Caller.nest callers (fun _ => segment.exists_room _) fun b mem => segment.inside _ mem

end

/-! ## Races that are not decided -/

/-- Every race of the bag has an operand in it. -/
def Berth.Raced (B : Multiset Berth) : Prop :=
  ∀ l loop tokens, Loop.berth loop l (.racing tokens) ∈ B →
    ∃ b ∈ B, ∃ side, b.room = .operand loop.env.token side

section

variable {B B' : Multiset Berth} {l : Room} {loop : Loop}

theorem Berth.Raced.add (h : Raced B) (h' : Raced B') : Raced (B + B') := by
  intro l loop tokens mem
  obtain mem | mem := Multiset.mem_add.mp mem
  · obtain ⟨b, mem, side, room⟩ := h l loop tokens mem
    exact ⟨b, Multiset.mem_add.mpr (.inl mem), side, room⟩
  · obtain ⟨b, mem, side, room⟩ := h' l loop tokens mem
    exact ⟨b, Multiset.mem_add.mpr (.inr mem), side, room⟩

theorem Berth.raced_zero : Raced 0 := fun _ _ _ mem => by cases mem

theorem Berth.raced_single {doing : Doing} (calm : ∀ tokens, doing ≠ .racing tokens) :
    Raced {loop.berth l doing} := fun l loop tokens mem => by
  cases Multiset.mem_singleton.mp mem
  exact (calm tokens rfl).elim

/-- A loop that is not in a race, around other loops. -/
theorem Berth.Raced.around {doing : Doing} (h : Raced B) (calm : ∀ tokens, doing ≠ .racing tokens) :
    Raced (loop.berth l doing ::ₘ B) :=
  (raced_single calm).add h

/-- A loop that is in a race, around an operand of it. -/
theorem Berth.Raced.race {tokens : RaceTokens} (h : Raced B)
    (operand : ∃ b ∈ B, ∃ side, b.room = .operand loop.env.token side) :
    Raced (loop.berth l (.racing tokens) ::ₘ B) := fun l' loop' tokens' mem => by
  obtain same | mem := Multiset.mem_cons.mp mem
  · cases same
    obtain ⟨b, mem, side, room⟩ := operand
    exact ⟨b, Multiset.mem_cons_of_mem mem, side, room⟩
  · obtain ⟨b, mem, side, room⟩ := h l' loop' tokens' mem
    exact ⟨b, Multiset.mem_cons_of_mem mem, side, room⟩

theorem Segment.raced (segment : Segment) (l : Room) : Berth.Raced (segment.berths l) := by
  induction segment generalizing l with
  | start | callback | future | gathering => exact Berth.raced_single nofun
  | shifted => exact fun l loop tokens mem => by cases Multiset.mem_singleton.mp mem
  | acquiring loop use release inner ih | releasing loop bracket outcome inner ih
  | settling loop winner exit inner ih | remaining loop side inner ih =>
    exact (ih _).around nofun
  | racing loop tokens left right ihl ihr =>
    obtain ⟨b, mem, room⟩ := left.exists_room (loop.side .left)
    exact ((ihl _).add (ihr _)).race ⟨b, Multiset.mem_add.mpr (.inl mem), .left, room⟩

theorem Caller.raced (caller : Caller) (l : Room) : Berth.Raced (caller.berths l) := by
  cases caller with
  | acquiring | releasing | settling | remaining => exact Berth.raced_single nofun
  | racingLeft loop tokens other | racingRight loop tokens other =>
    obtain ⟨b, mem, room⟩ := other.exists_room _
    exact (other.raced _).race ⟨b, mem, _, room⟩

theorem Caller.allRaced (callers : List Caller) : Berth.Raced (allBerths callers) := by
  induction callers with
  | nil => exact Berth.raced_zero
  | cons caller callers ih => exact (caller.raced _).add ih

theorem Config.raced (c : Config) : Berth.Raced c.berths := by
  obtain ⟨focus, callers⟩ := c
  refine Berth.Raced.add ?_ (Caller.allRaced callers)
  cases focus with
  | eval | unwind => exact Berth.raced_single nofun
  | leave => exact Berth.raced_zero
  | resume segment | park segment => exact segment.raced _

end

/-! ## The nest of posts -/

/-- If the post is that of an operand, the loop of its race is among the posts. -/
def Post.Under (P : Multiset Post) (p : Post) : Prop :=
  ∀ q, p.link = .operand q → ∃ p' ∈ P, p'.token = q

/-- In a nest an operand has the loop of its race around it, and some loop is outermost. -/
structure Post.Nest (P : Multiset Post) : Prop where
  under : ∀ p ∈ P, p.Under P
  outer : P ≠ 0 → ∃ p ∈ P, p.link = .outer

theorem Berth.Nest.posts {B : Multiset Berth} (h : Berth.Nest B) :
    Post.Nest (B.map Berth.post) where
  under p mem q link := by
    obtain ⟨b, inB, rfl⟩ := Multiset.mem_map.mp mem
    obtain ⟨room, piece⟩ := b
    cases room with
    | outer | apart => cases link
    | operand q' side =>
      cases link
      obtain none | ⟨b', inB', φ, piece', hosts⟩ := h.inside _ inB
      · cases none
      · refine ⟨b'.post, Multiset.mem_map_of_mem _ inB', ?_⟩
        have token := hosts.around
        simp only [Room.around?, Option.some.injEq] at token
        simp [Post.token, Berth.post, piece', token]
  outer some := by
    obtain ⟨b, mem, room⟩ := h.outer fun none => some (by rw [none, Multiset.map_zero])
    exact ⟨b.post, Multiset.mem_map_of_mem _ mem, by rw [Berth.post, room]; rfl⟩

end EffectFibers
