import EffectFibers.Fiber.Machine
import Mathlib.Algebra.Order.Group.Multiset
import Mathlib.Data.Multiset.Bind

/-!
# The fibers of a poll

A segment, or a poll of one, is a nest of run loops.  Here it is spread out into the bag of its
loops: a `Fiber` is a loop with what it is doing, and `Post` says in addition how the loop is
linked to the loop around it.  A loop that a shift has sent to another task leaves a post behind
that is `away`.  What a step of a poll does is then a change of a few posts
(`EffectFibers.Proofs.FiberStep`), wherever in the nest they are.
-/

namespace EffectFibers

/-- What a run loop is about. -/
inductive Doing where
  | evaluating (effect : Effect)
  | unwinding (exit : Exit)
  | callback (slot : Nat)
  | future (wait : Wait)
  /-- Waits for the nested loop of an acquisition. -/
  | acquiring (use : Value → Effect) (release : Value → ExitCase Value → Effect)
  /-- Waits for the nested loop of a release. -/
  | releasing (bracket : BracketId) (outcome : Exit)
  | racing (tokens : RaceTokens)
  | settling (winner : Side) (exit : Exit)
  | remaining (side : Side)
  | gathering (group : Group)

structure Fiber where
  loop : Loop
  doing : Doing

namespace Fiber

def token (φ : Fiber) : TokenId := φ.loop.env.token

def frames (φ : Fiber) : List Frame := φ.loop.frames

end Fiber

/-- How a loop is linked to the loop around it. -/
inductive Link where
  /-- Nothing is around it in its own task. -/
  | outer
  /-- An operand of a race of the loop with a token. -/
  | operand (of : TokenId)
  /-- An acquisition or a release, which a cancellation from around does not reach. -/
  | apart

inductive Piece where
  | fiber (φ : Fiber)
  /-- The loop goes on in another task. -/
  | away (env : Env) (task : TaskId)

structure Post where
  link : Link
  piece : Piece

def Post.token (p : Post) : TokenId :=
  match p.piece with
  | .fiber φ => φ.token
  | .away env _ => env.token

def Post.fiber? (p : Post) : Option Fiber :=
  match p.piece with
  | .fiber φ => some φ
  | .away .. => none

/-- The post of a loop. -/
def Loop.at (loop : Loop) (link : Link) (doing : Doing) : Post := ⟨link, .fiber ⟨loop, doing⟩⟩

/-- The link to a loop of the operands of its race. -/
def Loop.below (loop : Loop) : Link := .operand loop.env.token

/-! ## Spreading out -/

def Segment.posts : Segment → Link → Multiset Post
  | .start loop effect, l => {loop.at l (.evaluating effect)}
  | .callback loop slot, l => {loop.at l (.callback slot)}
  | .future loop wait, l => {loop.at l (.future wait)}
  | .shifted env task, l => {⟨l, .away env task⟩}
  | .acquiring loop use release inner, l =>
    loop.at l (.acquiring use release) ::ₘ inner.posts .apart
  | .releasing loop bracket outcome inner, l =>
    loop.at l (.releasing bracket outcome) ::ₘ inner.posts .apart
  | .racing loop tokens left right, l =>
    loop.at l (.racing tokens) ::ₘ (left.posts loop.below + right.posts loop.below)
  | .settling loop winner exit loser, l =>
    loop.at l (.settling winner exit) ::ₘ loser.posts loop.below
  | .remaining loop side operand, l =>
    loop.at l (.remaining side) ::ₘ operand.posts loop.below
  | .gathering loop group, l => {loop.at l (.gathering group)}

namespace Caller

/-- The link that the loop in control has to a caller. -/
def inner : Caller → Link
  | .acquiring .. | .releasing .. => .apart
  | .racingLeft loop .. | .racingRight loop .. | .settling loop .. | .remaining loop .. =>
    loop.below

def posts : Caller → Link → Multiset Post
  | .acquiring loop use release, l => {loop.at l (.acquiring use release)}
  | .releasing loop bracket outcome, l => {loop.at l (.releasing bracket outcome)}
  | .racingLeft loop tokens right, l =>
    loop.at l (.racing tokens) ::ₘ right.posts loop.below
  | .racingRight loop tokens left, l =>
    loop.at l (.racing tokens) ::ₘ left.posts loop.below
  | .settling loop winner exit, l => {loop.at l (.settling winner exit)}
  | .remaining loop side, l => {loop.at l (.remaining side)}

/-- The link of the loop that is in control of a poll. -/
def innermost : List Caller → Link
  | [] => .outer
  | caller :: _ => caller.inner

def allPosts : List Caller → Multiset Post
  | [] => 0
  | caller :: callers => caller.posts (innermost callers) + allPosts callers

@[simp] theorem innermost_nil : innermost [] = .outer := rfl
@[simp] theorem innermost_cons (c : Caller) (cs : List Caller) : innermost (c :: cs) = c.inner :=
  rfl
@[simp] theorem allPosts_nil : allPosts [] = 0 := rfl
@[simp] theorem allPosts_cons (c : Caller) (cs : List Caller) :
    allPosts (c :: cs) = c.posts (innermost cs) + allPosts cs := rfl

end Caller

def Focus.posts : Focus → Link → Multiset Post
  | .eval loop effect, l => {loop.at l (.evaluating effect)}
  | .unwind loop exit, l => {loop.at l (.unwinding exit)}
  | .leave _, _ => 0
  | .resume segment, l | .park segment, l => segment.posts l

namespace Config

def posts (c : Config) : Multiset Post :=
  c.focus.posts (Caller.innermost c.callers) + Caller.allPosts c.callers

variable (loop : Loop) (callers : List Caller)

@[simp] theorem posts_eval (effect : Effect) : posts ⟨.eval loop effect, callers⟩
    = loop.at (Caller.innermost callers) (.evaluating effect) ::ₘ Caller.allPosts callers := rfl

@[simp] theorem posts_unwind (exit : Exit) : posts ⟨.unwind loop exit, callers⟩
    = loop.at (Caller.innermost callers) (.unwinding exit) ::ₘ Caller.allPosts callers := rfl

@[simp] theorem posts_leave (exit : Exit) :
    posts ⟨.leave exit, callers⟩ = Caller.allPosts callers := by
  simp [posts, Focus.posts]

@[simp] theorem posts_resume (segment : Segment) : posts ⟨.resume segment, callers⟩
    = segment.posts (Caller.innermost callers) + Caller.allPosts callers := rfl

@[simp] theorem posts_park (segment : Segment) : posts ⟨.park segment, callers⟩
    = segment.posts (Caller.innermost callers) + Caller.allPosts callers := rfl

end Config

namespace Spawn

/-- The work of a task that is a part of a run. -/
def segment? (x : Spawn) : Option Segment :=
  match x.job with
  | .segment segment => some segment
  | _ => none

/-- The loops with which such a task begins. -/
def posts (x : Spawn) : Multiset Post :=
  match x.segment? with
  | some segment => segment.posts .outer
  | none => 0

/-- The loops with which the tasks of a list begin. -/
def offspring (new : List Spawn) : Multiset Post := (new : Multiset Spawn).bind posts

@[simp] theorem offspring_nil : offspring [] = 0 := rfl

@[simp] theorem offspring_cons (x : Spawn) (new : List Spawn) :
    offspring (x :: new) = x.posts + offspring new := by
  simp [offspring, ← Multiset.cons_coe]

@[simp] theorem offspring_append (new new' : List Spawn) :
    offspring (new ++ new') = offspring new + offspring new' := by
  simp [offspring, ← Multiset.coe_add]

theorem mem_offspring {new : List Spawn} {p : Post} :
    p ∈ offspring new ↔ ∃ x ∈ new, p ∈ x.posts := by
  simp [offspring]

theorem offspring_quiet {new : List Spawn} (quiet : ∀ x ∈ new, x.segment? = none) :
    offspring new = 0 := by
  refine Multiset.eq_zero_of_forall_notMem fun p mem => ?_
  obtain ⟨x, mem, inside⟩ := mem_offspring.mp mem
  simp [posts, quiet x mem] at inside

end Spawn

end EffectFibers
