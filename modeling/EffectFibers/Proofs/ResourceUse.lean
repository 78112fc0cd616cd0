import EffectFibers.Proofs.Course
import EffectFibers.Resource

/-!
# The use of a resource

A resource is a tree; its use acquires the leaves from left to right, and every acquired leaf
is a lease that is to be released.  Here the use is followed along the path of the fiber that
makes it: while it acquires, while the body runs, and while the leases are released, the last
first (`Use`).

## Main definitions

* `Resource.Yields`, `Resource.Next`: what a tree computes, and which leaf comes next.
* `Usage.Ends`, `Unwound`: how the usage of the leases ends, and how they are released.

## Main statements

* `Fiber.Path.acquires`: the acquisitions, by induction on the tree.
* `Fiber.Path.use`: every path that begins with a use follows it.
-/

namespace EffectFibers

/-! ## Trees -/

/-- A leaf that has been acquired. -/
structure Lease where
  bracket : BracketId
  value : Value
  release : Value → ExitCase Value → Effect

def Lease.frame (l : Lease) : Frame := .release l.bracket (l.release l.value)

namespace Resource

/-- The tree computes a value when exactly these leases have been acquired, the last first. -/
inductive Yields : Resource → List Lease → Value → Prop
  | make (acquire : Effect) (release : Value → ExitCase Value → Effect) (b : BracketId)
      (v : Value) : Yields (.make acquire release) [⟨b, v, release⟩] v
  | map {r : Resource} {f : Value → Except Fault Value} {held : List Lease} {v w : Value}
      (source : Yields r held v) (value : f v = .ok w) : Yields (.map r f) held w
  | flatMap {r : Resource} {f : Value → Resource} {held held' : List Lease} {v w : Value}
      (source : Yields r held v) (next : Yields (f v) held' w) :
      Yields (.flatMap r f) (held' ++ held) w

/-- The leaf that is to be acquired next when exactly these leases have been, the last first. -/
inductive Next : Resource → List Lease → Effect → (Value → ExitCase Value → Effect) → Prop
  | make (acquire : Effect) (release : Value → ExitCase Value → Effect) :
      Next (.make acquire release) [] acquire release
  | map {r : Resource} {f : Value → Except Fault Value} {held : List Lease} {acquire : Effect}
      {release : Value → ExitCase Value → Effect} (source : Next r held acquire release) :
      Next (.map r f) held acquire release
  | source {r : Resource} {f : Value → Resource} {held : List Lease} {acquire : Effect}
      {release : Value → ExitCase Value → Effect} (source : Next r held acquire release) :
      Next (.flatMap r f) held acquire release
  | flatMap {r : Resource} {f : Value → Resource} {held held' : List Lease} {v : Value}
      {acquire : Effect} {release : Value → ExitCase Value → Effect} (source : Yields r held v)
      (next : Next (f v) held' acquire release) :
      Next (.flatMap r f) (held' ++ held) acquire release

end Resource

/-! ## Acquisitions -/

/-- A fiber that is not cancelled begins an acquisition. -/
structure Moment.Enters (m : Moment) (k : TokenId) : Prop where
  event : m.event = .entered k .acquisition
  live : m.cancelled = false

/-- The marks of the acquisitions of the leases, newest first. -/
inductive Acquisitions (k : TokenId) : List Lease → List Moment → Prop
  | nil : Acquisitions k [] []
  | cons {l : Lease} {held : List Lease} {m₁ m₂ m₃ : Moment} {ms : List Moment}
      (before : Acquisitions k held ms) (entered : m₁.Enters k)
      (acquired : m₂.event = .acquired k l.bracket l.value)
      (started : m₃.event = .useStarted k l.bracket) (live : m₃.cancelled = false) :
      Acquisitions k (l :: held) (m₃ :: m₂ :: m₁ :: ms)

theorem Acquisitions.append {k : TokenId} {held held' : List Lease} {ms ms' : List Moment}
    (h : Acquisitions k held ms) (h' : Acquisitions k held' ms') :
    Acquisitions k (held' ++ held) (ms' ++ ms) := by
  induction h' with
  | nil => exact h
  | cons before entered acquired started live ih => exact .cons ih entered acquired started live

/-- An attempt at a leaf that does not lead on, with the leases that it gains: the token is
cancelled before the acquisition, the acquisition does not succeed, or the token is cancelled
during the acquisition. -/
inductive Misses (k : TokenId) (now : Store) (release : Value → ExitCase Value → Effect) :
    List Lease → Exit → List Moment → Prop
  | refused (cancelled : now.isCancelled k = true) : Misses k now release [] .canceled []
  | failed {m₁ m₂ : Moment} {x : Exit} (entered : m₁.Enters k) (failed : x.isSucceeded = false)
      (ended : m₂.event = .notAcquired k x) : Misses k now release [] x [m₂, m₁]
  | late {m₁ m₂ : Moment} {b : BracketId} {v : Value} (entered : m₁.Enters k)
      (acquired : m₂.event = .acquired k b v) (cancelled : m₂.cancelled = true) :
      Misses k now release [⟨b, v, release⟩] .canceled [m₂, m₁]

theorem Misses.mono {k : TokenId} {s now : Store} {release : Value → ExitCase Value → Effect}
    {gained : List Lease} {x : Exit} {ms : List Moment} (h : Misses k s release gained x ms)
    (ages : s.Ages now) : Misses k now release gained x ms := by
  cases h with
  | refused cancelled => exact .refused (ages.isCancelled _ cancelled)
  | failed entered failed ended => exact .failed entered failed ended
  | late entered acquired cancelled => exact .late entered acquired cancelled

/-- The fiber is busy with an acquisition, or about to be, or a panic in the tree is to come. -/
inductive Pending (r : Resource) (env : Env) (rest : List Frame) : List Moment → Fiber → Prop
  | waiting {held : List Lease} {ms : List Moment} {acquire : Effect} {use : Value → Effect}
      {release : Value → ExitCase Value → Effect} (next : r.Next held acquire release)
      (acquired : Acquisitions env.token held ms) :
      Pending r env rest ms
        ⟨⟨env, held.map Lease.frame ++ rest⟩, .evaluating (.bracket acquire use release)⟩
  | acquiring {held : List Lease} {m : Moment} {ms : List Moment} {acquire : Effect}
      {use : Value → Effect} {release : Value → ExitCase Value → Effect}
      (next : r.Next held acquire release) (acquired : Acquisitions env.token held ms)
      (entered : m.Enters env.token) :
      Pending r env rest (m :: ms) ⟨⟨env, held.map Lease.frame ++ rest⟩, .acquiring use release⟩
  | panicking {held : List Lease} {ms : List Moment} {f : Fault}
      (acquired : Acquisitions env.token held ms) :
      Pending r env rest ms ⟨⟨env, held.map Lease.frame ++ rest⟩, .evaluating (.fault f)⟩

/-- How far a path has come that begins with the use of a resource: it acquires, an attempt has
missed, or the tree has yielded its value and the fiber goes on with that. -/
inductive Acquires (run : TokenId) (now : Store) (r : Resource) (body : Value → Effect)
    (env : Env) (rest : List Frame) (own : List Moment) (φ' : Fiber) : Prop
  | pending (pending : Pending r env rest own φ')
  | missed {held gained : List Lease} {acquire : Effect} {x : Exit}
      {release : Value → ExitCase Value → Effect} {ms ms' later : List Moment}
      (next : r.Next held acquire release) (acquired : Acquisitions env.token held ms)
      (misses : Misses env.token now release gained x ms')
      (path : Fiber.Path run now
        ⟨⟨env, (gained ++ held).map Lease.frame ++ rest⟩, .unwinding x⟩ later φ')
      (marks : own = later ++ (ms' ++ ms))
  | yielded {held : List Lease} {v : Value} {ms later : List Moment} (yields : r.Yields held v)
      (acquired : Acquisitions env.token held ms)
      (path : Fiber.Path run now
        ⟨⟨env, held.map Lease.frame ++ rest⟩, .evaluating (body v)⟩ later φ')
      (marks : own = later ++ ms)

namespace Fiber.Path

variable {run : TokenId} {now : Store} {φ' : Fiber} {own : List Moment} {loop : Loop} {env : Env}
  {rest : List Frame} {body : Value → Effect} {r : Resource}

/-- No path leads on from a panic. -/
theorem of_fault {f : Fault} (path : Path run now ⟨loop, .evaluating (.fault f)⟩ own φ') :
    own = [] ∧ φ' = ⟨loop, .evaluating (.fault f)⟩ := by
  obtain same | ⟨s, ms, φ₁, own₁, step, -⟩ := path.head
  · exact same
  · cases step with
    | refused h => cases h

theorem acquires_fault {f : Fault}
    (path : Path run now ⟨⟨env, rest⟩, .evaluating (.fault f)⟩ own φ') :
    Acquires run now r body env rest own φ' := by
  obtain ⟨rfl, rfl⟩ := path.of_fault
  exact .pending (.panicking .nil)

/-- One leaf. -/
theorem acquires_make {acquire : Effect} {release : Value → ExitCase Value → Effect}
    (path : Path run now ⟨⟨env, rest⟩, .evaluating (.bracket acquire body release)⟩ own φ') :
    Acquires run now (.make acquire release) body env rest own φ' := by
  obtain ⟨rfl, rfl⟩ | ⟨s, ms, φ₁, own₁, step, before, path, rfl⟩ := path.head
  · exact .pending (.waiting (.make acquire release) .nil)
  cases step with
  | refused h cancelled =>
    exact .missed (.make acquire release) .nil (.refused (before.isCancelled _ cancelled)) path rfl
  | bracket live =>
    have entered : (Moment.of run s (.entered env.token .acquisition)).Enters env.token :=
      ⟨rfl, live⟩
    obtain ⟨rfl, rfl⟩ | ⟨s', ms', φ₂, own₂, step, before', path, rfl⟩ := path.head
    · exact .pending (.acquiring (.make acquire release) .nil entered)
    cases step with
    | @acquired _ _ _ v live' =>
      let acquired : Moment := .of run s' (.acquired env.token s'.brackets v)
      let started : Moment := .of run s' (.useStarted env.token s'.brackets)
      have acquisitions : Acquisitions env.token [⟨s'.brackets, v, release⟩]
          [started, acquired, .of run s (.entered env.token .acquisition)] :=
        .cons .nil entered rfl rfl live'
      refine .yielded (.make acquire release s'.brackets v) acquisitions path ?_
      simp [started, acquired]
    | @acquiredLate _ _ _ v cancelled =>
      let acquired : Moment := .of run s' (.acquired env.token s'.brackets v)
      have late : acquired.cancelled = true := cancelled
      refine .missed (.make acquire release) .nil (.late entered rfl late) path ?_
      simp [acquired]
    | @notAcquired _ _ _ x failed =>
      let ended : Moment := .of run s' (.notAcquired env.token x)
      have event : ended.event = .notAcquired env.token x := rfl
      refine .missed (.make acquire release) .nil (.failed entered failed event) path ?_
      simp [ended]

/-- The use of a resource follows its tree. -/
theorem acquires (path : Path run now ⟨⟨env, rest⟩, .evaluating (r.use body)⟩ own φ') :
    Acquires run now r body env rest own φ' := by
  induction r generalizing body rest own with
  | make acquire release =>
    rw [Resource.use] at path
    split at path
    · exact path.acquires_fault
    · exact path.acquires_make
  | fault f => exact path.acquires_fault
  | map r f ih =>
    cases ih path with
    | pending pending =>
      cases pending with
      | waiting next acquired => exact .pending (.waiting next.map acquired)
      | acquiring next acquired entered => exact .pending (.acquiring next.map acquired entered)
      | panicking acquired => exact .pending (.panicking acquired)
    | missed next acquired misses path marks => exact .missed next.map acquired misses path marks
    | @yielded held v ms later yields acquired path marks =>
      cases value : f v with
      | ok w =>
        simp only [value] at path
        exact .yielded (yields.map value) acquired path marks
      | error x =>
        simp only [value] at path
        obtain ⟨rfl, rfl⟩ := path.of_fault
        exact .pending (marks ▸ .panicking acquired)
  | flatMap r f ih ihf =>
    cases ih path with
    | pending pending =>
      cases pending with
      | waiting next acquired => exact .pending (.waiting next.source acquired)
      | acquiring next acquired entered => exact .pending (.acquiring next.source acquired entered)
      | panicking acquired => exact .pending (.panicking acquired)
    | missed next acquired misses path marks => exact .missed next.source acquired misses path marks
    | @yielded held v ms later yields acquired path' marks =>
      -- The rest of the tree is used above the frames of the leases so far.
      subst marks
      cases ihf v path' with
      | pending pending =>
        cases pending with
        | waiting next acquired' =>
          rw [← List.append_assoc, ← List.map_append]
          exact .pending (.waiting (.flatMap yields next) (acquired.append acquired'))
        | acquiring next acquired' entered =>
          rw [← List.append_assoc, ← List.map_append]
          exact .pending (.acquiring (.flatMap yields next) (acquired.append acquired') entered)
        | panicking acquired' =>
          rw [← List.append_assoc, ← List.map_append]
          exact .pending (.panicking (acquired.append acquired'))
      | missed next acquired' misses path marks =>
        rw [← List.append_assoc, ← List.map_append, List.append_assoc] at path
        refine .missed (.flatMap yields next) (acquired.append acquired') misses path ?_
        simp [marks]
      | yielded yields' acquired' path marks =>
        rw [← List.append_assoc, ← List.map_append] at path
        refine .yielded (.flatMap yields yields') (acquired.append acquired') path ?_
        simp [marks]

end Fiber.Path

/-! ## Releases -/

/-- What a release is given behind an exit: a cancellation overrides it. -/
def Moment.seen (m : Moment) (x : Exit) : Exit := if m.cancelled then .canceled else x

/-- The leases are released one after the other, the last acquired first.  A release is given
what the usage of its lease came to, unless the token is cancelled by then; the usage of the next
lease comes to what `Exit.behind` says.  The marks are newest first. -/
inductive Unwound (k : TokenId) : List Lease → Exit → List Moment → Exit → Prop
  | nil {x : Exit} : Unwound k [] x [] x
  | cons {l : Lease} {held : List Lease} {x y z : Exit} {m₁ m₂ : Moment} {ms : List Moment}
      (started : m₁.event = .releaseStarted k l.bracket (m₁.seen x))
      (finished : m₂.event = .releaseFinished k l.bracket y)
      (rest : Unwound k held ((m₁.seen x).behind y) ms z) :
      Unwound k (l :: held) x (ms ++ [m₂, m₁]) z

/-- The leases are being released: some are, and the next one is about to be, or is going on. -/
inductive Releasing (held : List Lease) (x : Exit) (env : Env) (rest : List Frame) :
    List Moment → Fiber → Prop
  | between {gone left : List Lease} {l : Lease} {y : Exit} {ms : List Moment}
      (split : held = gone ++ l :: left) (unwound : Unwound env.token gone x ms y) :
      Releasing held x env rest ms ⟨⟨env, (l :: left).map Lease.frame ++ rest⟩, .unwinding y⟩
  | inside {gone left : List Lease} {l : Lease} {y : Exit} {m : Moment} {ms : List Moment}
      (split : held = gone ++ l :: left) (unwound : Unwound env.token gone x ms y)
      (started : m.event = .releaseStarted env.token l.bracket (m.seen y)) :
      Releasing held x env rest (m :: ms)
        ⟨⟨env, left.map Lease.frame ++ rest⟩, .releasing l.bracket (m.seen y)⟩

namespace Fiber

variable {run : TokenId} {s now : Store} {φ' : Fiber} {ms : List Event} {own : List Moment}

/-- An exit meets a release. -/
theorem Step.of_release {env : Env} {b : BracketId} {finalizer : ExitCase Value → Effect}
    {frames : List Frame} {x : Exit}
    (step : Step s ⟨⟨env, .release b finalizer :: frames⟩, .unwinding x⟩ ms φ') :
    ∃ m : Moment, ms.map (.of run s) = [m] ∧ m.cancelled = s.isCancelled env.token ∧
      m.event = .releaseStarted env.token b (m.seen x) ∧
      φ' = ⟨⟨env, frames⟩, .releasing b (m.seen x)⟩ := by
  cases step with
  | skipped h => cases h
  | @release _ _ _ _ _ seen given =>
    let m : Moment := .of run s (.releaseStarted env.token b seen)
    have same : m.seen x = seen := given.symm
    exact ⟨m, rfl, rfl, by rw [same]; rfl, by rw [same]⟩

/-- A release ends. -/
theorem Step.of_releasing {loop : Loop} {b : BracketId} {seen : Exit}
    (step : Step s ⟨loop, .releasing b seen⟩ ms φ') :
    ∃ (m : Moment) (y : Exit), ms.map (.of run s) = [m] ∧
      m.event = .releaseFinished loop.env.token b y ∧ φ' = ⟨loop, .unwinding (seen.behind y)⟩ := by
  cases step with
  | @released _ _ _ y => exact ⟨.of run s (.releaseFinished loop.env.token b y), y, rfl, rfl, rfl⟩

/-- A path that begins to unwind the leases releases them, or has done so and goes on. -/
theorem Path.releases {env : Env} {rest : List Frame} {held : List Lease} {x : Exit}
    (path : Path run now ⟨⟨env, held.map Lease.frame ++ rest⟩, .unwinding x⟩ own φ') :
    Releasing held x env rest own φ' ∨ ∃ z ms later, Unwound env.token held x ms z ∧
      own = later ++ ms ∧ Path run now ⟨⟨env, rest⟩, .unwinding z⟩ later φ' := by
  induction held generalizing x own with
  | nil => exact .inr ⟨x, [], own, .nil, (List.append_nil own).symm, path⟩
  | cons l held ih =>
    have first : l :: held = [] ++ l :: held := rfl
    obtain ⟨rfl, rfl⟩ | ⟨s, ms, φ₁, own₁, step, -, path, rfl⟩ := path.head
    · exact .inl (.between first .nil)
    obtain ⟨m₁, marks₁, -, started, rfl⟩ := step.of_release
    rw [marks₁]
    obtain ⟨rfl, rfl⟩ | ⟨s, ms, φ₂, own₂, step, -, path, rfl⟩ := path.head
    · exact .inl (.inside first .nil started)
    obtain ⟨m₂, y, marks₂, finished, rfl⟩ := step.of_releasing
    rw [marks₂, List.append_assoc]
    obtain releasing | ⟨z, ms, later, unwound, rfl, path'⟩ := ih path
    · left
      cases releasing with
      | @between gone left l' y' ms split unwound =>
        have split' : l :: held = (l :: gone) ++ l' :: left := by rw [split]; rfl
        exact .between split' (.cons started finished unwound)
      | @inside gone left l' y' m ms split unwound started' =>
        have split' : l :: held = (l :: gone) ++ l' :: left := by rw [split]; rfl
        exact .inside split' (.cons started finished unwound) started'
    · exact .inr ⟨z, _, later, .cons started finished unwound, List.append_assoc .., path'⟩

end Fiber

/-! ## The whole use -/

/-- The usage of the leases has come to an exit: an attempt at the next leaf has missed, or the
body has been run by itself, on the value of the tree. -/
inductive Ends (run : TokenId) (now : Store) (r : Resource) (body : Value → Effect) (env : Env) :
    List Lease → Exit → List Moment → Env → Prop
  | missed {held gained : List Lease} {acquire : Effect} {x : Exit}
      {release : Value → ExitCase Value → Effect} {ms ms' : List Moment}
      (next : r.Next held acquire release) (acquired : Acquisitions env.token held ms)
      (misses : Misses env.token now release gained x ms') :
      Ends run now r body env (gained ++ held) x (ms' ++ ms) env
  | ran {held : List Lease} {v : Value} {x : Exit} {ms own : List Moment} {env' : Env}
      (yields : r.Yields held v) (acquired : Acquisitions env.token held ms)
      (path : Fiber.Path run now ⟨⟨env, []⟩, .evaluating (body v)⟩ own
        ⟨⟨env', []⟩, .unwinding x⟩) :
      Ends run now r body env held x (own ++ ms) env'

/-- A use is over: the usage of its leases has come to an exit, and all of them, the last acquired
first, have been released behind it. -/
inductive Used (run : TokenId) (now : Store) (r : Resource) (body : Value → Effect) (env : Env)
    (z : Exit) : List Moment → Env → Prop
  | intro {held : List Lease} {x : Exit} {ms ms' : List Moment} {env' : Env}
      (ends : Ends run now r body env held x ms env') (unwound : Unwound env.token held x ms' z) :
      Used run now r body env z (ms' ++ ms) env'

/-- How far the use of a resource has come: the leaves are being acquired, the body runs above
the frames of the leases, the leases are being released, or all is over and the fiber goes on. -/
inductive Use (run : TokenId) (now : Store) (r : Resource) (body : Value → Effect) (env : Env)
    (rest : List Frame) : List Moment → Fiber → Prop
  | acquiring {own : List Moment} {φ' : Fiber} (pending : Pending r env rest own φ') :
      Use run now r body env rest own φ'
  | running {held : List Lease} {v : Value} {ms own : List Moment} {φ : Fiber}
      (yields : r.Yields held v) (acquired : Acquisitions env.token held ms)
      (path : Fiber.Path run now ⟨⟨env, []⟩, .evaluating (body v)⟩ own φ) (busy : ¬ φ.Over) :
      Use run now r body env rest (own ++ ms) (φ.above (held.map Lease.frame ++ rest))
  | releasing {held : List Lease} {x : Exit} {env' : Env} {ms own : List Moment} {φ' : Fiber}
      (ends : Ends run now r body env held x ms env')
      (releasing : Releasing held x env' rest own φ') :
      Use run now r body env rest (own ++ ms) φ'
  | past {z : Exit} {env' : Env} {ms later : List Moment} {φ' : Fiber}
      (used : Used run now r body env z ms env')
      (path : Fiber.Path run now ⟨⟨env', rest⟩, .unwinding z⟩ later φ') :
      Use run now r body env rest (later ++ ms) φ'

section

variable {run : TokenId} {now : Store} {r : Resource} {body : Value → Effect} {env env' : Env}
  {rest : List Frame} {held : List Lease} {x : Exit} {ms own : List Moment} {φ' : Fiber}

/-- The usage of a use ends with the token that it began with. -/
theorem Ends.token (h : Ends run now r body env held x ms env') : env'.token = env.token := by
  cases h with
  | missed => rfl
  | ran yields acquired path => exact path.token

theorem Ends.use (h : Ends run now r body env held x ms env')
    (path : Fiber.Path run now ⟨⟨env', held.map Lease.frame ++ rest⟩, .unwinding x⟩ own φ') :
    Use run now r body env rest (own ++ ms) φ' := by
  obtain releasing | ⟨z, ms', later, unwound, rfl, path'⟩ := path.releases
  · exact .releasing h releasing
  · rw [h.token] at unwound
    rw [List.append_assoc]
    exact .past (.intro h unwound) path'

/-- A path that begins with the use of a resource follows the use. -/
theorem Fiber.Path.use
    (path : Path run now ⟨⟨env, rest⟩, .evaluating (r.use body)⟩ own φ') :
    Use run now r body env rest own φ' := by
  cases path.acquires with
  | pending pending => exact .acquiring pending
  | missed next acquired misses path' marks =>
    subst marks
    exact (Ends.missed next acquired misses).use path'
  | @yielded held v ms later yields acquired path' marks =>
    -- The body runs above the frames of the leases as it would by itself.
    subst marks
    have above : Path run now (Fiber.above (held.map Lease.frame ++ rest)
        ⟨⟨env, []⟩, .evaluating (body v)⟩) later φ' := path'
    obtain ⟨φ, own, byItself, ⟨busy, rfl, rfl⟩ | ⟨spent, own', rfl, ended⟩⟩ := above.of_above
    · exact .running yields acquired byItself busy
    · obtain ⟨⟨env', frames⟩, doing⟩ := φ
      obtain ⟨rfl, x, rfl⟩ := spent
      rw [List.append_assoc]
      exact (Ends.ran yields acquired byItself).use ended

/-- A fiber that has come to the end of all its frames has come to the end of the use. -/
theorem Use.used {env₁ : Env} {y : Exit}
    (h : Use run now r body env rest own ⟨⟨env₁, []⟩, .unwinding y⟩) :
    ∃ z ms env' later, Used run now r body env z ms env' ∧ own = later ++ ms := by
  generalize same : (⟨⟨env₁, []⟩, .unwinding y⟩ : Fiber) = φ' at h
  have frames : φ'.frames = [] := congrArg Fiber.frames same.symm
  have doing : φ'.doing = .unwinding y := congrArg Fiber.doing same.symm
  cases h with
  | acquiring pending => cases pending <;> cases doing
  | @running held v ms own φ yields acquired path busy =>
    exact (busy ⟨(List.append_eq_nil_iff.mp frames).1, y, doing⟩).elim
  | releasing ends releasing =>
    cases releasing with
    | between => cases frames
    | inside => cases doing
  | past used path => exact ⟨_, _, _, _, used, rfl⟩

end

namespace Runtime

variable {σ σ' : Runtime} {run : TokenId} {r : Resource} {body : Value → Effect} {env : Env}
  {rest : List Frame}

/-- What has become of a use, with the marks that its fiber has left since: it is under way or
over, the fiber has ended behind it, or the fiber was lost on the way, by a panic in its strand
or because it was to go on in a closed context. -/
inductive UseCourse (σ' : Runtime) (run : TokenId) (r : Resource) (body : Value → Effect)
    (env : Env) (rest : List Frame) (marks : List Moment) : Prop
  | there {φ' : Fiber} (use : Use run σ'.store r body env rest marks φ')
      (mem : (run, φ') ∈ σ'.crew)
  | ended {z : Exit} {env' : Env} {ms later : List Moment}
      (used : Used run σ'.store r body env z ms env') (split : marks = later ++ ms)
      (gone : env.token ∉ badges σ'.crew)
  | failed {φ' : Fiber} {own last : List Moment} (use : Use run σ'.store r body env rest own φ')
      (failed : σ'.Failed run) (split : marks = last ++ own) (gone : env.token ∉ badges σ'.crew)
  | refused {loop : Loop} {context : Context} {own : List Moment} {m : Moment}
      (use : Use run σ'.store r body env rest own ⟨loop, .evaluating (.shift context)⟩)
      (closed : context.isOpen = false) (split : marks = m :: own)
      (gone : env.token ∉ badges σ'.crew)

/-- A fiber that begins to use a resource acquires its leaves in order, runs the body on the value
of the tree, and releases what it has acquired in the opposite order, whatever fails on the way
and whenever it is cancelled. -/
theorem Reachable.use_resource (h : Reachable σ)
    (mem : (run, ⟨⟨env, rest⟩, .evaluating (r.use body)⟩) ∈ σ.crew) (steps : Steps σ σ') :
    ∃ new, σ'.log = new ++ σ.log ∧ UseCourse σ' run r body env rest (ownOf env.token new) := by
  obtain ⟨new, log, course⟩ := Steps.course h mem steps
  refine ⟨new, log, ?_⟩
  cases course with
  | there path mem' => exact .there path.use mem'
  | @parted φ' own last path parting marks gone =>
    have use := path.use
    cases parting with
    | ended spent =>
      subst spent
      obtain ⟨z, ms, env', later, used, rfl⟩ := use.used
      rw [← List.append_assoc] at marks
      exact .ended used marks gone
    | failed failed => exact .failed use failed marks gone
    | faulted failed enters => exact .failed use failed marks gone
    | refused closed sent =>
      subst sent
      exact .refused use closed marks gone

/-- The second of two leaves fails: the first is released, with that failure. -/
theorem use_resource_second_fails : ∃ σ σ' new env r body, Reachable σ ∧
    (0, ⟨⟨env, []⟩, .evaluating (r.use body)⟩) ∈ σ.crew ∧ Steps σ σ' ∧ σ'.log = new ++ σ.log ∧
    (ownOf env.token new).map Moment.event =
      [.left 0 (.errored .null), .releaseFinished 0 0 (.succeeded .null),
        .releaseStarted 0 0 (.errored .null), .notAcquired 0 (.errored .null),
        .entered 0 .acquisition, .useStarted 0 0, .acquired 0 0 .null, .entered 0 .acquisition] ∧
    UseCourse σ' 0 r body env [] (ownOf env.token new) := by
  let r := (Resource.eval Effect.unit).flatMap fun _ => Resource.eval (.fail .null)
  let effect := r.use Effect.pure
  let poll := Segment.poll ⟨1, "main"⟩ 30 (.start ⟨⟨0, Context.home, []⟩, []⟩ effect)
    (starting effect Context.home).store
  have came : poll = (.ended (.errored .null), poll.2) := rfl
  obtain ⟨marks, logged, steps⟩ := steps_of_starting rfl came
  have reach := reachable_starting effect Context.home
  have mem := mem_crew_starting effect Context.home
  obtain ⟨new, log, course⟩ := Reachable.use_resource reach mem steps
  obtain rfl : marks = new := log.trans (List.append_nil new)
  refine ⟨_, _, marks, _, r, Effect.pure, reach, mem, steps, log, ?_, course⟩
  rw [map_ownOf, logged.events]
  rfl

/-- A body goes on in a closed context: the run ends, without a panic and uncancelled, and the
lease is not released. -/
theorem lease_lost_in_closed_context : ∃ σ σ' new env context, Reachable σ ∧
    (0, ⟨⟨env, []⟩, .evaluating ((Resource.make Effect.unit fun _ _ => Effect.unit).use
      fun _ => .shift context)⟩) ∈ σ.crew ∧ Steps σ σ' ∧ σ'.log = new ++ σ.log ∧
    (∀ τ ∈ σ'.strands, τ.state = .ended .canceled) ∧ σ'.store.isCancelled env.token = false ∧
    (ownOf env.token new).map Moment.event =
      [.entered 0 .shift, .useStarted 0 0, .acquired 0 0 .null, .entered 0 .acquisition] := by
  let dead : Context := { thread := "dead", isOpen := false }
  let effect := (Resource.make Effect.unit fun _ _ => Effect.unit).use fun _ => .shift dead
  let poll := Segment.poll ⟨1, "main"⟩ 20 (.start ⟨⟨0, Context.home, []⟩, []⟩ effect)
    (starting effect Context.home).store
  have came : poll = (.ended .canceled, poll.2) := rfl
  obtain ⟨marks, logged, steps⟩ := steps_of_starting rfl came
  have spawned : poll.2.spawned = [] := rfl
  rw [spawned] at steps
  have ended : ∀ τ ∈ (⟨0, .root, .ended .canceled⟩ ::ₘ 0 : Multiset Strand),
      τ.state = .ended .canceled := fun τ mem => (Multiset.mem_singleton.mp mem) ▸ rfl
  have log : marks = marks ++ (starting effect Context.home).log := (List.append_nil _).symm
  refine ⟨_, _, marks, ⟨0, Context.home, []⟩, dead, reachable_starting effect Context.home,
    mem_crew_starting effect Context.home, steps, log, ended, rfl, ?_⟩
  rw [map_ownOf, logged.events]
  rfl

end Runtime

end EffectFibers
