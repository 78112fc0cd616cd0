import EffectFibers.Proofs.Lawful
import EffectFibers.Proofs.Ledger

/-!
# The brackets of a fiber

A fiber keeps the brackets that it has acquired on the stack of its frames, innermost first, and
the one whose release is under way beside it.  `Fiber.Kept` says that this is what the trace says
of the fiber.  A step of the fiber does one of four things to its brackets (`BracketStep`), and
each of them is allowed by the past and keeps the account.

## Main statements

* `Fiber.Step.brackets`: what a step does to the brackets of the fiber.
* `Runtime.Reachable.accounted`: in every reachable runtime the trace is lawful, every fiber
  has kept its account, and every acquired bracket is still on the stack of a fiber, or its
  release has ended, or its run was cut off.
-/

namespace EffectFibers

def Frame.bracket? : Frame → Option BracketId
  | .release b _ => some b
  | _ => none

namespace Fiber

/-- The brackets that wait for their release, innermost first. -/
def opened (φ : Fiber) : List BracketId := φ.frames.filterMap Frame.bracket?

/-- The bracket whose release is under way. -/
def closing (φ : Fiber) : Option BracketId :=
  match φ.doing with
  | .releasing b _ => some b
  | _ => none

def stack (φ : Fiber) : List BracketId := φ.closing.toList ++ φ.opened

end Fiber

/-- What a step of a fiber, with its marks, does to the brackets of the fiber. -/
inductive BracketStep (s : Store) (φ : Fiber) (ms : List Event) (φ' : Fiber) : Prop
  | quiet (silent : ∀ e ∈ ms, e.bracket? = none) (before : φ.closing = none)
      (after : φ'.closing = none) (opened : φ'.opened = φ.opened)
  | acquire {v : Value} (before : φ.closing = none) (after : φ'.closing = none)
      (opened : φ'.opened = s.brackets :: φ.opened)
      (marks : ms = [.acquired φ.token s.brackets v] ∨
        ms = [.useStarted φ.token s.brackets, .acquired φ.token s.brackets v])
  | start {b : BracketId} {x : Exit} (before : φ.closing = none) (after : φ'.closing = some b)
      (opened : φ.opened = b :: φ'.opened) (marks : ms = [.releaseStarted φ.token b x])
  | finish {b : BracketId} {y : Exit} (before : φ.closing = some b) (after : φ'.closing = none)
      (opened : φ'.opened = φ.opened) (marks : ms = [.releaseFinished φ.token b y])

theorem Fiber.Step.brackets {s : Store} {φ φ' : Fiber} {ms : List Event} (h : φ.Step s ms φ') :
    BracketStep s φ ms φ' := by
  cases h with
  | acquired => exact .acquire rfl rfl rfl (.inr rfl)
  | acquiredLate => exact .acquire rfl rfl rfl (.inl rfl)
  | release => exact .start rfl rfl rfl rfl
  | released => exact .finish rfl rfl rfl rfl
  | @skipped env frame frames x h =>
    refine .quiet (by simp) rfl rfl ?_
    cases frame with
    | release => cases h
    | _ => rfl
  | _ => exact .quiet (by simp [Event.bracket?]) rfl rfl rfl

/-- The marks are about brackets of the fiber, or about a new one. -/
theorem BracketStep.about {s : Store} {φ φ' : Fiber} {ms : List Event}
    (h : BracketStep s φ ms φ') {e : Event} (mem : e ∈ ms) {b : BracketId}
    (about : e.bracket? = some b) : b ∈ φ.stack ∨ b = s.brackets := by
  obtain ⟨silent, -, -, -⟩ | ⟨-, -, -, rfl | rfl⟩ | ⟨before, -, opened, rfl⟩ |
    ⟨before, -, -, rfl⟩ := h
  · simp [silent e mem] at about
  · cases List.mem_singleton.mp mem
    cases about
    exact .inr rfl
  · obtain rfl | rfl : e = _ ∨ e = _ := by simpa using mem
    · cases about
      exact .inr rfl
    · cases about
      exact .inr rfl
  · cases List.mem_singleton.mp mem
    cases about
    exact .inl (by simp [Fiber.stack, opened])
  · cases List.mem_singleton.mp mem
    cases about
    exact .inl (by simp [Fiber.stack, before])

/-- After its step the fiber still has each bracket that it had, or has released it. -/
theorem BracketStep.kept {s : Store} {φ φ' : Fiber} {ms : List Event}
    (h : BracketStep s φ ms φ') {b : BracketId} (mem : b ∈ φ.stack) :
    b ∈ φ'.stack ∨ ∃ y, .releaseFinished φ.token b y ∈ ms := by
  obtain ⟨-, before, after, opened⟩ | ⟨before, after, opened, -⟩ | ⟨before, after, opened, -⟩ |
    ⟨before, after, opened, rfl⟩ := h
  all_goals simp only [Fiber.stack, before, after, opened, Option.toList_some, Option.toList_none,
    List.nil_append, List.cons_append, List.mem_cons] at mem ⊢
  · exact .inl mem
  · exact .inl (.inr mem)
  · exact .inl mem
  · obtain rfl | mem := mem
    · exact .inr ⟨_, .inl rfl⟩
    · exact .inl mem

theorem BracketStep.stacked {s : Store} {φ φ' : Fiber} {ms : List Event}
    (h : BracketStep s φ ms φ') {t : TokenId} {b : BracketId} {v : Value}
    (mem : .acquired t b v ∈ ms) : b ∈ φ'.stack := by
  obtain ⟨silent, -, -, -⟩ | ⟨-, -, opened, rfl | rfl⟩ | ⟨-, -, -, rfl⟩ | ⟨-, -, -, rfl⟩ := h
  · exact nomatch silent _ mem
  · cases List.mem_singleton.mp mem
    simp [Fiber.stack, opened]
  · obtain ⟨rfl, rfl, rfl⟩ : t = φ.token ∧ b = s.brackets ∧ v = _ := by simpa using mem
    simp [Fiber.stack, opened]
  · simp at mem
  · simp at mem

/-! ## Accounts -/

/-- The trace says of the fiber what its stack says. -/
structure Fiber.Kept (es : List Event) (φ : Fiber) : Prop where
  sorted : φ.stack.Pairwise (· > ·)
  acquired : ∀ b ∈ φ.stack, ∃ v, .acquired φ.token b v ∈ es
  unstarted : ∀ b ∈ φ.opened, ∀ t x, .releaseStarted t b x ∉ es
  started : ∀ b, φ.closing = some b → ∃ x, .releaseStarted φ.token b x ∈ es
  unfinished : ∀ b ∈ φ.stack, ∀ t y, .releaseFinished t b y ∉ es
  complete : ∀ b v, .acquired φ.token b v ∈ es →
    b ∈ φ.stack ∨ ∃ y, .releaseFinished φ.token b y ∈ es

/-- All brackets of the trace have numbers below a bound. -/
def Numbered (bound : BracketId) (es : List Event) : Prop :=
  ∀ t b v, .acquired t b v ∈ es → b < bound

namespace Fiber.Kept

variable {s : Store} {es ms : List Event} {φ φ' : Fiber}

theorem opened_subset {b : BracketId} (mem : b ∈ φ.opened) : b ∈ φ.stack :=
  List.mem_append_right _ mem

/-- Marks about other brackets, of other fibers, change nothing. -/
theorem frame (h : φ.Kept es) (token : φ'.token = φ.token) (closing : φ'.closing = φ.closing)
    (opened : φ'.opened = φ.opened)
    (other : ∀ e ∈ ms, ∀ b, e.bracket? = some b → b ∉ φ.stack ∧ e.fiber? ≠ some φ.token) :
    φ'.Kept (ms ++ es) := by
  have stack : φ'.stack = φ.stack := by simp [stack, closing, opened]
  have old : ∀ e, (∃ b, e.bracket? = some b ∧ (b ∈ φ.stack ∨ e.fiber? = some φ.token)) →
      e ∈ ms ++ es → e ∈ es := fun e ⟨b, about, own⟩ mem => by
    refine (List.mem_append.mp mem).resolve_left fun inside => ?_
    obtain ⟨notStack, notFiber⟩ := other e inside b about
    exact own.elim notStack notFiber
  refine ⟨stack ▸ h.sorted, ?_, ?_, ?_, ?_, ?_⟩
  · intro b mem
    obtain ⟨v, acquired⟩ := h.acquired b (stack ▸ mem)
    exact ⟨v, List.mem_append_right _ (token ▸ acquired)⟩
  · intro b mem t x started
    rw [opened] at mem
    exact h.unstarted b mem t x (old _ ⟨b, rfl, .inl (opened_subset mem)⟩ started)
  · intro b same
    obtain ⟨x, started⟩ := h.started b (closing ▸ same)
    exact ⟨x, List.mem_append_right _ (token ▸ started)⟩
  · intro b mem t y finished
    rw [stack] at mem
    exact h.unfinished b mem t y (old _ ⟨b, rfl, .inl mem⟩ finished)
  · intro b v acquired
    rw [token] at acquired ⊢
    rw [stack]
    obtain mem | ⟨y, finished⟩ := h.complete b v (old _ ⟨b, rfl, .inr rfl⟩ acquired)
    · exact .inl mem
    · exact .inr ⟨y, List.mem_append_right _ finished⟩

theorem lawful_quiet (lawful : Lawful es) (silent : ∀ e ∈ ms, e.bracket? = none) :
    Lawful (ms ++ es) := by
  induction ms with
  | nil => exact lawful
  | cons e ms ih =>
    exact ⟨Event.allowed_of_bracket?_eq_none (silent e (List.mem_cons_self ..)),
      ih fun e mem => silent e (List.mem_cons_of_mem _ mem)⟩

/-- A new bracket is the innermost one. -/
theorem acquire (h : φ.Kept es) (lawful : Lawful es) (numbered : Numbered s.brackets es)
    (token : φ'.token = φ.token) (before : φ.closing = none) (after : φ'.closing = none)
    (opened : φ'.opened = s.brackets :: φ.opened) {v : Value}
    (marks : ms = [.acquired φ.token s.brackets v] ∨
      ms = [.useStarted φ.token s.brackets, .acquired φ.token s.brackets v]) :
    Lawful (ms ++ es) ∧ φ'.Kept (ms ++ es) := by
  have new : ∀ e ∈ es, e.bracket? ≠ some s.brackets := fun e mem about => by
    obtain ⟨t, v, acquired⟩ := lawful.acquired_of_bracket? mem about
    exact Nat.lt_irrefl _ (numbered t _ v acquired)
  have acquired : Lawful (.acquired φ.token s.brackets v :: es) := ⟨numbered, lawful⟩
  have same : φ.stack = φ.opened := by simp [Fiber.stack, before]
  have stack : φ'.stack = s.brackets :: φ.opened := by simp [Fiber.stack, after, opened]
  have inMarks : Event.acquired φ.token s.brackets v ∈ ms := by
    obtain rfl | rfl := marks <;> simp
  have onlyNew : ∀ e ∈ ms, e.bracket? = some s.brackets ∧
      (∀ t b x, e ≠ .releaseStarted t b x) ∧ ∀ t b y, e ≠ .releaseFinished t b y := by
    obtain rfl | rfl := marks <;> simp [Event.bracket?]
  refine ⟨?_, ?_, ?_, ?_, ?_, ?_, ?_⟩
  · obtain rfl | rfl := marks
    · exact acquired
    · refine ⟨⟨⟨v, List.mem_cons_self ..⟩, fun t mem => ?_, fun t x mem => ?_⟩, acquired⟩
      · exact new _ ((List.mem_cons.mp mem).resolve_left nofun) rfl
      · exact new _ ((List.mem_cons.mp mem).resolve_left nofun) rfl
  · rw [stack]
    refine List.pairwise_cons.mpr ⟨fun b mem => ?_, same ▸ h.sorted⟩
    obtain ⟨v, acquired⟩ := h.acquired b (opened_subset mem)
    exact numbered _ b v acquired
  · intro b mem
    rw [token]
    rw [stack] at mem
    obtain rfl | mem := List.mem_cons.mp mem
    · exact ⟨v, List.mem_append_left _ inMarks⟩
    · obtain ⟨v, acquired⟩ := h.acquired b (opened_subset mem)
      exact ⟨v, List.mem_append_right _ acquired⟩
  · intro b mem t x started
    have older := (List.mem_append.mp started).resolve_left fun now =>
      (onlyNew _ now).2.1 t b x rfl
    rw [opened] at mem
    obtain rfl | mem := List.mem_cons.mp mem
    · exact new _ older rfl
    · exact h.unstarted b mem t x older
  · simp [after]
  · intro b mem t y finished
    have older := (List.mem_append.mp finished).resolve_left fun now =>
      (onlyNew _ now).2.2 t b y rfl
    rw [stack] at mem
    obtain rfl | mem := List.mem_cons.mp mem
    · exact new _ older rfl
    · exact h.unfinished b (opened_subset mem) t y older
  · intro b v acquired
    rw [token] at acquired ⊢
    rw [stack]
    obtain now | older := List.mem_append.mp acquired
    · obtain rfl := Option.some.inj (onlyNew _ now).1
      exact .inl (List.mem_cons_self ..)
    · obtain mem | ⟨y, finished⟩ := h.complete b v older
      · exact .inl (List.mem_cons_of_mem _ (same ▸ mem))
      · exact .inr ⟨y, List.mem_append_right _ finished⟩

/-- A release that begins is that of the innermost bracket. -/
theorem start (h : φ.Kept es) (lawful : Lawful es) (token : φ'.token = φ.token)
    {b : BracketId} {x : Exit} (before : φ.closing = none) (after : φ'.closing = some b)
    (opened : φ.opened = b :: φ'.opened) (marks : ms = [.releaseStarted φ.token b x]) :
    Lawful (ms ++ es) ∧ φ'.Kept (ms ++ es) := by
  subst marks
  have stack : φ'.stack = φ.stack := by simp [stack, before, after, opened]
  have head : b ∈ φ.stack := opened_subset (opened ▸ List.mem_cons_self ..)
  have sorted : (b :: φ'.opened).Pairwise (· > ·) := by
    have := h.sorted
    rwa [Fiber.stack, before, opened] at this
  have older : ∀ e, (∀ t b x, e ≠ .releaseStarted t b x) →
      e ∈ [.releaseStarted φ.token b x] ++ es → e ∈ es := fun e other mem =>
    (List.mem_append.mp mem).resolve_left fun now => other _ _ _ (List.mem_singleton.mp now)
  refine ⟨⟨⟨h.acquired b head, h.unstarted b (opened ▸ List.mem_cons_self ..), ?_⟩, lawful⟩,
    stack ▸ h.sorted, ?_, ?_, ?_, ?_, ?_⟩
  · intro b' v inner acquired
    refine (h.complete b' v acquired).resolve_left fun mem => ?_
    rw [Fiber.stack, before, opened] at mem
    obtain rfl | mem := List.mem_cons.mp mem
    · exact Nat.lt_irrefl _ inner
    · exact Nat.lt_asymm inner ((List.pairwise_cons.mp sorted).1 b' mem)
  · intro b' mem
    obtain ⟨v, acquired⟩ := h.acquired b' (stack ▸ mem)
    exact ⟨v, List.mem_append_right _ (token ▸ acquired)⟩
  · intro b' mem t x' started
    obtain now | older := List.mem_append.mp started
    · cases List.mem_singleton.mp now
      exact Nat.lt_irrefl _ ((List.pairwise_cons.mp sorted).1 b mem)
    · exact h.unstarted b' (opened ▸ List.mem_cons_of_mem _ mem) t x' older
  · intro b' same
    obtain rfl := Option.some.inj (after.symm.trans same)
    exact ⟨x, token ▸ List.mem_cons_self ..⟩
  · intro b' mem t y finished
    exact h.unfinished b' (stack ▸ mem) t y (older _ nofun finished)
  · intro b' v acquired
    rw [token] at acquired ⊢
    rw [stack]
    obtain mem | ⟨y, finished⟩ := h.complete b' v (older _ nofun acquired)
    · exact .inl mem
    · exact .inr ⟨y, List.mem_append_right _ finished⟩

/-- A release that ends takes its bracket off the stack. -/
theorem finish (h : φ.Kept es) (lawful : Lawful es) (token : φ'.token = φ.token)
    {b : BracketId} {y : Exit} (before : φ.closing = some b) (after : φ'.closing = none)
    (opened : φ'.opened = φ.opened) (marks : ms = [.releaseFinished φ.token b y]) :
    Lawful (ms ++ es) ∧ φ'.Kept (ms ++ es) := by
  subst marks
  have whole : φ.stack = b :: φ.opened := by simp [stack, before]
  have stack : φ'.stack = φ.opened := by simp [stack, after, opened]
  have sorted : (b :: φ.opened).Pairwise (· > ·) := whole ▸ h.sorted
  have older : ∀ e, (∀ t b x, e ≠ .releaseFinished t b x) →
      e ∈ [.releaseFinished φ.token b y] ++ es → e ∈ es := fun e other mem =>
    (List.mem_append.mp mem).resolve_left fun now => other _ _ _ (List.mem_singleton.mp now)
  refine ⟨⟨⟨h.started b before, h.unfinished b (whole ▸ List.mem_cons_self ..)⟩, lawful⟩,
    stack ▸ (List.pairwise_cons.mp sorted).2, ?_, ?_, ?_, ?_, ?_⟩
  · intro b' mem
    obtain ⟨v, acquired⟩ := h.acquired b' (opened_subset (stack ▸ mem))
    exact ⟨v, List.mem_append_right _ (token ▸ acquired)⟩
  · intro b' mem t x started
    exact h.unstarted b' (opened ▸ mem) t x (older _ nofun started)
  · simp [after]
  · intro b' mem t y' finished
    rw [stack] at mem
    obtain now | older := List.mem_append.mp finished
    · cases List.mem_singleton.mp now
      exact Nat.lt_irrefl _ ((List.pairwise_cons.mp sorted).1 b mem)
    · exact h.unfinished b' (opened_subset mem) t y' older
  · intro b' v acquired
    rw [token] at acquired ⊢
    rw [stack]
    obtain mem | ⟨y', finished⟩ := h.complete b' v (older _ nofun acquired)
    · rw [whole] at mem
      obtain rfl | mem := List.mem_cons.mp mem
      · exact .inr ⟨y, List.mem_cons_self ..⟩
      · exact .inl mem
    · exact .inr ⟨y', List.mem_append_right _ finished⟩

/-- A step of the fiber is allowed, and keeps the account. -/
theorem step (h : φ.Kept es) (lawful : Lawful es) (numbered : Numbered s.brackets es)
    (step : φ.Step s ms φ') : Lawful (ms ++ es) ∧ φ'.Kept (ms ++ es) := by
  have token := step.token
  obtain ⟨silent, before, after, opened⟩ | ⟨before, after, opened, marks⟩ |
    ⟨before, after, opened, marks⟩ | ⟨before, after, opened, marks⟩ := step.brackets
  · refine ⟨lawful_quiet lawful silent, h.frame token (after.trans before.symm) opened ?_⟩
    intro e mem b about
    simp [silent e mem] at about
  · exact h.acquire lawful numbered token before after opened marks
  · exact h.start lawful token before after opened marks
  · exact h.finish lawful token before after opened marks

end Fiber.Kept

/-! ## The accounts of all fibers -/

namespace Runtime

/-- The bracket of an acquisition is released, or on the stack of a fiber, or cut off. -/
def Settled (σ : Runtime) (run t : TokenId) (b : BracketId) : Prop :=
  (∃ y, .releaseFinished t b y ∈ σ.events) ∨
    (∃ φ, (run, φ) ∈ σ.crew ∧ φ.token = t ∧ b ∈ φ.stack) ∨ σ.Cut run

structure Accounted (σ : Runtime) : Prop where
  lawful : Lawful σ.events
  numbered : Numbered σ.store.brackets σ.events
  kept : ∀ m ∈ σ.crew, m.2.Kept σ.events
  settled : ∀ m ∈ σ.log, ∀ t b v, m.event = .acquired t b v → σ.Settled m.run t b

variable {σ σ' : Runtime}

/-- A fiber that has just begun has no brackets. -/
theorem kept_of_born {s s' : Store} {es : List Event} {φ : Fiber} (born : Born s s' φ)
    (marked : ∀ e ∈ es, ∀ t, e.fiber? = some t → t < s.size) : φ.Kept es := by
  obtain ⟨⟨env, effect, rfl⟩, fresh⟩ := born
  refine ⟨by simp [Fiber.stack, Fiber.closing, Fiber.opened, Fiber.frames],
    by simp [Fiber.stack, Fiber.closing, Fiber.opened, Fiber.frames],
    by simp [Fiber.opened, Fiber.frames], by simp [Fiber.closing],
    by simp [Fiber.stack, Fiber.closing, Fiber.opened, Fiber.frames], fun b v acquired => ?_⟩
  exact absurd (marked _ acquired _ rfl) (Nat.not_lt.mpr fresh.le)

/-- What the step of one fiber means for the account of another. -/
theorem Accounted.others (h : σ.Accounted) (manned : σ.Manned) {m m' : Member}
    (mem : m ∈ σ.crew) (mem' : m' ∈ σ.crew) (ne : m' ≠ m) {ms : List Event} {φ' : Fiber}
    (step : BracketStep σ.store m.2 ms φ') (own : ∀ e ∈ ms, e.fiber? = some m.2.token) :
    m'.2.Kept (ms ++ σ.events) := by
  have apart : m'.2.token ≠ m.2.token := fun same => ne (manned.unique mem' mem same)
  refine (h.kept m' mem').frame rfl rfl rfl fun e inMarks b about => ⟨fun inStack => ?_, ?_⟩
  · obtain ⟨v', acquired'⟩ := (h.kept m' mem').acquired b inStack
    obtain held | rfl := step.about inMarks about
    · obtain ⟨v, acquired⟩ := (h.kept m mem).acquired b held
      exact apart (h.lawful.fiber_unique acquired' acquired)
    · exact Nat.lt_irrefl _ (h.numbered _ _ v' acquired')
  · rw [own e inMarks]
    exact fun same => apart (Option.some.inj same).symm

/-- Nothing but marks that are about no bracket was added, and fibers were at most cut off. -/
theorem Accounted.quiet (h : σ.Accounted) (ages : σ.store.Ages σ'.store) (run : TokenId)
    (ms : List Event) (log : σ'.log = ms.map (.of run σ.store) ++ σ.log)
    (silent : ∀ e ∈ ms, e.bracket? = none) (crew : ∀ m ∈ σ'.crew, m ∈ σ.crew)
    (settled : ∀ run t b, σ.Settled run t b → σ'.Settled run t b) : σ'.Accounted := by
  have events := events_append log
  refine ⟨events ▸ Fiber.Kept.lawful_quiet h.lawful silent, ?_, ?_, ?_⟩
  · intro t b v mem
    rw [events] at mem
    have older := (List.mem_append.mp mem).resolve_left fun now => nomatch silent _ now
    exact Nat.lt_of_lt_of_le (h.numbered t b v older) ages.brackets
  · intro m mem
    rw [events]
    refine (h.kept m (crew m mem)).frame rfl rfl rfl fun e inMarks b about => ?_
    simp [silent e inMarks] at about
  · intro m mem t b v acquired
    rw [log] at mem
    obtain now | older := List.mem_append.mp mem
    · obtain ⟨e, inMarks, rfl⟩ := List.mem_map.mp now
      have none := silent e inMarks
      rw [show e = .acquired t b v from acquired] at none
      cases none
    · exact settled _ _ _ (h.settled m older t b v acquired)

theorem Accounted.act (h : σ.Accounted) (manned : σ.Manned) (ages : σ.store.Ages σ'.store)
    {run : TokenId} {φ φ' : Fiber} {ms : List Event} {born : Multiset Fiber}
    {rest : Multiset Member} (step : φ.Step σ.store ms φ')
    (fresh : ∀ χ ∈ born, Born σ.store σ'.store χ)
    (numbered : ∀ t b v, Event.acquired t b v ∈ ms → b < σ'.store.brackets)
    (crew : σ.crew = (run, φ) ::ₘ rest)
    (crew' : σ'.crew = (run, φ') ::ₘ (born.map (Prod.mk run) + rest))
    (log : σ'.log = ms.map (.of run σ.store) ++ σ.log)
    (cut : ∀ run, σ.Cut run → σ'.Cut run) : σ'.Accounted := by
  have events := events_append log
  have mem : (run, φ) ∈ σ.crew := crew ▸ Multiset.mem_cons_self _ _
  obtain ⟨lawful, kept⟩ := (h.kept _ mem).step h.lawful h.numbered step
  refine ⟨events ▸ lawful, ?_, ?_, ?_⟩
  · intro t b v mem
    rw [events] at mem
    obtain now | older := List.mem_append.mp mem
    · exact numbered t b v now
    · exact Nat.lt_of_lt_of_le (h.numbered t b v older) ages.brackets
  · intro m mem'
    rw [events]
    rw [crew'] at mem'
    obtain rfl | mem' := Multiset.mem_cons.mp mem'
    · exact kept
    obtain mem' | mem' := Multiset.mem_add.mp mem'
    · obtain ⟨χ, inBorn, rfl⟩ := Multiset.mem_map.mp mem'
      refine kept_of_born (fresh χ inBorn) fun e mem' t fiber => ?_
      obtain now | older := List.mem_append.mp mem'
      · obtain rfl := Option.some.inj ((step.marks e now).symm.trans fiber)
        exact manned.bound _ (mem_badges.mpr ⟨_, mem, rfl⟩)
      · exact manned.marked e older t fiber
    · have old : m ∈ σ.crew := crew ▸ Multiset.mem_cons_of_mem mem'
      have distinct := manned.distinct
      rw [crew, badges_cons] at distinct
      refine h.others manned mem old (fun same => ?_) step.brackets step.marks
      exact (Multiset.nodup_cons.mp distinct).1 (mem_badges.mpr ⟨m, mem', by rw [same]⟩)
  · intro m mem' t b v acquired
    have acts : (run, φ') ∈ σ'.crew := crew' ▸ Multiset.mem_cons_self _ _
    rw [log] at mem'
    obtain now | older := List.mem_append.mp mem'
    · obtain ⟨e, inMarks, rfl⟩ := List.mem_map.mp now
      obtain rfl : e = .acquired t b v := acquired
      obtain rfl := Option.some.inj (step.marks _ inMarks)
      exact .inr (.inl ⟨φ', acts, step.token, step.brackets.stacked inMarks⟩)
    · obtain ⟨y, finished⟩ | ⟨χ, inCrew, rfl, inStack⟩ | gone := h.settled m older t b v acquired
      · exact .inl ⟨y, events ▸ List.mem_append_right _ finished⟩
      · rw [crew] at inCrew
        obtain same | inRest := Multiset.mem_cons.mp inCrew
        · obtain ⟨rfl, rfl⟩ := Prod.mk.inj same
          obtain stays | ⟨y, finished⟩ := step.brackets.kept inStack
          · exact .inr (.inl ⟨φ', acts, step.token, stays⟩)
          · exact .inl ⟨y, events ▸ List.mem_append_left _ finished⟩
        · exact .inr (.inl ⟨χ, crew' ▸ by simp [inRest], rfl, inStack⟩)
      · exact .inr (.inr (cut _ gone))

theorem Accounted.step (h : σ.Accounted) (booked : σ.Booked) (manned : σ.Manned)
    (step : Step σ σ') : σ'.Accounted := by
  have ages := step.ages
  have cut : ∀ run, σ.Cut run → σ'.Cut run := fun run => step.cut booked
  have settled : ∀ (of : TokenId) (ms : List Event), σ'.log = ms.map (.of of σ.store) ++ σ.log →
      (∀ run φ, (run, φ) ∈ σ.crew → (run, φ) ∈ σ'.crew ∨ φ.stack = [] ∨ σ'.Cut run) →
      ∀ run t b, σ.Settled run t b → σ'.Settled run t b := by
    rintro of ms log stays run t b (⟨y, finished⟩ | ⟨φ, inCrew, rfl, inStack⟩ | gone)
    · exact .inl ⟨y, events_append log ▸ List.mem_append_right _ finished⟩
    · obtain stays | empty | gone := stays run φ inCrew
      · exact .inr (.inl ⟨φ, stays, rfl, inStack⟩)
      · simp [empty] at inStack
      · exact .inr (.inr gone)
    · exact .inr (.inr (cut run gone))
  cases step.move with
  | idle crew log =>
    exact h.quiet ages 0 [] log (by simp) (fun m mem => crew ▸ mem)
      (settled 0 [] log fun run φ mem => .inl (crew ▸ mem))
  | act step fresh _ numbered crew crew' log =>
    exact h.act manned ages step fresh numbered crew crew' log cut
  | @leave run env x crew log =>
    refine h.quiet ages run [.left env.token x] log (by simp [Event.bracket?])
      (fun m mem => crew ▸ Multiset.mem_cons_of_mem mem)
      (settled run [.left env.token x] log fun run' φ mem => ?_)
    rw [crew] at mem
    obtain same | mem := Multiset.mem_cons.mp mem
    · cases same
      exact .inr (.inl rfl)
    · exact .inl mem
  | @refuse run loop context closed aborted live crew log =>
    refine h.quiet ages run [.entered loop.env.token .shift] log (by simp [Event.bracket?])
      (fun m mem => crew ▸ Multiset.mem_cons_of_mem mem)
      (settled run [.entered loop.env.token .shift] log fun run' φ mem => ?_)
    exact .inr (.inr (.inr aborted))
  | @lose run gone ms crew same failed marks log =>
    refine h.quiet ages run ms log ?_ (fun m mem => crew ▸ Multiset.mem_add.mpr (.inr mem))
      (settled run ms log fun run' φ mem => ?_)
    · obtain rfl | ⟨φ, point, -, -, rfl⟩ := marks <;> simp [Event.bracket?]
    · rw [crew] at mem
      obtain inGone | mem := Multiset.mem_add.mp mem
      · obtain rfl : run' = run := same _ inGone
        exact .inr (.inr (.inl failed))
      · exact .inl mem
  | @begin φ fresh crew log =>
    have stays := settled 0 [] log fun run χ mem => .inl (crew ▸ Multiset.mem_cons_of_mem mem)
    have events : σ'.events = σ.events := by rw [events, log, ← events]
    refine ⟨events ▸ h.lawful, fun t b v mem => ?_, fun m mem => ?_, fun m mem t b v acquired => ?_⟩
    · exact Nat.lt_of_lt_of_le (h.numbered t b v (events ▸ mem)) ages.brackets
    · rw [events]
      rw [crew] at mem
      obtain rfl | mem := Multiset.mem_cons.mp mem
      · exact kept_of_born fresh manned.marked
      · exact h.kept m mem
    · exact stays _ _ _ (h.settled m (log ▸ mem) t b v acquired)

theorem Reachable.accounted (h : Reachable σ) : σ.Accounted := by
  induction h with
  | refl =>
    exact ⟨by simp [events, Lawful], by simp [Numbered, events], by simp [crew_empty], by simp⟩
  | tail reach step ih =>
    exact ih.step (Reachable.booked reach) (Reachable.manned reach) step

end Runtime

end EffectFibers
