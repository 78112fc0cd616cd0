import EffectFibers.Proofs.FiberStep

/-!
# Lawful traces

`Lawful` says of a trace, newest event first, that each event about a bracket was allowed by
what had happened before it: brackets are numbered upwards, a use begins once and before the
release, a release begins once, for an acquired bracket, and after the releases of all brackets
that its fiber acquired inside have ended.

## Main statements

* `Lawful.fiber_unique`: a bracket is acquired by one fiber.
* `Lawful.countP_releaseStarted_le`: a release begins at most once.
-/

namespace EffectFibers

namespace Event

/-- The bracket that a mark is about. -/
def bracket? : Event → Option BracketId
  | .acquired _ b _ | .useStarted _ b | .releaseStarted _ b _ | .releaseFinished _ b _ => some b
  | _ => none

/-- Whether the event begins the release of a bracket. -/
def startsRelease (b : BracketId) : Event → Bool
  | .releaseStarted _ b' _ => b' == b
  | _ => false

/-- Whether the past allows an event. -/
def Allowed (past : List Event) : Event → Prop
  | .acquired _ b _ => ∀ t b' v, .acquired t b' v ∈ past → b' < b
  | .useStarted t b => (∃ v, .acquired t b v ∈ past) ∧ (∀ t', .useStarted t' b ∉ past) ∧
      ∀ t' x, .releaseStarted t' b x ∉ past
  | .releaseStarted t b _ => (∃ v, .acquired t b v ∈ past) ∧
      (∀ t' x, .releaseStarted t' b x ∉ past) ∧
      ∀ b' v, b < b' → .acquired t b' v ∈ past → ∃ y, .releaseFinished t b' y ∈ past
  | .releaseFinished t b _ => (∃ x, .releaseStarted t b x ∈ past) ∧
      ∀ t' y, .releaseFinished t' b y ∉ past
  | _ => True

theorem allowed_of_bracket?_eq_none {past : List Event} {e : Event} (h : e.bracket? = none) :
    e.Allowed past := by
  cases e with
  | acquired | useStarted | releaseStarted | releaseFinished => cases h
  | _ => trivial

/-- A part of the past that has all the marks of a fiber allows what the past allowed it. -/
theorem Allowed.part {past part : List Event} {e : Event} (h : e.Allowed past)
    (sub : part ⊆ past) (own : ∀ e' ∈ past, e'.fiber?.isSome → e'.fiber? = e.fiber? → e' ∈ part) :
    e.Allowed part := by
  cases e with
  | acquired t b v => exact fun t' b' v' mem => h t' b' v' (sub mem)
  | useStarted t b =>
    obtain ⟨⟨v, acquired⟩, unused, unreleased⟩ := h
    exact ⟨⟨v, own _ acquired rfl rfl⟩, fun t' mem => unused t' (sub mem),
      fun t' x mem => unreleased t' x (sub mem)⟩
  | releaseStarted t b x =>
    obtain ⟨⟨v, acquired⟩, unreleased, nested⟩ := h
    refine ⟨⟨v, own _ acquired rfl rfl⟩, fun t' x mem => unreleased t' x (sub mem), ?_⟩
    intro b' v' inner acquired'
    obtain ⟨y, finished⟩ := nested b' v' inner (sub acquired')
    exact ⟨y, own _ finished rfl rfl⟩
  | releaseFinished t b y =>
    obtain ⟨⟨x, started⟩, unfinished⟩ := h
    exact ⟨⟨x, own _ started rfl rfl⟩, fun t' y mem => unfinished t' y (sub mem)⟩
  | _ => trivial

end Event

/-- Each event of the trace was allowed by its past. -/
def Lawful : List Event → Prop
  | [] => True
  | e :: past => e.Allowed past ∧ Lawful past

namespace Lawful

variable {es : List Event} {t t' : TokenId} {b : BracketId} {v v' : Value} {x y : Exit}

/-- An event of a lawful trace was allowed by some of the older events. -/
theorem allowed (h : Lawful es) {e : Event} (mem : e ∈ es) :
    ∃ past, past.Sublist es ∧ e.Allowed past := by
  induction es with
  | nil => cases mem
  | cons e' past ih =>
    obtain rfl | mem := List.mem_cons.mp mem
    · exact ⟨past, List.sublist_cons_self _ _, h.1⟩
    · obtain ⟨past', sub, allowed⟩ := ih h.2 mem
      exact ⟨past', sub.trans (List.sublist_cons_self _ _), allowed⟩

theorem acquired_of_releaseStarted (h : Lawful es) (mem : .releaseStarted t b x ∈ es) :
    ∃ v, .acquired t b v ∈ es := by
  obtain ⟨past, sub, ⟨v, acquired⟩, -⟩ := h.allowed mem
  exact ⟨v, sub.subset acquired⟩

theorem acquired_of_useStarted (h : Lawful es) (mem : .useStarted t b ∈ es) :
    ∃ v, .acquired t b v ∈ es := by
  obtain ⟨past, sub, ⟨v, acquired⟩, -⟩ := h.allowed mem
  exact ⟨v, sub.subset acquired⟩

theorem releaseStarted_of_releaseFinished (h : Lawful es) (mem : .releaseFinished t b y ∈ es) :
    ∃ x, .releaseStarted t b x ∈ es := by
  obtain ⟨past, sub, ⟨x, started⟩, -⟩ := h.allowed mem
  exact ⟨x, sub.subset started⟩

/-- Whoever speaks of a bracket, it was acquired. -/
theorem acquired_of_bracket? (h : Lawful es) {e : Event} (mem : e ∈ es)
    (about : e.bracket? = some b) : ∃ t v, .acquired t b v ∈ es := by
  cases e with
  | acquired t b' v => cases about; exact ⟨t, v, mem⟩
  | useStarted t b' => cases about; exact ⟨t, h.acquired_of_useStarted mem⟩
  | releaseStarted t b' x => cases about; exact ⟨t, h.acquired_of_releaseStarted mem⟩
  | releaseFinished t b' y =>
    cases about
    obtain ⟨x, started⟩ := h.releaseStarted_of_releaseFinished mem
    exact ⟨t, h.acquired_of_releaseStarted started⟩
  | _ => cases about

theorem fiber_unique (h : Lawful es) (mem : .acquired t b v ∈ es) (mem' : .acquired t' b v' ∈ es) :
    t = t' := by
  induction es with
  | nil => cases mem
  | cons e past ih =>
    obtain rfl | older := List.mem_cons.mp mem
    · obtain same | older' := List.mem_cons.mp mem'
      · cases same
        rfl
      · exact absurd (h.1 t' b v' older') (Nat.lt_irrefl b)
    · obtain rfl | older' := List.mem_cons.mp mem'
      · exact absurd (h.1 t b v older) (Nat.lt_irrefl b)
      · exact ih h.2 older older'

theorem countP_releaseStarted_le (h : Lawful es) (b : BracketId) :
    es.countP (Event.startsRelease b) ≤ 1 := by
  induction es with
  | nil => simp
  | cons e past ih =>
    rw [List.countP_cons]
    cases e with
    | releaseStarted t b' x =>
      by_cases same : b' = b
      · subst same
        have none : past.countP (Event.startsRelease b') = 0 := by
          refine List.countP_eq_zero.mpr fun e mem starts => ?_
          cases e with
          | releaseStarted t' b'' x' =>
            obtain rfl : b'' = b' := by simpa [Event.startsRelease] using starts
            exact h.1.2.1 t' x' mem
          | _ => cases starts
        simp [none, Event.startsRelease]
      · simpa [Event.startsRelease, same] using ih h.2
    | _ => simpa [Event.startsRelease] using ih h.2

theorem countP_releaseStarted (h : Lawful es) (mem : .releaseStarted t b x ∈ es) :
    es.countP (Event.startsRelease b) = 1 :=
  Nat.le_antisymm (h.countP_releaseStarted_le b)
    (List.countP_pos_iff.mpr ⟨_, mem, by simp [Event.startsRelease]⟩)

end Lawful

end EffectFibers
