import EffectFibers.Cell.Trial
import EffectFibers.Proofs.CellCourse

/-!
# Procedures on a cell

A `Procedure` is anything that may be done to one cell: loads, swaps against a snapshot that was
taken before, plain swaps, and updates whose function is again a procedure, to any depth.  A
snapshot is called by its place among those that were taken, so a procedure may keep one for as
long as it likes.  An update that is repeated until it succeeds makes as many attempts as that
takes.

## Main statements

* `Procedure.run_went`, `Trial.perform_went`: whatever is done to a cell is a course, and the
  snapshots are loads at some point of it.
* `Cell.Course.generations`: what is so of a cell at any point of its course.
-/

namespace EffectFibers

variable {α β σ : Type}

/-- A cell and the snapshots that were taken of it, oldest first. -/
structure Bench (α : Type) where
  cell : Cell α
  taken : List (Snapshot α) := []

namespace Bench

def place : Place (Bench α) α := ⟨(·.cell), fun cell b => { b with cell }⟩

def keep (b : Bench α) (s : Snapshot α) : Bench α := { b with taken := b.taken ++ [s] }

end Bench

inductive Procedure (α β : Type) where
  | finish (result : Except Fault (α × β))
  /-- What comes next is told the place of the snapshot and its value. -/
  | load (next : Nat → α → Procedure α β)
  /-- Next comes whether the swap succeeded, and the snapshot that it gave. -/
  | compareAndSwap (expected : Nat) (value : α) (next : Bool → Nat → α → Procedure α β)
  | swap (value : α) (next : α → Procedure α β)
  /-- An update whose calls are procedures themselves. -/
  | modify (attempts : Nat) (f : Nat → α → Procedure α β) (next : Option β → Procedure α β)

namespace Procedure

def run : Procedure α β → Bench α → Except Fault (α × β) × Bench α
  | .finish result, b => (result, b)
  | .load next, b => (next b.taken.length b.cell.value).run (b.keep b.cell.load)
  | .compareAndSwap i v next, b =>
    match b.taken[i]? with
    | none => (.error (.malformed .noSnapshot), b)
    | some s =>
      match b.cell.compareAndSwap s v with
      | (.ok s', cell) => (next true b.taken.length s'.value).run (Bench.keep { b with cell } s')
      | (.error s', cell) =>
        (next false b.taken.length s'.value).run (Bench.keep { b with cell } s')
  | .swap v next, b =>
    let (old, cell) := b.cell.swap v
    (next old).run { b with cell }
  | .modify attempts f next, b =>
    match Cell.retry Bench.place (fun k old b => (f k old).run b) (fun _ b => b) attempts 0 b with
    | (.ok output, b) => (next output).run b
    | (.error fault, b) => (.error fault, b)

end Procedure

/-! ## What a procedure does to the cell -/

namespace Cell

variable {c c' c'' : Cell α} {newer past : List (Change α)} {s : Snapshot α}

/-- A snapshot was taken at some point of a course. -/
def Seen (c : Cell α) (changes : List (Change α)) (c' : Cell α) (s : Snapshot α) : Prop :=
  ∃ newer past c₁, changes = newer ++ past ∧ Course c past c₁ ∧ Course c₁ newer c' ∧ s = c₁.load

theorem Seen.before (seen : Seen c past c' s) (h : Course c' newer c'') :
    Seen c (newer ++ past) c'' s := by
  obtain ⟨newer', past', c₁, rfl, earlier, later, rfl⟩ := seen
  exact ⟨newer ++ newer', past', c₁, (List.append_assoc ..).symm, earlier, later.trans h, rfl⟩

theorem Seen.after (seen : Seen c' newer c'' s) (h : Course c past c') :
    Seen c (newer ++ past) c'' s := by
  obtain ⟨newer', past', c₁, rfl, earlier, later, rfl⟩ := seen
  exact ⟨newer', past' ++ past, c₁, List.append_assoc .., h.trans earlier, later, rfl⟩

end Cell

open Cell (Change Course Seen Calm)

namespace Bench

/-- The cell went through changes, and the snapshots taken meanwhile were all taken on the way. -/
structure Went (b : Bench α) (changes : List (Change α)) (b' : Bench α) : Prop where
  course : Course b.cell changes b'.cell
  taken : ∃ fresh, b'.taken = b.taken ++ fresh ∧ ∀ s ∈ fresh, Seen b.cell changes b'.cell s

namespace Went

variable {b b' b'' : Bench α} {newer past : List (Change α)}

theorem refl (b : Bench α) : Went b [] b := ⟨.start, [], by simp, nofun⟩

theorem trans (h : Went b past b') (h' : Went b' newer b'') : Went b (newer ++ past) b'' := by
  obtain ⟨fresh, taken, seen⟩ := h.taken
  obtain ⟨fresh', taken', seen'⟩ := h'.taken
  refine ⟨h.course.trans h'.course, fresh ++ fresh', ?_, fun s hs => ?_⟩
  · rw [taken', taken, List.append_assoc]
  · obtain hs | hs := List.mem_append.mp hs
    · exact (seen s hs).before h'.course
    · exact (seen' s hs).after h.course

theorem store (b : Bench α) (v : α) :
    Went b [.wrote b.cell.value v] { b with cell := b.cell.store v } :=
  ⟨.wrote .start v, [], by simp, nofun⟩

theorem discard (b : Bench α) (v : α) :
    Went b [.missed v] { b with cell := b.cell.discard v } :=
  ⟨.missed .start v, [], by simp, nofun⟩

/-- A snapshot is kept of the cell as it is. -/
theorem keep (h : Went b past b') : Went b past (b'.keep b'.cell.load) := by
  obtain ⟨fresh, taken, seen⟩ := h.taken
  refine ⟨h.course, fresh ++ [b'.cell.load], ?_, fun s hs => ?_⟩
  · rw [Bench.keep, taken, List.append_assoc]
  · obtain hs | hs := List.mem_append.mp hs
    · exact seen s hs
    · rw [List.mem_singleton.mp hs]
      exact ⟨[], past, b'.cell, rfl, h.course, .start, rfl⟩

end Went

/-- A cell came from another by changes. -/
def Leads (b b' : Bench α) : Prop := ∃ changes, Went b changes b'

theorem Leads.refl (b : Bench α) : Leads b b := ⟨[], .refl b⟩

theorem Leads.trans {b b' b'' : Bench α} (h : Leads b b') (h' : Leads b' b'') : Leads b b'' := by
  obtain ⟨past, h⟩ := h
  obtain ⟨newer, h'⟩ := h'
  exact ⟨_, h.trans h'⟩

end Bench

open Bench (Went Leads)

/-- Whatever a procedure does to a cell is a course. -/
theorem Procedure.run_went (p : Procedure α β) (b : Bench α) : Leads b (p.run b).2 := by
  induction p generalizing b with
  | finish result => exact .refl b
  | load next ih =>
    have kept : Leads b (b.keep b.cell.load) := ⟨[], (Went.refl b).keep⟩
    exact kept.trans (ih _ _ _)
  | compareAndSwap i v next ih =>
    rw [run]
    rcases b.taken[i]? with _ | s
    · exact .refl b
    · simp only [Cell.compareAndSwap_eq]
      split
      · next s' c' swap =>
        split at swap <;> cases swap
        have swapped : Leads b _ := ⟨_, (Went.store b v).keep⟩
        exact swapped.trans (ih _ _ _ _)
      · next s' c' swap =>
        split at swap <;> cases swap
        have missed : Leads b _ := ⟨_, (Went.discard b v).keep⟩
        exact missed.trans (ih _ _ _ _)
  | swap v next ih => exact .trans ⟨_, .store b v⟩ (ih _ _)
  | modify attempts f next ihf ihn =>
    have looped : Leads b (Cell.retry Bench.place (fun k old b => (f k old).run b) (fun _ b => b)
        attempts 0 b).2 :=
      Cell.retry_rel Leads.refl Leads.trans (fun b v => ⟨_, .store b v⟩)
        (fun b v => ⟨_, .discard b v⟩) ihf (fun _ => Leads.refl) attempts 0 b
    rw [run]
    rcases made :
      Cell.retry Bench.place (fun k old b => (f k old).run b) (fun _ b => b) attempts 0 b
      with ⟨x | output, b'⟩ <;> rw [made] at looped
    · exact looped
    · exact looped.trans (ihn output b')

/-- The cell of one state came from the cell of another by changes. -/
def Place.Leads (place : Place σ α) (s t : σ) : Prop :=
  ∃ changes, Course (place.get s) changes (place.get t)

/-- An update is a course if its calls are.  The calls may look at all there is to the state. -/
theorem Cell.retry_leads {place : Place σ α} (sets : ∀ s c, place.get (place.set c s) = c)
    {f : Nat → α → σ → Except Fault (α × β) × σ} (call : ∀ k old s, place.Leads s (f k old s).2)
    {lost : Nat → σ → σ} (loses : ∀ k s, place.Leads s (lost k s)) (n k : Nat) (s : σ) :
    place.Leads s (retry place f lost n k s).2 := by
  refine retry_rel (fun _ => ⟨[], .start⟩) ?_ (fun s v => ?_) (fun s v => ?_) call loses n k s
  · rintro s t u ⟨past, before⟩ ⟨newer, after⟩
    exact ⟨newer ++ past, before.trans after⟩
  · refine ⟨[.wrote (place.get s).value v], ?_⟩
    rw [sets]
    exact .wrote .start v
  · refine ⟨[.missed v], ?_⟩
    rw [sets]
    exact .missed .start v

/-! ## Trials -/

namespace Trial

variable {kind : Content α} {t t' : State α} {c' : Cell α} {changes : List (Change α)}

/-- The cell of a trial went through changes, and the snapshots named meanwhile were taken on the
way. -/
structure State.Went (t : State α) (changes : List (Change α)) (t' : State α) : Prop where
  course : Course t.cell changes t'.cell
  named : ∀ entry ∈ t'.snapshots, entry ∈ t.snapshots ∨ Seen t.cell changes t'.cell entry.2

theorem State.Went.refl (t : State α) : t.Went [] t := ⟨.start, fun _ => .inl⟩

theorem State.Went.of_course (h : Course t.cell changes c') :
    t.Went changes { t with cell := c' } :=
  ⟨h, fun _ => .inl⟩

theorem State.Went.keep (h : t.Went changes t') (name : Option String) :
    t.Went changes (t'.keep name t'.cell.load) := by
  cases name with
  | none => exact h
  | some name =>
    refine ⟨h.course, fun entry mem => ?_⟩
    obtain _ | ⟨_, mem⟩ := mem
    · exact .inr ⟨[], changes, t'.cell, rfl, h.course, .start, rfl⟩
    · exact h.named entry mem

theorem call_leads (kind : Content α) (value : Draft α) (interfere : List (Draft α)) (k : Nat)
    (old : α) (t : Tally α) : Tally.place.Leads t (call kind value interfere k old t).2 := by
  simp only [call]
  rcases interfere[k]? with _ | d
  · exact ⟨[], .start⟩
  · exact ⟨_, .wrote .start _⟩

theorem update_leads (kind : Content α) (value : Draft α) (interfere : List (Draft α)) (n : Nat)
    (t : Tally α) :
    Tally.place.Leads t
      (Cell.retry Tally.place (call kind value interfere) (fun _ t => t) n 0 t).2 :=
  Cell.retry_leads (fun _ _ => rfl) (call_leads kind value interfere)
    (fun _ _ => ⟨[], .start⟩) n 0 t

/-- Whatever an operation does to the cell is a course. -/
theorem perform_went {op : Operation α} {reading : Reading α} {calls : List α}
    (done : perform kind t op = .ok (reading, calls, t')) : ∃ changes, t.Went changes t' := by
  cases op with
  | load name =>
    cases done
    exact ⟨[], (State.Went.refl t).keep name⟩
  | compareAndSwap expected value name =>
    simp only [perform, bind, Except.bind] at done
    rcases found : t.find expected with x | s <;> simp only [found] at done
    · cases done
    · by_cases same : t.cell.current = s.generation
      · simp only [Cell.compareAndSwap_eq, if_pos same] at done
        cases done
        exact ⟨_, (State.Went.of_course (.wrote .start _)).keep name⟩
      · simp only [Cell.compareAndSwap_eq, if_neg same] at done
        cases done
        exact ⟨_, (State.Went.of_course (.missed .start _)).keep name⟩
  | swap value =>
    cases done
    exact ⟨_, .of_course (.wrote .start _)⟩
  | store value =>
    cases done
    exact ⟨_, .of_course (.wrote .start _)⟩
  | modify attempts value interfere =>
    simp only [perform, bind, Except.bind] at done
    obtain ⟨changes, course⟩ :=
      update_leads kind value interfere (attempts.bound interfere) { cell := t.cell }
    rcases run : Cell.retry Tally.place (call kind value interfere) (fun _ t => t)
      (attempts.bound interfere) 0 { cell := t.cell } with ⟨x | output, tally⟩ <;>
      simp only [run] at done <;> cases done
    rw [run] at course
    exact ⟨changes, .of_course course⟩
  | inspect name =>
    simp only [perform, bind, Except.bind] at done
    rcases found : t.find name with x | s <;> simp only [found] at done <;> cases done
    exact ⟨[], .refl t⟩
  | debug =>
    cases done
    exact ⟨[], .refl t⟩
  | malformed cause => cases done

end Trial

/-! ## The law of generations -/

namespace Cell

/-- What is so of a cell that began with a value, went through changes up to some point, and then
through newer ones. -/
structure Generations (initial : α) (past newer : List (Change α)) (c₀ c : Cell α) : Prop where
  /-- The arena holds one entry, the visible one. -/
  arena : c.arena = [(c.current, c.value)]
  current_lt : c.current < c.next
  /-- A generation is used up by each value that is staged, and by the initial one. -/
  next_eq : c.next = (newer ++ past).length + 1
  /-- The visible generation rises with every write, and with nothing else. -/
  rises : c₀.current < c.current ↔ ∃ x ∈ newer, x.writes = true
  stays : c.current = c₀.current ↔ Calm newer
  /-- Snapshots of one generation hold one value. -/
  same : c.load.generation = c₀.load.generation → c.load = c₀.load
  /-- A swap against the old snapshot succeeds if nothing was written since. -/
  swapped : Calm newer → ∀ v,
    c.compareAndSwap c₀.load v = (.ok (c.store v).load, c.store v) ∧ (c.store v).value = v
  /-- It fails if something was, and then it gives what a load gives and leaves that alone. -/
  refused : ¬ Calm newer → ∀ v,
    c.compareAndSwap c₀.load v = (.error c.load, c.discard v) ∧ (c.discard v).load = c.load
  /-- A plain swap gives the value that it displaces. -/
  taken : ∀ v, c.swap v = (c.value, c.store v)
  /-- Each value that was ever visible was displaced once, or is the one there now. -/
  balance : displaced (newer ++ past) + {c.value} = initial ::ₘ written (newer ++ past)

variable {initial : α} {policy : ContentionPolicy} {past newer : List (Change α)} {c₀ c : Cell α}

theorem Course.lawful (born : Course (new initial policy) past c₀) (later : Course c₀ newer c) :
    Generations initial past newer c₀ c := by
  have whole := born.trans later
  refine ⟨whole.arena, c.current_lt, ?_, later.current_lt_iff, later.current_eq_iff, later.load_eq,
    fun calm v => ⟨later.swap_calm calm v, c.value_store v⟩, fun stale v => ⟨?_, c.load_discard v⟩,
    fun _ => rfl, ?_⟩
  · rw [whole.next_eq, Nat.add_comm]
    rfl
  · rw [later.swap_stale stale, load_discard]
  · rw [whole.balance, value_new]

/-- The law holds at any point, and whatever is done to the cell leads from there to another:
procedures, updates of a state that holds the cell, and the operations of a trial. -/
theorem Course.generations (born : Course (new initial policy) past c₀)
    (later : Course c₀ newer c) :
    Generations initial past newer c₀ c ∧
    (∀ {β : Type} (p : Procedure α β) (taken : List (Snapshot α)),
      ∃ newest, Went ⟨c, taken⟩ newest (p.run ⟨c, taken⟩).2) ∧
    (∀ {σ β : Type} {place : Place σ α}, (∀ s c, place.get (place.set c s) = c) →
      ∀ {f : Nat → α → σ → Except Fault (α × β) × σ}, (∀ k old s, place.Leads s (f k old s).2) →
      ∀ {lost : Nat → σ → σ}, (∀ k s, place.Leads s (lost k s)) →
      ∀ n k s, place.get s = c →
        ∃ newest, Course c newest (place.get (retry place f lost n k s).2)) ∧
    ∀ {kind : Content α} {t t' : Trial.State α} {op : Trial.Operation α}
      {reading : Trial.Reading α} {calls : List α}, t.cell = c →
      Trial.perform kind t op = .ok (reading, calls, t') → ∃ newest, t.Went newest t' := by
  refine ⟨born.lawful later, fun p taken => p.run_went ⟨c, taken⟩, ?_, fun _ => Trial.perform_went⟩
  rintro σ β place sets f call lost loses n k s rfl
  exact retry_leads sets call loses n k s

/-- A value that was written back is a newer one: the old snapshot is stale. -/
theorem generations_written_back :
    let c := ((new 0 .spin).store 1).store 0
    c.value = (new 0 .spin).value ∧ c.arena = [(2, 0)] ∧
      c.compareAndSwap (new 0 .spin).load 5 = (.error c.load, c.discard 5) := by
  have began : Course (new 0 .spin) [] (new 0 .spin) := .start
  have later := (began.wrote 1).wrote 0
  refine ⟨rfl, (began.generations later).1.arena, ?_⟩
  exact ((began.generations later).1.refused (fun calm => nomatch (calm_cons.mp calm).1) 5).1

end Cell

end EffectFibers
