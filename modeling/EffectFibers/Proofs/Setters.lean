import EffectFibers.Proofs.CellCourse
import EffectFibers.Script.Build

/-!
# What a setter can do

A setter is handed out with the value of a cell.  From then on a `History` tells what happens to
the cell and which effects of the setter are run: newest deed first, and whatever happens to other
cells, other setters and the journal is put aside.  Clones of a setter are one setter, and an
effect that is built and not run is no deed.

## Main statements

* `Memory.History.tracked`: how cell and setter stand after a history.
* `Memory.History.single_use`: a setter writes at most once, at its first use, and only if nothing
  was written since it was handed out.
-/

namespace EffectFibers

open Cell (Change Course Calm)

namespace Memory

variable {m m' m'' : Memory} {c d : CellId} {s s' : SetterId} {v : Value}

/-! ## Cells and setters of a memory -/

theorem cell_setCell (inside : c < m.cells.size) (cell : Cell Value) :
    (m.setCell c cell).cell c = cell := by
  simp [Memory.cell, setCell, inside]

theorem cell_setCell_ne (apart : d ≠ c) (cell : Cell Value) :
    (m.setCell c cell).cell d = m.cell d := by
  simp [Memory.cell, setCell, apart.symm]

theorem setCell_self (m : Memory) (c d : CellId) : (m.setCell c (m.cell c)).cell d = m.cell d := by
  by_cases same : d = c
  · subst same
    by_cases inside : d < m.cells.size
    · exact cell_setCell inside _
    · simp [Memory.cell, setCell, inside]
  · exact cell_setCell_ne same _

theorem setter_access (m : Memory) (c : CellId) :
    (m.access c).2.2.setter (m.access c).2.1 = (c, ⟨(m.cell c).load, false⟩) := by
  simp [access, setter]

theorem useSetter_fst (m : Memory) (s : SetterId) (v : Value) :
    (m.useSetter s v).1 = ((m.setter s).2.set (m.cell (m.setter s).1) v).1 := rfl

/-- What a use does to the cell of the setter. -/
theorem cell_useSetter (inside : (m.setter s).1 < m.cells.size) (v : Value) :
    (m.useSetter s v).2.cell (m.setter s).1
      = ((m.setter s).2.set (m.cell (m.setter s).1) v).2.2 :=
  cell_setCell inside _

theorem cell_useSetter_ne (apart : d ≠ (m.setter s).1) (v : Value) :
    (m.useSetter s v).2.cell d = m.cell d :=
  cell_setCell_ne apart _

theorem setter_useSetter (held : s < m.setters.size) (v : Value) :
    (m.useSetter s v).2.setter s
      = ((m.setter s).1, ((m.setter s).2.set (m.cell (m.setter s).1) v).2.1) := by
  simp [useSetter, setter, held]

theorem size_useSetter (m : Memory) (s : SetterId) (v : Value) :
    (m.useSetter s v).2.cells.size = m.cells.size ∧
      (m.useSetter s v).2.setters.size = m.setters.size := by
  simp [useSetter, setCell]

/-! ## Histories -/

/-- What happens to a cell, or with a setter of it. -/
inductive Deed where
  | changed (x : Change Value)
  /-- The setter was used, and wrote or did not. -/
  | used (v : Value) (wrote : Bool)

def Deed.writes : Deed → Bool
  | .changed x => x.writes
  | .used _ wrote => wrote

def Deed.uses : Deed → Bool
  | .changed _ => false
  | .used .. => true

/-- Deeds about one cell and one setter, newest first. -/
inductive History (c : CellId) (s : SetterId) (m : Memory) : List Deed → Memory → Prop
  | start : History c s m [] m
  | wrote {deeds : List Deed} {m' : Memory} (h : History c s m deeds m') (v : Value) :
      History c s m (.changed (.wrote (m'.cell c).value v) :: deeds)
        (m'.setCell c ((m'.cell c).store v))
  | missed {deeds : List Deed} {m' : Memory} (h : History c s m deeds m') (v : Value) :
      History c s m (.changed (.missed v) :: deeds) (m'.setCell c ((m'.cell c).discard v))
  | used {deeds : List Deed} {m' : Memory} (h : History c s m deeds m') (v : Value) :
      History c s m (.used v (m'.useSetter s v).1 :: deeds) (m'.useSetter s v).2
  /-- Something else happens. -/
  | aside {deeds : List Deed} {m' m'' : Memory} (h : History c s m deeds m')
      (cells : m'.cells.size ≤ m''.cells.size) (setters : m'.setters.size ≤ m''.setters.size)
      (cell : m''.cell c = m'.cell c) (setter : m''.setter s = m'.setter s) :
      History c s m deeds m''

/-- How a cell and a setter of it stand after deeds. -/
structure Tracked (c : CellId) (s : SetterId) (m : Memory) (deeds : List Deed) (m' : Memory) :
    Prop where
  inside : c < m'.cells.size
  held : s < m'.setters.size
  setter : m'.setter s = (c, ⟨(m.cell c).load, deeds.any Deed.uses⟩)
  course : ∃ changes, Course (m.cell c) changes (m'.cell c) ∧
    (Calm changes ↔ deeds.any Deed.writes = false)

variable {deeds newer past : List Deed}

namespace Tracked

theorem start (inside : c < m.cells.size) (held : s < m.setters.size)
    (setter : m.setter s = (c, ⟨(m.cell c).load, false⟩)) : Tracked c s m [] m :=
  ⟨inside, held, setter, [], .start, iff_of_true Cell.calm_nil rfl⟩

theorem changed {x : Change Value} {cell : Cell Value} (h : Tracked c s m deeds m')
    (step : ∀ {changes}, Course (m.cell c) changes (m'.cell c) →
      Course (m.cell c) (x :: changes) cell) :
    Tracked c s m (.changed x :: deeds) (m'.setCell c cell) := by
  obtain ⟨inside, held, setter, changes, course, calm⟩ := h
  refine ⟨by simpa [setCell] using inside, held, setter, x :: changes, ?_, ?_⟩
  · rw [cell_setCell inside]
    exact step course
  · rw [Cell.calm_cons, calm, List.any_cons, Bool.or_eq_false_iff]
    rfl

/-- A spent setter does nothing. -/
theorem useSetter_spent (h : Tracked c s m deeds m') (spent : deeds.any Deed.uses = true)
    (v : Value) : (m'.useSetter s v).1 = false ∧ ∀ d, (m'.useSetter s v).2.cell d = m'.cell d := by
  have used : (m'.setter s).2.used = true := by rw [h.setter, spent]
  have idle := Setter.set_used used (m'.cell (m'.setter s).1) v
  refine ⟨?_, fun d => ?_⟩
  · rw [useSetter_fst, idle]
  · have same : (m'.useSetter s v).2.cell d
        = (m'.setCell (m'.setter s).1
            ((m'.setter s).2.set (m'.cell (m'.setter s).1) v).2.2).cell d :=
      rfl
    rw [same, idle, setCell_self]

/-- A first use writes if nothing was written since the setter was handed out. -/
theorem useSetter_fresh (h : Tracked c s m deeds m') (fresh : deeds.any Deed.uses = false)
    (v : Value) :
    ((m'.useSetter s v).1 = true ∧ deeds.any Deed.writes = false ∧
      (m'.useSetter s v).2.cell c = (m'.cell c).store v) ∨
    ((m'.useSetter s v).1 = false ∧ deeds.any Deed.writes = true ∧
      (m'.useSetter s v).2.cell c = (m'.cell c).discard v) := by
  obtain ⟨inside, held, setter, changes, course, calm⟩ := h
  have mine : (m'.setter s).1 = c := by rw [setter]
  have unused : (m'.setter s).2.used = false := by rw [setter, fresh]
  have snapshot : (m'.setter s).2.snapshot.generation = (m.cell c).current := by rw [setter]; rfl
  have cell := cell_useSetter (m := m') (s := s) (mine ▸ inside) v
  rw [Setter.set_fresh unused, mine, snapshot] at cell
  rw [useSetter_fst, Setter.set_fresh unused, mine, snapshot]
  by_cases same : (m'.cell c).current = (m.cell c).current
  · rw [if_pos same] at cell ⊢
    exact .inl ⟨rfl, calm.mp (course.current_eq_iff.mp same), cell⟩
  · rw [if_neg same] at cell ⊢
    have written := mt calm.mpr (mt course.current_eq_iff.mpr same)
    exact .inr ⟨rfl, by simpa using written, cell⟩

theorem used (h : Tracked c s m deeds m') (v : Value) :
    Tracked c s m (.used v (m'.useSetter s v).1 :: deeds) (m'.useSetter s v).2 := by
  obtain ⟨size, size'⟩ := size_useSetter m' s v
  refine ⟨size ▸ h.inside, size' ▸ h.held, ?_, ?_⟩
  · rw [setter_useSetter h.held, h.setter]
    cases spent : deeds.any Deed.uses with
    | true => rw [Setter.set_used rfl]; simp [Deed.uses]
    | false =>
      rw [Setter.set_fresh rfl]
      split <;> simp [Deed.uses]
  · obtain ⟨changes, course, calm⟩ := h.course
    cases spent : deeds.any Deed.uses with
    | true =>
      obtain ⟨gave, cells⟩ := h.useSetter_spent spent v
      refine ⟨changes, ?_, ?_⟩
      · rwa [cells c]
      · rw [calm, List.any_cons, gave]
        rfl
    | false =>
      obtain ⟨gave, unwritten, cell⟩ | ⟨gave, written, cell⟩ := h.useSetter_fresh spent v
      · refine ⟨_, cell ▸ course.wrote v, ?_⟩
        rw [gave]
        refine iff_of_false (fun calm => ?_) (by simp [Deed.writes])
        cases (Cell.calm_cons.mp calm).1
      · refine ⟨_, cell ▸ course.missed v, ?_⟩
        rw [Cell.calm_cons, calm, List.any_cons, gave]
        simp [Deed.writes, Change.writes]

end Tracked

namespace History

/-- What a history does to a cell and to a setter that was handed out at its beginning. -/
theorem tracked (inside : c < m.cells.size) (held : s < m.setters.size)
    (setter : m.setter s = (c, ⟨(m.cell c).load, false⟩)) (h : History c s m deeds m') :
    Tracked c s m deeds m' := by
  induction h with
  | start => exact .start inside held setter
  | wrote _ v ih => exact ih.changed fun course => course.wrote v
  | missed _ v ih => exact ih.changed fun course => course.missed v
  | used _ v ih => exact ih.used v
  | aside _ cells setters cell setter ih =>
    obtain ⟨inside, held, setter', course⟩ := ih
    exact ⟨Nat.lt_of_lt_of_le inside cells, Nat.lt_of_lt_of_le held setters, setter.trans setter',
      cell ▸ course⟩

theorem trans (h : History c s m past m') (h' : History c s m' newer m'') :
    History c s m (newer ++ past) m'' := by
  induction h' with
  | start => exact h
  | wrote _ v ih => exact ih.wrote v
  | missed _ v ih => exact ih.missed v
  | used _ v ih => exact ih.used v
  | aside _ cells setters cell setter ih => exact ih.aside cells setters cell setter

/-- A use of the setter, and the history before it. -/
theorem split_used {wrote : Bool} (h : History c s m deeds m')
    (split : deeds = newer ++ .used v wrote :: past) :
    ∃ m₁, History c s m past m₁ ∧ (m₁.useSetter s v).1 = wrote := by
  induction h generalizing newer with
  | start => cases newer <;> cases split
  | wrote _ _ ih | missed _ _ ih =>
    cases newer with
    | nil => cases split
    | cons x newer => exact ih (List.cons.inj split).2
  | @used deeds m' before v' ih =>
    cases newer with
    | nil =>
      cases split
      exact ⟨m', before, rfl⟩
    | cons x newer => exact ih (List.cons.inj split).2
  | aside _ _ _ _ _ ih => exact ih split

end History

/-- What a setter of a cell can do after deeds. -/
structure SingleUse (c : CellId) (s : SetterId) (deeds : List Deed) (m : Memory) : Prop where
  /-- After the first use, no run does anything. -/
  spent : (∃ x ∈ deeds, x.uses = true) → ∀ v,
    (m.useSetter s v).1 = false ∧ ∀ d, (m.useSetter s v).2.cell d = m.cell d
  /-- The first use gives true if nothing was written since the setter was handed out. -/
  first : (∀ x ∈ deeds, x.uses = false) → ∀ v,
    ((m.useSetter s v).1 = true ↔ ∀ x ∈ deeds, x.writes = false)
  stored : ∀ v, (m.useSetter s v).1 = true → ((m.useSetter s v).2.cell c).value = v
  refused : ∀ v, (m.useSetter s v).1 = false →
    ((m.useSetter s v).2.cell c).load = (m.cell c).load
  /-- Other cells are not touched. -/
  apart : ∀ v d, d ≠ c → (m.useSetter s v).2.cell d = m.cell d
  /-- A use that gave true was the first one, nothing was written before it, and no other one gave
  true. -/
  once : ∀ newer past v, deeds = newer ++ .used v true :: past →
    (∀ x ∈ past, x.uses = false ∧ x.writes = false) ∧ ∀ w, .used w true ∉ newer

namespace History

/-- A use that gave true was the first one, and nothing was written before. -/
theorem unused_of_true (inside : c < m.cells.size) (held : s < m.setters.size)
    (setter : m.setter s = (c, ⟨(m.cell c).load, false⟩))
    (h : History c s m (newer ++ .used v true :: past) m') :
    past.any Deed.uses = false ∧ past.any Deed.writes = false := by
  obtain ⟨m₁, before, gave⟩ := h.split_used rfl
  have tracked := before.tracked inside held setter
  cases spent : past.any Deed.uses with
  | true => cases gave.symm.trans (tracked.useSetter_spent spent v).1
  | false =>
    obtain ⟨-, unwritten, -⟩ | ⟨gave', -, -⟩ := tracked.useSetter_fresh spent v
    · exact ⟨rfl, unwritten⟩
    · cases gave.symm.trans gave'

theorem lawful (inside : c < m.cells.size) (held : s < m.setters.size)
    (setter : m.setter s = (c, ⟨(m.cell c).load, false⟩)) (h : History c s m deeds m') :
    SingleUse c s deeds m' := by
  have tracked := h.tracked inside held setter
  have mine : (m'.setter s).1 = c := by rw [tracked.setter]
  refine ⟨fun spent v => ?_, fun fresh v => ?_, fun v gave => ?_, fun v gave => ?_,
    fun v d apart => ?_, ?_⟩
  · exact tracked.useSetter_spent (List.any_eq_true.mpr spent) v
  · have fresh : deeds.any Deed.uses = false := by simpa using fresh
    obtain ⟨gave, unwritten, -⟩ | ⟨gave, written, -⟩ := tracked.useSetter_fresh fresh v
    · exact iff_of_true gave (by simpa using unwritten)
    · refine iff_of_false (by simp [gave]) fun unwritten => ?_
      obtain ⟨x, mem, writes⟩ := List.any_eq_true.mp written
      cases writes.symm.trans (unwritten x mem)
  · cases spent : deeds.any Deed.uses with
    | true => cases gave.symm.trans (tracked.useSetter_spent spent v).1
    | false =>
      obtain ⟨-, -, cell⟩ | ⟨gave', -, -⟩ := tracked.useSetter_fresh spent v
      · rw [cell, Cell.value_store]
      · cases gave.symm.trans gave'
  · cases spent : deeds.any Deed.uses with
    | true => rw [(tracked.useSetter_spent spent v).2 c]
    | false =>
      obtain ⟨gave', -, -⟩ | ⟨-, -, cell⟩ := tracked.useSetter_fresh spent v
      · cases gave.symm.trans gave'
      · rw [cell, Cell.load_discard]
  · exact cell_useSetter_ne (mine ▸ apart) v
  · rintro newer past v rfl
    obtain ⟨unused, unwritten⟩ := h.unused_of_true inside held setter
    refine ⟨fun x mem => ⟨?_, ?_⟩, fun w mem => ?_⟩
    · simpa using List.any_eq_false.mp unused x mem
    · simpa using List.any_eq_false.mp unwritten x mem
    · obtain ⟨newer, older, rfl⟩ := List.append_of_mem mem
      rw [List.append_assoc, List.cons_append] at h
      have unused := (h.unused_of_true inside held setter).1
      simp [Deed.uses] at unused

/-! ## What is done to cells -/

theorem setCell_ne (apart : c ≠ d) (cell : Cell Value) : History c s m [] (m.setCell d cell) :=
  .aside .start (by simp [setCell]) (Nat.le_refl _) (cell_setCell_ne apart cell) rfl

/-- Notes and reports are no deeds. -/
theorem of_cells (cells : m'.cells = m.cells) (setters : m'.setters = m.setters) :
    History c s m [] m' := by
  refine .aside .start ?_ ?_ ?_ ?_
  · rw [cells]
  · rw [setters]
  · simp only [Memory.cell, cells]
  · simp only [Memory.setter, setters]

theorem newCell (inside : c < m.cells.size) (v : Value) (policy : ContentionPolicy) :
    History c s m [] (m.newCell v policy).2 := by
  refine .aside .start ?_ (Nat.le_refl _) ?_ rfl
  · simp [Memory.newCell]
  · simp [Memory.newCell, Memory.cell, Array.getElem?_push_lt inside, inside]

theorem access (held : s < m.setters.size) (d : CellId) : History c s m [] (m.access d).2.2 := by
  refine .aside .start (Nat.le_refl _) ?_ rfl ?_
  · simp [Memory.access]
  · simp [Memory.access, Memory.setter, Array.getElem?_push_lt held, held]

theorem setSetter (apart : s ≠ s') (x : CellId × Setter Value) :
    History c s m [] { m with setters := m.setters.setIfInBounds s' x } := by
  refine .aside .start (Nat.le_refl _) ?_ rfl ?_
  · simp
  · simp [Memory.setter, apart.symm]

/-- Another setter writes if it gives true, and only to its own cell. -/
theorem useSetter_ne (apart : s ≠ s') (v : Value) :
    ∃ newer, History c s m newer (m.useSetter s' v).2 ∧ (∀ x ∈ newer, x.uses = false) ∧
      ((∃ x ∈ newer, x.writes = true) ↔ (m.setter s').1 = c ∧ (m.useSetter s' v).1 = true) := by
  rw [useSetter_fst]
  have after {newer : List Deed} {cell : Cell Value} (x : Setter Value)
      (h : History c s m newer (m.setCell (m.setter s').1 cell)) :
      History c s m newer { m.setCell (m.setter s').1 cell with
        setters := m.setters.setIfInBounds s' ((m.setter s').1, x) } :=
    h.trans (setSetter apart _)
  by_cases mine : (m.setter s').1 = c
  · simp only [useSetter, mine] at after ⊢
    cases used : (m.setter s').2.used with
    | true =>
      rw [Setter.set_used used]
      refine ⟨[], after _ ?_, nofun, by simp⟩
      exact .aside .start (by simp [setCell]) (Nat.le_refl _) (setCell_self m c c) rfl
    | false =>
      rw [Setter.set_fresh used]
      split
      · exact ⟨_, after _ (.wrote .start v), by simp [Deed.uses],
          by simp [Deed.writes, Change.writes]⟩
      · exact ⟨_, after _ (.missed .start v), by simp [Deed.uses],
          by simp [Deed.writes, Change.writes]⟩
  · exact ⟨[], after _ (setCell_ne (Ne.symm mine) _), nofun, by simp [mine]⟩

/-- An attempt to update the cell is a write if it succeeds, besides what its call does. -/
theorem attempt {β : Type} {f : Value → Memory → Except Fault (Value × β) × Memory}
    (called : History c s m deeds (f (m.cell c).value m).2) :
    ∃ own, History c s m (own ++ deeds) (Cell.attempt (place c) f m).2 ∧
      (∀ x ∈ own, x.uses = false) ∧
      ((∃ x ∈ own, x.writes = true) ↔
        ∃ output, (Cell.attempt (place c) f m).1 = .ok (some output)) := by
  have value : ((place c).get m).load.value = (m.cell c).value := rfl
  simp only [Cell.attempt, value]
  rcases run : f (m.cell c).value m with ⟨x | ⟨new, output⟩, m'⟩ <;> rw [run] at called
  · exact ⟨[], called, by simp, by simp⟩
  · simp only [Cell.compareAndSwap_eq]
    split
    · next swap =>
      split at swap <;> cases swap
      exact ⟨[.changed (.wrote (m'.cell c).value new)], called.wrote new, by simp [Deed.uses],
        by simp [Deed.writes, Change.writes]⟩
    · next swap =>
      split at swap <;> cases swap
      exact ⟨[.changed (.missed new)], called.missed new, by simp [Deed.uses],
        by simp [Deed.writes, Change.writes]⟩

/-- Something was done in which the setter was not used. -/
def Quiet (c : CellId) (s : SetterId) (m m' : Memory) : Prop :=
  ∃ newer, History c s m newer m' ∧ ∀ x ∈ newer, x.uses = false

namespace Quiet

theorem refl (m : Memory) : Quiet c s m m := ⟨[], .start, nofun⟩

theorem trans (h : Quiet c s m m') (h' : Quiet c s m' m'') : Quiet c s m m'' := by
  obtain ⟨past, before, unused⟩ := h
  obtain ⟨newer, after, unused'⟩ := h'
  exact ⟨newer ++ past, before.trans after,
    fun x mem => (List.mem_append.mp mem).elim (unused' x) (unused x)⟩

theorem of_cells (cells : m'.cells = m.cells) (setters : m'.setters = m.setters) :
    Quiet c s m m' := ⟨[], .of_cells cells setters, nofun⟩

theorem store (d : CellId) (m : Memory) (v : Value) :
    Quiet c s m (m.setCell d ((m.cell d).store v)) := by
  by_cases same : d = c
  · subst same
    exact ⟨_, .wrote .start v, by simp [Deed.uses]⟩
  · exact ⟨[], .setCell_ne (Ne.symm same) _, nofun⟩

theorem discard (d : CellId) (m : Memory) (v : Value) :
    Quiet c s m (m.setCell d ((m.cell d).discard v)) := by
  by_cases same : d = c
  · subst same
    exact ⟨_, .missed .start v, by simp [Deed.uses]⟩
  · exact ⟨[], .setCell_ne (Ne.symm same) _, nofun⟩

theorem call (f : Script.CellFunction) (scope : Script.Scope) (lane : Lane) (site : Site)
    (d : CellId) (k : Nat) (old : Value) (m : Memory) :
    Quiet c s m (f.call scope lane site d k old m).2 := by
  have traced : Quiet c s m
      (if f.traced then m.write ⟨lane, site.time, "call " ++ old.compact⟩ else m) := by
    split
    · exact .of_cells rfl rfl
    · exact .refl m
  simp only [Script.CellFunction.call]
  rcases f.interfere[k]? with _ | e
  · exact traced
  · simp only [Script.CellFunction.disturb, bind, Except.bind]
    rcases e.eval scope with x | v
    · exact traced
    · exact (traced.trans (.store d _ v)).trans (.of_cells rfl rfl)

theorem lost (style : Script.UpdateStyle) (k : Nat) (m : Memory) :
    Quiet c s m (style.lost k m) := by
  cases style <;> exact .of_cells rfl rfl

/-- The actions of scripts on cells use no setter. -/
theorem action {a : Script.CellAction} {scope : Script.Scope} {lane : Lane} {effect : Effect}
    (built : a.build scope lane d = .ok effect) :
    ∃ act, effect = .delay act ∧ ∀ (site : Site) (m : Memory), Quiet c s m (act site m).2 := by
  cases a with
  | get =>
    cases built
    exact ⟨_, rfl, fun _ m => .refl m⟩
  | set e | getAndSet e | setAndGet e =>
    rcases value : e.eval scope with x | v <;>
      simp only [Script.CellAction.build, value] at built <;> cases built
    exact ⟨_, rfl, fun _ m => .store d m v⟩
  | update style f =>
    cases built
    refine ⟨_, rfl, fun site m => ?_⟩
    have done : Quiet c s m (Cell.retry (place d) (f.call scope lane site d) style.lost
        (style.attempts f) 0 m).2 :=
      Cell.retry_rel refl trans (store d) (discard d) (call f scope lane site d) (lost style)
        (style.attempts f) 0 m
    rcases run : Cell.retry (place d) (f.call scope lane site d) style.lost (style.attempts f) 0 m
      with ⟨_ | _, m'⟩ <;> rw [run] at done <;> exact done

end Quiet

/-- Whatever else is done to cells and with setters is told by a history. -/
structure Told (c : CellId) (s : SetterId) (m : Memory) : Prop where
  /-- Another setter: what it writes counts, a use that fails does not. -/
  setters : ∀ s' v, s ≠ s' → ∃ newer, History c s m newer (m.useSetter s' v).2 ∧
    (∀ x ∈ newer, x.uses = false) ∧
    ((∃ x ∈ newer, x.writes = true) ↔ (m.setter s').1 = c ∧ (m.useSetter s' v).1 = true)
  accesses : ∀ d, History c s m [] (m.access d).2.2
  cells : ∀ v policy, History c s m [] (m.newCell v policy).2
  /-- A plain write counts, whatever the value. -/
  stores : ∀ d v result, ∃ act, Script.CellAction.storing d v result = .delay act ∧
    ∀ site, ∃ newer, History c s m newer (act site m).2 ∧ (∀ x ∈ newer, x.uses = false) ∧
      ((∃ x ∈ newer, x.writes = true) ↔ d = c)
  /-- An attempt to update the cell counts if it succeeds, besides what its call does. -/
  attempts : ∀ {β : Type} {f : Value → Memory → Except Fault (Value × β) × Memory} {called},
    History c s m called (f (m.cell c).value m).2 →
    ∃ own, History c s m (own ++ called) (Cell.attempt (place c) f m).2 ∧
      (∀ x ∈ own, x.uses = false) ∧
      ((∃ x ∈ own, x.writes = true) ↔
        ∃ output, (Cell.attempt (place c) f m).1 = .ok (some output))
  actions : ∀ {a : Script.CellAction} {scope lane d effect}, a.build scope lane d = .ok effect →
    ∃ act, effect = .delay act ∧ ∀ site, Quiet c s m (act site m).2

theorem told (inside : c < m.cells.size) (held : s < m.setters.size) : Told c s m where
  setters _ v apart := useSetter_ne apart v
  accesses d := access held d
  cells v policy := newCell inside v policy
  stores d v result := by
    refine ⟨_, rfl, fun site => ?_⟩
    by_cases same : d = c
    · subst same
      exact ⟨_, .wrote .start v, by simp [Deed.uses], by simp [Deed.writes, Change.writes]⟩
    · exact ⟨[], setCell_ne (Ne.symm same) _, nofun, by simp [same]⟩
  attempts called := attempt called
  actions built := by
    obtain ⟨act, rfl, quiet⟩ := Quiet.action (c := c) (s := s) built
    exact ⟨act, rfl, fun site => quiet site m⟩

end History

/-- The law of setters: what a setter can do after any history, and what makes up a history.  The
effects of a setter are uses of it, and to build them does nothing. -/
theorem single_use {m₀ m : Memory} {c : CellId} {deeds : List Deed} (inside : c < m₀.cells.size)
    (h : History c (m₀.access c).2.1 (m₀.access c).2.2 deeds m) :
    SingleUse c (m₀.access c).2.1 deeds m ∧
    History.Told c (m₀.access c).2.1 m ∧
    ∀ {scope : Script.Scope} {lane : Lane} {name : String} {e : Script.Expr} {effect : Effect},
      (Script.Term.set name e).build scope lane = .ok effect →
      ∃ s v, scope.setter name = .ok s ∧ e.eval scope = .ok v ∧
        effect = .delay fun _ m => (.ok (.bool (m.useSetter s v).1), (m.useSetter s v).2) := by
  have held : (m₀.access c).2.1 < (m₀.access c).2.2.setters.size := by simp [access]
  have inside : c < (m₀.access c).2.2.cells.size := inside
  have setter : (m₀.access c).2.2.setter (m₀.access c).2.1
      = (c, ⟨((m₀.access c).2.2.cell c).load, false⟩) := setter_access m₀ c
  have tracked := h.tracked inside held setter
  refine ⟨h.lawful inside held setter, History.told tracked.inside tracked.held, ?_⟩
  intro scope lane name e effect built
  rw [Script.Term.build] at built
  simp only [bind, Except.bind] at built
  rcases found : scope.setter name with x | s <;> simp only [found] at built
  · cases built
  · rcases value : e.eval scope with x | v <;> simp only [value] at built <;> cases built
    exact ⟨s, v, rfl, rfl, rfl⟩

/-- The value that was there was written again: the setter is good for nothing any more. -/
theorem single_use_rewritten :
    let m₀ := (newCell {} (.int 1) .spin).2
    let m := (m₀.access 0).2.2.setCell 0 (((m₀.access 0).2.2.cell 0).store (.int 1))
    (m.useSetter 0 (.int 2)).1 = false ∧
      ((m.useSetter 0 (.int 2)).2.useSetter 0 (.int 2)).1 = false := by
  have inside : 0 < (newCell {} (.int 1) .spin).2.cells.size := by decide
  have rewritten : History 0 0 ((newCell {} (.int 1) .spin).2.access 0).2.2 _ _ :=
    .wrote .start (.int 1)
  refine ⟨Bool.eq_false_iff.mpr fun gave => ?_, ?_⟩
  · have unwritten := ((single_use inside rewritten).1.first
      (fun x mem => by rw [List.mem_singleton.mp mem]; rfl) _).mp gave _ (List.mem_singleton_self _)
    cases unwritten
  · have spent := (single_use inside (rewritten.used (.int 2))).1.spent
      ⟨_, List.mem_cons_self .., rfl⟩
    exact (spent (.int 2)).1

end Memory

end EffectFibers
