import EffectFibers.Proofs.CellRetry
import EffectFibers.Script.CellAction

/-!
# The actions of scripts on cells

The effects of scripts that read and write a cell, as works of a contest.

## Main statements

* `Cell.retry_simulates`: updates of a cell within a state are updates of the cell.
* `Script.CellAction.performed`: an action on a cell is steps of a contest.
* `Contest.Reachable.atomic`: the law of updates, for contests and for the actions of scripts.
-/

namespace EffectFibers

namespace Cell

variable {σ α β : Type} {place : Place σ α} {holds : σ → Cell α → Prop}
  {f : Nat → α → σ → Except Fault (α × β) × σ} {lost : Nat → σ → σ}
  {g : Nat → α → Cell α → Except Fault (α × β) × Cell α}

/-- A state and a cell go together, with one result. -/
def Together {γ : Type} (holds : σ → Cell α → Prop) (x : γ × σ) (y : γ × Cell α) : Prop :=
  ∃ result s c, x = (result, s) ∧ y = (result, c) ∧ holds s c

theorem attempt_simulates (gets : ∀ {s c}, holds s c → place.get s = c)
    (sets : ∀ {s c} (c' : Cell α), holds s c → holds (place.set c' s) c')
    (calls : ∀ {s c} k old, holds s c → Together holds (f k old s) (g k old c)) {s : σ}
    {c : Cell α} (k : Nat) (h : holds s c) :
    Together holds (attempt place (f k) s) (attempt Place.whole (g k) c) := by
  obtain ⟨result, s', c', run, run', after⟩ := calls k c.load.value h
  simp only [attempt, Place.whole, id, gets h, run, run']
  rcases result with x | ⟨new, output⟩
  · exact ⟨_, s', c', rfl, rfl, after⟩
  · simp only [gets after]
    rcases c'.compareAndSwap c.load new with ⟨_ | _, c''⟩
    · exact ⟨_, _, c'', rfl, rfl, sets c'' after⟩
    · exact ⟨_, _, c'', rfl, rfl, sets c'' after⟩

theorem retry_simulates (gets : ∀ {s c}, holds s c → place.get s = c)
    (sets : ∀ {s c} (c' : Cell α), holds s c → holds (place.set c' s) c')
    (calls : ∀ {s c} k old, holds s c → Together holds (f k old s) (g k old c))
    (loses : ∀ {s c} k, holds s c → holds (lost k s) c) {s : σ} {c : Cell α} (n k : Nat)
    (h : holds s c) :
    Together holds (retry place f lost n k s) (retry Place.whole g (fun _ c => c) n k c) := by
  induction n generalizing k s c with
  | zero => exact ⟨_, s, c, rfl, rfl, h⟩
  | succ n ih =>
    obtain ⟨result, s', c', once, once', after⟩ := attempt_simulates gets sets calls k h
    rw [retry_succ, retry_succ, once, once']
    rcases result with x | _ | output
    · exact ⟨_, s', c', rfl, rfl, after⟩
    · exact ih (k + 1) (loses (k + 1) after)
    · exact ⟨_, s', c', rfl, rfl, after⟩

end Cell

namespace Memory

variable {m m₀ : Memory} {c d : CellId} {cell cell' : Cell Value}

/-- A memory that came from another by work on one cell. -/
structure Holding (m₀ : Memory) (c : CellId) (m : Memory) (cell : Cell Value) : Prop where
  size : m.cells.size = m₀.cells.size
  held : m.cell c = cell
  apart : ∀ d, d ≠ c → m.cell d = m₀.cell d

theorem Holding.start (m : Memory) (c : CellId) : Holding m c m (m.cell c) :=
  ⟨rfl, rfl, fun _ _ => rfl⟩

theorem Holding.set (inside : c < m₀.cells.size) (h : Holding m₀ c m cell) (cell' : Cell Value) :
    Holding m₀ c (m.setCell c cell') cell' := by
  have inside : c < m.cells.size := h.size ▸ inside
  refine ⟨?_, ?_, fun d hd => ?_⟩
  · simpa [setCell] using h.size
  · simp [Memory.cell, setCell, inside]
  · rw [← h.apart d hd]
    simp [Memory.cell, setCell, hd.symm]

/-- Notes and reports are not about cells. -/
theorem Holding.of_cells {m' : Memory} (h : Holding m₀ c m cell) (same : m'.cells = m.cells) :
    Holding m₀ c m' cell := by
  have cells (d : CellId) : m'.cell d = m.cell d := by simp only [Memory.cell, same]
  refine ⟨?_, ?_, fun d hd => ?_⟩
  · rw [same, h.size]
  · rw [cells, h.held]
  · rw [cells, h.apart d hd]

end Memory

namespace Script

open Contest (Work Note Update Steps)

variable {m : Memory} {scope : Scope} {lane : Lane} {site : Site} {c : CellId}

namespace CellFunction

/-- What the other writer does during the calls. -/
def plan (f : CellFunction) (scope : Scope) : List (List (Work Value Call)) :=
  f.interfere.map fun e =>
    match e.eval scope with
    | .ok v => [.write v]
    | .error _ => []

/-- What call `k` computes. -/
def compute (f : CellFunction) (scope : Scope) (k : Nat) (old : Value) :
    Except Fault (Value × Call) :=
  match f.interfere[k]? with
  | none => f.apply scope old
  | some e =>
    match e.eval scope with
    | .ok _ => f.apply scope old
    | .error x => .error x

end CellFunction

/-- The bound on the attempts that is part of an operation. -/
def UpdateStyle.bound : UpdateStyle → Option Nat
  | .update | .getAndUpdate | .updateAndGet | .modify => none
  | .tryUpdate | .tryModify => some 1
  | .updateBounded max => some max

/-- The update that an action begins. -/
def UpdateStyle.begun (style : UpdateStyle) (f : CellFunction) (scope : Scope) (id : Nat) :
    Update Value Call :=
  ⟨id, f.compute scope, f.plan scope, style.bound⟩

namespace CellFunction

variable {f : CellFunction} {m₀ : Memory} {cell : Cell Value}

theorem apply_ok {old new : Value} {call : Call} (h : f.apply scope old = .ok (new, call)) :
    call.old = old ∧ call.new = new := by
  revert h
  unfold apply
  rcases f.output with _ | e
  · simp only
    rcases f.value.eval (scope.bindValue f.bind old) with x | v
    · nofun
    · rintro ⟨⟩
      exact ⟨rfl, rfl⟩
  · simp only
    rcases e.eval (scope.bindValue f.bind old) with x | w
    · nofun
    · rcases f.value.eval (scope.bindValue f.bind old) with x | v
      · nofun
      · rintro ⟨⟩
        exact ⟨rfl, rfl⟩

theorem compute_ok {k : Nat} {old new : Value} {call : Call}
    (h : f.compute scope k old = .ok (new, call)) : call.old = old ∧ call.new = new := by
  unfold compute at h
  split at h
  · exact apply_ok h
  · split at h
    · exact apply_ok h
    · cases h

/-- The other writer's turn in call `k`. -/
theorem runNth_plan (scope : Scope) (k : Nat) (cell : Cell Value) :
    Contest.runNth (f.plan scope) k cell
      = (.ok (), match f.interfere[k]? with
        | none => cell
        | some e =>
          match e.eval scope with
          | .ok v => cell.store v
          | .error _ => cell) := by
  unfold plan
  induction f.interfere generalizing k with
  | nil => rfl
  | cons e rest ih =>
    cases k with
    | zero =>
      simp only [List.map_cons, List.getElem?_cons_zero, Contest.runNth]
      cases e.eval scope <;> rfl
    | succ k =>
      simp only [List.map_cons, List.getElem?_cons_succ, Contest.runNth]
      exact ih k

/-- A call in a memory does to the cell what the works of the call do. -/
theorem call_together (f : CellFunction) (scope : Scope) (lane : Lane) (site : Site)
    (inside : c < m₀.cells.size) (k : Nat) (old : Value) (h : m₀.Holding c m cell) :
    Cell.Together (m₀.Holding c) (f.call scope lane site c k old m)
      (Contest.calling (f.compute scope) (Contest.runNth (f.plan scope)) k old cell) := by
  have traced : m₀.Holding c
      (if f.traced then m.write ⟨lane, site.time, "call " ++ old.compact⟩ else m) cell := by
    split
    · exact h.of_cells rfl
    · exact h
  rw [Contest.calling, runNth_plan]
  simp only [call, compute]
  rcases f.interfere[k]? with _ | e
  · exact ⟨_, _, _, rfl, rfl, traced⟩
  · simp only [disturb]
    rcases e.eval scope with x | v
    · exact ⟨_, _, _, rfl, rfl, traced⟩
    · refine ⟨_, _, _, rfl, rfl, ?_⟩
      simp only [traced.held]
      exact (traced.set inside (cell.store v)).of_cells rfl

end CellFunction

namespace UpdateStyle

theorem attempts_eq (style : UpdateStyle) (f : CellFunction) (scope : Scope) :
    style.attempts f = Contest.attempts (f.plan scope) style.bound := by
  cases style <;> simp [attempts, Contest.attempts, bound, CellFunction.plan]

theorem lost_cells (style : UpdateStyle) (k : Nat) (m : Memory) :
    (style.lost k m).cells = m.cells := by
  cases style <;> rfl

/-- What an update gives: the value of the call that was swapped in. -/
def Gives (style : UpdateStyle) (f : CellFunction) (scope : Scope) (id : Nat)
    (log : List (Note Value Call)) : Except Fault Value → Prop
  | .ok result =>
    (∃ k old new output past,
      log = .swapped (style.begun f scope id) k old new ⟨old, new, output⟩ :: past ∧
        result = style.result (some ⟨old, new, output⟩)) ∨
    (∃ past, log = .lapsed (style.begun f scope id) :: past ∧ style.bound.isSome ∧
      result = style.result none)
  | .error _ => ∃ k past, log = .failed (style.begun f scope id) k :: past

end UpdateStyle

namespace CellAction

/-- What an action gives and notes, when the value of the cell was `old`. -/
def Gives (scope : Scope) (id : Nat) (old : Value) (log log' : List (Note Value Call))
    (result : Except Fault Value) : CellAction → Prop
  | .get => log' = log ∧ result = .ok old
  | .set e => ∃ v, e.eval scope = .ok v ∧ log' = .wrote v :: log ∧ result = .ok .null
  | .getAndSet e => ∃ v, e.eval scope = .ok v ∧ log' = .wrote v :: log ∧ result = .ok old
  | .setAndGet e => ∃ v, e.eval scope = .ok v ∧ log' = .wrote v :: log ∧ result = .ok v
  | .update style f => style.Gives f scope id log' result

/-- An action on a cell, as steps of a contest at the cell in which no other fiber has a turn. -/
structure Performed (a : CellAction) (scope : Scope) (c : CellId) (m : Memory)
    (σ σ' : Contest Value Call) (done : Except Fault Value × Memory) : Prop where
  steps : Steps σ σ'
  alone : σ'.fibers = [] ::ₘ σ.fibers
  memory : m.Holding c done.2 σ'.cell
  given : a.Gives scope σ.next σ.cell.value σ.log σ'.log done.1

theorem update_performed (scope : Scope) (lane : Lane) (site : Site) {m : Memory} {c : CellId}
    (inside : c < m.cells.size) (style : UpdateStyle) (f : CellFunction)
    {σ : Contest Value Call} (here : m.cell c = σ.cell) :
    ∃ σ', Performed (.update style f) scope c m σ σ'
      (match Cell.retry (Memory.place c) (f.call scope lane site c) style.lost
          (style.attempts f) 0 m with
        | (.ok call, m) => (.ok (style.result call), m)
        | (.error fault, m) => (.error fault, m)) := by
  have gets {m' : Memory} {cell : Cell Value} (h : m.Holding c m' cell) :
      (Memory.place c).get m' = cell := h.held
  have calls {m' : Memory} {cell : Cell Value} (k : Nat) (old : Value)
      (h : m.Holding c m' cell) := f.call_together scope lane site inside k old h
  have loses {m' : Memory} {cell : Cell Value} (k : Nat) (h : m.Holding c m' cell) :=
    h.of_cells (style.lost_cells k m')
  obtain ⟨result, m', cell', run, run', after⟩ := Cell.retry_simulates gets
    (fun cell' h => h.set inside cell') calls loses (style.attempts f) 0 (.start m c)
  obtain ⟨newer, next', noted, steps⟩ :=
    Work.alone (.update (f.compute scope) (f.plan scope) style.bound) σ
  rw [Work.run, ← style.attempts_eq, ← here, run'] at noted steps
  rw [run]
  rcases result with x | _ | call
  · obtain ⟨k, past, rfl⟩ := noted
    exact ⟨_, steps, rfl, after, k, past ++ σ.log, rfl⟩
  · obtain ⟨bounded, past, rfl⟩ := noted
    exact ⟨_, steps, rfl, after, .inr ⟨past ++ σ.log, rfl, bounded, rfl⟩⟩
  · obtain ⟨k, old, new, past, rfl, computed⟩ := noted
    obtain ⟨rfl, rfl⟩ := CellFunction.compute_ok computed
    exact ⟨_, steps, rfl, after,
      .inl ⟨k, call.old, call.new, call.output, past ++ σ.log, rfl, rfl⟩⟩

theorem performed {a : CellAction} {scope : Scope} {lane : Lane} {c : CellId} {effect : Effect}
    (built : a.build scope lane c = .ok effect) :
    ∃ act, effect = .delay act ∧ ∀ (site : Site) (m : Memory) (σ : Contest Value Call),
      c < m.cells.size → m.cell c = σ.cell → ∃ σ', a.Performed scope c m σ σ' (act site m) := by
  cases a with
  | get =>
    cases built
    refine ⟨_, rfl, fun site m σ inside here => ?_⟩
    obtain ⟨_, next', rfl, steps⟩ := Work.alone (.read : Work Value Call) σ
    exact ⟨_, steps, rfl, here ▸ .start m c, rfl, here ▸ rfl⟩
  | set e | getAndSet e | setAndGet e =>
    rcases value : e.eval scope with x | v <;> simp only [build, value] at built <;> cases built
    refine ⟨_, rfl, fun site m σ inside here => ?_⟩
    obtain ⟨_, next', rfl, steps⟩ := Work.alone (.write v : Work Value Call) σ
    exact ⟨_, steps, rfl, here ▸ (Memory.Holding.start m c).set inside _, v, value, rfl,
      here ▸ rfl⟩
  | update style f =>
    cases built
    exact ⟨_, rfl, fun site m σ inside here => update_performed scope lane site inside style f here⟩

end CellAction

end Script

/-- The law of updates: it holds at any time, and the loops that carry out updates and the actions
of scripts are part of what it is about. -/
theorem Contest.Reachable.atomic {α β : Type} {initial : α} {policy : ContentionPolicy}
    {σ : Contest α β} (h : Reachable initial policy σ) :
    Law initial σ ∧
    (∀ w : Work α β, ∃ newer next', w.Noted σ.next newer (w.run σ.cell).1 ∧
      Reachable initial policy
        ⟨(w.run σ.cell).2, [] ::ₘ σ.fibers, newer ++ σ.log, next'⟩) ∧
    ∀ {a : Script.CellAction} {scope : Script.Scope} {lane : Lane} {c : CellId} {effect : Effect},
      a.build scope lane c = .ok effect → ∃ act, effect = .delay act ∧
        ∀ (site : Site) (m : Memory) (τ : Contest Value Script.Call),
          c < m.cells.size → m.cell c = τ.cell → ∃ τ', a.Performed scope c m τ τ' (act site m) := by
  refine ⟨h.sound.updates, fun w => ?_, Script.CellAction.performed⟩
  obtain ⟨newer, next', noted, steps⟩ := w.alone σ
  exact ⟨newer, next', noted, h.trans steps⟩

/-- The first attempt is disturbed by a write of 5, so the second one stores 6 and gives 5. -/
theorem Contest.atomic_disturbed :
    ∃ σ : Contest Nat Nat, Law 0 σ ∧ σ.cell.value = 6 ∧
      ∃ k past, σ.log
        = .swapped ⟨0, fun _ old => .ok (old + 1, old), [[.write 5]], none⟩ k 5 6 5 :: past := by
  have start : Reachable 0 .spin (⟨.new 0 .spin, 0, [], 0⟩ : Contest Nat Nat) := .refl
  obtain ⟨newer, next', noted, reached⟩ :=
    start.atomic.2.1 (.update (fun _ old => .ok (old + 1, old)) [[.write 5]] none)
  let update : Update Nat Nat := ⟨0, fun _ old => .ok (old + 1, old), [[.write 5]], none⟩
  obtain ⟨k, old, new, past, rfl, computed⟩ : ∃ k old new past,
      newer = .swapped update k old new 5 :: past ∧
        (.ok (old + 1, old) : Except Fault (Nat × Nat)) = .ok (new, 5) := noted
  cases computed
  exact ⟨_, reached.atomic.1, rfl, k, past ++ [], rfl⟩

end EffectFibers
