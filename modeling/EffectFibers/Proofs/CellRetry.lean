import EffectFibers.Proofs.CellContest

/-!
# Updates carried out at one go

`Cell.retry` is an update in one piece: its attempts, with the works of their calls in between,
and no other fiber has a turn.  It takes the steps of a contest, so all that is so of contests is
so of it.

## Main statements

* `Contest.Work.alone`: a work carried out at one go is steps of a contest.
-/

namespace EffectFibers

namespace Contest

variable {α β γ : Type}

/-- A call carries out its works and computes. -/
def calling (f : Nat → α → Except Fault (α × β)) (works : Nat → Cell α → Except Fault Unit × Cell α)
    (k : Nat) (old : α) (c : Cell α) : Except Fault (α × β) × Cell α :=
  match works k c with
  | (.ok _, c) => (f k old, c)
  | (.error x, c) => (.error x, c)

/-- The attempts that are made at most.  Without a bound, there is one more than there are calls
with works of their own. -/
def attempts (plan : List (List (Work α β))) (bound : Option Nat) : Nat :=
  bound.getD (plan.length + 1)

mutual

/-- A work at one go: the output of an update that was swapped in, and the cell. -/
def Work.run : Work α β → Cell α → Except Fault (Option β) × Cell α
  | .read, c => (.ok none, c)
  | .write v, c => (.ok none, c.store v)
  | .replace s v, c => (.ok none, (c.compareAndSwap s v).2)
  | .update f plan bound, c =>
    Cell.retry Place.whole (calling f fun k c => runNth plan k c) (fun _ c => c)
      (attempts plan bound) 0 c

def runAll : List (Work α β) → Cell α → Except Fault Unit × Cell α
  | [], c => (.ok (), c)
  | w :: rest, c =>
    match w.run c with
    | (.ok _, c) => runAll rest c
    | (.error x, c) => (.error x, c)

def runNth : List (List (Work α β)) → Nat → Cell α → Except Fault Unit × Cell α
  | [], _, c => (.ok (), c)
  | works :: _, 0, c => runAll works c
  | _ :: rest, k + 1, c => runNth rest k c

end

theorem failures_works (works : List (Work α β)) (rest : Agenda α β) :
    failures (works.map .work ++ rest) = failures rest := by
  induction works with
  | nil => rfl
  | cons w works ih => exact ih

theorem runNth_of_length_le {plan : List (List (Work α β))} {k : Nat} (h : plan.length ≤ k)
    (c : Cell α) : runNth plan k c = (.ok (), c) := by
  induction plan generalizing k with
  | nil => rfl
  | cons works plan ih =>
    cases k with
    | zero => cases h
    | succ k => exact ih (Nat.le_of_succ_le_succ h)

/-- The first items of a fiber come to a result, and no other fiber has a turn.  After a panic
the fiber has nothing left to do. -/
def Ends (items rest : Agenda α β) (others : Multiset (Agenda α β)) (log : List (Note α β))
    (next : Nat) (c c' : Cell α) (newer : List (Note α β)) (next' : Nat) :
    Except Fault γ → Prop
  | .ok _ =>
    Steps ⟨c, (items ++ rest) ::ₘ others, log, next⟩ ⟨c', rest ::ₘ others, newer ++ log, next'⟩
  | .error _ =>
    Steps ⟨c, (items ++ rest) ::ₘ others, log, next⟩
      ⟨c', [] ::ₘ others, failures rest ++ (newer ++ log), next'⟩

/-- Steps before. -/
theorem Ends.after {items items' rest : Agenda α β} {others : Multiset (Agenda α β)}
    {log older newer : List (Note α β)} {next next' next'' : Nat} {c c' c'' : Cell α}
    {result : Except Fault γ}
    (ends : Ends items' rest others (older ++ log) next' c' c'' newer next'' result)
    (steps : Steps ⟨c, (items ++ rest) ::ₘ others, log, next⟩
      ⟨c', (items' ++ rest) ::ₘ others, older ++ log, next'⟩) :
    Ends items rest others log next c c'' (newer ++ older) next'' result := by
  cases result with
  | ok value =>
    have all := steps.trans ends
    rwa [← List.append_assoc] at all
  | error x =>
    have all := steps.trans ends
    rwa [← List.append_assoc newer] at all

/-- What was noted of an update that came to a result. -/
def Update.Noted (u : Update α β) (newer : List (Note α β)) : Except Fault (Option β) → Prop
  | .ok (some output) => ∃ k old new past,
    newer = .swapped u k old new output :: past ∧ u.f k old = .ok (new, output)
  | .ok none => u.bound.isSome ∧ ∃ past, newer = .lapsed u :: past
  | .error _ => ∃ k past, newer = .failed u k :: past

theorem Update.Noted.append {u : Update α β} {newer : List (Note α β)}
    {result : Except Fault (Option β)} (noted : u.Noted newer result) (older : List (Note α β)) :
    u.Noted (newer ++ older) result := by
  rcases result with _ | _ | _
  · obtain ⟨k, past, rfl⟩ := noted
    exact ⟨k, past ++ older, rfl⟩
  · obtain ⟨bound, past, rfl⟩ := noted
    exact ⟨bound, past ++ older, rfl⟩
  · obtain ⟨k, old, new, past, rfl, computed⟩ := noted
    exact ⟨k, old, new, past ++ older, rfl, computed⟩

/-- What was noted of a work that came to a result. -/
def Work.Noted (next : Nat) (newer : List (Note α β)) (result : Except Fault (Option β)) :
    Work α β → Prop
  | .read => newer = []
  | .write v => newer = [.wrote v]
  | .replace _ v => newer = [] ∨ newer = [.wrote v]
  | .update f plan bound => Update.Noted ⟨next, f, plan, bound⟩ newer result

/-- Works at one go are steps. -/
def Carried (works : List (Work α β)) (run : Cell α → Except Fault Unit × Cell α) : Prop :=
  ∀ rest others log next c, ∃ newer next',
    Ends (works.map .work) rest others log next c (run c).2 newer next' (run c).1

variable {works : Nat → Cell α → Except Fault Unit × Cell α} {u : Update α β}

/-- What one attempt comes to. -/
theorem attempt_steps {k : Nat} (carried : Carried (u.works k) (works k)) (open_ : u.bound ≠ some k)
    (rest : Agenda α β) (others : Multiset (Agenda α β)) (log : List (Note α β)) (next : Nat)
    (c : Cell α) :
    ∃ newer next',
      match Cell.attempt Place.whole (calling u.f works k) c with
      | (.ok (some output), c') => ∃ new, u.f k c.value = .ok (new, output) ∧
        Steps ⟨c, (.attempt u k :: rest) ::ₘ others, log, next⟩
          ⟨c', rest ::ₘ others, .swapped u k c.value new output :: (newer ++ log), next'⟩
      | (.ok none, c') =>
        Steps ⟨c, (.attempt u k :: rest) ::ₘ others, log, next⟩
          ⟨c', (.attempt u (k + 1) :: rest) ::ₘ others, .spoiled u k :: (newer ++ log), next'⟩
      | (.error _, c') =>
        Steps ⟨c, (.attempt u k :: rest) ::ₘ others, log, next⟩
          ⟨c', [] ::ₘ others, failures rest ++ .failed u k :: (newer ++ log), next'⟩ := by
  obtain ⟨newer, next', ends⟩ :=
    carried (.swap u k c.load :: rest) others (.called u k c.value :: log) next c
  have call := Step.call c u k rest others log next open_
  refine ⟨newer ++ [.called u k c.value], next', ?_⟩
  simp only [List.append_assoc, List.singleton_append]
  simp only [Cell.attempt, Place.whole, id, calling]
  rcases run : works k c with ⟨x | _, c₁⟩ <;> rw [run] at ends
  · have steps : Steps _ _ := (Relation.ReflTransGen.single call).trans ends
    rw [failures, List.append_assoc] at steps
    exact steps
  · have steps : Steps _ _ := (Relation.ReflTransGen.single call).trans ends
    rcases computed : u.f k c.load.value with x | ⟨new, output⟩
    · have failed := steps.tail (.fail c₁ u k c.load x rest others _ next' computed)
      rw [failures, List.append_assoc] at failed
      exact failed
    · simp only
      rcases swap : c₁.compareAndSwap c.load new with ⟨s' | s', c₂⟩
      · exact steps.tail (.spoil c₁ c₂ u k c.load s' new output rest others _ next' computed swap)
      · exact ⟨new, computed, steps.tail
          (.swap c₁ c₂ u k c.load s' new output rest others _ next' computed swap)⟩

/-- An attempt that is undisturbed is the last one. -/
theorem attempt_of_idle {k : Nat} {c : Cell α} (idle : works k c = (.ok (), c)) :
    (Cell.attempt Place.whole (calling u.f works k) c).1 ≠ .ok none := by
  have same : c.current = c.load.generation := rfl
  simp only [Cell.attempt, Place.whole, id, calling, idle]
  rcases u.f k c.load.value with x | ⟨new, output⟩
  · simp
  · simp [Cell.compareAndSwap, same]

theorem retry_ends (carried : ∀ k, Carried (u.works k) (works k))
    (idle : ∀ k c, u.plan.length ≤ k → works k c = (.ok (), c)) {n k : Nat}
    (enough : u.bound = some (k + n) ∨ u.bound = none ∧ k + n = u.plan.length + 1 ∧ 0 < n)
    (rest : Agenda α β) (others : Multiset (Agenda α β)) (log : List (Note α β)) (next : Nat)
    (c : Cell α) :
    ∃ newer next',
      let done := Cell.retry Place.whole (calling u.f works) (fun _ c => c) n k c
      Ends [.attempt u k] rest others log next c done.2 newer next' done.1 ∧
        u.Noted newer done.1 := by
  induction n generalizing k log next c with
  | zero =>
    have bound : u.bound = some k := by simpa using enough
    refine ⟨[.lapsed u], next, .single (.lapse c u k rest others log next bound), ?_⟩
    exact ⟨by simp [bound], [], rfl⟩
  | succ n ih =>
    have more : u.bound ≠ some k := by
      rcases enough with h | ⟨h, -⟩ <;> simp [h]
    obtain ⟨newer, next', steps⟩ := attempt_steps (carried k) more rest others log next c
    rw [Cell.retry_succ]
    rcases once : Cell.attempt Place.whole (calling u.f works k) c with ⟨x | _ | output, c'⟩
    · rw [once] at steps
      exact ⟨.failed u k :: newer, next', steps, k, newer, rfl⟩
    · rw [once] at steps
      have before : Steps ⟨c, ([.attempt u k] ++ rest) ::ₘ others, log, next⟩
          ⟨c', ([.attempt u (k + 1)] ++ rest) ::ₘ others, (.spoiled u k :: newer) ++ log, next'⟩ :=
        steps
      have enough' : u.bound = some (k + 1 + n) ∨
          u.bound = none ∧ k + 1 + n = u.plan.length + 1 ∧ 0 < n := by
        refine enough.imp (fun h => by rw [h]; congr 1; omega) fun ⟨h, sum, _⟩ => ?_
        refine ⟨h, by omega, Nat.pos_of_ne_zero fun zero => ?_⟩
        exact attempt_of_idle (idle k c (by omega)) (congrArg Prod.fst once)
      obtain ⟨newer', next'', ends, noted⟩ :=
        ih enough' (.spoiled u k :: (newer ++ log)) next' c'
      exact ⟨newer' ++ .spoiled u k :: newer, next'', Ends.after ends before, noted.append _⟩
    · rw [once] at steps
      obtain ⟨new, computed, steps⟩ := steps
      exact ⟨.swapped u k c.value new output :: newer, next', steps, k, c.value, new, newer, rfl,
        computed⟩

mutual

/-- A work at one go is steps. -/
theorem Work.run_ends (w : Work α β) (rest : Agenda α β) (others : Multiset (Agenda α β))
    (log : List (Note α β)) (next : Nat) (c : Cell α) :
    ∃ newer next', Ends [.work w] rest others log next c (w.run c).2 newer next' (w.run c).1 ∧
      w.Noted next newer (w.run c).1 := by
  match w with
  | .read => exact ⟨[], next, .single (.read c rest others log next), rfl⟩
  | .write v => exact ⟨[.wrote v], next, .single (.write c v rest others log next), rfl⟩
  | .replace s v =>
    rcases swap : c.compareAndSwap s v with ⟨s' | s', c'⟩
    · refine ⟨[], next, ?_, .inl rfl⟩
      rw [Work.run, swap]
      exact .single (.kept c c' s s' v rest others log next swap)
    · refine ⟨[.wrote v], next, ?_, .inr rfl⟩
      rw [Work.run, swap]
      exact .single (.replaced c c' s s' v rest others log next swap)
  | .update f plan bound =>
    have begun := Step.update c f plan bound rest others log next
    have enough : bound = some (0 + attempts plan bound) ∨
        bound = none ∧ 0 + attempts plan bound = plan.length + 1 ∧ 0 < attempts plan bound := by
      cases bound <;> simp [attempts]
    let u : Update α β := ⟨next, f, plan, bound⟩
    have carried (k : Nat) : Carried (u.works k) (runNth plan k) := runNth_carried plan k
    have idle (k : Nat) (c : Cell α) (h : u.plan.length ≤ k) := runNth_of_length_le h c
    obtain ⟨newer, next', ends, noted⟩ :=
      retry_ends carried idle enough rest others log (next + 1) c
    have before : Steps ⟨c, ([.work (.update f plan bound)] ++ rest) ::ₘ others, log, next⟩
        ⟨c, ([.attempt u 0] ++ rest) ::ₘ others, [] ++ log, next + 1⟩ := .single begun
    have all := Ends.after ends before
    rw [List.append_nil] at all
    exact ⟨newer, next', all, noted⟩

theorem runAll_carried (works : List (Work α β)) : Carried works (runAll works) := by
  intro rest others log next c
  match works with
  | [] => exact ⟨[], next, .refl⟩
  | w :: works =>
    obtain ⟨newer, next', ends, -⟩ := w.run_ends (works.map .work ++ rest) others log next c
    rcases run : w.run c with ⟨x | output, c'⟩ <;> rw [run] at ends <;> simp only [runAll, run]
    · refine ⟨newer, next', ?_⟩
      have steps : Steps _ _ := ends
      rw [failures_works] at steps
      exact steps
    · obtain ⟨newer', next'', ends'⟩ := runAll_carried works rest others (newer ++ log) next' c'
      exact ⟨newer' ++ newer, next'', Ends.after ends' ends⟩

theorem runNth_carried (plan : List (List (Work α β))) (k : Nat) :
    Carried (plan.getD k []) (runNth plan k) := by
  match plan, k with
  | [], _ => exact fun rest others log next c => ⟨[], next, .refl⟩
  | works :: _, 0 => exact runAll_carried works
  | _ :: plan, k + 1 => exact runNth_carried plan k

end

/-- A work at one go is a fiber that has no other one beside it while it lasts. -/
theorem Work.alone (w : Work α β) (σ : Contest α β) :
    ∃ newer next', w.Noted σ.next newer (w.run σ.cell).1 ∧
      Steps σ ⟨(w.run σ.cell).2, [] ::ₘ σ.fibers, newer ++ σ.log, next'⟩ := by
  obtain ⟨newer, next', ends, noted⟩ := w.run_ends [] σ.fibers σ.log σ.next σ.cell
  refine ⟨newer, next', noted, .head (.begin σ [w]) ?_⟩
  cases result : (w.run σ.cell).1 <;> rw [result] at ends <;> exact ends

end Contest

end EffectFibers
